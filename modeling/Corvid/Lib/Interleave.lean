import Mathlib.Data.List.Dedup
import Mathlib.Data.List.Perm.Basic
import Mathlib.Order.Defs.LinearOrder
import Mathlib.Order.Lattice
import Mathlib.Tactic.Common

/-!
# Draining queues

Items are taken from a family of queues, always from the front, and each is known with the queue it
comes from. What is taken is an interleaving of the fronts of the queues. Queues that are drained to
their end are permuted, no item is lost and none is taken twice.

## Main definitions

* `pullsOf i pulls`: what was taken from one queue
* `Drains q pulls q'`: the queues before and after
* `Interleaves q s out`: an interleaving of some of the queues, each to its end
* `IsStableSort key l out`: sorted by a key, in the order of `l` where the keys are equal

## Main results

* `Drains.trans`: one after the other
* `Interleaves.perm`: an interleaving is a permutation
* `isStableSort_mergeSort`: merge sort is stable
* `reverse_dedup_reverse`: the first occurrences
-/

namespace Interleave

variable {ι α β : Type*}

section Drains

variable [DecidableEq ι]

def pullsOf (i : ι) (pulls : List (ι × α)) : List α :=
  (pulls.filter (·.1 = i)).map Prod.snd

@[simp] theorem pullsOf_nil (i : ι) : pullsOf i ([] : List (ι × α)) = [] := rfl

theorem pullsOf_cons (i j : ι) (a : α) (pulls : List (ι × α)) :
    pullsOf i ((j, a) :: pulls) = if j = i then a :: pullsOf i pulls else pullsOf i pulls := by
  unfold pullsOf
  rw [List.filter_cons]
  by_cases h : j = i <;> simp [h]

theorem pullsOf_append (i : ι) (pulls pulls' : List (ι × α)) :
    pullsOf i (pulls ++ pulls') = pullsOf i pulls ++ pullsOf i pulls' := by
  simp [pullsOf]

theorem pullsOf_filter_ne {i j : ι} (h : j ≠ i) (pulls : List (ι × α)) :
    pullsOf j (pulls.filter (·.1 ≠ i)) = pullsOf j pulls := by
  unfold pullsOf
  rw [List.filter_filter]
  congr 1
  refine List.filter_congr fun p _ => ?_
  by_cases hp : p.1 = j <;> simp [hp, h]

/-- Every item is taken from the front of its queue. -/
def Drains (q : ι → List α) (pulls : List (ι × α)) (q' : ι → List α) : Prop :=
  ∀ i, q i = pullsOf i pulls ++ q' i

variable {q q' q'' : ι → List α} {pulls pulls' : List (ι × α)}

theorem Drains.refl (q : ι → List α) : Drains q [] q := fun _ => rfl

theorem Drains.trans (h : Drains q pulls q') (h' : Drains q' pulls' q'') :
    Drains q (pulls ++ pulls') q'' := fun i => by
  rw [h i, h' i, pullsOf_append, List.append_assoc]

/-- One item of one queue. -/
theorem Drains.single {i : ι} {a : α} {rest : List α} (hi : q i = a :: rest)
    (hrest : q' i = rest) (hother : ∀ j, j ≠ i → q' j = q j) : Drains q [(i, a)] q' := fun j => by
  rw [pullsOf_cons, pullsOf_nil]
  by_cases h : i = j
  · subst h
    rw [if_pos rfl, hi, hrest, List.singleton_append]
  · rw [if_neg h, hother j (Ne.symm h), List.nil_append]

theorem Drains.eq_nil (h : Drains q pulls q') {i : ι} (hi : q i = []) : q' i = [] :=
  (List.append_eq_nil_iff.mp ((h i).symm.trans hi)).2

/-- The queues of `s` one to the end of each, in any order of the items of different queues. -/
def Interleaves (q : ι → List α) (s : List ι) (out : List α) : Prop :=
  ∃ pulls : List (ι × α), out = pulls.map Prod.snd ∧ (∀ p ∈ pulls, p.1 ∈ s) ∧
    ∀ i ∈ s, pullsOf i pulls = q i

theorem Drains.interleaves {s : List ι} (h : Drains q pulls q') (hmem : ∀ p ∈ pulls, p.1 ∈ s)
    (hend : ∀ i ∈ s, q' i = []) : Interleaves q s (pulls.map Prod.snd) :=
  ⟨pulls, rfl, hmem, fun i hi => by rw [h i, hend i hi, List.append_nil]⟩

theorem perm_flatMap_pullsOf {s : List ι} (hs : s.Nodup) {pulls : List (ι × α)}
    (hmem : ∀ p ∈ pulls, p.1 ∈ s) :
    (pulls.map Prod.snd).Perm (s.flatMap fun i => pullsOf i pulls) := by
  induction s generalizing pulls with
  | nil =>
    have : pulls = [] := List.eq_nil_iff_forall_not_mem.mpr fun p hp => by simpa using hmem p hp
    simp [this]
  | cons i s ih =>
    obtain ⟨hi, hs⟩ := List.nodup_cons.mp hs
    -- What comes from other queues is spread over the rest of the list.
    have hrest : ∀ p ∈ pulls.filter (·.1 ≠ i), p.1 ∈ s := fun p hp => by
      obtain ⟨hp, hne⟩ := List.mem_filter.mp hp
      exact (List.mem_cons.mp (hmem p hp)).resolve_left (by simpa using hne)
    have hcongr : (s.flatMap fun j => pullsOf j (pulls.filter (·.1 ≠ i))) =
        s.flatMap fun j => pullsOf j pulls :=
      List.flatMap_congr fun j hj => pullsOf_filter_ne (fun h : j = i => hi (h ▸ hj)) pulls
    have hsplit : pulls.Perm (pulls.filter (·.1 = i) ++ pulls.filter (·.1 ≠ i)) := by
      simpa using (List.filter_append_perm (fun p : ι × α => decide (p.1 = i)) pulls).symm
    rw [List.flatMap_cons, ← hcongr]
    refine (hsplit.map Prod.snd).trans ?_
    rw [List.map_append]
    exact (ih hs hrest).append_left (pullsOf i pulls)

/-- Nothing is lost, and nothing is taken twice. -/
theorem Interleaves.perm {s : List ι} {out : List α} (h : Interleaves q s out) (hs : s.Nodup) :
    out.Perm (s.flatMap q) := by
  obtain ⟨pulls, rfl, hmem, hpulls⟩ := h
  rw [← List.flatMap_congr hpulls]
  exact perm_flatMap_pullsOf hs hmem

end Drains

/-! ### Sorting -/

section Sorting

variable [LinearOrder β] (key : α → β)

structure IsStableSort (l out : List α) : Prop where
  perm : out.Perm l
  sorted : out.Pairwise fun a b => key a ≤ key b
  stable : ∀ k, out.filter (key · = k) = l.filter (key · = k)

theorem isStableSort_mergeSort (l : List α) :
    IsStableSort key l (l.mergeSort fun a b => key a ≤ key b) := by
  have htrans : ∀ a b c : α, decide (key a ≤ key b) = true → decide (key b ≤ key c) = true →
      decide (key a ≤ key c) = true := by
    simpa using fun a b c => le_trans
  have htotal : ∀ a b : α, (decide (key a ≤ key b) || decide (key b ≤ key a)) = true := by
    simpa using fun a b => le_total (key a) (key b)
  refine ⟨List.mergeSort_perm _ _, ?_, fun k => ?_⟩
  · simpa using List.pairwise_mergeSort htrans htotal l
  · -- The items under one key are in order already, so they are kept as they stand.
    have hordered : (l.filter (key · = k)).Pairwise fun a b => decide (key a ≤ key b) = true :=
      List.pairwise_of_forall_mem_list fun a ha b hb => by
        simp only [List.mem_filter, decide_eq_true_eq] at ha hb
        simp [ha.2, hb.2]
    have hsub := (List.sublist_mergeSort htrans htotal hordered List.filter_sublist).filter
      (key · = k)
    simp only [List.filter_filter, Bool.and_self] at hsub
    refine (hsub.eq_of_length ?_).symm
    exact ((List.mergeSort_perm _ _).filter _).length_eq.symm

end Sorting

/-! ### First occurrences -/

section First

variable [DecidableEq α]

theorem dedup_append_singleton (l : List α) (a : α) :
    (l ++ [a]).dedup = (l.filter (· ≠ a)).dedup ++ [a] := by
  induction l with
  | nil => simp
  | cons b l ih =>
    rw [List.cons_append]
    by_cases hba : b = a
    · subst hba
      rw [List.dedup_cons_of_mem (by simp), ih]
      simp
    · have hmem : b ∈ l ++ [a] ↔ b ∈ l.filter (· ≠ a) := by simp [hba]
      rw [List.filter_cons_of_pos (by simpa using hba)]
      by_cases hb : b ∈ l ++ [a]
      · rw [List.dedup_cons_of_mem hb, List.dedup_cons_of_mem (hmem.mp hb), ih]
      · rw [List.dedup_cons_of_notMem hb, List.dedup_cons_of_notMem (fun h => hb (hmem.mpr h)), ih,
          List.cons_append]

theorem reverse_dedup_reverse (l : List α) : l.reverse.dedup.reverse = l.eraseDups := by
  induction hn : l.length using Nat.strongRecOn generalizing l with
  | _ n ih =>
    cases l with
    | nil => rfl
    | cons a l =>
      subst hn
      have hlt : (l.filter (· ≠ a)).length < (a :: l).length :=
        Nat.lt_succ_of_le (List.length_filter_le _ _)
      rw [List.reverse_cons, dedup_append_singleton, List.reverse_append, List.reverse_singleton,
        List.singleton_append, List.eraseDups_cons, List.filter_reverse, ih _ hlt _ rfl]
      congr 2
      exact List.filter_congr fun b _ => by simp [beq_eq_decide]

theorem mem_eraseDups_iff {a : α} {l : List α} : a ∈ l.eraseDups ↔ a ∈ l := by
  rw [← reverse_dedup_reverse]
  simp

theorem nodup_eraseDups (l : List α) : l.eraseDups.Nodup := by
  rw [← reverse_dedup_reverse]
  exact List.nodup_reverse.mpr (List.nodup_dedup _)

/-- The queues one after the other, each where it is listed first: once one of them has been drained
it no longer counts. -/
theorem flatMap_eraseDups_filter {q q' : α → List β} {i : α} (hi : q' i = [])
    (hother : ∀ j, j ≠ i → q' j = q j) (ids : List α) :
    (ids.filter fun j => !j == i).eraseDups.flatMap q = ids.eraseDups.flatMap q' := by
  induction hn : ids.length using Nat.strongRecOn generalizing ids with
  | _ n ih =>
    cases ids with
    | nil => rfl
    | cons j ids =>
      subst hn
      by_cases hj : j = i
      · subst hj
        rw [List.filter_cons_of_neg (by simp), List.eraseDups_cons, List.flatMap_cons, hi,
          List.nil_append]
        refine List.flatMap_congr fun k hk => (hother k ?_).symm
        have := (List.mem_filter.mp (mem_eraseDups_iff.mp hk)).2
        simpa using this
      · have hlt : (ids.filter fun k => !k == j).length < (j :: ids).length :=
          Nat.lt_succ_of_le (List.length_filter_le _ _)
        rw [List.filter_cons_of_pos (by simpa using hj), List.eraseDups_cons, List.flatMap_cons,
          List.eraseDups_cons, List.flatMap_cons, hother j hj, ← ih _ hlt _ rfl, List.filter_filter,
          List.filter_filter]
        congr 3
        exact List.filter_congr fun k _ => Bool.and_comm _ _

end First

end Interleave
