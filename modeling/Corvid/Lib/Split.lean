import Mathlib.Data.List.Infix
import Mathlib.Data.String.Basic
import Mathlib.Tactic.Common

/-!
# Splitting at a separator

A text is split at the first or at the last occurrence of a separator.

## Main definitions

* `splitOnce`, `rsplitOnce`: the parts before and after the separator

## Main results

* `splitOnceList_of_suffix`, `splitOnceList_of_not_suffix`: splitting at a separator that ends in a
  character, which the text before does not contain
* `splitOnceList_pair_iff`: splitting at two characters
* `rsplitOnceList_of_notMem`: splitting at the last occurrence of a character
-/

namespace Text

section Lists

variable {α : Type*} [DecidableEq α]

/-- The parts before and after the first occurrence of `sep`. -/
def splitOnceList (sep : List α) : List α → Option (List α × List α)
  | [] => if sep = [] then some ([], []) else none
  | a :: l =>
    if sep <+: a :: l then some ([], (a :: l).drop sep.length)
    else (splitOnceList sep l).map fun parts => (a :: parts.1, parts.2)

/-- The parts before and after the last occurrence of `sep`. -/
def rsplitOnceList (sep l : List α) : Option (List α × List α) :=
  (splitOnceList sep.reverse l.reverse).map fun parts => (parts.2.reverse, parts.1.reverse)

theorem splitOnceList_eq_none {sep l : List α} (hsep : sep ≠ []) :
    splitOnceList sep l = none ↔ ¬ sep <:+: l := by
  induction l with
  | nil => simp [splitOnceList, hsep]
  | cons a l ih =>
    rw [splitOnceList, List.infix_cons_iff]
    split
    next h => simp [h]
    next h => simp [h, ih]

theorem eq_append_of_splitOnceList {sep l : List α} {parts : List α × List α}
    (h : splitOnceList sep l = some parts) : l = parts.1 ++ sep ++ parts.2 := by
  induction l generalizing parts with
  | nil =>
    rw [splitOnceList] at h
    split at h
    next hsep =>
      obtain rfl := Option.some.inj h
      simp [hsep]
    next => cases h
  | cons a l ih =>
    rw [splitOnceList] at h
    split at h
    next hstarts =>
      obtain rfl := Option.some.inj h
      exact (List.prefix_iff_eq_append.mp hstarts).symm
    next =>
      obtain ⟨parts', hparts, rfl⟩ := Option.map_eq_some_iff.mp h
      simp [← ih hparts]

/-- What comes before an occurrence of `c` is at least as long as what comes before the first. -/
theorem length_le_of_append_cons_eq {c : α} {l l' r r' : List α} (hl : c ∉ l)
    (h : l ++ c :: r = l' ++ c :: r') : l.length ≤ l'.length := by
  by_contra hlt
  have hget := congrArg (·[l'.length]?) h
  rw [not_le] at hlt
  rw [List.getElem?_append_left hlt, List.getElem?_append_right le_rfl, Nat.sub_self,
    List.getElem?_cons_zero] at hget
  exact hl (List.mem_of_getElem? hget)

/-- A separator that ends in `c`, right before the first `c`. -/
theorem splitOnceList_of_suffix {c : α} {w p : List α} (rest : List α) (h : c ∉ p ++ w) :
    splitOnceList (w ++ [c]) (p ++ w ++ c :: rest) = some (p, rest) := by
  induction p with
  | nil =>
    cases w with
    | nil => simp [splitOnceList]
    | cons b w => simp [splitOnceList]
  | cons a p ih =>
    have hnot : ¬ w ++ [c] <+: a :: (p ++ w ++ c :: rest) := by
      rintro ⟨rest', hrest'⟩
      have heq : a :: p ++ w ++ c :: rest = w ++ c :: rest' := by simpa using hrest'.symm
      have hle := length_le_of_append_cons_eq h heq
      simp only [List.length_append, List.length_cons] at hle
      omega
    rw [List.cons_append, List.cons_append, splitOnceList, if_neg hnot,
      ih (fun hmem => h (List.mem_cons_of_mem _ hmem))]
    rfl

/-- A separator that ends in `c`, and not right before the first `c`. -/
theorem splitOnceList_of_not_suffix {c : α} {w l : List α} (rest : List α) (hl : c ∉ l) (hw : c ∉ w)
    (h : ¬ w <:+ l) :
    splitOnceList (w ++ [c]) (l ++ c :: rest) =
      (splitOnceList (w ++ [c]) rest).map fun parts => (l ++ c :: parts.1, parts.2) := by
  -- a separator from the start on would end at the first `c`
  have hnot : ¬ w ++ [c] <+: l ++ c :: rest := by
    rintro ⟨rest', hrest'⟩
    have heq : l ++ c :: rest = w ++ c :: rest' := by simpa using hrest'.symm
    have hle := length_le_of_append_cons_eq hl heq
    have hge := length_le_of_append_cons_eq hw heq.symm
    have hlw : l = w := List.append_inj_left heq (by omega)
    exact h (hlw ▸ List.suffix_rfl)
  induction l with
  | nil =>
    rw [List.nil_append] at hnot ⊢
    rw [splitOnceList, if_neg hnot]
    rfl
  | cons a l ih =>
    have hsuffix : ¬ w <:+ l := fun hs => h (hs.trans (List.suffix_cons a l))
    have hl' : c ∉ l := fun hmem => hl (List.mem_cons_of_mem _ hmem)
    have hnot' : ¬ w ++ [c] <+: l ++ c :: rest := by
      rintro ⟨rest', hrest'⟩
      have heq : l ++ c :: rest = w ++ c :: rest' := by simpa using hrest'.symm
      have hle := length_le_of_append_cons_eq hl' heq
      have hge := length_le_of_append_cons_eq hw heq.symm
      have hlw : l = w := List.append_inj_left heq (by omega)
      exact hsuffix (hlw ▸ List.suffix_rfl)
    rw [List.cons_append] at hnot ⊢
    rw [splitOnceList, if_neg hnot, ih hl' hsuffix hnot', Option.map_map]
    rfl

/-- The two characters of the separator, unless they are in the text before. -/
theorem splitOnceList_pair_iff {x y : α} (hxy : x ≠ y) (l r : List α) :
    splitOnceList [x, y] (l ++ x :: y :: r) = some (l, r) ↔ ¬ [x, y] <:+: l := by
  induction l with
  | nil => simp [splitOnceList]
  | cons a l ih =>
    rw [List.cons_append, splitOnceList, List.infix_cons_iff]
    split
    next h =>
      -- the separator is at the start, and it does not reach behind the text
      obtain ⟨rest, hrest⟩ := h
      have hstarts : [x, y] <+: a :: l := by
        cases l with
        | nil =>
          simp only [List.cons_append, List.nil_append, List.cons.injEq] at hrest
          exact absurd hrest.2.1.symm hxy
        | cons b l =>
          simp only [List.cons_append, List.nil_append, List.cons.injEq] at hrest
          exact ⟨l, by simp [hrest.1, hrest.2.1]⟩
      simp [hstarts]
    next h =>
      have hstarts : ¬ [x, y] <+: a :: l := fun hp => h (hp.trans ⟨x :: y :: r, by simp⟩)
      rw [not_or]
      simp [hstarts, ← ih]

theorem rsplitOnceList_of_notMem {c : α} {r : List α} (l : List α) (h : c ∉ r) :
    rsplitOnceList [c] (l ++ c :: r) = some (l, r) := by
  have hsplit := splitOnceList_of_suffix (c := c) (w := []) (p := r.reverse) l.reverse (by simpa using h)
  simp only [List.append_nil, List.nil_append] at hsplit
  simp [rsplitOnceList, hsplit]

theorem rsplitOnceList_eq_some {c : α} {s l r : List α} (h : rsplitOnceList [c] s = some (l, r)) :
    s = l ++ c :: r ∧ c ∉ r := by
  by_cases hmem : c ∈ s
  · obtain ⟨r', l', hs, hr'⟩ := List.eq_append_cons_of_mem (List.mem_reverse.mpr hmem)
    have hs' : s = l'.reverse ++ c :: r'.reverse := by
      rw [← List.reverse_reverse s, hs]
      simp
    rw [hs', rsplitOnceList_of_notMem _ (by simpa using hr')] at h
    obtain ⟨rfl, rfl⟩ := Prod.mk.inj (Option.some.inj h)
    exact ⟨hs', by simpa using hr'⟩
  · have hnone : splitOnceList [c] s.reverse = none := by
      rw [splitOnceList_eq_none (by simp)]
      rintro ⟨p, q, hpq⟩
      exact hmem (List.mem_reverse.mp (hpq ▸ by simp))
    rw [rsplitOnceList, List.reverse_singleton, hnone] at h
    cases h

end Lists

def splitOnce (sep s : String) : Option (String × String) :=
  (splitOnceList sep.toList s.toList).map fun parts => (String.ofList parts.1, String.ofList parts.2)

def rsplitOnce (sep s : String) : Option (String × String) :=
  (rsplitOnceList sep.toList s.toList).map fun parts => (String.ofList parts.1, String.ofList parts.2)

end Text
