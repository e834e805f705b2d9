import Mathlib.Order.Basic
import Mathlib.Order.Defs.LinearOrder
import Mathlib.Order.Lattice
import Mathlib.Tactic.Common

/-!
# Maps with their entries in key order

A map is the list of its entries with the keys increasing. Such a list is determined by its lookups:
two maps that agree on every key are the same list, whatever the order in which the entries were
inserted.

## Main definitions

* `insert`, `ofEntries`: an entry is put in its place, in that of an older one under the same key
* `Sorted`: the keys increase
* `collect`: the map of entries that are read one by one

## Main results

* `lookup_insert`, `Sorted.insert`: lookups of a map with one more entry, whose keys increase again
* `Sorted.eq_of_lookup`: maps with the same lookups are the same
* `ofEntries_eq_self`: inserting the entries of a map one by one gives the map
* `collect_eq_ok`, `read_of_collect`: when a map is what is collected
-/

namespace SortedMap

variable {κ V W : Type*} [LinearOrder κ]

def insert (k : κ) (v : V) : List (κ × V) → List (κ × V)
  | [] => [(k, v)]
  | (k', v') :: m =>
    if k < k' then (k, v) :: (k', v') :: m
    else if k = k' then (k, v) :: m
    else (k', v') :: insert k v m

/-- The later of two entries with one key stays. -/
def ofEntries (es : List (κ × V)) : List (κ × V) :=
  es.foldl (fun m e => insert e.1 e.2 m) []

def Sorted (m : List (κ × V)) : Prop :=
  m.Pairwise fun e e' => e.1 < e'.1

theorem Sorted.map {m : List (κ × V)} (h : Sorted m) (f : V → W) :
    Sorted (m.map fun e => (e.1, f e.2)) :=
  List.pairwise_map.mpr h

theorem mem_insert {k : κ} {v : V} {m : List (κ × V)} {e : κ × V} (h : e ∈ insert k v m) :
    e = (k, v) ∨ e ∈ m := by
  induction m with
  | nil => simpa [insert] using h
  | cons e' m ih =>
    obtain ⟨k', v'⟩ := e'
    simp only [insert] at h
    split_ifs at h
    · simpa using h
    · rcases List.mem_cons.mp h with h | h
      · exact .inl h
      · exact .inr (.tail _ h)
    · rcases List.mem_cons.mp h with h | h
      · exact .inr (h ▸ .head _)
      · exact (ih h).imp_right (.tail _)

/-- An insertion keeps the keys in order. -/
theorem Sorted.insert {m : List (κ × V)} (h : Sorted m) (k : κ) (v : V) :
    Sorted (SortedMap.insert k v m) := by
  induction m with
  | nil => exact List.pairwise_singleton _ _
  | cons e m ih =>
    obtain ⟨k', v'⟩ := e
    obtain ⟨hhead, htail⟩ := List.pairwise_cons.mp h
    simp only [SortedMap.insert]
    split_ifs with hlt heq
    · refine List.pairwise_cons.mpr ⟨fun e he => ?_, h⟩
      rcases List.mem_cons.mp he with rfl | he
      · exact hlt
      · exact hlt.trans (hhead e he)
    · subst heq
      exact List.pairwise_cons.mpr ⟨hhead, htail⟩
    · refine List.pairwise_cons.mpr ⟨fun e he => ?_, ih htail⟩
      rcases mem_insert he with rfl | he
      · exact lt_of_le_of_ne (not_lt.mp hlt) (Ne.symm heq)
      · exact hhead e he

theorem sorted_ofEntries (es : List (κ × V)) : Sorted (ofEntries es) := by
  suffices h : ∀ m : List (κ × V), Sorted m →
      Sorted (es.foldl (fun m e => SortedMap.insert e.1 e.2 m) m) from h [] List.Pairwise.nil
  induction es with
  | nil => exact fun _ hm => hm
  | cons e es ih => exact fun m hm => ih _ (hm.insert e.1 e.2)

/-- An entry whose key is above all others goes last. -/
theorem insert_eq_append {k : κ} {v : V} {m : List (κ × V)} (h : ∀ e ∈ m, e.1 < k) :
    SortedMap.insert k v m = m ++ [(k, v)] := by
  induction m with
  | nil => rfl
  | cons e m ih =>
    have he := h e (.head _)
    simp only [SortedMap.insert, if_neg he.not_gt, if_neg he.ne', List.cons_append]
    rw [ih fun e' he' => h e' (.tail _ he')]

theorem ofEntries_eq_self {m : List (κ × V)} (h : Sorted m) : ofEntries m = m := by
  suffices hfold : ∀ done : List (κ × V), Sorted (done ++ m) →
      m.foldl (fun m e => SortedMap.insert e.1 e.2 m) done = done ++ m from hfold [] h
  induction m with
  | nil => simp
  | cons e m ih =>
    intro done hdone
    have hlt : ∀ e' ∈ done, e'.1 < e.1 := fun e' he' =>
      (List.pairwise_append.mp hdone).2.2 e' he' e (.head _)
    rw [List.foldl_cons, insert_eq_append hlt,
      ih (List.pairwise_cons.mp h).2 _ (by simpa using hdone)]
    simp

section Lookup

variable [BEq κ] [LawfulBEq κ]

theorem lookup_cons_eq (k k' : κ) (v : V) (m : List (κ × V)) :
    ((k', v) :: m).lookup k = if k = k' then some v else m.lookup k := by
  rw [List.lookup_cons]
  by_cases h : k = k'
  · simp [h]
  · simp [beq_eq_false_iff_ne.mpr h, h]

@[simp] theorem lookup_insert (k k' : κ) (v : V) (m : List (κ × V)) :
    (SortedMap.insert k v m).lookup k' = if k' = k then some v else m.lookup k' := by
  induction m with
  | nil => rw [SortedMap.insert, lookup_cons_eq, List.lookup_nil]
  | cons e m ih =>
    obtain ⟨k₁, v₁⟩ := e
    simp only [SortedMap.insert]
    split_ifs with hlt heq hk hk hk <;> simp_all [lookup_cons_eq]

theorem lookup_map (f : V → W) (k : κ) (m : List (κ × V)) :
    (m.map fun e => (e.1, f e.2)).lookup k = (m.lookup k).map f := by
  induction m with
  | nil => rfl
  | cons e m ih =>
    rw [List.map_cons, lookup_cons_eq, ih, lookup_cons_eq]
    split <;> rfl

theorem mem_of_lookup {k : κ} {v : V} {m : List (κ × V)} (h : m.lookup k = some v) :
    (k, v) ∈ m := by
  induction m with
  | nil => cases h
  | cons e m ih =>
    obtain ⟨k', v'⟩ := e
    rw [lookup_cons_eq] at h
    split at h
    · cases h
      subst k
      exact .head _
    · exact .tail _ (ih h)

theorem lookup_eq_some_iff {m : List (κ × V)} (h : Sorted m) {k : κ} {v : V} :
    m.lookup k = some v ↔ (k, v) ∈ m := by
  refine ⟨mem_of_lookup, fun hmem => ?_⟩
  induction m with
  | nil => cases hmem
  | cons e m ih =>
    obtain ⟨hhead, htail⟩ := List.pairwise_cons.mp h
    rw [lookup_cons_eq]
    rcases List.mem_cons.mp hmem with rfl | hmem
    · exact if_pos rfl
    · rw [if_neg (hhead _ hmem).ne']
      exact ih htail hmem

/-- Maps that agree on every key are the same. -/
theorem Sorted.eq_of_lookup {m m' : List (κ × V)} (h : Sorted m) (h' : Sorted m')
    (hlookup : ∀ k, m.lookup k = m'.lookup k) : m = m' := by
  have hmem : ∀ e, e ∈ m ↔ e ∈ m' := fun e => by
    rw [← lookup_eq_some_iff h, hlookup, lookup_eq_some_iff h']
  have hnodup : ∀ {l : List (κ × V)}, Sorted l → l.Nodup := fun hl =>
    hl.imp fun hlt heq => hlt.ne (congrArg Prod.fst heq)
  refine ((List.perm_ext_iff_of_nodup (hnodup h) (hnodup h')).mpr hmem).eq_of_pairwise ?_ h h'
  exact fun e e' _ _ hlt hlt' => absurd hlt hlt'.not_gt

end Lookup

/-! ### Entries that are read one by one -/

section Collect

universe u

variable {κ V : Type u} {ε β : Type*} [LinearOrder κ] (name : β → κ) (read : β → Except ε V)

/-- The entries of a list, each read on its own. -/
def collect (l : List β) (m : List (κ × V)) : Except ε (List (κ × V)) :=
  l.foldlM (fun m b => do
    let v ← read b
    return SortedMap.insert (name b) v m) m

variable {name read}

theorem collect_cons_eq_ok {b : β} {l : List β} {m r : List (κ × V)} :
    collect name read (b :: l) m = .ok r ↔
      ∃ v, read b = .ok v ∧ collect name read l (SortedMap.insert (name b) v m) = .ok r := by
  unfold collect
  rw [List.foldlM_cons]
  cases read b with
  | error e => simp [bind, Except.bind]
  | ok v => simp [bind, Except.bind, pure, Except.pure]

theorem Sorted.of_collect {l : List β} {m r : List (κ × V)} (hm : Sorted m)
    (h : collect name read l m = .ok r) : Sorted r := by
  induction l generalizing m with
  | nil =>
    cases h
    exact hm
  | cons b l ih =>
    obtain ⟨v, -, h⟩ := collect_cons_eq_ok.mp h
    exact ih (hm.insert (name b) v) h

theorem exists_collect {l : List β} (h : ∀ b ∈ l, ∃ v, read b = .ok v) (m : List (κ × V)) :
    ∃ r, collect name read l m = .ok r := by
  induction l generalizing m with
  | nil => exact ⟨m, rfl⟩
  | cons b l ih =>
    obtain ⟨v, hv⟩ := h b (.head _)
    obtain ⟨r, hr⟩ := ih (fun b' hb' => h b' (.tail _ hb')) (SortedMap.insert (name b) v m)
    exact ⟨r, collect_cons_eq_ok.mpr ⟨v, hv, hr⟩⟩

variable [BEq κ] [LawfulBEq κ]

/-- What stands under a key was read under it, or was there before. -/
theorem lookup_collect {l : List β} {m r : List (κ × V)} (h : collect name read l m = .ok r)
    (k : κ) :
    (∃ b ∈ l, name b = k ∧ ∃ v, read b = .ok v ∧ r.lookup k = some v) ∨
      (∀ b ∈ l, name b ≠ k) ∧ r.lookup k = m.lookup k := by
  induction l generalizing m with
  | nil =>
    cases h
    exact .inr ⟨by simp, rfl⟩
  | cons b l ih =>
    obtain ⟨v, hv, h⟩ := collect_cons_eq_ok.mp h
    rcases ih h with ⟨b', hb', hread⟩ | ⟨hother, hr⟩
    · exact .inl ⟨b', .tail _ hb', hread⟩
    · rw [lookup_insert] at hr
      by_cases hk : k = name b
      · exact .inl ⟨b, .head _, hk.symm, v, hv, by rw [hr, if_pos hk]⟩
      · refine .inr ⟨fun b' hb' => ?_, by rw [hr, if_neg hk]⟩
        rcases List.mem_cons.mp hb' with rfl | hb'
        · exact Ne.symm hk
        · exact hother b' hb'

/-- **A map is collected** where each of its entries is read for its key, and the keys are those
that are read. -/
theorem collect_eq_ok {l : List β} {m : List (κ × V)} (hm : Sorted m)
    (hread : ∀ b ∈ l, ∃ v, read b = .ok v ∧ m.lookup (name b) = some v)
    (hkeys : ∀ k, (∀ b ∈ l, name b ≠ k) → m.lookup k = none) :
    collect name read l [] = .ok m := by
  obtain ⟨r, hr⟩ : ∃ r, collect name read l [] = .ok r :=
    exists_collect (fun b hb => (hread b hb).imp fun _ h => h.1) []
  suffices r = m from this ▸ hr
  refine (Sorted.of_collect List.Pairwise.nil hr).eq_of_lookup hm fun k => ?_
  rcases lookup_collect hr k with ⟨b, hb, rfl, v, hv, hrv⟩ | ⟨hother, hrk⟩
  · obtain ⟨w, hw, hmw⟩ := hread b hb
    cases hv.symm.trans hw
    rw [hrv, hmw]
  · rw [hrk, hkeys k hother, List.lookup_nil]

/-- What is collected under a key was read for it. -/
theorem read_of_collect {l : List β} {m : List (κ × V)} (h : collect name read l [] = .ok m)
    {b : β} (hb : b ∈ l) :
    ∃ b' ∈ l, name b' = name b ∧ ∃ v, read b' = .ok v ∧ m.lookup (name b) = some v := by
  rcases lookup_collect h (name b) with hread | ⟨hother, -⟩
  · exact hread
  · exact absurd rfl (hother b hb)

end Collect

end SortedMap
