import Corvid.Effects.Compose
import Corvid.Lib.Fold
import Mathlib.Data.Prod.Lex
import Mathlib.Data.String.Basic

/-!
# The laws of the name lattices

Which of the name composers are maxima of a linear order, and which are only tournaments. The
trust and capability maxima break ties by the name itself and are maxima by an injective key.
The latency maximum has no tie break, so its key tells names apart only below the unknown
ones. The privacy tier and the trust minimum switch to the lexicographic order as soon as one
name is unknown; they are commutative selections, which may have cycles. A comma separated set
composes by union.

## Main results

* `absorbsOn_trustMax`, `absorbsOn_capabilityMax`, `absorbsOn_latencyMax`
* `privacyTierMax_selective`, `privacyTierMax_comm`, `trustMin_selective`, `trustMin_comm`
* `absorbsOn_mergeCommaSets`, `mergeCommaSets_comm`
-/

namespace Corvid.Effects

open Fold

/-! ## Maxima -/

/-- The position of a capability: its rank, then its name. -/
def capabilityKey (n : String) : ℕ ×ₗ String := toLex (capabilityRank n, n)

theorem capabilityMax_eq (a b : String) :
    capabilityMax a b = if capabilityKey b ≤ capabilityKey a then a else b := by
  unfold capabilityMax capabilityKey
  simp only [Prod.Lex.toLex_le_toLex, ge_iff_le, gt_iff_lt]
  split_ifs <;> first | rfl | omega | grind

theorem capabilityKey_injective {a b : String} (h : capabilityKey a = capabilityKey b) :
    a = b := (Prod.mk.inj (toLex.injective h)).2

theorem absorbsOn_capabilityMax (S : String → Prop) :
    AbsorbsOn capabilityMax (fun _ => True) S :=
  absorbsOn_maxBy capabilityMax_eq (fun _ _ _ _ => capabilityKey_injective) fun _ _ => trivial

theorem capabilityMax_comm (a b : String) : capabilityMax a b = capabilityMax b a :=
  maxBy_comm capabilityMax_eq capabilityKey_injective

/-- The position of a trust level: `none` at the bottom, then by rank, then by name. -/
def trustKey (n : String) : ℕ ×ₗ String :=
  toLex (if n = "none" then 0 else trustRank n + 1, n)

theorem trustMax_eq (a b : String) :
    trustMax a b = if trustKey b ≤ trustKey a then a else b := by
  unfold trustMax trustKey
  simp only [Prod.Lex.toLex_le_toLex, ge_iff_le, gt_iff_lt]
  split_ifs <;> first | rfl | omega | grind

theorem trustKey_injective {a b : String} (h : trustKey a = trustKey b) : a = b :=
  (Prod.mk.inj (toLex.injective h)).2

theorem absorbsOn_trustMax (S : String → Prop) : AbsorbsOn trustMax (fun _ => True) S :=
  absorbsOn_maxBy trustMax_eq (fun _ _ _ _ => trustKey_injective) fun _ _ => trivial

theorem trustMax_comm (a b : String) : trustMax a b = trustMax b a :=
  maxBy_comm trustMax_eq trustKey_injective

theorem trustMax_right_comm (a b c : String) :
    trustMax (trustMax a b) c = trustMax (trustMax a c) b :=
  (absorbsOn_trustMax fun _ => True).comm a b c trivial trivial trivial

theorem trustMax_left_comm (a b c : String) :
    trustMax a (trustMax b c) = trustMax b (trustMax a c) := by
  rw [trustMax_comm a, trustMax_comm b c, trustMax_right_comm, trustMax_comm]
  rw [trustMax_comm c a]

theorem trustMax_self (a : String) : trustMax a a = a := by
  rw [trustMax_eq, if_pos le_rfl]

theorem trustMax_trustMax_self (a b : String) : trustMax (trustMax a b) b = trustMax a b :=
  (absorbsOn_trustMax fun _ => True).absorb a b trivial trivial

/-- The latency maximum ignores order and repetition as long as one unknown name occurs at
most. -/
theorem absorbsOn_latencyMax {S : String → Prop}
    (h : ∀ m n, S m → S n → latencyRank m = 5 → latencyRank n = 5 → m = n) :
    AbsorbsOn latencyMax (fun x => latencyRank x = 5 → S x) S := by
  refine absorbsOn_maxBy (fun a b => rfl) (fun a b ha hb hab => ?_) fun a ha _ => ha
  by_cases h5 : latencyRank a = 5
  · exact h a b (ha h5) (hb (hab ▸ h5)) h5 (hab ▸ h5)
  · -- Below the unknown names a rank has one name.
    clear ha hb h
    revert hab h5
    unfold latencyRank latencyStreamingRank
    split <;> split <;> simp

/-! ## Tournaments -/

theorem privacyTierMax_selective : Selective privacyTierMax := by
  intro a b
  unfold privacyTierMax
  grind

theorem privacyTierRank_injective {a b : String} (ha : privacyTierRank a ≠ 255)
    (h : privacyTierRank a = privacyTierRank b) : a = b := by
  revert ha h
  unfold privacyTierRank
  split <;> split <;> simp

theorem privacyTierMax_comm (a b : String) : privacyTierMax a b = privacyTierMax b a := by
  have hinj := @privacyTierRank_injective a b
  unfold privacyTierMax
  grind

theorem trustMin_selective : Selective trustMin := by
  intro a b
  unfold trustMin
  grind

theorem trustMinRank_injective {a b : String} (ha : trustMinRank a ≠ 255)
    (h : trustMinRank a = trustMinRank b) : a = b := by
  revert ha h
  unfold trustMinRank
  split <;> split <;> simp

theorem trustMin_comm (a b : String) : trustMin a b = trustMin b a := by
  have hinj := @trustMinRank_injective a b
  unfold trustMin
  grind

/-! ## Comma separated sets -/

/-- The categories that a comma separated text lists. -/
def categoriesOf (s : String) : Finset String :=
  ((Text.split ',' s).map Text.trim).toFinset.filter fun t => ¬ (t = "" ∨ t = "none")

/-- The canonical text of a set of categories. -/
def renderCategories (categories : Finset String) : String :=
  if categories = ∅ then "none" else Text.join ", " categories.sort

theorem foldl_insertCategory (parts : List String) (categories : Finset String) :
    parts.foldl insertCategory categories =
      categories ∪ (parts.map Text.trim).toFinset.filter fun t => ¬ (t = "" ∨ t = "none") := by
  induction parts generalizing categories with
  | nil => simp
  | cons p ps ih =>
    rw [List.foldl_cons, ih, insertCategory, List.map_cons, List.toFinset_cons,
      Finset.filter_insert]
    split <;> simp_all [Finset.union_insert]

theorem mergeCommaSets_eq (a b : String) :
    mergeCommaSets a b = renderCategories (categoriesOf a ∪ categoriesOf b) := by
  unfold mergeCommaSets renderCategories
  rw [foldl_insertCategory, List.map_append, List.toFinset_append, Finset.filter_union,
    Finset.empty_union]
  rfl

theorem of_mem_categoriesOf {s t : String} (h : t ∈ categoriesOf s) :
    (',' ∉ t.toList ∧ Text.trim t = t) ∧ t ≠ "" ∧ t ≠ "none" := by
  simp only [categoriesOf, Finset.mem_filter, List.mem_toFinset, List.mem_map, not_or] at h
  obtain ⟨⟨p, hp, rfl⟩, hne⟩ := h
  exact ⟨⟨fun hc => Text.notMem_of_mem_split hp (Text.mem_of_mem_trim hc), Text.trim_trim p⟩, hne⟩

/-- The canonical text lists the categories it was made of. -/
theorem categoriesOf_renderCategories {c : Finset String}
    (h : ∀ t ∈ c, (',' ∉ t.toList ∧ Text.trim t = t) ∧ t ≠ "" ∧ t ≠ "none") :
    categoriesOf (renderCategories c) = c := by
  unfold renderCategories
  split
  · subst c
    decide +kernel
  rename_i hne
  have hlist : c.sort ≠ [] := by
    intro hnil
    apply hne
    rw [← Finset.sort_toFinset c (· ≤ ·), hnil, List.toFinset_nil]
  have hmem : ∀ t ∈ c.sort, t ∈ c := fun t ht => (Finset.mem_sort _).mp ht
  rw [categoriesOf, Text.map_trim_split_join hlist fun t ht => (h t (hmem t ht)).1,
    Finset.sort_toFinset]
  exact Finset.filter_true_of_mem fun t ht => not_or.mpr (h t ht).2

theorem categoriesOf_mergeCommaSets (a b : String) :
    categoriesOf (mergeCommaSets a b) = categoriesOf a ∪ categoriesOf b := by
  rw [mergeCommaSets_eq, categoriesOf_renderCategories]
  intro t ht
  rcases Finset.mem_union.mp ht with ht | ht <;> exact of_mem_categoriesOf ht

theorem mergeCommaSets_comm (a b : String) : mergeCommaSets a b = mergeCommaSets b a := by
  rw [mergeCommaSets_eq, mergeCommaSets_eq, Finset.union_comm]

theorem mergeCommaSets_assoc (a b c : String) :
    mergeCommaSets (mergeCommaSets a b) c = mergeCommaSets a (mergeCommaSets b c) := by
  rw [mergeCommaSets_eq (mergeCommaSets a b), mergeCommaSets_eq a (mergeCommaSets b c),
    categoriesOf_mergeCommaSets, categoriesOf_mergeCommaSets, Finset.union_assoc]

/-- A merged set absorbs itself, since it is canonical. -/
theorem mergeCommaSets_self (a b : String) :
    mergeCommaSets (mergeCommaSets a b) (mergeCommaSets a b) = mergeCommaSets a b := by
  rw [mergeCommaSets_eq (mergeCommaSets a b), categoriesOf_mergeCommaSets, Finset.union_self,
    ← mergeCommaSets_eq]

/-- The text of a set: `none` for the empty one, otherwise its categories, sorted, without
repetitions and with one separator between them. -/
def IsCanonical (s : String) : Prop :=
  s = "none" ∨ ∃ categories : List String, categories ≠ [] ∧ categories.Pairwise (· < ·) ∧
    s = Text.join ", " categories ∧
      ∀ t ∈ categories, (',' ∉ t.toList ∧ Text.trim t = t) ∧ t ≠ "" ∧ t ≠ "none"

theorem isCanonical_mergeCommaSets (a b : String) : IsCanonical (mergeCommaSets a b) := by
  rw [mergeCommaSets_eq, renderCategories]
  split
  · exact .inl rfl
  · next hne =>
    refine .inr ⟨(categoriesOf a ∪ categoriesOf b).sort, ?_, Finset.sortedLT_sort _ |>.pairwise, rfl,
      fun t ht => ?_⟩
    · intro hnil
      exact hne (by rw [← Finset.sort_toFinset (categoriesOf a ∪ categoriesOf b) (· ≤ ·), hnil,
        List.toFinset_nil])
    · rcases Finset.mem_union.mp ((Finset.mem_sort _).mp ht) with ht | ht <;>
        exact of_mem_categoriesOf ht

/-- The merged set is `none` just when both sets are empty. -/
theorem mergeCommaSets_eq_none (a b : String) :
    mergeCommaSets a b = "none" ↔ categoriesOf a ∪ categoriesOf b = ∅ := by
  constructor
  · intro h
    rw [← categoriesOf_mergeCommaSets, h]
    decide +kernel
  · intro h
    rw [mergeCommaSets_eq, h]
    rfl

/-- Merging is set union on the categories that the texts list, with a canonical text as its result;
so it is commutative, associative, and idempotent on what it yields. -/
theorem mergeCommaSets_exact (a b c : String) :
    categoriesOf (mergeCommaSets a b) = categoriesOf a ∪ categoriesOf b ∧
    IsCanonical (mergeCommaSets a b) ∧
    (mergeCommaSets a b = "none" ↔ categoriesOf a ∪ categoriesOf b = ∅) ∧
    mergeCommaSets a b = mergeCommaSets b a ∧
    mergeCommaSets (mergeCommaSets a b) c = mergeCommaSets a (mergeCommaSets b c) ∧
    mergeCommaSets (mergeCommaSets a b) (mergeCommaSets a b) = mergeCommaSets a b :=
  ⟨categoriesOf_mergeCommaSets a b, isCanonical_mergeCommaSets a b, mergeCommaSets_eq_none a b,
    mergeCommaSets_comm a b, mergeCommaSets_assoc a b c, mergeCommaSets_self a b⟩

/-- Union of comma separated sets ignores order and repetition. -/
theorem absorbsOn_mergeCommaSets (S : String → Prop) :
    AbsorbsOn mergeCommaSets (fun _ => True) S where
  step _ _ _ _ := trivial
  comm x a a' _ _ _ := by
    rw [mergeCommaSets_eq (mergeCommaSets x a), mergeCommaSets_eq (mergeCommaSets x a'),
      categoriesOf_mergeCommaSets, categoriesOf_mergeCommaSets, Finset.union_right_comm]
  absorb x a _ _ := by
    rw [mergeCommaSets_eq (mergeCommaSets x a), categoriesOf_mergeCommaSets, Finset.union_assoc,
      Finset.union_self, ← mergeCommaSets_eq]

end Corvid.Effects
