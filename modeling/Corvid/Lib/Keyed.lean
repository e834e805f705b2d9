import Mathlib.Data.List.AList
import Mathlib.Tactic.Common

/-!
# Maps updated entry by entry

A hash map is an association list without repeated keys; two maps are the same when they agree
on every lookup. Iterating over the entries of one map while updating the entries of another,
each under its own key, computes the update of every key on its own, in whatever order the
entries are visited.

## Main results

* `lookup_foldl_entries`: the lookup of a map that is updated along another
-/

namespace Keyed

variable {κ V W : Type*} [DecidableEq κ]

/-- A map with keys in `κ`. -/
abbrev Map (κ V : Type*) := AList fun _ : κ => V

/-- The values of the map. -/
def Map.values (m : Map κ V) : List V := m.entries.map Sigma.snd

theorem lookup_insert_ite (m : Map κ V) (k k' : κ) (v : V) :
    (m.insert k v).lookup k' = if k' = k then some v else m.lookup k' := by
  split
  · subst k'
    exact AList.lookup_insert m
  · exact AList.lookup_insert_ne ‹_›

theorem mem_values_iff {m : Map κ V} {v : V} : v ∈ m.values ↔ ∃ k, m.lookup k = some v := by
  simp only [Map.values, List.mem_map]
  constructor
  · rintro ⟨⟨k, w⟩, hmem, rfl⟩
    exact ⟨k, AList.mem_lookup_iff.mpr hmem⟩
  · rintro ⟨k, hk⟩
    exact ⟨⟨k, v⟩, AList.mem_lookup_iff.mp hk, rfl⟩

/-- **Updating one map along another.** If the update of an entry changes only its own key,
and there only through `step`, then the fold over all entries applies `step` once to each
key. -/
theorem lookup_foldl_entries (m : Map κ V) (upd : Map κ W → κ → V → Map κ W)
    (step : κ → V → Option W → Option W)
    (hupd : ∀ acc k v k',
      (upd acc k v).lookup k' = if k' = k then step k v (acc.lookup k) else acc.lookup k')
    (acc : Map κ W) (k : κ) :
    (m.entries.foldl (fun acc e => upd acc e.1 e.2) acc).lookup k =
      (m.lookup k).elim (acc.lookup k) fun v => step k v (acc.lookup k) := by
  obtain ⟨entries, hnodup⟩ := m
  change (entries.foldl (fun acc e => upd acc e.1 e.2) acc).lookup k =
    (entries.dlookup k).elim (acc.lookup k) fun v => step k v (acc.lookup k)
  induction entries generalizing acc with
  | nil => rfl
  | cons e es ih =>
    obtain ⟨k₁, v₁⟩ := e
    have hes := List.nodupKeys_cons.mp hnodup
    rw [List.foldl_cons, ih _ hes.2, hupd]
    by_cases hk : k = k₁
    · subst k₁
      -- The key is not visited again: it is the only entry of its key.
      rw [List.dlookup_eq_none.mpr hes.1, List.dlookup_cons_eq]
      simp
    · rw [List.dlookup_cons_ne _ _ hk, if_neg hk]

end Keyed
