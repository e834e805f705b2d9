import Mathlib.Data.List.Nodup
import Mathlib.Tactic.Common

/-!
# Tables with a primary key

The rows of a table, no two of them with the same key. Statements find, insert, update and delete
rows; what becomes of a row depends on its key alone.

## Main definitions

* `Rows`: a table
* `Rows.find`: `select .. where key = k`
* `Rows.insert`, `Rows.upsert`: `insert`, which fails on a conflict or updates the row in the way
* `Rows.update`, `Rows.delete`: `update` and `delete` with a condition

## Main results

* `Rows.find_insert`, `Rows.find_upsert`, `Rows.find_update`, `Rows.find_delete`: the rows after a
  statement
-/

namespace Relational

variable {κ ρ : Type} [DecidableEq κ] {key : ρ → κ}

/-- Rows with pairwise different keys. -/
structure Rows (key : ρ → κ) where
  rows : List ρ
  nodup : (rows.map key).Nodup

namespace Rows

def empty : Rows key := ⟨[], List.nodup_nil⟩

def find (t : Rows key) (k : κ) : Option ρ := t.rows.find? fun r => key r = k

section Statements

variable (t : Rows key) {r s : ρ} {k : κ} {p : ρ → Bool} {f : ρ → ρ}

variable {t} in
theorem find_eq_some : t.find k = some r ↔ r ∈ t.rows ∧ key r = k := by
  constructor
  · intro h
    exact ⟨List.mem_of_find?_eq_some h, by simpa using List.find?_some h⟩
  · rintro ⟨hmem, hkey⟩
    cases hfind : t.find k with
    | none => exact absurd (decide_eq_true hkey) (List.find?_eq_none.mp hfind r hmem)
    | some s =>
      have hs := List.mem_of_find?_eq_some hfind
      have hkey' : key s = k := by simpa using List.find?_some hfind
      exact congrArg some (List.inj_on_of_nodup_map t.nodup hs hmem (hkey'.trans hkey.symm))

variable {t} in
theorem find_eq_none : t.find k = none ↔ ∀ r ∈ t.rows, key r ≠ k := by
  simp [find, List.find?_eq_none]

theorem find_of_mem (h : r ∈ t.rows) : t.find (key r) = some r := find_eq_some.mpr ⟨h, rfl⟩

@[simp] theorem find_empty : (empty : Rows key).find k = none := rfl

/-- `insert`, unless there is a row with the key. -/
def insert (r : ρ) : Option (Rows key) :=
  if h : t.find (key r) = none then
    some ⟨t.rows ++ [r], by
      rw [List.map_append, List.map_singleton, List.nodup_append]
      refine ⟨t.nodup, List.nodup_singleton _, fun k hk k' hk' heq => ?_⟩
      obtain ⟨s, hs, rfl⟩ := List.mem_map.mp hk
      exact find_eq_none.mp h s hs (heq.trans (List.mem_singleton.mp hk'))⟩
  else none

theorem insert_eq_some {t' : Rows key} :
    t.insert r = some t' ↔ t.find (key r) = none ∧ t'.rows = t.rows ++ [r] := by
  unfold insert
  split
  next h =>
    constructor
    · rintro heq
      exact ⟨h, congrArg rows (Option.some.inj heq).symm⟩
    · rintro ⟨-, heq⟩
      cases t'
      exact congrArg some (by congr 1; exact heq.symm)
  next h =>
    constructor
    · rintro ⟨⟩
    · exact fun heq => absurd heq.1 h

theorem find_insert {t' : Rows key} (h : t.insert r = some t') (k : κ) :
    t'.find k = if k = key r then some r else t.find k := by
  obtain ⟨hnone, hrows⟩ := t.insert_eq_some.mp h
  rw [find, hrows, List.find?_append]
  split
  next hk =>
    subst hk
    rw [find] at hnone
    rw [hnone]
    simp
  next hk =>
    rw [List.find?_singleton, if_neg (by simpa using Ne.symm hk), Option.or_none]
    rfl

/-- `update .. set .. where p`. The key is not set. -/
def update (p : ρ → Bool) (f : ρ → ρ) (hf : ∀ r, key (f r) = key r) : Rows key where
  rows := t.rows.map fun r => if p r then f r else r
  nodup := by
    rw [List.map_map]
    have hkey : (key ∘ fun r => if p r then f r else r) = key := by
      funext r
      show key (if p r then f r else r) = key r
      split
      next => exact hf r
      next => rfl
    rw [hkey]
    exact t.nodup

omit [DecidableEq κ] in
theorem mem_update (hf : ∀ r, key (f r) = key r) :
    s ∈ (t.update p f hf).rows ↔ ∃ r ∈ t.rows, s = if p r then f r else r := by
  simp only [update, List.mem_map, eq_comm]

theorem find_update (hf : ∀ r, key (f r) = key r) (k : κ) :
    (t.update p f hf).find k = (t.find k).map fun r => if p r then f r else r := by
  have hkey : ∀ r, key (if p r then f r else r) = key r := fun r => by
    split
    next => exact hf r
    next => rfl
  rw [find, update, List.find?_map]
  simp only [Function.comp_def, hkey]
  rfl

/-- An update of a single row. -/
theorem find_update_key (hf : ∀ r, key (f r) = key r) (k k' : κ) :
    (t.update (fun r => key r = k) f hf).find k' =
      if k' = k then (t.find k').map f else t.find k' := by
  rw [find_update]
  cases hfind : t.find k' with
  | none => exact (ite_self none).symm
  | some r =>
    obtain ⟨-, rfl⟩ := find_eq_some.mp hfind
    simp only [Option.map_some, decide_eq_true_eq]
    split <;> rfl

/-- `delete .. where p` -/
def delete (p : ρ → Bool) : Rows key where
  rows := t.rows.filter fun r => !p r
  nodup := t.nodup.sublist (List.filter_sublist.map key)

theorem find_delete (k : κ) : (t.delete p).find k = (t.find k).filter fun r => !p r := by
  ext r
  rw [find_eq_some, Option.filter_eq_some_iff, find_eq_some, delete, List.mem_filter]
  exact and_right_comm

/-- `insert .. on conflict do update` -/
def upsert (r : ρ) (f : ρ → ρ) (hf : ∀ s, key (f s) = key s) : Rows key :=
  (t.insert r).getD (t.update (fun s => key s = key r) f hf)

theorem find_upsert (hf : ∀ s, key (f s) = key s) (k : κ) :
    (t.upsert r f hf).find k =
      if k = key r then some ((t.find k).elim r f) else t.find k := by
  rw [upsert]
  cases hinsert : t.insert r with
  | some t' =>
    obtain ⟨hnone, -⟩ := t.insert_eq_some.mp hinsert
    rw [Option.getD_some, t.find_insert hinsert]
    split
    next hk => rw [hk, hnone]; rfl
    next => rfl
  | none =>
    rw [Option.getD_none, find_update_key]
    split
    next hk =>
      subst hk
      cases hfind : t.find (key r) with
      | some s => rfl
      | none =>
        have hsome : t.insert r ≠ none := by simp [insert, hfind]
        exact absurd hinsert hsome
    next => rfl

end Statements

instance [DecidableEq ρ] : DecidableEq (Rows key) := fun t t' =>
  decidable_of_iff (t.rows = t'.rows) ⟨fun h => by cases t; cases t'; congr, fun h => by rw [h]⟩

end Rows

end Relational
