import Mathlib.Data.List.Basic
import Mathlib.Data.List.Count
import Mathlib.Data.Nat.ModEq
import Mathlib.Tactic.Common

/-!
# Open addressing

A hash table with linear probing and tombstones. A key is looked for from the cell of its hash on,
until an empty cell ends the search. A removed key leaves a tombstone behind, which does not end a
search and may be filled again. As long as no cell before a key is empty, the key is found.

## Main definitions

* `Cell`, `Table`: the cells of a table
* `find`, `findInsert`: the cell of a key, and the one to put it into
* `rehash`: the same entries in a table of another size
* `Table.Valid`: keys occur once and are found
* `Table.Has`: the entries of a table

## Main results

* `find_eq_some`: the search finds what is there
* `Valid.insert`, `Valid.erase`, `Valid.rehash`: the operations keep tables valid
-/

namespace Probing

variable {κ ν : Type} (hash : κ → ℕ)

inductive Cell (κ ν : Type) where
  | empty
  | tombstone
  | full (k : κ) (v : ν)
deriving DecidableEq, Repr

abbrev Table (κ ν : Type) := List (Cell κ ν)

def Cell.isFull : Cell κ ν → Bool
  | full .. => true
  | _ => false

namespace Table

section Definitions

variable [DecidableEq κ]

/-- The cells in the order in which they are probed. -/
def probes (cap start : ℕ) : List ℕ := (List.range cap).map fun i => (start + i) % cap

/-- The first of some cells that has the key, if no empty one comes before. -/
def findIn (t : Table κ ν) (k : κ) : List ℕ → Option ℕ
  | [] => none
  | i :: rest =>
    match t[i]? with
    | some (.full k' _) => if k' = k then some i else findIn t k rest
    | some .tombstone => findIn t k rest
    | _ => none

def find (t : Table κ ν) (k : κ) : Option ℕ := findIn t k (probes t.length (hash k))

/-- The cell of a key, or else the first tombstone, or else the empty cell that ends the search. -/
def findInsertIn (t : Table κ ν) (k : κ) : List ℕ → Option ℕ → Option ℕ
  | [], tombstone => tombstone
  | i :: rest, tombstone =>
    match t[i]? with
    | some (.full k' _) => if k' = k then some i else findInsertIn t k rest tombstone
    | some .tombstone => findInsertIn t k rest (tombstone <|> some i)
    | _ => tombstone <|> some i

def findInsert (t : Table κ ν) (k : κ) : Option ℕ :=
  findInsertIn t k (probes t.length (hash k)) none

/-- Puts an entry into the cell that is found for it. -/
def put (t : Table κ ν) (k : κ) (v : ν) : Table κ ν :=
  match findInsert hash t k with
  | some i => t.set i (.full k v)
  | none => t

/-- A new table with the entries that are kept. -/
def rehash (keep : ν → Bool) (cap : ℕ) (t : Table κ ν) : Table κ ν :=
  t.foldl (fun new cell => match cell with
    | .full k v => if keep v then put hash new k v else new
    | _ => new) (List.replicate cap .empty)

end Definitions

/-- The number of entries. -/
def size (t : Table κ ν) : ℕ := t.countP Cell.isFull

/-- The cell `i` can be reached from the hash of a key: no cell before it is empty. -/
def Reaches (t : Table κ ν) (k : κ) (i : ℕ) : Prop :=
  ∃ pre post, probes t.length (hash k) = pre ++ i :: post ∧
    ∀ j ∈ pre, t[j]? ≠ some .empty

/-- Keys occur once, and each of them can be reached. -/
structure Valid (t : Table κ ν) : Prop where
  unique : ∀ (i j : ℕ) k v w, t[i]? = some (Cell.full k v) → t[j]? = some (Cell.full k w) → i = j
  reaches : ∀ (i : ℕ) k v, t[i]? = some (Cell.full k v) → Reaches hash t k i

/-- An entry of the table. -/
def Has (t : Table κ ν) (k : κ) (v : ν) : Prop := ∃ i : ℕ, t[i]? = some (Cell.full k v)

/-! ### Searching -/

section Search

variable [DecidableEq κ] {hash} {t : Table κ ν} {k : κ} {v : ν} {i : ℕ} {is : List ℕ}

theorem mem_probes {cap start i : ℕ} : i ∈ probes cap start ↔ i < cap := by
  unfold probes
  constructor
  · intro h
    obtain ⟨j, hj, rfl⟩ := List.mem_map.mp h
    exact Nat.mod_lt _ (Nat.zero_lt_of_lt (List.mem_range.mp hj))
  · intro h
    -- the distance from the start, around the end of the table
    refine List.mem_map.mpr ⟨(i + (cap - start % cap)) % cap, ?_, ?_⟩
    · exact List.mem_range.mpr (Nat.mod_lt _ (Nat.zero_lt_of_lt h))
    · have hlt : start % cap < cap := Nat.mod_lt _ (Nat.zero_lt_of_lt h)
      rw [Nat.add_mod_mod, ← Nat.mod_add_mod]
      rw [show start % cap + (i + (cap - start % cap)) = i + cap by omega, Nat.add_mod_right,
        Nat.mod_eq_of_lt h]

theorem full_of_findIn (h : findIn t k is = some i) : ∃ v, t[i]? = some (.full k v) := by
  induction is with
  | nil => cases h
  | cons j is ih =>
    rw [findIn] at h
    split at h
    next k' v' hcell =>
      split at h
      next hk =>
        obtain rfl := Option.some.inj h
        exact ⟨v', hk ▸ hcell⟩
      next => exact ih h
    next => exact ih h
    next => cases h

omit [DecidableEq κ] in
theorem cell_of_not_empty (hi : i < t.length) (h : t[i]? ≠ some .empty) :
    t[i]? = some .tombstone ∨ ∃ k v, t[i]? = some (.full k v) := by
  rw [List.getElem?_eq_getElem hi] at h ⊢
  cases hcell : t[i] with
  | empty => exact absurd (congrArg some hcell) h
  | tombstone => exact .inl rfl
  | full k v => exact .inr ⟨k, v, rfl⟩

theorem findIn_of_pre {pre post : List ℕ} (hfull : t[i]? = some (.full k v))
    (hunique : ∀ j w, t[j]? = some (.full k w) → j = i) (hbound : ∀ j ∈ pre, j < t.length)
    (hpre : ∀ j ∈ pre, t[j]? ≠ some .empty) : findIn t k (pre ++ i :: post) = some i := by
  induction pre with
  | nil => rw [List.nil_append, findIn, hfull]; exact if_pos rfl
  | cons j pre ih =>
    have ih := ih (fun x hx => hbound x (List.mem_cons_of_mem _ hx))
      fun x hx => hpre x (List.mem_cons_of_mem _ hx)
    rw [List.cons_append, findIn]
    split
    next k' v' hcell =>
      split
      next hk => rw [hunique j v' (hk ▸ hcell)]
      next => exact ih
    next => exact ih
    next hfull' htomb =>
      exact absurd (cell_of_not_empty (hbound j List.mem_cons_self) (hpre j List.mem_cons_self))
        fun h => h.elim htomb fun ⟨k', v', h⟩ => hfull' k' v' h

variable (hvalid : Valid hash t)

include hvalid

/-- A search finds the cell of the key. -/
theorem find_eq_some : find hash t k = some i ↔ ∃ v, t[i]? = some (.full k v) := by
  constructor
  · exact full_of_findIn
  · rintro ⟨v, hfull⟩
    obtain ⟨pre, post, hprobes, hpre⟩ := hvalid.reaches i k v hfull
    rw [find, hprobes]
    refine findIn_of_pre hfull (fun j w hj => hvalid.unique j i k w v hj hfull) ?_ hpre
    intro j hj
    exact mem_probes.mp (hprobes ▸ List.mem_append_left _ hj)

theorem find_eq_none : find hash t k = none ↔ ∀ v, ¬ Has t k v := by
  constructor
  · rintro h v ⟨i, hi⟩
    rw [(find_eq_some hvalid).mpr ⟨v, hi⟩] at h
    cases h
  · intro h
    cases hfind : find hash t k with
    | none => rfl
    | some i =>
      obtain ⟨v, hv⟩ := (find_eq_some hvalid).mp hfind
      exact absurd ⟨i, hv⟩ (h v)

end Search

/-! ### Changing one cell -/

section Set

variable {hash} {t : Table κ ν} {k : κ} {v : ν} {i : ℕ}

theorem getElem?_set_full {c : Cell κ ν} {j : ℕ} {k' : κ} {v' : ν}
    (h : (t.set i c)[j]? = some (Cell.full k' v')) :
    (j = i ∧ c = .full k' v') ∨ j ≠ i ∧ t[j]? = some (Cell.full k' v') := by
  rw [List.getElem?_set] at h
  split at h
  next hij =>
    split at h
    next => exact .inl ⟨hij.symm, Option.some.inj h⟩
    next => cases h
  next hij => exact .inr ⟨Ne.symm hij, h⟩

/-- A cell that is not empty any more does not hide anything. -/
theorem Reaches.set {c : Cell κ ν} (hc : c ≠ .empty) {k' : κ} {j : ℕ}
    (h : Reaches hash t k' j) : Reaches hash (t.set i c) k' j := by
  obtain ⟨pre, post, hprobes, hpre⟩ := h
  refine ⟨pre, post, by rw [List.length_set, hprobes], fun x hx => ?_⟩
  rw [List.getElem?_set]
  split
  next =>
    split
    next => exact fun heq => hc (Option.some.inj heq)
    next => exact fun heq => nomatch heq
  next => exact hpre x hx

variable (hvalid : Valid hash t)

include hvalid

/-- Filling a cell with a key that is in no other cell. -/
theorem Valid.set (hreaches : Reaches hash t k i)
    (hnew : ∀ (j : ℕ) w, t[j]? = some (Cell.full k w) → j = i) : Valid hash (t.set i (.full k v)) where
  unique := by
    intro x y k' v' w' hx hy
    rcases getElem?_set_full hx with ⟨rfl, heq⟩ | ⟨hxi, hx'⟩
    · injection heq with hk
      rcases getElem?_set_full hy with ⟨rfl, -⟩ | ⟨hyi, hy'⟩
      · rfl
      · exact (hnew y w' (hk ▸ hy')).symm
    · rcases getElem?_set_full hy with ⟨rfl, heq⟩ | ⟨hyi, hy'⟩
      · injection heq with hk
        exact hnew x v' (hk ▸ hx')
      · exact hvalid.unique x y k' v' w' hx' hy'
  reaches := by
    intro x k' v' hx
    rcases getElem?_set_full hx with ⟨rfl, heq⟩ | ⟨-, hx'⟩
    · injection heq with hk
      subst hk
      exact hreaches.set (by simp)
    · exact (hvalid.reaches x k' v' hx').set (by simp)

theorem Valid.set_value {v' : ν} (hfull : t[i]? = some (Cell.full k v)) :
    Valid hash (t.set i (.full k v')) :=
  hvalid.set (hvalid.reaches i k v hfull) fun j w hj => hvalid.unique j i k w v hj hfull

theorem Valid.erase (i : ℕ) : Valid hash (t.set i .tombstone) where
  unique := by
    intro x y k' v' w' hx hy
    rcases getElem?_set_full hx with ⟨-, heq⟩ | ⟨-, hx'⟩
    · cases heq
    · rcases getElem?_set_full hy with ⟨-, heq⟩ | ⟨-, hy'⟩
      · cases heq
      · exact hvalid.unique x y k' v' w' hx' hy'
  reaches := by
    intro x k' v' hx
    rcases getElem?_set_full hx with ⟨-, heq⟩ | ⟨-, hx'⟩
    · cases heq
    · exact (hvalid.reaches x k' v' hx').set (by simp)

theorem has_unique {v w : ν} (hv : Has t k v) (hw : Has t k w) : v = w := by
  obtain ⟨i, hi⟩ := hv
  obtain ⟨j, hj⟩ := hw
  obtain rfl := hvalid.unique i j k v w hi hj
  rw [hi] at hj
  injection hj with hj
  injection hj

/-- The entries after a key is removed. -/
theorem has_erase (hfull : t[i]? = some (Cell.full k v)) {k' : κ} {v' : ν} :
    Has (t.set i .tombstone) k' v' ↔ k' ≠ k ∧ Has t k' v' := by
  constructor
  · rintro ⟨j, hj⟩
    rcases getElem?_set_full hj with ⟨-, heq⟩ | ⟨hji, hj'⟩
    · cases heq
    · exact ⟨fun hk => hji (hvalid.unique j i k v' v (hk ▸ hj') hfull), j, hj'⟩
  · rintro ⟨hk, j, hj⟩
    refine ⟨j, ?_⟩
    rw [List.getElem?_set_ne, hj]
    rintro rfl
    rw [hfull] at hj
    injection hj with hj
    injection hj with hk'
    exact hk hk'.symm

end Set

/-! ### Inserting -/

section Insert

variable [DecidableEq κ] {hash} {t : Table κ ν} {k : κ} {v : ν} {i : ℕ}

/-- The search for a cell to insert into, from a part of the probes on. -/
theorem findInsertIn_spec {pre is : List ℕ} {tombstone : Option ℕ}
    (hbound : ∀ j ∈ is, j < t.length) (hpre : ∀ j ∈ pre, t[j]? ≠ some .empty)
    (htomb : ∀ j ∈ tombstone, t[j]? = some .tombstone ∧ j ∈ pre)
    (h : findInsertIn t k is tombstone = some i) :
    (∃ v, t[i]? = some (Cell.full k v)) ∨
      ((∀ k' w, t[i]? ≠ some (Cell.full k' w)) ∧
        ∃ before after, pre ++ is = before ++ i :: after ∧ ∀ j ∈ before, t[j]? ≠ some .empty) := by
  -- a tombstone has been seen before
  have hseen : ∀ is', tombstone = some i → (∀ k' w, t[i]? ≠ some (Cell.full k' w)) ∧
      ∃ before after, pre ++ is' = before ++ i :: after ∧ ∀ j ∈ before, t[j]? ≠ some .empty := by
    intro is' hi
    obtain ⟨hcell, hmem⟩ := htomb i hi
    obtain ⟨before, after, rfl⟩ := List.append_of_mem hmem
    refine ⟨by simp [hcell], before, after ++ is', by simp, fun j hj => hpre j ?_⟩
    exact List.mem_append_left _ hj
  induction is generalizing pre tombstone with
  | nil => exact .inr (hseen [] h)
  | cons j is ih =>
    have hstep : ∀ {tombstone' : Option ℕ}, t[j]? ≠ some .empty →
        (∀ x ∈ tombstone', t[x]? = some .tombstone ∧ x ∈ pre ++ [j]) →
        findInsertIn t k is tombstone' = some i → (∃ v, t[i]? = some (Cell.full k v)) ∨
          ((∀ k' w, t[i]? ≠ some (Cell.full k' w)) ∧ ∃ before after,
            pre ++ j :: is = before ++ i :: after ∧ ∀ j ∈ before, t[j]? ≠ some .empty) := by
      intro tombstone' hj htomb' h'
      have hpre' : ∀ x ∈ pre ++ [j], t[x]? ≠ some .empty := by
        intro x hx
        rcases List.mem_append.mp hx with hx | hx
        · exact hpre x hx
        · rwa [List.mem_singleton.mp hx]
      have hrest := ih (fun x hx => hbound x (List.mem_cons_of_mem _ hx)) hpre' htomb' h' ?_
      · rwa [List.append_assoc, List.singleton_append] at hrest
      · intro is' hi
        obtain ⟨hcell, hmem⟩ := htomb' i hi
        obtain ⟨before, after, hsplit⟩ := List.append_of_mem hmem
        refine ⟨by simp [hcell], before, after ++ is', by rw [hsplit]; simp, fun x hx => ?_⟩
        exact hpre' x (hsplit ▸ List.mem_append_left _ hx)
    have hold : ∀ x ∈ tombstone, t[x]? = some .tombstone ∧ x ∈ pre ++ [j] := fun x hx =>
      ⟨(htomb x hx).1, List.mem_append_left _ (htomb x hx).2⟩
    rw [findInsertIn] at h
    split at h
    next k' v' hcell =>
      split at h
      next hk =>
        obtain rfl := Option.some.inj h
        exact .inl ⟨v', hk ▸ hcell⟩
      next => exact hstep (by simp [hcell]) hold h
    next hcell =>
      refine hstep (by simp [hcell]) ?_ h
      cases tombstone with
      | none =>
        intro x hx
        obtain rfl := Option.some.inj hx
        exact ⟨hcell, by simp⟩
      | some y => exact hold
    next hfull htombstone =>
      cases htombs : tombstone with
      | some y =>
        rw [htombs] at h
        exact .inr (hseen _ (htombs.trans h))
      | none =>
        rw [htombs] at h
        obtain rfl := Option.some.inj h
        exact .inr ⟨hfull, pre, is, rfl, hpre⟩

theorem findInsertIn_of_pre {pre post : List ℕ} {tombstone : Option ℕ}
    (hfull : t[i]? = some (Cell.full k v))
    (hunique : ∀ (j : ℕ) w, t[j]? = some (Cell.full k w) → j = i) (hbound : ∀ j ∈ pre, j < t.length)
    (hpre : ∀ j ∈ pre, t[j]? ≠ some .empty) :
    findInsertIn t k (pre ++ i :: post) tombstone = some i := by
  induction pre generalizing tombstone with
  | nil => rw [List.nil_append, findInsertIn, hfull]; exact if_pos rfl
  | cons j pre ih =>
    have hbound' : ∀ x ∈ pre, x < t.length := fun x hx => hbound x (List.mem_cons_of_mem _ hx)
    have hpre' : ∀ x ∈ pre, t[x]? ≠ some .empty := fun x hx => hpre x (List.mem_cons_of_mem _ hx)
    rw [List.cons_append, findInsertIn]
    split
    next k' v' hcell =>
      split
      next hk => rw [hunique j v' (hk ▸ hcell)]
      next => exact ih hbound' hpre'
    next => exact ih hbound' hpre'
    next hfull' htomb =>
      exact absurd (cell_of_not_empty (hbound j List.mem_cons_self) (hpre j List.mem_cons_self))
        fun h => h.elim htomb fun ⟨k', v', h⟩ => hfull' k' v' h

/-- The search fails only if there is no cell left. -/
theorem full_of_findInsertIn {is : List ℕ} {tombstone : Option ℕ}
    (h : findInsertIn t k is tombstone = none) :
    tombstone = none ∧ ∀ j ∈ is, ∃ k' w, t[j]? = some (Cell.full k' w) := by
  induction is generalizing tombstone with
  | nil => exact ⟨h, fun _ hj => nomatch hj⟩
  | cons j is ih =>
    rw [findInsertIn] at h
    split at h
    next k' v' hcell =>
      split at h
      next => cases h
      next =>
        refine ⟨(ih h).1, fun x hx => ?_⟩
        rcases List.mem_cons.mp hx with rfl | hx
        · exact ⟨k', v', hcell⟩
        · exact (ih h).2 x hx
    next =>
      -- the tombstone just seen would have been returned
      have := (ih h).1
      cases tombstone <;> cases this
    next => cases tombstone <;> cases h

theorem exists_findInsert (hsize : t.size < t.length) : ∃ i, findInsert hash t k = some i := by
  cases h : findInsert hash t k with
  | some i => exact ⟨i, rfl⟩
  | none =>
    -- all cells are probed, so all of them would be full
    have hall : t.size = t.length := by
      refine List.countP_eq_length.mpr fun c hc => ?_
      obtain ⟨j, hj⟩ := List.mem_iff_getElem?.mp hc
      have hlt : j < t.length := (List.getElem?_eq_some_iff.mp hj).1
      obtain ⟨k', w, hfull⟩ := (full_of_findInsertIn h).2 j (mem_probes.mpr hlt)
      obtain rfl := Option.some.inj (hj.symm.trans hfull)
      rfl
    omega

/-- What is known of the cell that is found for a key. -/
structure Slot (hash : κ → ℕ) (t : Table κ ν) (k : κ) (i : ℕ) : Prop where
  lt : i < t.length
  reaches : Reaches hash t k i
  only : ∀ (j : ℕ) w, t[j]? = some (Cell.full k w) → j = i
  cell : ∀ k' w, t[i]? = some (Cell.full k' w) → k' = k

omit [DecidableEq κ] in
theorem Valid.slot_of_full (hvalid : Valid hash t) (hfull : t[i]? = some (Cell.full k v)) :
    Slot hash t k i := by
  refine ⟨(List.getElem?_eq_some_iff.mp hfull).1, hvalid.reaches i k v hfull,
    fun j w hj => hvalid.unique j i k w v hj hfull, fun k' w hw => ?_⟩
  rw [hfull] at hw
  injection hw with hw
  injection hw with hk
  exact hk.symm

theorem Valid.slot (hvalid : Valid hash t) (h : findInsert hash t k = some i) : Slot hash t k i := by
  -- a key that is in the table is found where it is
  have hthere : ∀ (j : ℕ) w, t[j]? = some (Cell.full k w) → j = i := by
    intro j w hj
    obtain ⟨pre, post, hprobes, hpre⟩ := hvalid.reaches j k w hj
    rw [findInsert, hprobes, findInsertIn_of_pre hj (fun x u hx => hvalid.unique x j k u w hx hj)
      (fun x hx => mem_probes.mp (hprobes ▸ List.mem_append_left _ hx)) hpre] at h
    exact Option.some.inj h
  have hspec := findInsertIn_spec (fun j hj => mem_probes.mp hj) (List.forall_mem_nil _)
    (fun j hj => absurd hj (Option.not_mem_none j)) h
  rcases hspec with ⟨v, hv⟩ | ⟨hfree, before, after, hsplit, hbefore⟩
  · exact hvalid.slot_of_full hv
  · have hmem : i ∈ probes t.length (hash k) := by
      rw [show probes t.length (hash k) = before ++ i :: after from hsplit]
      simp
    exact ⟨mem_probes.mp hmem, ⟨before, after, hsplit, hbefore⟩, hthere,
      fun k' w hw => absurd hw (hfree k' w)⟩

variable (hslot : Slot hash t k i)

include hslot

omit [DecidableEq κ] in
theorem Slot.valid (hvalid : Valid hash t) (v : ν) : Valid hash (t.set i (.full k v)) :=
  hvalid.set hslot.reaches hslot.only

theorem Slot.has_set {k' : κ} {v' : ν} :
    Has (t.set i (.full k v)) k' v' ↔ if k' = k then v' = v else Has t k' v' := by
  constructor
  · rintro ⟨j, hj⟩
    rcases getElem?_set_full hj with ⟨rfl, heq⟩ | ⟨hji, hj'⟩
    · injection heq with hk hv
      rw [if_pos hk.symm, hv]
    · have hk : k' ≠ k := fun hk => hji (hslot.only j v' (hk ▸ hj'))
      rw [if_neg hk]
      exact ⟨j, hj'⟩
  · intro h
    split at h
    next hk => exact ⟨i, by rw [hk, h]; exact List.getElem?_set_self hslot.lt⟩
    next hk =>
      obtain ⟨j, hj⟩ := h
      refine ⟨j, ?_⟩
      rw [List.getElem?_set_ne, hj]
      rintro rfl
      exact hk (hslot.cell k' v' hj)

omit [DecidableEq κ] in
/-- A key that is not there takes a new cell. -/
theorem Slot.size_set (hnew : ∀ w, ¬ Has t k w) : size (t.set i (.full k v)) = t.size + 1 := by
  have hlt := hslot.lt
  have hfree : Cell.isFull t[i] = false := by
    cases hcell : t[i] with
    | full k' w =>
      have hi : t[i]? = some (Cell.full k' w) := by rw [List.getElem?_eq_getElem hlt, hcell]
      obtain rfl := hslot.cell k' w hi
      exact absurd ⟨i, hi⟩ (hnew w)
    | empty | tombstone => rfl
  rw [size, List.countP_set hlt, hfree]
  rfl

end Insert

/-! ### Sizes -/

section Size

variable {t : Table κ ν} {k : κ} {v : ν} {i : ℕ} (hfull : t[i]? = some (Cell.full k v))

include hfull

theorem size_pos : 0 < t.size := by
  refine List.countP_pos_iff.mpr ⟨.full k v, ?_, rfl⟩
  exact List.mem_of_getElem? hfull

theorem size_set_value (w : ν) : size (t.set i (.full k w)) = t.size := by
  obtain ⟨hlt, hcell⟩ := List.getElem?_eq_some_iff.mp hfull
  have hpos := size_pos hfull
  rw [size] at hpos
  rw [size, size, List.countP_set hlt, hcell]
  show t.countP Cell.isFull - 1 + 1 = _
  omega

theorem size_erase : size (t.set i .tombstone) = t.size - 1 := by
  obtain ⟨hlt, hcell⟩ := List.getElem?_eq_some_iff.mp hfull
  rw [size, size, List.countP_set hlt, hcell]
  rfl

end Size

/-! ### Another size -/

section Rehash

variable {hash} {t : Table κ ν} {k : κ} {v : ν}

theorem valid_replicate (cap : ℕ) : Valid hash (List.replicate cap (Cell.empty : Cell κ ν)) := by
  constructor
  · intro i j k v w hi
    exact absurd (List.getElem?_eq_some_iff.mp hi).2 (by simp)
  · intro i k v hi
    exact absurd (List.getElem?_eq_some_iff.mp hi).2 (by simp)

theorem has_iff_mem : Has t k v ↔ Cell.full k v ∈ t := List.mem_iff_getElem?.symm

theorem not_has_replicate (cap : ℕ) : ¬ Has (List.replicate cap (Cell.empty : Cell κ ν)) k v := by
  simp [has_iff_mem]

theorem size_replicate (cap : ℕ) : size (List.replicate cap (Cell.empty : Cell κ ν)) = 0 := by
  rw [size, List.countP_replicate]
  rfl

theorem Valid.pairwise (hvalid : Valid hash t) :
    t.Pairwise fun c d => ∀ k v w, c = .full k v → d ≠ .full k w := by
  refine List.pairwise_iff_getElem.mpr fun i j hi hj hlt k v w hc hd => ?_
  have hij := hvalid.unique i j k v w (by rw [List.getElem?_eq_getElem hi, hc])
    (by rw [List.getElem?_eq_getElem hj, hd])
  omega

variable [DecidableEq κ] {keep : ν → Bool}

/-- Puts the entries that are kept into a table. -/
def refill (hash : κ → ℕ) (keep : ν → Bool) (new : Table κ ν) (cells : List (Cell κ ν)) :
    Table κ ν :=
  cells.foldl (fun new cell => match cell with
    | .full k v => if keep v then put hash new k v else new
    | _ => new) new

theorem refill_spec {cells : List (Cell κ ν)} (hkeep : ∀ k v, Cell.full k v ∈ cells → keep v = true)
    (hdistinct : cells.Pairwise fun c d => ∀ k v w, c = .full k v → d ≠ .full k w)
    {new : Table κ ν} (hvalid : Valid hash new)
    (hnew : ∀ k v w, Cell.full k v ∈ cells → ¬ Has new k w)
    (hroom : new.size + cells.countP Cell.isFull ≤ new.length) :
    Valid hash (refill hash keep new cells) ∧ (refill hash keep new cells).length = new.length ∧
      (refill hash keep new cells).size = new.size + cells.countP Cell.isFull ∧
      ∀ k v, Has (refill hash keep new cells) k v ↔ Has new k v ∨ Cell.full k v ∈ cells := by
  induction cells generalizing new with
  | nil => exact ⟨hvalid, rfl, rfl, fun k v => by simp [refill]⟩
  | cons c cells ih =>
    obtain ⟨hhead, htail⟩ := List.pairwise_cons.mp hdistinct
    have ih := @ih (fun k v h => hkeep k v (List.mem_cons_of_mem _ h)) htail
    cases c with
    | empty | tombstone =>
      have hrest := @ih new hvalid (fun k v w h => hnew k v w (List.mem_cons_of_mem _ h)) hroom
      refine ⟨hrest.1, hrest.2.1, hrest.2.2.1, fun k v => ?_⟩
      rw [List.mem_cons]
      exact (hrest.2.2.2 k v).trans (by simp)
    | full k v =>
      rw [List.countP_cons_of_pos rfl] at hroom
      obtain ⟨i, hi⟩ : ∃ i, findInsert hash new k = some i := exists_findInsert (by omega)
      have hslot := hvalid.slot hi
      have hsize := hslot.size_set (v := v) fun w => hnew k v w List.mem_cons_self
      have hput : put hash new k v = new.set i (.full k v) := by rw [put, hi]
      have hstep : refill hash keep new (.full k v :: cells) =
          refill hash keep (new.set i (.full k v)) cells := by
        rw [← hput]
        exact congrArg (fun t => refill hash keep t cells) (if_pos (hkeep k v List.mem_cons_self))
      have hlen : (new.set i (Cell.full k v)).length = new.length := List.length_set
      have hrest := @ih (new.set i (.full k v)) (hslot.valid hvalid v) ?_ (by omega)
      · rw [hstep]
        refine ⟨hrest.1, hrest.2.1.trans hlen, ?_, fun k' v' => ?_⟩
        · rw [hrest.2.2.1, hsize, List.countP_cons_of_pos rfl]
          omega
        · rw [hrest.2.2.2, hslot.has_set, List.mem_cons]
          split
          next hk =>
            subst hk
            constructor
            · rintro (rfl | hmem)
              · exact .inr (.inl rfl)
              · exact .inr (.inr hmem)
            · rintro (hhas | heq | hmem)
              · exact absurd hhas (hnew _ v v' List.mem_cons_self)
              · injection heq with _ hv
                exact .inl hv
              · exact .inr hmem
          next hk =>
            constructor
            · rintro (hhas | hmem)
              · exact .inl hhas
              · exact .inr (.inr hmem)
            · rintro (hhas | heq | hmem)
              · exact .inl hhas
              · injection heq with hk'
                exact absurd hk' hk
              · exact .inr hmem
      · intro k' v' w hmem
        rw [hslot.has_set]
        split
        next hk => exact fun _ => hhead _ hmem k v v' rfl (hk ▸ rfl)
        next => exact hnew k' v' w (List.mem_cons_of_mem _ hmem)

/-- A larger table has the same entries. -/
theorem Valid.rehash (hvalid : Valid hash t) (hkeep : ∀ k v, Has t k v → keep v = true) {cap : ℕ}
    (hcap : t.size ≤ cap) :
    Valid hash (rehash hash keep cap t) ∧ (Table.rehash hash keep cap t).length = cap ∧
      (Table.rehash hash keep cap t).size = t.size ∧
      ∀ k v, Has (Table.rehash hash keep cap t) k v ↔ Has t k v := by
  have h := refill_spec (fun k v hmem => hkeep k v (has_iff_mem.mpr hmem)) hvalid.pairwise
    (valid_replicate cap : Valid hash _) (fun k v w _ => not_has_replicate cap)
    (by rw [size_replicate, List.length_replicate]; exact (Nat.zero_add _).trans_le hcap)
  rw [size_replicate, List.length_replicate, Nat.zero_add] at h
  refine ⟨h.1, h.2.1, h.2.2.1, fun k v => ?_⟩
  rw [has_iff_mem (t := t)]
  exact (h.2.2.2 k v).trans (or_iff_right (not_has_replicate cap))

end Rehash

end Table

end Probing
