import Corvid.Stores.Backends
import Corvid.Lib.Versions

/-!
# Optimistic writes side by side

Any number of clients use one store, and their accesses interleave. A write that depends on a
revision replaces the record that its client has seen with it, as long as revisions keep climbing and
every such write finds the row that it has checked. SQLite does not see to either: another connection
can come in between the check and the write, and the revisions of a key start again after a deletion.

## Main definitions

* `NoLostUpdate`: writes that depend on a revision replace what has been seen with it
* `MemoryAccess.Orderly`, `SqliteAccess.Orderly`: revisions climb and updates find their rows
* `Lawful`: what the argument needs of a backend

## Main results

* `noLostUpdate_of_orderly`: no update is lost, as long as accesses are orderly
* `update_lost`: and one is, otherwise
-/

namespace Corvid.Stores

open Store
open Queue (asI64 asI64_of_lt saturatingAdd u64Max)
open Relational (Rows)

variable {V P : Type}

abbrev StoreLabel (ι : Type) (backend : StoreBackend V P) :=
  Pool.Label ι backend.State backend.Access StoreError (Outcome V P) (Op V P)

abbrev StorePool (ι : Type) (backend : StoreBackend V P) :=
  Pool ι backend.State backend.Reply StoreError (Outcome V P) (Op V P)

/-- Records with the same contents under the same revision. -/
structure StoreRecord.SameVersion (r r' : StoreRecord V P) : Prop where
  value : r.value = r'.value
  provenance : r.provenance = r'.provenance
  revision : r.revision = r'.revision

/-- A write that depends on a revision, and that returns, has replaced the record that all clients
have seen with the revision, by its own record and under the revision that it returns. -/
def NoLostUpdate {ι : Type} (backend : StoreBackend V P) (log : List (StoreLabel ι backend)) : Prop :=
  ∀ pre post i key expectedRevision record now outcome,
    log = pre ++
      .finish i (.putRecordIfRevision key expectedRevision record now) (.ok outcome) :: post →
    ∃ before window s q old new out,
      pre = before ++ .start i (.putRecordIfRevision key expectedRevision record now) :: window ∧
      (∀ op result, .finish i op result ∉ window) ∧ .access i s q ∈ window ∧
      backend.stored s key = some old ∧ old.revision = expectedRevision ∧
      backend.stored (backend.exec q s).2 key = some new ∧ outcome = .record (some out) ∧
      new.SameVersion out ∧ out.value = record.value ∧ out.provenance = record.provenance ∧
      ∀ j op seen, .finish j op (.ok (.record (some seen))) ∈ pre → op.key = key →
        seen.revision = expectedRevision → seen.SameVersion old

/-! ### Orderly accesses -/

/-- The revision is above those of all records that the key has had. -/
def Climbing {σ : Type} (stored : σ → Option (StoreRecord V P)) (states : List σ) (revision : ℕ) :
    Prop :=
  ∀ s ∈ states, ∀ r ∈ stored s, r.revision < revision

def MemoryAccess.Orderly (past : List (Values V P)) (values : Values V P) : MemoryAccess V P → Prop
  | putRecord key _ _ => Climbing (· key) (past ++ [values]) (nextRevision (values key))
  | putRecordIfRevision _ expectedRevision _ _ => expectedRevision < u64Max
  | _ => True

/-- An update finds the row that its call has checked. -/
def SqliteAccess.Orderly (past : List (StoreRows V P)) (rows : StoreRows V P) :
    SqliteAccess V P → Prop
  | upsert key _ nextRevision _ =>
    Climbing (selected · key) (past ++ [rows]) nextRevision ∧ nextRevision < 2 ^ 63
  | update key _ nextRevision _ expectedRevision =>
    (rows.find key).map StoreRow.revision = some (asI64 expectedRevision) ∧ nextRevision < 2 ^ 63
  | _ => True

/-- The revision that an update sets follows the one that it expects. -/
def SqliteAccess.Formed : SqliteAccess V P → Prop
  | update _ _ nextRevision _ expectedRevision => nextRevision = saturatingAdd expectedRevision 1
  | _ => True

/-- All accesses are orderly, after what has been so far. -/
def Orderly {ι : Type} {backend : StoreBackend V P}
    (orderly : List backend.State → backend.State → backend.Access → Prop)
    (log : List (StoreLabel ι backend)) (_ : StorePool ι backend) : StoreLabel ι backend → Prop
  | .access _ s q => orderly (Pool.accessed log) s q
  | _ => True

/-! ### What a backend does -/

theorem StoreRecord.SameVersion.refl (r : StoreRecord V P) : r.SameVersion r := ⟨rfl, rfl, rfl⟩

theorem StoreRecord.SameVersion.symm {r r' : StoreRecord V P} (h : r.SameVersion r') :
    r'.SameVersion r :=
  ⟨h.value.symm, h.provenance.symm, h.revision.symm⟩

/-- Orderly accesses keep revisions climbing, and operations return what they read or write. -/
structure Lawful (backend : StoreBackend V P)
    (orderly : List backend.State → backend.State → backend.Access → Prop)
    (formed : backend.Access → Prop) : Prop where
  all_formed : ∀ op : Op V P, (op.prog backend).All formed
  climbs : ∀ past s q key, orderly past s q → formed q →
    Climbs StoreRecord.revision ((past ++ [s]).map (backend.stored · key)) →
    Climbs StoreRecord.revision ((past ++ [s] ++ [(backend.exec q s).2]).map (backend.stored · key))
  getRecord : ∀ key done r, (backend.getRecord key).Reaches backend.exec done (.ret (some r)) →
    ∃ x ∈ done, backend.stored x.1 key = some r
  putRecord : ∀ key record now done out,
    (backend.putRecord key record now).Reaches backend.exec done (.ret out) →
    ∃ x ∈ done, ∀ past, orderly past x.1 x.2 → ∃ new,
      backend.stored (backend.exec x.2 x.1).2 key = some new ∧ new.SameVersion out
  putRecordIfRevision : ∀ key expectedRevision record now done out,
    (backend.putRecordIfRevision key expectedRevision record now).Reaches backend.exec done
      (.ret out) →
    out.value = record.value ∧ out.provenance = record.provenance ∧
    ∃ x ∈ done, ∀ past, orderly past x.1 x.2 → ∃ old new,
      backend.stored x.1 key = some old ∧ old.revision = expectedRevision ∧
      backend.stored (backend.exec x.2 x.1).2 key = some new ∧ new.SameVersion out

/-- A cell that is not written stays as it is. -/
theorem climbs_keep {σ : Type} {stored : σ → Option (StoreRecord V P)} {past : List σ} {s s' : σ}
    (hkeep : stored s' = stored s)
    (h : Climbs StoreRecord.revision ((past ++ [s]).map stored)) :
    Climbs StoreRecord.revision ((past ++ [s] ++ [s']).map stored) := by
  rw [List.map_append, List.map_append] at *
  simp only [List.map_cons, List.map_nil, hkeep] at *
  exact .keep h

theorem climbs_remove {σ : Type} {stored : σ → Option (StoreRecord V P)} {past : List σ} {s s' : σ}
    (hremove : stored s' = none)
    (h : Climbs StoreRecord.revision ((past ++ [s]).map stored)) :
    Climbs StoreRecord.revision ((past ++ [s] ++ [s']).map stored) := by
  rw [List.map_append]
  simp only [List.map_cons, List.map_nil, hremove]
  exact .remove h

theorem climbs_put {σ : Type} {stored : σ → Option (StoreRecord V P)} {past : List σ} {s s' : σ}
    {r : StoreRecord V P} (hput : stored s' = some r)
    (hclimbing : Climbing stored (past ++ [s]) r.revision)
    (h : Climbs StoreRecord.revision ((past ++ [s]).map stored)) :
    Climbs StoreRecord.revision ((past ++ [s] ++ [s']).map stored) := by
  rw [List.map_append]
  simp only [List.map_cons, List.map_nil, hput]
  refine .put r h fun r' hr' => ?_
  obtain ⟨s₁, hs₁, heq⟩ := List.mem_map.mp hr'
  exact hclimbing s₁ hs₁ r' heq

/-- The record in a cell has the highest revision so far. -/
theorem climbing_of_climbs {σ : Type} (stored : σ → Option (StoreRecord V P)) {past : List σ} {s : σ}
    {old : StoreRecord V P} (hold : stored s = some old)
    (h : Climbs StoreRecord.revision ((past ++ [s]).map stored)) {revision : ℕ}
    (hlt : old.revision < revision) : Climbing stored (past ++ [s]) revision := by
  intro s₁ hs₁ r hr
  rw [List.map_append, List.map_singleton, hold] at h
  refine (h.le ?_).trans_lt hlt
  rw [← hold, ← List.map_singleton (f := stored), ← List.map_append, ← hr]
  exact List.mem_map_of_mem hs₁

/-! ### In memory -/

theorem saturatingAdd_of_lt {n : ℕ} (h : n < u64Max) : saturatingAdd n 1 = n + 1 :=
  min_eq_left h

namespace MemoryAccess

/-- A write that depends on a revision puts its record in the place of one with this revision. -/
theorem putRecordIfRevision_eq (key : StoreKey) (expectedRevision now : ℕ) (record : StoreRecord V P)
    (values : Values V P) :
    (∃ e, exec (.putRecordIfRevision key expectedRevision record now) values = (.error e, values)) ∨
    ∃ old, values key = some old ∧ old.revision = expectedRevision ∧
      exec (.putRecordIfRevision key expectedRevision record now) values =
        (.ok (record.withMetadata (saturatingAdd expectedRevision 1) now),
          Function.update values key
            (some (record.withMetadata (saturatingAdd expectedRevision 1) now))) := by
  by_cases hactual : (values key).map StoreRecord.revision ≠ some expectedRevision
  · exact .inl ⟨_, if_pos hactual⟩
  · obtain ⟨old, hold, hrevision⟩ := Option.map_eq_some_iff.mp (not_not.mp hactual)
    exact .inr ⟨old, hold, hrevision, if_neg hactual⟩

theorem climbs_exec {past : List (Values V P)} {values : Values V P} {q : MemoryAccess V P}
    (hq : q.Orderly past values) (key : StoreKey)
    (h : Climbs StoreRecord.revision ((past ++ [values]).map (· key))) :
    Climbs StoreRecord.revision ((past ++ [values] ++ [(exec q values).2]).map (· key)) := by
  cases q with
  | getRecord key' => exact climbs_keep rfl h
  | putRecord key' record now =>
    by_cases hkey : key = key'
    · subst hkey
      exact climbs_put (Function.update_self ..) hq h
    · exact climbs_keep (Function.update_of_ne hkey ..) h
  | putRecordIfRevision key' expectedRevision record now =>
    obtain ⟨e, heq⟩ | ⟨old, hold, hrevision, heq⟩ :=
      putRecordIfRevision_eq key' expectedRevision now record values
    · exact climbs_keep (by rw [heq]) h
    · rw [heq]
      by_cases hkey : key = key'
      · subst hkey
        refine climbs_put (Function.update_self ..)
          (climbing_of_climbs (fun v : Values V P => v key) hold h ?_) h
        show old.revision < saturatingAdd expectedRevision 1
        rw [saturatingAdd_of_lt hq, hrevision]
        exact Nat.lt_succ_self _
      · exact climbs_keep (Function.update_of_ne hkey ..) h
  | delete key' =>
    by_cases hkey : key = key'
    · subst hkey
      exact climbs_remove (Function.update_self ..) h
    · exact climbs_keep (Function.update_of_ne hkey ..) h

end MemoryAccess

theorem memory_lawful : Lawful (memory V P) MemoryAccess.Orderly fun _ => True where
  all_formed op := Prog.all_true _
  climbs past values q key hq _ h := MemoryAccess.climbs_exec hq key h
  getRecord key done r h := by
    obtain ⟨values, rfl, hr⟩ := Prog.reaches_query_ret.mp h
    exact ⟨_, List.mem_singleton_self _, hr⟩
  putRecord key record now done out h := by
    obtain ⟨values, rfl, rfl⟩ := Prog.reaches_query_ret.mp h
    exact ⟨_, List.mem_singleton_self _, fun _ _ => ⟨_, Function.update_self .., .refl _⟩⟩
  putRecordIfRevision key expectedRevision record now done out h := by
    obtain ⟨values, rest, rfl, hrest⟩ := Prog.reaches_query_bind_ret.mp h
    obtain ⟨hout, -⟩ := Prog.reaches_ofExcept_ret hrest
    obtain ⟨e, heq⟩ | ⟨old, hold, hrevision, heq⟩ :=
      MemoryAccess.putRecordIfRevision_eq key expectedRevision now record values
    · cases (congrArg Prod.fst heq).symm.trans hout
    · obtain rfl := Except.ok.inj ((congrArg Prod.fst heq).symm.trans hout)
      refine ⟨rfl, rfl, _, List.mem_cons_self, fun _ _ => ⟨old, _, hold, hrevision, ?_, .refl _⟩⟩
      exact (congrFun (congrArg Prod.snd heq) key).trans (Function.update_self ..)

/-! ### SQLite -/

theorem StoreRow.record_of {key : StoreKey} {record : StoreRecord V P} {revision updatedAtMs : ℕ}
    (h : revision < 2 ^ 63) :
    (StoreRow.of key record revision updatedAtMs).record.SameVersion
      (record.withMetadata revision updatedAtMs) where
  value := rfl
  provenance := rfl
  revision := by
    show (max (asI64 revision) 0).toNat = revision
    rw [asI64_of_lt h]
    omega

namespace SqliteAccess

variable (rows : StoreRows V P) (key key' : StoreKey) (record : StoreRecord V P)
  (nextRevision updatedAtMs expectedRevision : ℕ)

theorem selected_upsert :
    selected (exec (.upsert key record nextRevision updatedAtMs) rows).2 key' =
      if key' = key then some (StoreRow.of key record nextRevision updatedAtMs).record
      else selected rows key' := by
  unfold selected exec
  dsimp only
  rw [Rows.find_upsert]
  show Option.map _ (if key' = key then _ else _) = _
  split
  next hkey =>
    cases rows.find key' with
    | none => rfl
    | some row => rfl
  next => rfl

theorem selected_delete :
    selected (exec (.delete key) rows).2 key' = if key' = key then none else selected rows key' := by
  unfold selected exec
  dsimp only
  rw [Rows.find_delete]
  cases hfind : rows.find key' with
  | none => simp
  | some row =>
    obtain ⟨-, rfl⟩ := Rows.find_eq_some.mp hfind
    by_cases hkey : row.key = key
    · simp [hkey]
    · simp [hkey]

variable {rows key expectedRevision}

/-- An update that finds its row. -/
theorem selected_update
    (hfound : (rows.find key).map StoreRow.revision = some (asI64 expectedRevision)) :
    selected (exec (.update key record nextRevision updatedAtMs expectedRevision) rows).2 key' =
      if key' = key then some (StoreRow.of key record nextRevision updatedAtMs).record
      else selected rows key' := by
  unfold selected exec
  dsimp only
  rw [Rows.find_update]
  cases hfind : rows.find key' with
  | none =>
    split
    next hkey =>
      rw [← hkey, hfind] at hfound
      cases hfound
    next => rfl
  | some row =>
    obtain ⟨-, rfl⟩ := Rows.find_eq_some.mp hfind
    by_cases hkey : row.key = key
    · subst hkey
      rw [hfind] at hfound
      simp only [Option.map_some, Option.some.injEq] at hfound ⊢
      simp [hfound, set, StoreRow.record, StoreRow.of]
    · simp [hkey]

theorem climbs_exec {past : List (StoreRows V P)} {rows : StoreRows V P} {q : SqliteAccess V P}
    (hq : q.Orderly past rows) (hformed : q.Formed) (key : StoreKey)
    (h : Climbs StoreRecord.revision ((past ++ [rows]).map (selected · key))) :
    Climbs StoreRecord.revision ((past ++ [rows] ++ [(exec q rows).2]).map (selected · key)) := by
  cases q with
  | select key' => exact climbs_keep rfl h
  | currentRevision key' => exact climbs_keep rfl h
  | upsert key' record nextRevision updatedAtMs =>
    obtain ⟨hclimbing, hlt⟩ := hq
    have hselected := selected_upsert rows key' key record nextRevision updatedAtMs
    by_cases hkey : key = key'
    · subst hkey
      refine climbs_put (hselected.trans (if_pos rfl)) ?_ h
      rw [(StoreRow.record_of hlt).revision]
      exact hclimbing
    · exact climbs_keep (hselected.trans (if_neg hkey)) h
  | update key' record nextRevision updatedAtMs expectedRevision =>
    obtain ⟨hfound, hlt⟩ := hq
    have hselected := selected_update key record nextRevision updatedAtMs hfound
    by_cases hkey : key = key'
    · subst hkey
      refine climbs_put (hselected.trans (if_pos rfl)) ?_ h
      rw [(StoreRow.record_of hlt).revision]
      obtain ⟨row, hrow, hrevision⟩ := Option.map_eq_some_iff.mp hfound
      have hold : selected rows key = some row.record := by rw [selected, hrow, Option.map_some]
      refine climbing_of_climbs (selected · key) hold h ?_
      -- the row has the expected revision, which is too small to wrap around
      have hexpected : expectedRevision + 1 = nextRevision := by
        rw [hformed, saturatingAdd, u64Max]
        rw [hformed, saturatingAdd, u64Max] at hlt
        omega
      show (max row.revision 0).toNat < nextRevision
      rw [hrevision, asI64_of_lt (by omega)]
      omega
    · exact climbs_keep (hselected.trans (if_neg hkey)) h
  | delete key' =>
    have hselected := selected_delete rows key' key
    by_cases hkey : key = key'
    · exact climbs_remove (hselected.trans (if_pos hkey)) h
    · exact climbs_keep (hselected.trans (if_neg hkey)) h

end SqliteAccess

theorem sqlite_lawful : Lawful (sqlite V P) SqliteAccess.Orderly SqliteAccess.Formed where
  all_formed op := by
    cases op with
    | get key => exact Prog.all_map (Prog.all_map ⟨trivial, fun _ => trivial⟩)
    | put key value now =>
      exact Prog.all_map (Prog.all_map ⟨trivial, fun _ => ⟨trivial, fun _ => trivial⟩⟩)
    | getRecord key => exact Prog.all_map ⟨trivial, fun _ => trivial⟩
    | getRecordWithPolicy key policy now =>
      refine Prog.all_map (Prog.all_query_bind trivial fun record => ?_)
      split
      next => exact ⟨trivial, fun _ => trivial⟩
      next => split <;> trivial
    | putRecord key record now =>
      exact Prog.all_map ⟨trivial, fun _ => ⟨trivial, fun _ => trivial⟩⟩
    | putRecordIfRevision key expectedRevision record now =>
      refine Prog.all_map (Prog.all_query_bind trivial fun actualRevision => ?_)
      split
      next => trivial
      next => exact ⟨rfl, fun _ => trivial⟩
    | delete key => exact Prog.all_map ⟨trivial, fun _ => trivial⟩
    | deleteWithPolicy key policy =>
      refine Prog.all_map ?_
      unfold StoreManager.deleteWithPolicy
      split
      next => trivial
      next => exact ⟨trivial, fun _ => trivial⟩
  climbs past rows q key hq hformed h := SqliteAccess.climbs_exec hq hformed key h
  getRecord key done r h := by
    obtain ⟨rows, rfl, hr⟩ := Prog.reaches_query_ret.mp h
    exact ⟨_, List.mem_singleton_self _, hr⟩
  putRecord key record now done out h := by
    obtain ⟨rows, rest, rfl, hrest⟩ := Prog.reaches_query_bind_ret.mp h
    obtain ⟨rows', rest', rfl, hret⟩ := Prog.reaches_query_bind_ret.mp hrest
    obtain rfl := Prog.reaches_ret_ret hret
    refine ⟨_, List.mem_cons_of_mem _ List.mem_cons_self, fun past hq => ?_⟩
    exact ⟨_, (SqliteAccess.selected_upsert ..).trans (if_pos rfl), StoreRow.record_of hq.2⟩
  putRecordIfRevision key expectedRevision record now done out h := by
    obtain ⟨rows, rest, rfl, hrest⟩ := Prog.reaches_query_bind_ret.mp h
    split at hrest
    next => exact absurd hrest Prog.not_reaches_fail_ret
    next =>
      obtain ⟨rows', rest', rfl, hret⟩ := Prog.reaches_query_bind_ret.mp hrest
      obtain rfl := Prog.reaches_ret_ret hret
      refine ⟨rfl, rfl, _, List.mem_cons_of_mem _ List.mem_cons_self, fun past hq => ?_⟩
      obtain ⟨hfound, hlt⟩ := hq
      obtain ⟨row, hrow, hrevision⟩ := Option.map_eq_some_iff.mp hfound
      refine ⟨row.record, _, ?_, ?_, (SqliteAccess.selected_update _ _ _ _ hfound).trans (if_pos rfl),
        StoreRow.record_of hlt⟩
      · show selected rows' key = _
        rw [selected, hrow, Option.map_some]
      · show (max row.revision 0).toNat = expectedRevision
        rw [saturatingAdd, u64Max] at hlt
        rw [hrevision, asI64_of_lt (by omega)]
        omega

/-! ### Any backend -/

section Runs

variable {ι : Type} [DecidableEq ι] {backend : StoreBackend V P}
  {orderly : List backend.State → backend.State → backend.Access → Prop}
  {formed : backend.Access → Prop} {s₀ : backend.State} {log : List (StoreLabel ι backend)}
  {c : StorePool ι backend}

/-- An operation that returns a record has read or written it. -/
theorem Lawful.returns (h : Lawful backend orderly formed) {op : Op V P}
    {done : List (backend.State × backend.Access)} {seen : StoreRecord V P}
    (hreach : (op.prog backend).Reaches backend.exec done (.ret (.record (some seen)))) :
    ∃ x ∈ done, ∀ past, orderly past x.1 x.2 → ∃ r, r.SameVersion seen ∧
      (backend.stored x.1 op.key = some r ∨
        backend.stored (backend.exec x.2 x.1).2 op.key = some r) := by
  have hread : ∀ key done', (backend.getRecord key).Reaches backend.exec done' (.ret (some seen)) →
      ∃ x ∈ done', ∀ past, orderly past x.1 x.2 → ∃ r, r.SameVersion seen ∧
        (backend.stored x.1 key = some r ∨ backend.stored (backend.exec x.2 x.1).2 key = some r) := by
    intro key done' hget
    obtain ⟨x, hx, hr⟩ := h.getRecord _ _ _ hget
    exact ⟨x, hx, fun _ _ => ⟨seen, .refl _, .inl hr⟩⟩
  cases op with
  | getRecord key =>
    obtain ⟨r, heq, hget⟩ := Prog.reaches_map_ret hreach
    cases heq
    exact hread _ _ hget
  | getRecordWithPolicy key policy now =>
    obtain ⟨r, heq, hget⟩ := Prog.reaches_map_ret hreach
    cases heq
    obtain ⟨d₁, d₂, record, rfl, hget, hrest⟩ := Prog.reaches_bind_ret hget
    -- only a record that has not expired is returned
    obtain rfl : record = some seen := by
      split at hrest
      next =>
        obtain ⟨_, _, _, -, -, hnone⟩ := Prog.reaches_bind_ret hrest
        cases Prog.reaches_ret_ret hnone
      next =>
        dsimp only at hrest
        split at hrest
        next => exact absurd hrest Prog.not_reaches_fail_ret
        next => exact (Prog.reaches_ret_ret hrest).symm
    obtain ⟨x, hx, hr⟩ := hread _ _ hget
    exact ⟨x, List.mem_append_left _ hx, hr⟩
  | putRecord key record now =>
    obtain ⟨out, heq, hput⟩ := Prog.reaches_map_ret hreach
    cases heq
    obtain ⟨x, hx, hr⟩ := h.putRecord _ _ _ _ _ hput
    refine ⟨x, hx, fun past hq => ?_⟩
    obtain ⟨new, hnew, hsame⟩ := hr past hq
    exact ⟨new, hsame, .inr hnew⟩
  | putRecordIfRevision key expectedRevision record now =>
    obtain ⟨out, heq, hput⟩ := Prog.reaches_map_ret hreach
    cases heq
    obtain ⟨-, -, x, hx, hr⟩ := h.putRecordIfRevision _ _ _ _ _ _ hput
    refine ⟨x, hx, fun past hq => ?_⟩
    obtain ⟨-, new, -, -, hnew, hsame⟩ := hr past hq
    exact ⟨new, hsame, .inr hnew⟩
  | get key => obtain ⟨_, heq, -⟩ := Prog.reaches_map_ret hreach; cases heq
  | put key value now => obtain ⟨_, heq, -⟩ := Prog.reaches_map_ret hreach; cases heq
  | delete key => obtain ⟨_, heq, -⟩ := Prog.reaches_map_ret hreach; cases heq
  | deleteWithPolicy key policy => obtain ⟨_, heq, -⟩ := Prog.reaches_map_ret hreach; cases heq

/-- The accesses of a run are orderly. -/
theorem orderly_of_mem
    (hrun : Pool.Run backend.exec (Op.prog backend) s₀ (Orderly orderly) log c) {i : ι}
    {s : backend.State} {q : backend.Access} (hmem : .access i s q ∈ log) :
    ∃ past, orderly past s q := by
  obtain ⟨pre, post, rfl⟩ := List.append_of_mem hmem
  obtain ⟨_, _, _, _, hq⟩ := hrun.split
  exact ⟨_, hq⟩

theorem Lawful.climbs_of_run (h : Lawful backend orderly formed)
    (hrun : Pool.Run backend.exec (Op.prog backend) s₀ (Orderly orderly) log c) (key : StoreKey) :
    Climbs StoreRecord.revision ((Pool.states log c).map (backend.stored · key)) :=
  hrun.climbs h.all_formed fun _ _ _ s q hq hformed => h.climbs _ s q key hq hformed

/-- In a run of orderly accesses, a record that has been returned has been stored. -/
theorem Lawful.stored_of_finish (h : Lawful backend orderly formed)
    (hrun : Pool.Run backend.exec (Op.prog backend) s₀ (Orderly orderly) log c) {i : ι} {op : Op V P}
    {seen : StoreRecord V P} (hmem : .finish i op (.ok (.record (some seen))) ∈ log) :
    ∃ s ∈ Pool.states log c, ∃ r, backend.stored s op.key = some r ∧ r.SameVersion seen := by
  obtain ⟨pre, post, rfl⟩ := List.append_of_mem hmem
  obtain ⟨done, window, before, hreach, rfl, -, hdone⟩ := hrun.of_finish
  obtain ⟨x, hx, hr⟩ := h.returns hreach
  have haccess : Pool.Label.access i x.1 x.2 ∈
      before ++ .start i op :: window ++ .finish i op (.ok (.record (some seen))) :: post :=
    List.mem_append_left _ (List.mem_append_right _ (List.mem_cons_of_mem _ (hdone x hx)))
  obtain ⟨past, hq⟩ := orderly_of_mem hrun haccess
  obtain ⟨hbefore, hafter⟩ := hrun.mem_states haccess
  obtain ⟨r, hsame, hr | hr⟩ := hr past hq
  · exact ⟨_, hbefore, r, hr, hsame⟩
  · exact ⟨_, hafter, r, hr, hsame⟩

theorem Lawful.noLostUpdate (h : Lawful backend orderly formed)
    (hrun : Pool.Run backend.exec (Op.prog backend) s₀ (Orderly orderly) log c) :
    NoLostUpdate backend log := by
  rintro pre post i key expectedRevision record now outcome rfl
  obtain ⟨c₁, c₂, hpre, -, -⟩ := hrun.split
  obtain ⟨done, window, before, hreach, rfl, hfinish, hdone⟩ := hrun.of_finish
  obtain ⟨out, rfl, hput⟩ := Prog.reaches_map_ret hreach
  obtain ⟨hvalue, hprovenance, x, hx, hr⟩ := h.putRecordIfRevision _ _ _ _ _ _ hput
  have haccess : Pool.Label.access i x.1 x.2 ∈ before ++
      .start i (.putRecordIfRevision key expectedRevision record now) :: window :=
    List.mem_append_right _ (List.mem_cons_of_mem _ (hdone x hx))
  obtain ⟨past, hq⟩ := orderly_of_mem hpre haccess
  obtain ⟨old, new, hold, hrevision, hnew, hsame⟩ := hr past hq
  refine ⟨before, window, x.1, x.2, old, new, out, rfl, hfinish, hdone x hx, hold, hrevision, hnew,
    rfl, hsame, hvalue, hprovenance, fun j op seen hseen hkey heq => ?_⟩
  -- what has been seen has been stored, and revisions are unique
  obtain ⟨s, hs, r, hstored, hsame'⟩ := h.stored_of_finish hpre hseen
  subst hkey
  have hunique : r = old := by
    refine (h.climbs_of_run hpre op.key).unique ?_ ?_ ((hsame'.revision.trans heq).trans hrevision.symm)
    · exact List.mem_map.mpr ⟨s, hs, hstored⟩
    · exact List.mem_map.mpr ⟨x.1, (hpre.mem_states haccess).1, hold⟩
  exact hunique ▸ hsame'.symm

end Runs

/-- No update is lost in a run whose accesses are orderly. -/
theorem noLostUpdate_of_orderly {ι : Type} [DecidableEq ι] :
    (∀ (s₀ : MemoryAccess.Values V P) (log : List (StoreLabel ι (memory V P))) c,
      Pool.Run (memory V P).exec (Op.prog (memory V P)) s₀ (Orderly MemoryAccess.Orderly) log c →
        NoLostUpdate (memory V P) log) ∧
    ∀ (s₀ : StoreRows V P) (log : List (StoreLabel ι (sqlite V P))) c,
      Pool.Run (sqlite V P).exec (Op.prog (sqlite V P)) s₀ (Orderly SqliteAccess.Orderly) log c →
        NoLostUpdate (sqlite V P) log :=
  ⟨fun _ _ _ hrun => memory_lawful.noLostUpdate hrun, fun _ _ _ hrun => sqlite_lawful.noLostUpdate hrun⟩

/-! ### Two connections -/

instance {σ : Type} (stored : σ → Option (StoreRecord V P)) (states : List σ) (revision : ℕ) :
    Decidable (Climbing stored states revision) :=
  inferInstanceAs (Decidable (∀ s ∈ states, ∀ r ∈ stored s, r.revision < revision))

instance (past : List (MemoryAccess.Values V P)) (values : MemoryAccess.Values V P) :
    (q : MemoryAccess V P) → Decidable (q.Orderly past values)
  | .getRecord _ => .isTrue trivial
  | .putRecord key .. =>
    inferInstanceAs (Decidable (Climbing (fun v : MemoryAccess.Values V P => v key) _ _))
  | .putRecordIfRevision .. => inferInstanceAs (Decidable (_ < _))
  | .delete _ => .isTrue trivial

instance (past : List (StoreRows V P)) (rows : StoreRows V P) :
    (q : SqliteAccess V P) → Decidable (q.Orderly past rows)
  | .select _ => .isTrue trivial
  | .currentRevision _ => .isTrue trivial
  | .upsert .. => inferInstanceAs (Decidable (_ ∧ _))
  | .update .. => inferInstanceAs (Decidable (_ ∧ _))
  | .delete _ => .isTrue trivial

section Examples

/-- Whether all accesses of a log are orderly. -/
def orderlyLog {ι : Type} {backend : StoreBackend V P}
    (test : List backend.State → backend.State → backend.Access → Bool)
    (log : List (StoreLabel ι backend)) : Bool :=
  (List.range log.length).all fun n =>
    match log[n]? with
    | some (.access _ s q) => test (Pool.accessed (log.take n)) s q
    | _ => true

theorem run_of_orderlyLog {ι : Type} [DecidableEq ι] {backend : StoreBackend V P}
    {orderly : List backend.State → backend.State → backend.Access → Prop}
    [∀ past s q, Decidable (orderly past s q)] {s₀ : backend.State}
    {log : List (StoreLabel ι backend)} {c : StorePool ι backend}
    (h : Pool.Run backend.exec (Op.prog backend) s₀ (fun _ _ _ => True) log c)
    (htest : orderlyLog (fun past s q => decide (orderly past s q)) log) :
    Pool.Run backend.exec (Op.prog backend) s₀ (Orderly orderly) log c := by
  refine h.of_forall (D := fun log l => Orderly orderly log c l) fun n l hn => ?_
  have hlt : n < log.length := (List.getElem?_eq_some_iff.mp hn).1
  have htest' := List.all_eq_true.mp htest n (List.mem_range.mpr hlt)
  rw [hn] at htest'
  cases l with
  | access i s q => exact of_decide_eq_true (p := orderly _ _ _) htest'
  | start i op => trivial
  | finish i op result => trivial

private def profile : StoreKey := ⟨.session, "users", "ann"⟩

private def write (n : ℕ) : Op ℕ Unit := .putRecordIfRevision profile 1 (.plain n) 7

/-- A client writes a record, and then depends on its revision. -/
def inTurn : List (String × Op ℕ Unit) :=
  .replicate 4 ("a", .putRecord profile (.plain 1) 5) ++ .replicate 4 ("a", write 2)

theorem noLostUpdate_inTurn :
    NoLostUpdate (memory ℕ Unit)
        (Pool.play (memory ℕ Unit).exec (Op.prog _) (fun _ => none) inTurn).1 ∧
      NoLostUpdate (sqlite ℕ Unit)
        (Pool.play (sqlite ℕ Unit).exec (Op.prog _) Rows.empty inTurn).1 :=
  ⟨noLostUpdate_of_orderly.1 _ _ _ (run_of_orderlyLog (Pool.run_play inTurn) (by decide +kernel)),
    noLostUpdate_of_orderly.2 _ _ _ (run_of_orderlyLog (Pool.run_play inTurn) (by decide +kernel))⟩

/-- Two connections depend on the same revision, and check it before either of them writes. -/
def overlapping : List (String × Op ℕ Unit) :=
  .replicate 4 ("a", .putRecord profile (.plain 1) 5) ++
    [("a", write 2), ("a", write 2), ("b", write 3), ("b", write 3), ("a", write 2), ("a", write 2),
      ("b", write 3)]

/-- Whether an access of a thread replaces a record with a revision by one with the next. -/
def replaces (i : String) (key : StoreKey) (revision : ℕ) : StoreLabel String (sqlite ℕ Unit) → Bool
  | .access j s q =>
    j = i && (selected s key).map StoreRecord.revision = some revision &&
      (selected (SqliteAccess.exec q s).2 key).map StoreRecord.revision = some (revision + 1)
  | _ => false

theorem update_lost : ¬ ∀ (s₀ : StoreRows ℕ Unit) (log : List (StoreLabel String (sqlite ℕ Unit))) c,
    Pool.Run (sqlite ℕ Unit).exec (Op.prog (sqlite ℕ Unit)) s₀ (fun _ _ _ => True) log c →
      NoLostUpdate (sqlite ℕ Unit) log := by
  intro h
  have hlog : (Pool.play (sqlite ℕ Unit).exec (Op.prog _) Rows.empty
      (overlapping ++ [("b", write 3)])).1 =
      (Pool.play (sqlite ℕ Unit).exec (Op.prog _) Rows.empty overlapping).1 ++
        [.finish "b" (write 3) (.ok (.record (some ⟨3, none, 2, 7⟩)))] := by
    rw [Pool.play_snoc]
    rfl
  obtain ⟨before, window, s, q, old, new, out, hpre, -, hmem, hold, hrevision, hnew, hout, hsame, -⟩ :=
    h _ _ _ (Pool.run_play (overlapping ++ [("b", write 3)])) _ [] _ _ _ _ _ _ hlog
  obtain rfl := Option.some.inj (Outcome.record.inj hout)
  -- the access of `b` that would have replaced the record
  have hreplaces : replaces "b" profile 1 (.access "b" s q) := by
    have hold' : selected s profile = some old := hold
    have hnew' : selected (SqliteAccess.exec q s).2 profile = some new := hnew
    simp [replaces, hold', hnew', hrevision, hsame.revision]
  have hnone : (Pool.play (sqlite ℕ Unit).exec (Op.prog _) Rows.empty overlapping).1.all
      fun l => !replaces "b" profile 1 l := by
    decide +kernel
  rw [hpre] at hnone
  have hnot := List.all_eq_true.mp hnone _
    (List.mem_append_right _ (List.mem_cons_of_mem _ hmem))
  rw [hreplaces] at hnot
  cases hnot

end Examples

end Corvid.Stores
