import Corvid.Stores.Model
import Corvid.Lib.Rows

/-!
# The backends of a store

In memory, an operation holds a lock over all records and is a single access. With SQLite it is a
sequence of statements, and a connection of another process can come in between: a write first
selects the revision of the row, and then inserts or updates the row. Whether the update has found a
row is not looked at.

## Main definitions

* `memory`: `InMemoryStoreBackend`
* `sqlite`: `SqliteStoreBackend`, connections to one file
-/

namespace Corvid.Stores

open Store
open Queue (asI64 saturatingAdd)
open Relational (Rows)

variable {V P : Type}

/-! ### In memory -/

inductive MemoryAccess (V P : Type) where
  | getRecord (key : StoreKey)
  | putRecord (key : StoreKey) (record : StoreRecord V P) (now : ℕ)
  | putRecordIfRevision (key : StoreKey) (expectedRevision : ℕ) (record : StoreRecord V P) (now : ℕ)
  | delete (key : StoreKey)
deriving DecidableEq, Repr

namespace MemoryAccess

abbrev Reply : MemoryAccess V P → Type
  | getRecord _ => Option (StoreRecord V P)
  | putRecord .. => StoreRecord V P
  | putRecordIfRevision .. => Except StoreError (StoreRecord V P)
  | delete _ => Unit

abbrev Values (V P : Type) := StoreKey → Option (StoreRecord V P)

/-- The revision of the next record under a key. -/
def nextRevision (existing : Option (StoreRecord V P)) : ℕ :=
  match existing with
  | some existing => saturatingAdd existing.revision 1
  | none => 1

def exec : (q : MemoryAccess V P) → Values V P → Reply q × Values V P
  | getRecord key, values => (values key, values)
  | putRecord key record now, values =>
    let record := record.withMetadata (nextRevision (values key)) now
    (record, Function.update values key (some record))
  | putRecordIfRevision key expectedRevision record now, values =>
    let actualRevision := (values key).map StoreRecord.revision
    if actualRevision ≠ some expectedRevision then
      (.error (storeConflict key expectedRevision actualRevision), values)
    else
      let record := record.withMetadata (saturatingAdd expectedRevision 1) now
      (.ok record, Function.update values key (some record))
  | delete key, values => ((), Function.update values key none)

end MemoryAccess

abbrev memory (V P : Type) : StoreBackend V P where
  State := MemoryAccess.Values V P
  Access := MemoryAccess V P
  Reply := MemoryAccess.Reply
  exec := MemoryAccess.exec
  getRecord key := Prog.query (MemoryAccess.getRecord key)
  putRecord key record now := Prog.query (MemoryAccess.putRecord key record now)
  putRecordIfRevision key expectedRevision record now := do
    let result ← Prog.query (MemoryAccess.putRecordIfRevision key expectedRevision record now)
    Prog.ofExcept result
  delete key := Prog.query (MemoryAccess.delete key)
  stored values key := values key

/-! ### SQLite -/

/-- A row of `corvid_store`. -/
structure StoreRow (V P : Type) where
  key : StoreKey
  value : V
  provenance : Option P
  revision : ℤ
  updatedAtMs : ℤ
deriving DecidableEq, Repr

abbrev StoreRows (V P : Type) := Rows (StoreRow.key (V := V) (P := P))

/-- A row as it is read. -/
def StoreRow.record (row : StoreRow V P) : StoreRecord V P where
  value := row.value
  provenance := row.provenance
  revision := (max row.revision 0).toNat
  updatedAtMs := (max row.updatedAtMs 0).toNat

/-- A row as it is written. -/
def StoreRow.of (key : StoreKey) (record : StoreRecord V P) (revision updatedAtMs : ℕ) :
    StoreRow V P where
  key := key
  value := record.value
  provenance := record.provenance
  revision := asI64 revision
  updatedAtMs := asI64 updatedAtMs

/-- The record that a `select` finds. -/
def selected (rows : StoreRows V P) (key : StoreKey) : Option (StoreRecord V P) :=
  (rows.find key).map StoreRow.record

inductive SqliteAccess (V P : Type) where
  | select (key : StoreKey)
  | currentRevision (key : StoreKey)
  | upsert (key : StoreKey) (record : StoreRecord V P) (nextRevision updatedAtMs : ℕ)
  | update (key : StoreKey) (record : StoreRecord V P) (nextRevision updatedAtMs : ℕ)
      (expectedRevision : ℕ)
  | delete (key : StoreKey)
deriving DecidableEq, Repr

namespace SqliteAccess

abbrev Reply : SqliteAccess V P → Type
  | select _ => Option (StoreRecord V P)
  | currentRevision _ => Option ℕ
  | _ => Unit

/-- The columns that a write sets. -/
def set (record : StoreRecord V P) (revision updatedAtMs : ℕ) (row : StoreRow V P) : StoreRow V P :=
  .of row.key record revision updatedAtMs

theorem key_set (record : StoreRecord V P) (revision updatedAtMs : ℕ) (row : StoreRow V P) :
    (set record revision updatedAtMs row).key = row.key := rfl

def exec : (q : SqliteAccess V P) → StoreRows V P → Reply q × StoreRows V P
  | select key, rows => (selected rows key, rows)
  | currentRevision key, rows => ((selected rows key).map StoreRecord.revision, rows)
  | upsert key record nextRevision updatedAtMs, rows =>
    ((), rows.upsert (.of key record nextRevision updatedAtMs) (set record nextRevision updatedAtMs)
      (key_set record nextRevision updatedAtMs))
  | update key record nextRevision updatedAtMs expectedRevision, rows =>
    ((), rows.update (fun row => row.key = key ∧ row.revision = asI64 expectedRevision)
      (set record nextRevision updatedAtMs) (key_set record nextRevision updatedAtMs))
  | delete key, rows => ((), rows.delete fun row => row.key = key)

end SqliteAccess

abbrev sqlite (V P : Type) : StoreBackend V P where
  State := StoreRows V P
  Access := SqliteAccess V P
  Reply := SqliteAccess.Reply
  exec := SqliteAccess.exec
  getRecord key := Prog.query (SqliteAccess.select key)
  putRecord key record now := do
    let currentRevision ← Prog.query (SqliteAccess.currentRevision key)
    let nextRevision :=
      match currentRevision with
      | some revision => saturatingAdd revision 1
      | none => 1
    Prog.query (SqliteAccess.upsert key record nextRevision now)
    return record.withMetadata nextRevision now
  putRecordIfRevision key expectedRevision record now := do
    let actualRevision ← Prog.query (SqliteAccess.currentRevision key)
    if actualRevision ≠ some expectedRevision then
      throw (storeConflict key expectedRevision actualRevision)
    let nextRevision := saturatingAdd expectedRevision 1
    Prog.query (SqliteAccess.update key record nextRevision now expectedRevision)
    return record.withMetadata nextRevision now
  delete key := Prog.query (SqliteAccess.delete key)
  stored := selected

end Corvid.Stores
