import Corvid.Lib.Store
import Corvid.Queue.Model

/-!
# Stores of sessions and memories

Records that generated accessors read and write, each under a key of a store. A record carries a
revision, which a client can make its next write depend on. Values and provenance chains are only
passed along, so the model is generic in their types.

## Main definitions

* `StoreKey`, `StoreRecord`: what is stored, and where
* `StoreBackend`: the operations of a backend, as programs over its atomic accesses
* `StoreManager.getRecordWithPolicy`, `StoreManager.deleteWithPolicy`: operations under a policy
* `Op`, `Op.prog`: all operations
-/

namespace Corvid.Stores

open Store

inductive StoreKind where
  | session
  | memory
deriving DecidableEq, Repr

def StoreKind.asStr : StoreKind → String
  | session => "session"
  | memory => "memory"

structure StoreKey where
  kind : StoreKind
  store : String
  key : String
deriving DecidableEq, Repr

variable {V P : Type}

structure StoreRecord (V P : Type) where
  value : V
  provenance : Option P
  revision : ℕ
  updatedAtMs : ℕ
deriving DecidableEq, Repr

namespace StoreRecord

def plain (value : V) : StoreRecord V P := ⟨value, none, 0, 0⟩

def grounded (value : V) (provenance : P) : StoreRecord V P := ⟨value, some provenance, 0, 0⟩

def withMetadata (record : StoreRecord V P) (revision updatedAtMs : ℕ) : StoreRecord V P :=
  { record with revision, updatedAtMs }

end StoreRecord

inductive StoreError where
  | storeConflict (kind store key : String) (expectedRevision : ℕ) (actualRevision : Option ℕ)
  | storePolicyViolation (kind store key policy message : String)
deriving DecidableEq, Repr

def storeConflict (key : StoreKey) (expectedRevision : ℕ) (actualRevision : Option ℕ) : StoreError :=
  .storeConflict key.kind.asStr key.store key.key expectedRevision actualRevision

def storePolicyViolation (key : StoreKey) (policy message : String) : StoreError :=
  .storePolicyViolation key.kind.asStr key.store key.key policy message

/-- The policies that the operations below check. -/
structure StorePolicySet where
  ttlMs : Option ℕ
  legalHold : Bool
  provenanceRequired : Bool
deriving DecidableEq, Repr

def StorePolicySet.isExpired (policy : StorePolicySet) (record : StoreRecord V P) (nowMs : ℕ) :
    Bool :=
  match policy.ttlMs with
  | some ttlMs => decide (ttlMs ≤ nowMs - record.updatedAtMs)
  | none => false

/-! ### Backends -/

/-- A backend: its accesses, each of them atomic, and the operations as programs over them. A write
takes the time as an argument. -/
structure StoreBackend (V P : Type) where
  State : Type
  Access : Type
  Reply : Access → Type
  exec : (q : Access) → State → Reply q × State
  getRecord : StoreKey → Prog Reply StoreError (Option (StoreRecord V P))
  putRecord : StoreKey → StoreRecord V P → ℕ → Prog Reply StoreError (StoreRecord V P)
  putRecordIfRevision :
    StoreKey → ℕ → StoreRecord V P → ℕ → Prog Reply StoreError (StoreRecord V P)
  delete : StoreKey → Prog Reply StoreError Unit
  /-- The record that is stored under a key. -/
  stored : State → StoreKey → Option (StoreRecord V P)

namespace StoreBackend

variable (backend : StoreBackend V P)

def get (key : StoreKey) : Prog backend.Reply StoreError (Option V) :=
  Option.map StoreRecord.value <$> backend.getRecord key

def put (key : StoreKey) (value : V) (now : ℕ) : Prog backend.Reply StoreError Unit :=
  (fun _ => ()) <$> backend.putRecord key (.plain value) now

end StoreBackend

/-! ### The manager -/

namespace StoreManager

variable (backend : StoreBackend V P)

def getRecordWithPolicy (key : StoreKey) (policy : StorePolicySet) (now : ℕ) :
    Prog backend.Reply StoreError (Option (StoreRecord V P)) := do
  let record ← backend.getRecord key
  if record.any (policy.isExpired · now) then
    backend.delete key
    return none
  if policy.provenanceRequired && record.any (·.provenance.isNone) then
    throw (storePolicyViolation key "provenance_required" "record has no provenance chain")
  return record

def deleteWithPolicy (key : StoreKey) (policy : StorePolicySet) :
    Prog backend.Reply StoreError Unit := do
  if policy.legalHold then
    throw (storePolicyViolation key "legal_hold"
      "record deletion is blocked while legal hold is active")
  backend.delete key

end StoreManager

/-! ### Operations -/

inductive Op (V P : Type) where
  | get (key : StoreKey)
  | put (key : StoreKey) (value : V) (now : ℕ)
  | getRecord (key : StoreKey)
  | getRecordWithPolicy (key : StoreKey) (policy : StorePolicySet) (now : ℕ)
  | putRecord (key : StoreKey) (record : StoreRecord V P) (now : ℕ)
  | putRecordIfRevision (key : StoreKey) (expectedRevision : ℕ) (record : StoreRecord V P) (now : ℕ)
  | delete (key : StoreKey)
  | deleteWithPolicy (key : StoreKey) (policy : StorePolicySet)
deriving DecidableEq, Repr

/-- What an operation returns. -/
inductive Outcome (V P : Type) where
  | unit
  | value (value : Option V)
  | record (record : Option (StoreRecord V P))
deriving DecidableEq, Repr

def Op.key : Op V P → StoreKey
  | get key => key
  | put key .. => key
  | getRecord key => key
  | getRecordWithPolicy key .. => key
  | putRecord key .. => key
  | putRecordIfRevision key .. => key
  | delete key => key
  | deleteWithPolicy key _ => key

def Op.prog (backend : StoreBackend V P) : Op V P → Prog backend.Reply StoreError (Outcome V P)
  | get key => .value <$> backend.get key
  | put key value now => (fun _ => .unit) <$> backend.put key value now
  | getRecord key => .record <$> backend.getRecord key
  | getRecordWithPolicy key policy now =>
    .record <$> StoreManager.getRecordWithPolicy backend key policy now
  | putRecord key record now => (.record ∘ some) <$> backend.putRecord key record now
  | putRecordIfRevision key expectedRevision record now =>
    (.record ∘ some) <$> backend.putRecordIfRevision key expectedRevision record now
  | delete key => (fun _ => .unit) <$> backend.delete key
  | deleteWithPolicy key policy =>
    (fun _ => .unit) <$> StoreManager.deleteWithPolicy backend key policy

end Corvid.Stores
