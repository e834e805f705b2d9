import Corvid.Approvals.Model
import Corvid.Lib.Store
import Corvid.Lib.Text

/-!
# The approval queue

Each operation as a program over the accesses of the approval store. A read and a transaction are
atomic; between two accesses of an operation other operations may run. A transaction that fails is
rolled back. Operations that read the clock take the time as an argument.

## Main definitions

* `ApprovalDb`: the tables
* `Access`, `Access.exec`: the accesses, and what they do
* `create`, `transitionStatusAt`, `expire`, `delegate`, `comment`: the operations
* `auditCoverage`: whether the audit events of an approval are complete
* `Op`, `Op.prog`: all operations that write
-/

namespace Corvid.Approvals

open Store
open Queue (blank)

/-! ### Tables -/

structure ApprovalDb where
  contracts : List ApprovalContractRecord
  queue : List ApprovalQueueRecord
  audit : List ApprovalQueueAuditEvent
deriving DecidableEq, Repr

namespace ApprovalDb

def empty : ApprovalDb := ⟨[], [], []⟩

def find (db : ApprovalDb) (id : String) : Option ApprovalQueueRecord :=
  db.queue.find? (·.id = id)

end ApprovalDb

def sameKey (contract c : ApprovalContractRecord) : Bool :=
  c.id = contract.id ∧ c.version = contract.version

/-- A contract with the same id and version is overwritten, but for the time of its creation. -/
def upsertContract (contract : ApprovalContractRecord) (now : ℕ)
    (contracts : List ApprovalContractRecord) : List ApprovalContractRecord :=
  if contracts.any (sameKey contract) then
    contracts.map fun c =>
      if sameKey contract c then { contract with createdMs := c.createdMs } else c
  else contracts ++ [{ contract with createdMs := now }]

def sqliteError {α : Type} (message : String) : Except RuntimeError α :=
  .error (.other s!"approval queue sqlite error: {message}")

def auditId (approvalId : String) (createdMs : ℕ) (kind : EventKind) : String :=
  s!"{approvalId}:audit:{createdMs}:{kind.text}"

def auditEvent (approvalId tenantId actorId : String) (kind : EventKind)
    (before : Option ApprovalStatus) (after : ApprovalStatus) (reason : Option String)
    (traceId : String) (createdMs : ℕ) : ApprovalQueueAuditEvent where
  id := auditId approvalId createdMs kind
  approvalId := approvalId
  tenantId := tenantId
  actorId := actorId
  eventKind := kind
  statusBefore := before
  statusAfter := after
  reason := reason
  traceId := traceId
  createdMs := createdMs

def insertAuditTx (event : ApprovalQueueAuditEvent) (db : ApprovalDb) :
    Except RuntimeError ApprovalDb :=
  if db.audit.any (·.id = event.id) then
    sqliteError "UNIQUE constraint failed: approval_queue_audit.id"
  else .ok { db with audit := db.audit ++ [event] }

/-- An `update` of the row of a tenant's approval, provided that it is pending. -/
def updatePending (id tenantId : String) (f : ApprovalQueueRecord → ApprovalQueueRecord)
    (queue : List ApprovalQueueRecord) : List ApprovalQueueRecord :=
  queue.map fun r => if r.id = id ∧ r.tenantId = tenantId ∧ r.status = .pending then f r else r

def ApprovalQueueRecord.decided (after : ApprovalStatus) (actorId : String) (atMs : ℕ)
    (r : ApprovalQueueRecord) : ApprovalQueueRecord :=
  { r with status := after, approverActorId := some actorId, updatedMs := atMs }

def ApprovalQueueRecord.delegated (delegatedToActorId : String) (now : ℕ)
    (r : ApprovalQueueRecord) : ApprovalQueueRecord :=
  { r with delegatedToActorId := some delegatedToActorId, updatedMs := now }

/-! ### Accesses -/

inductive Access where
  | get (id : String)
  | auditEvents (approvalId : String)
  | create (input : ApprovalCreate) (now : ℕ)
  | decide (id tenantId actorId : String) (kind : EventKind) (before after : ApprovalStatus)
      (reason : Option String) (traceId : String) (atMs : ℕ)
  | delegate (id tenantId actorId delegatedToActorId : String) (before : ApprovalStatus)
      (reason : Option String) (traceId : String) (now : ℕ)
  | comment (id tenantId actorId text : String) (before : ApprovalStatus) (traceId : String)
      (now : ℕ)
deriving DecidableEq, Repr

namespace Access

abbrev Reply : Access → Type
  | get _ => Option ApprovalQueueRecord
  | auditEvents _ => List ApprovalQueueAuditEvent
  | create .. => Except RuntimeError Unit
  | decide .. => Except RuntimeError Unit
  | delegate .. => Except RuntimeError Unit
  | comment .. => Except RuntimeError Unit

/-- The transaction of an access that writes. -/
def tx : Access → ApprovalDb → Except RuntimeError ApprovalDb
  | get _, db => .ok db
  | auditEvents _, db => .ok db
  | create input now, db =>
    let db := { db with contracts := upsertContract input.contract now db.contracts }
    if db.queue.any (·.id = input.id) then
      sqliteError "UNIQUE constraint failed: approval_queue.id"
    else
      insertAuditTx (auditEvent input.id input.tenantId input.requesterActorId .created none .pending
        (some "approval created") input.traceId now)
        { db with queue := db.queue ++ [input.record now] }
  | decide id tenantId actorId kind before after reason traceId atMs, db =>
    insertAuditTx (auditEvent id tenantId actorId kind before after reason traceId atMs)
      { db with queue := updatePending id tenantId (.decided after actorId atMs) db.queue }
  | delegate id tenantId actorId delegatedToActorId before reason traceId now, db =>
    insertAuditTx (auditEvent id tenantId actorId .delegated before before reason traceId now)
      { db with queue := updatePending id tenantId (.delegated delegatedToActorId now) db.queue }
  | comment id tenantId actorId text before traceId now, db =>
    insertAuditTx (auditEvent id tenantId actorId .commented before before (some text) traceId now) db

/-- The store after an access: that of a failed transaction is unchanged. -/
def next (q : Access) (db : ApprovalDb) : ApprovalDb := (q.tx db).toOption.getD db

def done (q : Access) (db : ApprovalDb) : Except RuntimeError Unit := (q.tx db).map fun _ => ()

def exec : (q : Access) → ApprovalDb → q.Reply × ApprovalDb
  | get id, db => (db.find id, db)
  | auditEvents approvalId, db => (db.audit.filter (·.approvalId = approvalId), db)
  | create input now, db => ((create input now).done db, (create input now).next db)
  | decide id tenantId actorId kind before after reason traceId atMs, db =>
    let q := decide id tenantId actorId kind before after reason traceId atMs
    (q.done db, q.next db)
  | delegate id tenantId actorId delegatedToActorId before reason traceId now, db =>
    let q := delegate id tenantId actorId delegatedToActorId before reason traceId now
    (q.done db, q.next db)
  | comment id tenantId actorId text before traceId now, db =>
    let q := comment id tenantId actorId text before traceId now
    (q.done db, q.next db)

end Access

/-! ### Operations -/

abbrev ApprovalM := Prog Access.Reply RuntimeError

abbrev access (q : Access) : ApprovalM q.Reply := Prog.query q

def other {α : Type} (message : String) : ApprovalM α := .fail (.other message)

/-- The value of a check, or its error. -/
def check {α : Type} : Except RuntimeError α → ApprovalM α
  | .ok a => .ret a
  | .error err => .fail err

def getOrNotFound (id : String) : ApprovalM ApprovalQueueRecord := do
  match ← access (.get id) with
  | some approval => return approval
  | none => other s!"approval `{id}` not found"

def requireTenant (id tenantId : String) : ApprovalM ApprovalQueueRecord := do
  check (validateValue "approval id" id)
  check (validateValue "tenant id" tenantId)
  let approval ← getOrNotFound id
  if approval.tenantId ≠ tenantId then other "approval tenant mismatch"
  else return approval

def requirePending (id tenantId : String) : ApprovalM ApprovalQueueRecord := do
  let approval ← requireTenant id tenantId
  if approval.status ≠ .pending then other s!"approval `{id}` is not pending"
  else return approval

def create (input : ApprovalCreate) (now : ℕ) : ApprovalM ApprovalQueueRecord := do
  check (validateCreate input)
  if input.tenantId ≠ input.contract.tenantId then
    other "approval tenant must match contract tenant"
  else
    let policy := validateApprovalContractPolicyAt input.contract now
    if !policy.valid then
      other ("approval contract policy violation: " ++ ",".intercalate policy.violations)
    else
      check (← access (.create input now))
      getOrNotFound input.id

def transitionStatusAt (id tenantId : String) (actor : ApprovalActorContext)
    (transition : ApprovalTransitionKind) (kind : EventKind) (statusAfter : ApprovalStatus)
    (reason : Option String) (atMs : ℕ) : ApprovalM ApprovalQueueRecord := do
  check (validateValue "approval id" id)
  check (validateValue "tenant id" tenantId)
  let existing ← requirePending id tenantId
  check (authorizeApprovalTransition existing actor transition atMs)
  check (← access (.decide id tenantId actor.actorId kind existing.status statusAfter reason
    existing.traceId atMs))
  getOrNotFound id

def approveAt (id tenantId : String) (actor : ApprovalActorContext) (reason : Option String)
    (atMs : ℕ) : ApprovalM ApprovalQueueRecord :=
  transitionStatusAt id tenantId actor .approve .approved .approved reason atMs

def deny (id tenantId : String) (actor : ApprovalActorContext) (reason : Option String) (now : ℕ) :
    ApprovalM ApprovalQueueRecord :=
  transitionStatusAt id tenantId actor .deny .denied .denied reason now

def transitionExpiredAt (id tenantId actorId : String) (reason : Option String) (atMs : ℕ) :
    ApprovalM ApprovalQueueRecord := do
  check (validateValue "approval id" id)
  check (validateValue "tenant id" tenantId)
  check (validateValue "actor id" actorId)
  let existing ← requirePending id tenantId
  check (← access (.decide id tenantId actorId .expired existing.status .expired reason
    existing.traceId atMs))
  getOrNotFound id

def expire (id tenantId actorId : String) (reason : Option String) (atMs : ℕ) :
    ApprovalM ApprovalQueueRecord := do
  let existing ← requirePending id tenantId
  if atMs < existing.expiresMs then other "approval cannot expire before contract expiry"
  else transitionExpiredAt id tenantId actorId reason atMs

def comment (id tenantId actorId text : String) (now : ℕ) : ApprovalM ApprovalQueueAuditEvent := do
  check (validateValue "comment" text)
  let existing ← requireTenant id tenantId
  check (← access (.comment id tenantId actorId text existing.status existing.traceId now))
  match (← access (.auditEvents id)).reverse.find? (·.eventKind = .commented) with
  | some event => return event
  | none => other s!"approval `{id}` comment audit not found"

/-- The clock is read once for the authorization, and once for the update. -/
def delegate (id tenantId : String) (actor : ApprovalActorContext) (delegatedToActorId : String)
    (reason : Option String) (authorizedMs now : ℕ) : ApprovalM ApprovalQueueRecord := do
  check (validateValue "delegated actor id" delegatedToActorId)
  let existing ← requirePending id tenantId
  check (authorizeApprovalTransition existing actor .delegate authorizedMs)
  check (authorizeApprovalDelegateTarget existing delegatedToActorId)
  check (← access (.delegate id tenantId actor.actorId delegatedToActorId existing.status reason
    existing.traceId now))
  getOrNotFound id

/-! ### Audit coverage -/

structure ApprovalAuditCoverage where
  approvalId : String
  tenantId : String
  traceId : String
  currentStatus : ApprovalStatus
  eventCount : ℕ
  hasCreate : Bool
  hasTerminalTransition : Bool
  complete : Bool
deriving DecidableEq, Repr

/-- The event belongs to the tenant and the trace of the approval. -/
def linked (approval : ApprovalQueueRecord) (event : ApprovalQueueAuditEvent) : Bool :=
  event.traceId = approval.traceId ∧ event.tenantId = approval.tenantId

def coverage (approval : ApprovalQueueRecord) (events : List ApprovalQueueAuditEvent) :
    ApprovalAuditCoverage :=
  let hasCreate := events.any fun e =>
    e.eventKind = .created ∧ e.statusBefore = none ∧ e.statusAfter = .pending ∧ linked approval e
  let hasTerminalTransition := approval.status = .pending ∨ events.any fun e =>
    e.statusBefore = some .pending ∧ e.statusAfter = approval.status ∧ linked approval e
  let allTraceLinked := events.all fun e =>
    e.approvalId = approval.id ∧ linked approval e ∧ ¬ blank e.actorId ∧ ¬ blank e.eventKind.text
  { approvalId := approval.id
    tenantId := approval.tenantId
    traceId := approval.traceId
    currentStatus := approval.status
    eventCount := events.length
    hasCreate := hasCreate
    hasTerminalTransition := hasTerminalTransition
    complete := hasCreate ∧ hasTerminalTransition ∧ allTraceLinked }

def auditCoverage (id : String) : ApprovalM ApprovalAuditCoverage := do
  let approval ← getOrNotFound id
  return coverage approval (← access (.auditEvents id))

/-! ### All operations -/

inductive Op where
  | create (input : ApprovalCreate) (now : ℕ)
  | approveAt (id tenantId : String) (actor : ApprovalActorContext) (reason : Option String)
      (atMs : ℕ)
  | deny (id tenantId : String) (actor : ApprovalActorContext) (reason : Option String) (now : ℕ)
  | expire (id tenantId actorId : String) (reason : Option String) (atMs : ℕ)
  | delegate (id tenantId : String) (actor : ApprovalActorContext) (delegatedToActorId : String)
      (reason : Option String) (authorizedMs now : ℕ)
  | comment (id tenantId actorId text : String) (now : ℕ)
deriving DecidableEq, Repr

inductive Outcome where
  | record (approval : ApprovalQueueRecord)
  | event (event : ApprovalQueueAuditEvent)
deriving DecidableEq, Repr

namespace Op

def prog : Op → ApprovalM Outcome
  | create input now => .record <$> Approvals.create input now
  | approveAt id tenantId actor reason atMs =>
    .record <$> Approvals.approveAt id tenantId actor reason atMs
  | deny id tenantId actor reason now => .record <$> Approvals.deny id tenantId actor reason now
  | expire id tenantId actorId reason atMs =>
    .record <$> Approvals.expire id tenantId actorId reason atMs
  | delegate id tenantId actor delegatedToActorId reason authorizedMs now =>
    .record <$> Approvals.delegate id tenantId actor delegatedToActorId reason authorizedMs now
  | comment id tenantId actorId text now =>
    .event <$> Approvals.comment id tenantId actorId text now

/-- The approval of an operation. -/
def approvalId : Op → String
  | create input _ => input.id
  | approveAt id .. => id
  | deny id .. => id
  | expire id .. => id
  | delegate id .. => id
  | comment id .. => id

/-- The tenant that an operation is invoked with. -/
def tenantId : Op → String
  | create input _ => input.tenantId
  | approveAt _ tenantId .. => tenantId
  | deny _ tenantId .. => tenantId
  | expire _ tenantId .. => tenantId
  | delegate _ tenantId .. => tenantId
  | comment _ tenantId .. => tenantId

/-- The status and the actor of a decision. -/
def decision? : Op → Option (ApprovalStatus × String)
  | approveAt _ _ actor _ _ => some (.approved, actor.actorId)
  | deny _ _ actor _ _ => some (.denied, actor.actorId)
  | expire _ _ actorId _ _ => some (.expired, actorId)
  | _ => none

/-- An operation that runs alone. -/
def run (op : Op) (db : ApprovalDb) : Except RuntimeError Outcome × ApprovalDb :=
  op.prog.run Access.exec db

end Op

end Corvid.Approvals
