import Corvid.Queue.Model
import Corvid.Runtime.Errors

/-!
# Approvals and who may decide on them

The rows of the approval store, the policy that a contract has to satisfy before it is queued, and the
checks on the actors that approve, deny or delegate an approval. Times are 64-bit milliseconds; the
database keeps them as they are.

## Main definitions

* `ApprovalContractRecord`, `ApprovalQueueRecord`, `ApprovalQueueAuditEvent`: the rows of the store
* `validateCreate`, `validateApprovalContractPolicyAt`: what is checked before an approval is queued
* `authorizeApprovalTransition`: who may decide on an approval
-/

namespace Corvid.Approvals

open Queue (blank)

/-! ### Rows -/

inductive ApprovalStatus where
  | pending
  | approved
  | denied
  | expired
deriving DecidableEq, Repr

inductive EventKind where
  | created
  | commented
  | delegated
  | approved
  | denied
  | expired
deriving DecidableEq, Repr

def EventKind.text : EventKind → String
  | created => "created"
  | commented => "commented"
  | delegated => "delegated"
  | approved => "approved"
  | denied => "denied"
  | expired => "expired"

/-- A cost that is not a finite number is absent. -/
structure ApprovalContractRecord where
  id : String
  version : String
  action : String
  targetKind : String
  targetId : String
  tenantId : String
  requiredRole : String
  maxCostUsd : Option ℚ
  dataClass : String
  irreversible : Bool
  expiresMs : ℕ
  replayKey : String
  createdMs : ℕ
deriving DecidableEq, Repr

structure ApprovalCreate where
  id : String
  tenantId : String
  requesterActorId : String
  contract : ApprovalContractRecord
  riskLevel : String
  traceId : String
deriving DecidableEq, Repr

structure ApprovalQueueRecord where
  id : String
  tenantId : String
  requesterActorId : String
  approverActorId : Option String
  delegatedToActorId : Option String
  contractId : String
  contractVersion : String
  action : String
  targetKind : String
  targetId : String
  status : ApprovalStatus
  requiredRole : String
  riskLevel : String
  dataClass : String
  irreversible : Bool
  maxCostUsd : Option ℚ
  expiresMs : ℕ
  traceId : String
  replayKey : String
  createdMs : ℕ
  updatedMs : ℕ
deriving DecidableEq, Repr

/-- The status before the creation of an approval is the empty text. -/
structure ApprovalQueueAuditEvent where
  id : String
  approvalId : String
  tenantId : String
  actorId : String
  eventKind : EventKind
  statusBefore : Option ApprovalStatus
  statusAfter : ApprovalStatus
  reason : Option String
  traceId : String
  createdMs : ℕ
deriving DecidableEq, Repr

/-- The row of a new approval. -/
def ApprovalCreate.record (input : ApprovalCreate) (now : ℕ) : ApprovalQueueRecord where
  id := input.id
  tenantId := input.tenantId
  requesterActorId := input.requesterActorId
  approverActorId := none
  delegatedToActorId := none
  contractId := input.contract.id
  contractVersion := input.contract.version
  action := input.contract.action
  targetKind := input.contract.targetKind
  targetId := input.contract.targetId
  status := .pending
  requiredRole := input.contract.requiredRole
  riskLevel := input.riskLevel
  dataClass := input.contract.dataClass
  irreversible := input.contract.irreversible
  maxCostUsd := input.contract.maxCostUsd
  expiresMs := input.contract.expiresMs
  traceId := input.traceId
  replayKey := input.contract.replayKey
  createdMs := now
  updatedMs := now

/-! ### Validation -/

/-- None of the labelled values is blank. -/
def validateValues : List (String × String) → Except RuntimeError Unit
  | [] => .ok ()
  | (label, value) :: rest =>
    if blank value then .error (.other s!"{label} must not be empty") else validateValues rest

def validateValue (label value : String) : Except RuntimeError Unit :=
  validateValues [(label, value)]

/-- The cost is finite and not negative. -/
def validCost (cost : Option ℚ) : Bool := cost.any (0 ≤ ·)

def validateCreate (input : ApprovalCreate) : Except RuntimeError Unit := do
  validateValues [
    ("approval id", input.id),
    ("tenant id", input.tenantId),
    ("requester actor id", input.requesterActorId),
    ("contract id", input.contract.id),
    ("contract version", input.contract.version),
    ("action", input.contract.action),
    ("target kind", input.contract.targetKind),
    ("target id", input.contract.targetId),
    ("required role", input.contract.requiredRole),
    ("risk level", input.riskLevel),
    ("trace id", input.traceId),
    ("replay key", input.contract.replayKey)]
  if validCost input.contract.maxCostUsd then return ()
  else .error (.other "approval max cost must be finite and non-negative")

structure ApprovalContractPolicyReport where
  contractId : String
  valid : Bool
  violations : List String
deriving DecidableEq, Repr

def policyViolations (contract : ApprovalContractRecord) (now : ℕ) : List String :=
  let check (violated : Bool) (name : String) : List String := if violated then [name] else []
  check (blank contract.action) "missing_action" ++
  check (blank contract.targetKind || blank contract.targetId) "missing_target" ++
  check (blank contract.requiredRole) "missing_required_role" ++
  check (!validCost contract.maxCostUsd) "invalid_max_cost" ++
  check (blank contract.dataClass) "missing_data_class" ++
  check (contract.expiresMs ≤ now) "expired_contract" ++
  if contract.irreversible then
    check (contract.requiredRole = "Member" ∨ contract.requiredRole = "Service")
      "irreversible_requires_elevated_role" ++
    check (contract.dataClass = "unknown") "irreversible_requires_known_data_class" ++
    check (86400000 < contract.expiresMs - now) "irreversible_expiry_too_long"
  else []

def validateApprovalContractPolicyAt (contract : ApprovalContractRecord) (now : ℕ) :
    ApprovalContractPolicyReport where
  contractId := contract.id
  valid := (policyViolations contract now).isEmpty
  violations := policyViolations contract now

/-! ### Authorization -/

structure ApprovalActorContext where
  actorId : String
  tenantId : String
  role : String
deriving DecidableEq, Repr

inductive ApprovalTransitionKind where
  | approve
  | deny
  | delegate
deriving DecidableEq, Repr

def validateActor (actor : ApprovalActorContext) : Except RuntimeError Unit :=
  validateValues [
    ("approval actor id", actor.actorId),
    ("approval actor tenant", actor.tenantId),
    ("approval actor role", actor.role)]

def authorizeApprovalTransition (approval : ApprovalQueueRecord) (actor : ApprovalActorContext)
    (transition : ApprovalTransitionKind) (atMs : ℕ) : Except RuntimeError Unit := do
  validateActor actor
  if actor.tenantId ≠ approval.tenantId then
    .error (.other "approval actor tenant mismatch")
  else if actor.role ≠ approval.requiredRole then
    .error (.other "approval actor role does not satisfy required role")
  else if actor.actorId = approval.requesterActorId then
    .error (.other "approval requester cannot approve their own request")
  else if approval.delegatedToActorId.any (actor.actorId ≠ ·) then
    .error (.other "approval is delegated to a different actor")
  else if transition = .approve ∧ approval.expiresMs ≤ atMs then
    .error (.other "approval contract expired before approval transition")
  else return ()

def authorizeApprovalDelegateTarget (approval : ApprovalQueueRecord) (delegatedToActorId : String) :
    Except RuntimeError Unit :=
  if blank delegatedToActorId then .error (.other "delegated actor id must not be empty")
  else if delegatedToActorId = approval.requesterActorId then
    .error (.other "approval cannot be delegated to the requester")
  else .ok ()

end Corvid.Approvals
