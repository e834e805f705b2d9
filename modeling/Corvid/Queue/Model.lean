import Corvid.Lib.Text
import Corvid.Runtime.Json

/-!
# The data model of the durable queue

The rows of the queue's tables. Columns that a `u64` is stored in hold its value: the conversions to
the signed integers of the database and back are inverse to each other, and matter only where the
database itself compares or adds.

## Main definitions

* `QueueJobStatus`, `QueueJob`: a row of `queue_jobs`
* `QueueScheduleManifest`, `ScheduleFire`: the rows of the scheduler
* `QueueDb`: the tables
-/

namespace Corvid.Queue

inductive QueueJobStatus where
  | pending
  | leased
  | approvalWait
  | approvalDenied
  | approvalExpired
  | loopBudgetExceeded
  | loopStallEscalated
  | loopStallTerminated
  | retryWait
  | running
  | succeeded
  | failed
  | deadLettered
  | canceled
deriving DecidableEq, Repr

def QueueJobStatus.asStr : QueueJobStatus → String
  | pending => "pending"
  | leased => "leased"
  | approvalWait => "approval_wait"
  | approvalDenied => "approval_denied"
  | approvalExpired => "approval_expired"
  | loopBudgetExceeded => "loop_budget_exceeded"
  | loopStallEscalated => "loop_stall_escalated"
  | loopStallTerminated => "loop_stall_terminated"
  | retryWait => "retry_wait"
  | running => "running"
  | succeeded => "succeeded"
  | failed => "failed"
  | deadLettered => "dead_lettered"
  | canceled => "canceled"

structure QueueJob where
  id : String
  task : String
  payload : Json
  inputSchema : Option String
  status : QueueJobStatus
  attempts : ℕ
  maxRetries : ℕ
  budgetUsd : ℚ
  effectSummary : Option String
  replayKey : Option String
  idempotencyKey : Option String
  outputKind : Option String
  outputFingerprint : Option String
  failureKind : Option String
  failureFingerprint : Option String
  nextRunMs : Option ℕ
  leaseOwner : Option String
  leaseExpiresMs : Option ℕ
  approvalId : Option String
  approvalExpiresMs : Option ℕ
  approvalReason : Option String
  createdMs : ℕ
  updatedMs : ℕ
deriving DecidableEq, Repr

inductive ScheduleMissedPolicy where
  | skipMissed
  | fireOnceOnRecovery
  | enqueueAllBounded
deriving DecidableEq, Repr

structure QueueScheduleManifest where
  id : String
  cron : String
  zone : String
  task : String
  payload : Json
  maxRetries : ℕ
  budgetUsd : ℚ
  effectSummary : Option String
  replayKeyPrefix : Option String
  missedPolicy : ScheduleMissedPolicy
  lastCheckedMs : ℕ
  lastFireMs : Option ℕ
  createdMs : ℕ
  updatedMs : ℕ
deriving DecidableEq, Repr

/-- A row of `queue_schedule_fires`. The job id is empty until the fire is linked to its job. -/
structure ScheduleFire where
  eventId : String
  scheduleId : String
  fireMs : ℕ
  jobId : String
  createdMs : ℕ
deriving DecidableEq, Repr

inductive JobApprovalDecision where
  | approve
  | deny
  | expire
deriving DecidableEq, Repr

def JobApprovalDecision.asStr : JobApprovalDecision → String
  | approve => "approve"
  | deny => "deny"
  | expire => "expire"

structure JobAuditEvent where
  id : ℕ
  jobId : String
  eventKind : String
  actor : String
  approvalId : Option String
  statusBefore : QueueJobStatus
  statusAfter : QueueJobStatus
  reason : Option String
  createdMs : ℕ
deriving DecidableEq, Repr

structure JobLoopLimits where
  maxSteps : Option ℕ
  maxWallMs : Option ℕ
  maxSpendUsd : Option ℚ
  maxToolCalls : Option ℕ
  updatedMs : ℕ
deriving DecidableEq, Repr

structure JobLoopUsage where
  steps : ℕ
  wallMs : ℕ
  spendUsd : ℚ
  toolCalls : ℕ
  updatedMs : ℕ
deriving DecidableEq, Repr

inductive JobStallAction where
  | escalate
  | terminate
deriving DecidableEq, Repr

def JobStallAction.asStr : JobStallAction → String
  | escalate => "escalate"
  | terminate => "terminate"

structure JobStallPolicy where
  stallAfterMs : ℕ
  action : JobStallAction
  updatedMs : ℕ
deriving DecidableEq, Repr

structure JobLoopHeartbeat where
  actor : String
  message : Option String
  lastHeartbeatMs : ℕ
  updatedMs : ℕ
deriving DecidableEq, Repr

/-- The scopes of concurrency limits: `global`, and `task:` with the name of a task. -/
inductive LimitScope where
  | global
  | task (name : String)
deriving DecidableEq, Repr

/-- The tables of the queue. Tables with a key of their own map it to the rest of the row. -/
structure QueueDb where
  jobs : List QueueJob
  schedules : List QueueScheduleManifest
  fires : List ScheduleFire
  auditEvents : List JobAuditEvent
  limits : LimitScope → Option ℕ
  paused : Bool
  loopLimits : String → Option JobLoopLimits
  loopUsage : String → Option JobLoopUsage
  heartbeats : String → Option JobLoopHeartbeat
  stallPolicies : String → Option JobStallPolicy

def QueueDb.empty : QueueDb where
  jobs := []
  schedules := []
  fires := []
  auditEvents := []
  limits _ := none
  paused := false
  loopLimits _ := none
  loopUsage _ := none
  heartbeats _ := none
  stallPolicies _ := none

/-- The runtime: its database and the counter for job ids, which is not stored. -/
structure QueueState where
  db : QueueDb
  nextId : ℕ

/-! ### Machine integers -/

def u64Max : ℕ := 2 ^ 64 - 1

def saturatingAdd (a b : ℕ) : ℕ := min (a + b) u64Max

def saturatingMul (a b : ℕ) : ℕ := min (a * b) u64Max

/-- How the database sees a stored `u64`. -/
def asI64 (n : ℕ) : ℤ := if n < 2 ^ 63 then n else (n : ℤ) - 2 ^ 64

theorem asI64_of_lt {n : ℕ} (h : n < 2 ^ 63) : asI64 n = n := if_pos h

@[irreducible] def blank (s : String) : Bool := (Text.trim s).isEmpty

/-- An amount of money: anything that is not a positive number counts as zero. -/
def sanitizeUsd : Option ℚ → ℚ
  | some q => if 0 < q then q else 0
  | none => 0

end Corvid.Queue
