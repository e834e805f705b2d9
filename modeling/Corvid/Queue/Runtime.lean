import Corvid.Lib.Store
import Corvid.Queue.Access

/-!
# The operations of the durable queue

Each operation as a program over the accesses of the database. Between two accesses of an operation
other operations may run. Operations that read the clock take the time as an argument.

## Main definitions

* `leaseNextAt`, `completeLeased`, `failLeased`, `enterApprovalWait`: the work of a worker
* `decideApprovalWaitAt`, `retryJob`, `cancel`, `drainActiveLeases`: the work of an operator
* `recoverSchedulesAt`: the scheduler
* `Op`, `Op.prog`: all operations
-/

namespace Corvid.Queue

open Store

abbrev QueueM := Prog Access.Reply RuntimeError

abbrev access (q : Access) : QueueM q.Reply := Prog.query q

def other {α : Type} (message : String) : QueueM α := .fail (.other message)

def requireJob (id : String) : QueueM QueueJob := do
  match ← access (.getJob id) with
  | some job => return job
  | none => other s!"std.queue job `{id}` not found"

/-! ### Enqueueing -/

/-- What a caller says about a new job. A budget that is not a finite number is absent. -/
structure JobSpec where
  task : String
  payload : Json
  inputSchema : Option String
  maxRetries : ℕ
  budgetUsd : Option ℚ
  effectSummary : Option String
  replayKey : Option String
  nextRunMs : Option ℕ
deriving DecidableEq, Repr

/-- A job that only says what to do. -/
def JobSpec.plain (task : String) : JobSpec :=
  ⟨task, .null, none, 0, none, none, none, none⟩

def JobSpec.job (spec : JobSpec) (id : String) (idempotencyKey : Option String) (now : ℕ) :
    QueueJob where
  id := id
  task := spec.task
  payload := spec.payload
  inputSchema := spec.inputSchema
  status := .pending
  attempts := 0
  maxRetries := spec.maxRetries
  budgetUsd := sanitizeUsd spec.budgetUsd
  effectSummary := spec.effectSummary
  replayKey := spec.replayKey
  idempotencyKey := idempotencyKey
  outputKind := none
  outputFingerprint := none
  failureKind := none
  failureFingerprint := none
  nextRunMs := spec.nextRunMs
  leaseOwner := none
  leaseExpiresMs := none
  approvalId := none
  approvalExpiresMs := none
  approvalReason := none
  createdMs := now
  updatedMs := now

def enqueueTypedAt (spec : JobSpec) (now : ℕ) : QueueM QueueJob := do
  if blank spec.task then
    other "std.queue task name must not be empty"
  else
    let id ← access .freshId
    let job := spec.job id none now
    match ← access (.insertJob job) with
    | .ok () => return job
    | .error err => other s!"failed to insert durable queue job: {err}"

def enqueueTypedIdempotent (spec : JobSpec) (idempotencyKey : Option String) (now : ℕ) :
    QueueM QueueJob := do
  match idempotencyKey.filter (!blank ·) with
  | none => enqueueTypedAt spec now
  | some key =>
    match ← access (.getByIdempotencyKey key) with
    | some existing => return existing
    | none =>
      if blank spec.task then
        other "std.queue task name must not be empty"
      else
        let id ← access .freshId
        let job := spec.job id (some key) now
        match ← access (.insertJob job) with
        | .ok () => return job
        | .error err =>
          match ← access (.getByIdempotencyKey key) with
          | some existing => return existing
          | none => other s!"failed to insert idempotent durable queue job: {err}"

/-! ### Operators -/

def drainActiveLeases (now : ℕ) : QueueM ℕ := do
  access (.setPaused true)
  access (.drainUpdate now)

def retryJob (id : String) (now : ℕ) : QueueM QueueJob := do
  let job ← requireJob id
  if job.status = .pending ∨ job.status = .leased then
    other s!"std.queue job `{id}` is already runnable or leased"
  else
    let _ ← access (.retryUpdate id now)
    requireJob id

def cancel (id : String) (now : ℕ) : QueueM QueueJob := do
  let updated ← access (.cancelUpdate id now)
  if updated = 0 then other s!"std.queue job `{id}` not found" else requireJob id

def setConcurrencyLimit (scope : LimitScope) (limit : ℕ) : QueueM Unit := do
  if limit = 0 then other "std.queue concurrency limit must be at least 1"
  else access (.setLimit scope limit)

def setGlobalConcurrencyLimit (limit : ℕ) : QueueM Unit := setConcurrencyLimit .global limit

def setTaskConcurrencyLimit (task : String) (limit : ℕ) : QueueM Unit := do
  if blank task then other "std.queue task concurrency limit name must not be empty"
  else setConcurrencyLimit (.task task) limit

/-! ### Loop supervision -/

def setLoopLimits (id : String) (limits : JobLoopLimits) : QueueM Unit := do
  let _ ← requireJob id
  access (.setLoopLimits id { limits with maxSpendUsd := limits.maxSpendUsd.filter (0 ≤ ·) })

def recordLoopUsageAt (id : String) (steps wallMs : ℕ) (spendUsd : Option ℚ) (toolCalls : ℕ)
    (actor : String) (now : ℕ) : QueueM (JobLoopUsage × List String) := do
  if blank actor then other "std.queue loop usage actor must not be empty"
  else
    let delta := ⟨steps, wallMs, sanitizeUsd spendUsd, toolCalls, now⟩
    match ← access (.recordLoopUsage id delta actor now) with
    | .ok report => return report
    | .error err => .fail err

def setStallPolicy (id : String) (stallAfterMs : ℕ) (action : JobStallAction) (now : ℕ) :
    QueueM Unit := do
  if stallAfterMs = 0 then other "std.queue stall threshold must be greater than zero"
  else
    let _ ← requireJob id
    access (.setStallPolicy id ⟨stallAfterMs, action, now⟩)

def recordLoopHeartbeatAt (id actor : String) (message : Option String) (now : ℕ) :
    QueueM Unit := do
  if blank actor then other "std.queue loop heartbeat actor must not be empty"
  else
    let _ ← requireJob id
    access (.recordHeartbeat id ⟨actor, message, now, now⟩)

def checkStallAt (id actor : String) (now : ℕ) : QueueM JobStallCheck := do
  if blank actor then other "std.queue stall checker actor must not be empty"
  else
    match ← access (.checkStall id actor now) with
    | .ok check => return check
    | .error err => .fail err

/-! ### Workers -/

/-- The candidates in turn, until one of them is leased. -/
def leaseFirst (worker : String) (expires now : ℕ) : List QueueJob → QueueM (Option QueueJob)
  | [] => return none
  | candidate :: rest => do
    if ← access (.concurrencyAllows candidate.task now) then
      let updated ← access (.leaseUpdate candidate.id worker expires now)
      if updated = 1 then access (.getJob candidate.id)
      else leaseFirst worker expires now rest
    else leaseFirst worker expires now rest

def leaseNextAt (worker : String) (ttlMs now : ℕ) : QueueM (Option QueueJob) := do
  if ← access .isPaused then return none
  else if blank worker then other "std.queue lease worker id must not be empty"
  else
    let expires := saturatingAdd now (max ttlMs 1)
    let jobs ← access .listJobs
    leaseFirst worker expires now (jobs.filter (eligibleToLease now))

def notLeasedBy {α : Type} (id worker : String) : QueueM α :=
  other s!"std.queue job `{id}` is not leased by `{worker}`"

def completeLeased (id worker : String) (outputKind outputFingerprint : Option String) (now : ℕ) :
    QueueM QueueJob := do
  let updated ← access (.completeUpdate id worker outputKind outputFingerprint now)
  if updated = 0 then notLeasedBy id worker else requireJob id

/-- The status of a job after a failed attempt, and when it runs again. -/
def afterFailure (attempts maxRetries baseDelayMs now : ℕ) : QueueJobStatus × Option ℕ :=
  if attempts ≤ maxRetries then
    (.retryWait, some (saturatingAdd now (saturatingMul baseDelayMs attempts)))
  else (.deadLettered, none)

def failLeased (id worker failureKind failureFingerprint : String) (baseDelayMs now : ℕ) :
    QueueM QueueJob := do
  let job ← requireJob id
  if job.status ≠ .leased ∨ job.leaseOwner ≠ some worker then notLeasedBy id worker
  else
    let attempts := saturatingAdd job.attempts 1
    let (status, nextRunMs) := afterFailure attempts job.maxRetries baseDelayMs now
    let updated ← access
      (.failUpdate id worker status attempts failureKind failureFingerprint nextRunMs now)
    if updated = 0 then notLeasedBy id worker else requireJob id

def enterApprovalWait (id worker approvalId : String) (expiresMs : ℕ) (reason : String) (now : ℕ) :
    QueueM QueueJob := do
  if blank approvalId then other "std.queue approval id must not be empty"
  else if blank reason then other "std.queue approval reason must not be empty"
  else
    let updated ← access (.approvalWaitUpdate id worker approvalId expiresMs reason now)
    if updated = 0 then notLeasedBy id worker else requireJob id

def decideApprovalWaitAt (id approvalId : String) (decision : JobApprovalDecision) (actor : String)
    (reason : Option String) (now : ℕ) : QueueM QueueJob := do
  if blank actor then other "std.queue approval actor must not be empty"
  else if blank approvalId then other "std.queue approval id must not be empty"
  else
    match ← access (.decideApproval id approvalId decision actor reason now) with
    | .ok () => requireJob id
    | .error err => .fail err

def runOneWithOutput (outputKind outputFingerprint : Option String) (now : ℕ) :
    QueueM (Option QueueJob) := do
  match ← leaseNextAt "corvid-run-one" 300000 now with
  | none => return none
  | some job =>
    some <$> completeLeased job.id "corvid-run-one" outputKind outputFingerprint now

def runOneFailed (failureKind failureFingerprint : String) (baseDelayMs now : ℕ) :
    QueueM (Option QueueJob) := do
  match ← leaseNextAt "corvid-run-one" 300000 now with
  | none => return none
  | some job =>
    some <$> failLeased job.id "corvid-run-one" failureKind failureFingerprint baseDelayMs now

end Corvid.Queue
