import Corvid.Queue.Model
import Corvid.Runtime.Errors
import Mathlib.Algebra.Order.Floor.Ring
import Mathlib.Data.List.Sort
import Mathlib.Data.Rat.Floor

/-!
# The database accesses of the durable queue

Every access of the runtime to its database, from the acquisition of the connection lock to its
release: single statements, and transactions. An access is atomic.

## Main definitions

* `updateJobs`: an `update` statement on `queue_jobs`
* `Access`, `Access.Reply`: the accesses with the types of their results
* `Access.exec`: what an access does
-/

namespace Corvid.Queue

/-- The rows after an `update` of those that satisfy `p`, with their number. -/
def updateJobs (p : QueueJob → Bool) (f : QueueJob → QueueJob) (jobs : List QueueJob) :
    List QueueJob × ℕ :=
  (jobs.map fun j => if p j then f j else j, jobs.countP p)

def findJob (id : String) (jobs : List QueueJob) : Option QueueJob := jobs.find? (·.id = id)

/-- `order by created_ms, id`. -/
def listOrder (a b : QueueJob) : Bool :=
  asI64 a.createdMs < asI64 b.createdMs ∨ a.createdMs = b.createdMs ∧ a.id ≤ b.id

/-! ### Leases -/

/-- The `where` clause of a lease: the job waits, or its lease has expired. -/
def leasable (id : String) (now : ℕ) (j : QueueJob) : Bool :=
  j.id = id ∧ (j.status = .pending ∨ j.status = .retryWait ∨
    j.status = .leased ∧ (j.leaseExpiresMs.map asI64).getD 0 ≤ asI64 now)

/-- The `where` clause of the statements by which a worker gives up a lease. -/
def leasedBy (id worker : String) (j : QueueJob) : Bool :=
  j.id = id ∧ j.status = .leased ∧ j.leaseOwner = some worker

def activeLease (now : ℕ) (j : QueueJob) : Bool :=
  j.status = .leased ∧ asI64 now < (j.leaseExpiresMs.map asI64).getD 0

def countActiveLeases (task : Option String) (now : ℕ) (jobs : List QueueJob) : ℕ :=
  jobs.countP fun j => activeLease now j && (task.all fun t => j.task = t)

def QueueDb.concurrencyAllows (db : QueueDb) (task : String) (now : ℕ) : Bool :=
  ((db.limits .global).all fun limit => countActiveLeases none now db.jobs < limit) &&
    (db.limits (.task task)).all fun limit => countActiveLeases (some task) now db.jobs < limit

def eligibleToLease (now : ℕ) (j : QueueJob) : Bool :=
  match j.status with
  | .pending | .retryWait => j.nextRunMs.all (· ≤ now)
  | .leased => j.leaseExpiresMs.all (· ≤ now)
  | _ => false

def QueueJob.release (j : QueueJob) : QueueJob :=
  { j with leaseOwner := none, leaseExpiresMs := none }

/-! ### Loop usage -/

def ofI64 (z : ℤ) : ℕ := (z % 2 ^ 64).toNat

/-- An addition of stored integers. A sum that is out of range turns into a float, which the runtime
fails to read back. -/
def sqlAdd (a b : ℕ) : Option ℕ :=
  let z := asI64 a + asI64 b
  if -2 ^ 63 ≤ z ∧ z < 2 ^ 63 then some (ofI64 z) else none

def JobLoopUsage.add (u delta : JobLoopUsage) : Option JobLoopUsage := do
  return { steps := ← sqlAdd u.steps delta.steps
           wallMs := ← sqlAdd u.wallMs delta.wallMs
           spendUsd := u.spendUsd + delta.spendUsd
           toolCalls := ← sqlAdd u.toolCalls delta.toolCalls
           updatedMs := delta.updatedMs }

/-- Six decimals, rounding half to even. -/
def fixed6 (q : ℚ) : String :=
  let x : ℚ := q * 10 ^ 6
  let down := ⌊x⌋.toNat
  let n := if x - (down : ℚ) < 1 / 2 ∨ x - (down : ℚ) = 1 / 2 ∧ down % 2 = 0 then down else down + 1
  let digits := toString (n % 10 ^ 6)
  s!"{n / 10 ^ 6}." ++ String.ofList (List.replicate (6 - digits.length) '0') ++ digits

/-- The report of a bound, if it is set and exceeded. -/
def violation {α : Type} (lt : α → α → Bool) (text : α → String) (name : String) (used : α)
    (limit : Option α) : Option String :=
  match limit with
  | some l => if lt l used then some s!"{name}:{text used}>{text l}" else none
  | none => none

def loopBoundViolations (usage : JobLoopUsage) (limits : JobLoopLimits) : List String :=
  [violation (· < ·) toString "max_steps" usage.steps limits.maxSteps,
    violation (· < ·) toString "max_wall_ms" usage.wallMs limits.maxWallMs,
    violation (· < ·) fixed6 "max_spend_usd" usage.spendUsd limits.maxSpendUsd,
    violation (· < ·) toString "max_tool_calls" usage.toolCalls limits.maxToolCalls].filterMap id

/-! ### Accesses -/

structure JobStallCheck where
  jobId : String
  stalled : Bool
  actionTaken : Option String
  lastHeartbeatMs : ℕ
  stallAfterMs : ℕ
  elapsedMs : ℕ
deriving DecidableEq, Repr

inductive Access where
  | freshId
  | insertJob (job : QueueJob)
  | getJob (id : String)
  | getByIdempotencyKey (key : String)
  | listJobs
  | setPaused (paused : Bool)
  | isPaused
  | drainUpdate (now : ℕ)
  | retryUpdate (id : String) (now : ℕ)
  | setLoopLimits (id : String) (limits : JobLoopLimits)
  | recordLoopUsage (id : String) (delta : JobLoopUsage) (actor : String) (now : ℕ)
  | setStallPolicy (id : String) (policy : JobStallPolicy)
  | recordHeartbeat (id : String) (heartbeat : JobLoopHeartbeat)
  | checkStall (id actor : String) (now : ℕ)
  | upsertSchedule (manifest : QueueScheduleManifest)
  | listSchedules
  | recordFire (scheduleId : String) (fireMs now : ℕ)
  | linkFire (eventId jobId : String)
  | markScheduleChecked (scheduleId : String) (checkedMs : ℕ) (lastFireMs : Option ℕ)
  | setLimit (scope : LimitScope) (limit : ℕ)
  | concurrencyAllows (task : String) (now : ℕ)
  | cancelUpdate (id : String) (now : ℕ)
  | leaseUpdate (id worker : String) (expires now : ℕ)
  | completeUpdate (id worker : String) (outputKind outputFingerprint : Option String) (now : ℕ)
  | failUpdate (id worker : String) (status : QueueJobStatus) (attempts : ℕ)
      (failureKind failureFingerprint : String) (nextRunMs : Option ℕ) (now : ℕ)
  | approvalWaitUpdate (id worker approvalId : String) (expiresMs : ℕ) (reason : String) (now : ℕ)
  | decideApproval (id approvalId : String) (decision : JobApprovalDecision) (actor : String)
      (reason : Option String) (now : ℕ)
deriving DecidableEq, Repr

/-- The result of an access; an update returns the number of rows it changed. -/
abbrev Access.Reply : Access → Type
  | freshId => String
  | insertJob _ => Except String Unit
  | getJob _ | getByIdempotencyKey _ => Option QueueJob
  | listJobs => List QueueJob
  | isPaused => Bool
  | recordLoopUsage .. => Except RuntimeError (JobLoopUsage × List String)
  | checkStall .. => Except RuntimeError JobStallCheck
  | listSchedules => List QueueScheduleManifest
  | recordFire .. => Bool
  | concurrencyAllows .. => Bool
  | drainUpdate _ | retryUpdate .. | cancelUpdate .. | leaseUpdate .. | completeUpdate ..
  | failUpdate .. | approvalWaitUpdate .. => ℕ
  | decideApproval .. => Except RuntimeError Unit
  | setPaused _ | setLoopLimits .. | setStallPolicy .. | recordHeartbeat .. | upsertSchedule _
  | linkFire .. | markScheduleChecked .. | setLimit .. => Unit

def notFoundOrUnreadable (id : String) : RuntimeError :=
  .other s!"std.queue job `{id}` not found or unreadable: Query returned no rows"

namespace QueueDb

variable (db : QueueDb)

def updateJobs (p : QueueJob → Bool) (f : QueueJob → QueueJob) : ℕ × QueueDb :=
  ((Queue.updateJobs p f db.jobs).2, { db with jobs := (Queue.updateJobs p f db.jobs).1 })

/-- Both keys of a job are unique. -/
def insertJob (job : QueueJob) : Except String Unit × QueueDb :=
  if (findJob job.id db.jobs).isSome then
    (.error "UNIQUE constraint failed: queue_jobs.id", db)
  else if job.idempotencyKey.isSome ∧ db.jobs.any (·.idempotencyKey = job.idempotencyKey) then
    (.error "UNIQUE constraint failed: queue_jobs.idempotency_key", db)
  else (.ok (), { db with jobs := db.jobs ++ [job] })

def insertAudit (jobId eventKind actor : String) (approvalId : Option String)
    (statusBefore statusAfter : QueueJobStatus) (reason : Option String) (now : ℕ) : QueueDb :=
  let id := (db.auditEvents.map JobAuditEvent.id).foldl max 0 + 1
  { db with auditEvents := db.auditEvents ++
      [⟨id, jobId, eventKind, actor, approvalId, statusBefore, statusAfter, reason, now⟩] }

def isTerminalForUsage : QueueJobStatus → Bool
  | .succeeded | .deadLettered | .canceled | .approvalDenied | .approvalExpired
  | .loopBudgetExceeded => true
  | _ => false

def isTerminalForStall : QueueJobStatus → Bool
  | .loopStallTerminated => true
  | status => isTerminalForUsage status

def recordLoopUsage (id : String) (delta : JobLoopUsage) (actor : String) (now : ℕ) :
    Except RuntimeError (JobLoopUsage × List String) × QueueDb :=
  match findJob id db.jobs with
  | none => (.error (notFoundOrUnreadable id), db)
  | some job =>
    if isTerminalForUsage job.status then
      (.error (.other s!"std.queue job `{id}` is terminal and cannot record loop usage"), db)
    else
      match (db.loopUsage id).elim (some delta) (·.add delta) with
      | none => (.error (.other "failed to read loop usage after update: invalid column type"), db)
      | some usage =>
        let db := { db with loopUsage := Function.update db.loopUsage id (some usage) }
        let violated := (db.loopLimits id).elim [] (loopBoundViolations usage)
        if violated.isEmpty then (.ok (usage, []), db)
        else
          let reason := Text.join "," violated
          let db := (db.updateJobs (fun j => j.id = id) fun j =>
            { j.release with
              status := .loopBudgetExceeded
              failureKind := some "loop_bound_exceeded"
              failureFingerprint := some reason
              nextRunMs := none
              updatedMs := now }).2
          (.ok (usage, violated), db.insertAudit id "loop_bound_exceeded" actor none job.status
            .loopBudgetExceeded (some reason) now)

def checkStall (id actor : String) (now : ℕ) : Except RuntimeError JobStallCheck × QueueDb :=
  match findJob id db.jobs, db.stallPolicies id with
  | none, _ => (.error (notFoundOrUnreadable id), db)
  | some _, none => (.error (.other s!"std.queue job `{id}` has no stall policy"), db)
  | some job, some policy =>
    let last := ((db.heartbeats id).map JobLoopHeartbeat.lastHeartbeatMs).getD job.updatedMs
    let elapsed := now - last
    let stalled : Bool := policy.stallAfterMs < elapsed ∧ ¬ isTerminalForStall job.status
    let report action : JobStallCheck := ⟨id, stalled, action, last, policy.stallAfterMs, elapsed⟩
    if stalled then
      let after : QueueJobStatus := match policy.action with
        | .escalate => .loopStallEscalated
        | .terminate => .loopStallTerminated
      let reason := s!"loop_stalled:last_heartbeat_ms={last},elapsed_ms={elapsed},stall_after_ms={policy.stallAfterMs}"
      let db := (db.updateJobs (fun j => j.id = id) fun j =>
        { j.release with
          status := after
          failureKind := some "loop_stalled"
          failureFingerprint := some reason
          nextRunMs := none
          updatedMs := now }).2
      (.ok (report (some policy.action.asStr)),
        db.insertAudit id s!"loop_stalled_{policy.action.asStr}" actor none job.status after
          (some reason) now)
    else (.ok (report none), db)

def decideApproval (id approvalId : String) (decision : JobApprovalDecision) (actor : String)
    (reason : Option String) (now : ℕ) : Except RuntimeError Unit × QueueDb :=
  match findJob id db.jobs with
  | none => (.error (notFoundOrUnreadable id), db)
  | some job =>
    if job.status ≠ .approvalWait then
      (.error (.other s!"std.queue job `{id}` is not waiting on approval"), db)
    else if job.approvalId ≠ some approvalId then
      (.error (.other s!"std.queue job `{id}` is waiting on a different approval id"), db)
    else if decision = .expire ∧ job.approvalExpiresMs = none then
      (.error (.other s!"std.queue job `{id}` approval has no expiry"), db)
    else if decision = .expire ∧ job.approvalExpiresMs.any (now < ·) then
      (.error (.other s!"std.queue job `{id}` approval `{approvalId}` has not expired"), db)
    else
      -- an approval is accepted at any time, before or after its expiry
      let (after, nextRun) : QueueJobStatus × Option ℕ := match decision with
        | .approve => (.pending, some now)
        | .deny => (.approvalDenied, none)
        | .expire => (.approvalExpired, none)
      let db := (db.updateJobs
        (fun j => j.id = id ∧ j.status = .approvalWait ∧ j.approvalId = some approvalId) fun j =>
        { j.release with status := after, nextRunMs := nextRun, updatedMs := now }).2
      (.ok (), db.insertAudit id s!"approval_{decision.asStr}" actor (some approvalId) job.status
        after reason now)

/-- A schedule that exists keeps its cursor. -/
def upsertSchedule (manifest : QueueScheduleManifest) : QueueDb :=
  if db.schedules.any (·.id = manifest.id) then
    { db with schedules := db.schedules.map fun s =>
        if s.id = manifest.id then
          { manifest with
            lastCheckedMs := s.lastCheckedMs
            lastFireMs := s.lastFireMs
            createdMs := s.createdMs }
        else s }
  else { db with schedules := db.schedules ++ [manifest] }

def eventId (scheduleId : String) (fireMs : ℕ) : String := s!"{scheduleId}:{fireMs}"

/-- Records a fire, unless it is recorded already. Both keys of a fire are unique. -/
def recordFire (scheduleId : String) (fireMs now : ℕ) : Bool × QueueDb :=
  let event := eventId scheduleId fireMs
  if db.fires.any fun f =>
      f.eventId = event ∨ f.scheduleId = scheduleId ∧ f.fireMs = fireMs then (false, db)
  else (true, { db with fires := db.fires ++ [⟨event, scheduleId, fireMs, "", now⟩] })

def markScheduleChecked (scheduleId : String) (checkedMs : ℕ) (lastFireMs : Option ℕ) : QueueDb :=
  { db with schedules := db.schedules.map fun s =>
      if s.id = scheduleId then
        { s with
          lastCheckedMs := checkedMs
          lastFireMs := lastFireMs.or s.lastFireMs
          updatedMs := checkedMs }
      else s }

end QueueDb

/-- The effect of an access on the database, with its result. -/
def Access.execDb : (q : Access) → QueueDb → q.Reply × QueueDb
  | freshId, db => ("", db)
  | insertJob job, db => db.insertJob job
  | getJob id, db => (findJob id db.jobs, db)
  | getByIdempotencyKey key, db => (db.jobs.find? (·.idempotencyKey = some key), db)
  | listJobs, db => (db.jobs.insertionSort fun a b => listOrder a b, db)
  | setPaused paused, db => ((), { db with paused })
  | isPaused, db => (db.paused, db)
  | drainUpdate now, db =>
    db.updateJobs (·.status = .leased) fun j => { j.release with status := .pending, updatedMs := now }
  | retryUpdate id now, db =>
    db.updateJobs (·.id = id) fun j =>
      { j.release with status := .pending, nextRunMs := some now, updatedMs := now }
  | setLoopLimits id limits, db =>
    ((), { db with loopLimits := Function.update db.loopLimits id (some limits) })
  | recordLoopUsage id delta actor now, db => db.recordLoopUsage id delta actor now
  | setStallPolicy id policy, db =>
    ((), { db with stallPolicies := Function.update db.stallPolicies id (some policy) })
  | recordHeartbeat id heartbeat, db =>
    ((), { db with heartbeats := Function.update db.heartbeats id (some heartbeat) })
  | checkStall id actor now, db => db.checkStall id actor now
  | upsertSchedule manifest, db => ((), db.upsertSchedule manifest)
  | listSchedules, db => (db.schedules.insertionSort fun a b => a.id ≤ b.id, db)
  | recordFire scheduleId fireMs now, db => db.recordFire scheduleId fireMs now
  | linkFire eventId jobId, db =>
    ((), { db with fires := db.fires.map fun f =>
        if f.eventId = eventId then { f with jobId } else f })
  | markScheduleChecked scheduleId checkedMs lastFireMs, db =>
    ((), db.markScheduleChecked scheduleId checkedMs lastFireMs)
  | setLimit scope limit, db =>
    ((), { db with limits := Function.update db.limits scope (some limit) })
  | concurrencyAllows task now, db => (db.concurrencyAllows task now, db)
  -- the lease columns stay as they are
  | cancelUpdate id now, db =>
    db.updateJobs (·.id = id) fun j => { j with status := .canceled, updatedMs := now }
  | leaseUpdate id worker expires now, db =>
    db.updateJobs (leasable id now) fun j =>
      { j with
        status := .leased
        leaseOwner := some worker
        leaseExpiresMs := some expires
        updatedMs := now }
  | completeUpdate id worker outputKind outputFingerprint now, db =>
    db.updateJobs (leasedBy id worker) fun j =>
      { j.release with
        status := .succeeded
        attempts := j.attempts + 1
        outputKind
        outputFingerprint
        nextRunMs := none
        updatedMs := now }
  | failUpdate id worker status attempts failureKind failureFingerprint nextRunMs now, db =>
    db.updateJobs (leasedBy id worker) fun j =>
      { j.release with
        status
        attempts
        failureKind := some failureKind
        failureFingerprint := some failureFingerprint
        nextRunMs
        updatedMs := now }
  | approvalWaitUpdate id worker approvalId expiresMs reason now, db =>
    db.updateJobs (leasedBy id worker) fun j =>
      { j.release with
        status := .approvalWait
        approvalId := some approvalId
        approvalExpiresMs := some expiresMs
        approvalReason := some reason
        nextRunMs := none
        updatedMs := now }
  | decideApproval id approvalId decision actor reason now, db =>
    db.decideApproval id approvalId decision actor reason now

/-- The effect of an access on the runtime. Only the counter for ids is outside of the database. -/
def Access.exec : (q : Access) → QueueState → q.Reply × QueueState
  | freshId, s => (s!"job_{min (s.nextId + 1) u64Max}", { s with nextId := (s.nextId + 1) % 2 ^ 64 })
  | q, s => ((q.execDb s.db).1, { s with db := (q.execDb s.db).2 })

end Corvid.Queue
