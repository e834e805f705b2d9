import Corvid.Queue.Runtime

/-!
# The scheduler of the durable queue

A schedule fires at the times of a cron expression in a time zone. Recovery looks at the window since
the last fire or check and enqueues a job for each missed fire, as the policy of the schedule says.
The parser of cron expressions and the time zone database are parameters.

## Main definitions

* `CronLibrary`: expressions, time zones, and the first fire after a time
* `missedFireTimes`: the fires of the window, at most a given number of them
* `recoverSchedulesAt`: recovery
* `Op`, `Op.prog`: all operations of the queue
-/

namespace Corvid.Queue

open Store

/-- Cron expressions and time zones. Times are milliseconds since the epoch. -/
structure CronLibrary where
  Schedule : Type
  Zone : Type
  parseSchedule : String → Except String Schedule
  parseZone : String → Except String Zone
  /-- The first fire strictly after a time. -/
  next : Schedule → Zone → ℤ → Option ℤ

/-- The expression `* * * * *` in UTC: every full minute. -/
def CronLibrary.everyMinute : CronLibrary where
  Schedule := Unit
  Zone := Unit
  parseSchedule _ := .ok ()
  parseZone _ := .ok ()
  next _ _ t := some (60000 * (t / 60000 + 1))

/-- The range of representable times. -/
def timestampMillisOpt (ms : ℤ) : Option ℤ :=
  if -8334601228800000 ≤ ms ∧ ms ≤ 8210266876799999 then some ms else none

def splitWhitespace (s : String) : List String :=
  ((s.toList.splitOnP Text.isWhitespace).filter (!·.isEmpty)).map String.ofList

def normalizeCron (cron : String) : Except RuntimeError String :=
  match splitWhitespace cron with
  | [a, b, c, d, e] => .ok s!"0 {a} {b} {c} {d} {e} *"
  | [a, b, c, d, e, f] => .ok s!"{a} {b} {c} {d} {e} {f} *"
  | [_, _, _, _, _, _, _] => .ok cron
  | _ => .error (.other s!"invalid cron expression `{cron}`: expected 5, 6, or 7 fields")

section Fires

variable (lib : CronLibrary)

def parseCron (cron : String) : Except RuntimeError lib.Schedule := do
  let expression ← normalizeCron cron
  match lib.parseSchedule expression with
  | .ok schedule => return schedule
  | .error err => .error (.other s!"invalid cron expression `{cron}`: {err}")

def parseZone (zone : String) : Except RuntimeError lib.Zone :=
  match lib.parseZone zone with
  | .ok z => .ok z
  | .error err => .error (.other s!"invalid schedule timezone `{zone}`: {err}")

def validateSchedule (cron zone : String) : Except RuntimeError Unit := do
  let _ ← parseCron lib cron
  let _ ← parseZone lib zone
  return ()

/-- The fires after a time and up to another one, at most `n` of them. -/
def firesAfter (next : ℤ → Option ℤ) (last : ℤ) : ℕ → ℤ → List ℤ
  | 0, _ => []
  | n + 1, t =>
    match next t with
    | none => []
    | some fire => if last < fire then [] else fire :: firesAfter next last n fire

/-- The time after which recovery looks for fires. -/
def QueueScheduleManifest.startMs (schedule : QueueScheduleManifest) : ℕ :=
  saturatingAdd (schedule.lastFireMs.getD schedule.lastCheckedMs) 1

def missedFireTimes (schedule : QueueScheduleManifest) (now maxMissed : ℕ) :
    Except RuntimeError (List ℕ) := do
  if now ≤ schedule.lastCheckedMs ∨ maxMissed = 0 then return []
  else
    let cron ← parseCron lib schedule.cron
    let zone ← parseZone lib schedule.zone
    match timestampMillisOpt (asI64 schedule.startMs) with
    | none => .error (.other s!"invalid schedule recovery start `{schedule.startMs}`")
    | some start =>
      match timestampMillisOpt (asI64 now) with
      | none => .error (.other s!"invalid schedule recovery end `{now}`")
      | some last => return (firesAfter (lib.next cron zone) last maxMissed start).map ofI64

end Fires

/-! ### Recovery -/

structure ScheduleRecovery where
  scheduleId : String
  task : String
  fireMs : ℕ
  jobId : Option String
  policy : ScheduleMissedPolicy
  action : String
deriving DecidableEq, Repr

structure SchedulerRecoveryReport where
  scanned : ℕ
  enqueued : ℕ
  skipped : ℕ
  recoveries : List ScheduleRecovery
deriving DecidableEq, Repr

def QueueScheduleManifest.recovery (schedule : QueueScheduleManifest) (fireMs : ℕ)
    (jobId : Option String) (action : String) : ScheduleRecovery :=
  ⟨schedule.id, schedule.task, fireMs, jobId, schedule.missedPolicy, action⟩

/-- The job of a fire. -/
def QueueScheduleManifest.fireSpec (schedule : QueueScheduleManifest) (fireMs : ℕ) : JobSpec where
  task := schedule.task
  payload := .object [("payload", schedule.payload), ("schedule_id", .string schedule.id),
    ("scheduled_fire_ms", .int fireMs)]
  inputSchema := none
  maxRetries := schedule.maxRetries
  budgetUsd := some schedule.budgetUsd
  effectSummary := schedule.effectSummary
  replayKey := schedule.replayKeyPrefix.map fun start => s!"{start}:{fireMs}"
  nextRunMs := none

/-- The fire is recorded in one transaction and its job is inserted in another one. -/
def enqueueScheduleFire (schedule : QueueScheduleManifest) (fireMs now : ℕ) :
    QueueM (Option QueueJob) := do
  if ← access (.recordFire schedule.id fireMs now) then
    let job ← enqueueTypedAt (schedule.fireSpec fireMs) now
    access (.linkFire (QueueDb.eventId schedule.id fireMs) job.id)
    return some job
  else return none

/-- Enqueues the fires in turn and reports those that were not recorded before. -/
def enqueueFires (schedule : QueueScheduleManifest) (now : ℕ) :
    List ℕ → QueueM (List ScheduleRecovery)
  | [] => return []
  | fire :: rest => do
    let job? ← enqueueScheduleFire schedule fire now
    let recoveries ← enqueueFires schedule now rest
    match job? with
    | some job => return schedule.recovery fire (some job.id) "enqueued" :: recoveries
    | none => return recoveries

def recoverSchedule (lib : CronLibrary) (now maxMissed : ℕ) (schedule : QueueScheduleManifest)
    (report : SchedulerRecoveryReport) : QueueM SchedulerRecoveryReport := do
  match missedFireTimes lib schedule now maxMissed with
  | .error err => .fail err
  | .ok due =>
    if due.isEmpty then
      access (.markScheduleChecked schedule.id now schedule.lastFireMs)
      return report
    else
      match schedule.missedPolicy with
      | .skipMissed =>
        access (.markScheduleChecked schedule.id now due.getLast?)
        return { report with
          skipped := report.skipped + due.length
          recoveries := report.recoveries ++ due.map (schedule.recovery · none "skipped") }
      | .fireOnceOnRecovery =>
        let recoveries ← enqueueFires schedule now due.getLast?.toList
        access (.markScheduleChecked schedule.id now due.getLast?)
        return { report with
          enqueued := report.enqueued + recoveries.length
          recoveries := report.recoveries ++ recoveries }
      | .enqueueAllBounded =>
        let recoveries ← enqueueFires schedule now due
        access (.markScheduleChecked schedule.id now due.getLast?)
        return { report with
          enqueued := report.enqueued + recoveries.length
          recoveries := report.recoveries ++ recoveries }

def recoverAll (lib : CronLibrary) (now maxMissed : ℕ) :
    List QueueScheduleManifest → SchedulerRecoveryReport → QueueM SchedulerRecoveryReport
  | [], report => return report
  | schedule :: rest, report => do
    let report ← recoverSchedule lib now maxMissed schedule report
    recoverAll lib now maxMissed rest report

def recoverSchedulesAt (lib : CronLibrary) (now maxMissed : ℕ) :
    QueueM SchedulerRecoveryReport := do
  let schedules ← access .listSchedules
  recoverAll lib now maxMissed schedules ⟨schedules.length, 0, 0, []⟩

/-- A new schedule is checked from now on, unless the manifest says otherwise. -/
def upsertSchedule (lib : CronLibrary) (manifest : QueueScheduleManifest) (budgetUsd : Option ℚ)
    (now : ℕ) : QueueM Unit := do
  match validateSchedule lib manifest.cron manifest.zone with
  | .error err => .fail err
  | .ok () =>
    if blank manifest.id then other "std.queue schedule id must not be empty"
    else if blank manifest.task then other "std.queue schedule task must not be empty"
    else
      access (.upsertSchedule { manifest with
        budgetUsd := sanitizeUsd budgetUsd
        createdMs := if manifest.createdMs = 0 then now else manifest.createdMs
        lastCheckedMs := if manifest.lastCheckedMs = 0 then now else manifest.lastCheckedMs
        updatedMs := now })

/-! ### All operations -/

inductive Op where
  | enqueue (spec : JobSpec) (now : ℕ)
  | enqueueIdempotent (spec : JobSpec) (key : Option String) (now : ℕ)
  | setPaused (paused : Bool)
  | drainActiveLeases (now : ℕ)
  | retryJob (id : String) (now : ℕ)
  | cancel (id : String) (now : ℕ)
  | setGlobalConcurrencyLimit (limit : ℕ)
  | setTaskConcurrencyLimit (task : String) (limit : ℕ)
  | setLoopLimits (id : String) (limits : JobLoopLimits)
  | recordLoopUsageAt (id : String) (steps wallMs : ℕ) (spendUsd : Option ℚ) (toolCalls : ℕ)
      (actor : String) (now : ℕ)
  | setStallPolicy (id : String) (stallAfterMs : ℕ) (action : JobStallAction) (now : ℕ)
  | recordLoopHeartbeatAt (id actor : String) (message : Option String) (now : ℕ)
  | checkStallAt (id actor : String) (now : ℕ)
  | leaseNextAt (worker : String) (ttlMs now : ℕ)
  | completeLeased (id worker : String) (outputKind outputFingerprint : Option String) (now : ℕ)
  | failLeased (id worker failureKind failureFingerprint : String) (baseDelayMs now : ℕ)
  | enterApprovalWait (id worker approvalId : String) (expiresMs : ℕ) (reason : String) (now : ℕ)
  | decideApprovalWaitAt (id approvalId : String) (decision : JobApprovalDecision) (actor : String)
      (reason : Option String) (now : ℕ)
  | runOneWithOutput (outputKind outputFingerprint : Option String) (now : ℕ)
  | runOneFailed (failureKind failureFingerprint : String) (baseDelayMs now : ℕ)
  | upsertSchedule (manifest : QueueScheduleManifest) (budgetUsd : Option ℚ) (now : ℕ)
  | recoverSchedulesAt (now maxMissed : ℕ)
deriving DecidableEq, Repr

/-- The program of an operation. Its result is the job it returns, if it returns one. -/
def Op.prog (lib : CronLibrary) : Op → QueueM (Option QueueJob)
  | enqueue spec now => some <$> enqueueTypedAt spec now
  | enqueueIdempotent spec key now => some <$> enqueueTypedIdempotent spec key now
  | setPaused paused => (fun _ => none) <$> access (.setPaused paused)
  | drainActiveLeases now => (fun _ => none) <$> Queue.drainActiveLeases now
  | retryJob id now => some <$> Queue.retryJob id now
  | cancel id now => some <$> Queue.cancel id now
  | setGlobalConcurrencyLimit limit => (fun _ => none) <$> Queue.setGlobalConcurrencyLimit limit
  | setTaskConcurrencyLimit task limit =>
    (fun _ => none) <$> Queue.setTaskConcurrencyLimit task limit
  | setLoopLimits id limits => (fun _ => none) <$> Queue.setLoopLimits id limits
  | recordLoopUsageAt id steps wallMs spendUsd toolCalls actor now =>
    (fun _ => none) <$> Queue.recordLoopUsageAt id steps wallMs spendUsd toolCalls actor now
  | setStallPolicy id stallAfterMs action now =>
    (fun _ => none) <$> Queue.setStallPolicy id stallAfterMs action now
  | recordLoopHeartbeatAt id actor message now =>
    (fun _ => none) <$> Queue.recordLoopHeartbeatAt id actor message now
  | checkStallAt id actor now => (fun _ => none) <$> Queue.checkStallAt id actor now
  | leaseNextAt worker ttlMs now => Queue.leaseNextAt worker ttlMs now
  | completeLeased id worker outputKind outputFingerprint now =>
    some <$> Queue.completeLeased id worker outputKind outputFingerprint now
  | failLeased id worker failureKind failureFingerprint baseDelayMs now =>
    some <$> Queue.failLeased id worker failureKind failureFingerprint baseDelayMs now
  | enterApprovalWait id worker approvalId expiresMs reason now =>
    some <$> Queue.enterApprovalWait id worker approvalId expiresMs reason now
  | decideApprovalWaitAt id approvalId decision actor reason now =>
    some <$> Queue.decideApprovalWaitAt id approvalId decision actor reason now
  | runOneWithOutput outputKind outputFingerprint now =>
    Queue.runOneWithOutput outputKind outputFingerprint now
  | runOneFailed failureKind failureFingerprint baseDelayMs now =>
    Queue.runOneFailed failureKind failureFingerprint baseDelayMs now
  | upsertSchedule manifest budgetUsd now =>
    (fun _ => none) <$> Queue.upsertSchedule lib manifest budgetUsd now
  | recoverSchedulesAt now maxMissed =>
    (fun _ => none) <$> Queue.recoverSchedulesAt lib now maxMissed

/-- An operation that runs alone. -/
def Op.run (lib : CronLibrary) (op : Op) (s : QueueState) :
    Except RuntimeError (Option QueueJob) × QueueState :=
  (op.prog lib).run Access.exec s

/-- Operations one after another, each alone, from the empty database. -/
def runAll (lib : CronLibrary) (ops : List Op) : QueueState :=
  ops.foldl (fun s op => (op.run lib s).2) ⟨.empty, 0⟩

end Corvid.Queue
