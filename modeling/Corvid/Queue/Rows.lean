import Corvid.Queue.Scheduler

/-!
# What an access does to a row

Every access leaves the rows of `queue_jobs` in their places and changes each of them by one of a
dozen statements, or inserts one row. All facts about the life of a job follow from this list.

## Main definitions

* `RowStep`: the statements, on one row
* `Op.Issues`: the accesses of an operation

## Main results

* `exec_jobs`: an access is a `RowStep` on each row, possibly with a new row
* `Op.all_issues`: which operations issue which accesses
-/

namespace Corvid.Queue

open Store

/-- Whether the loop usage of a job is out of bounds after a delta is recorded. -/
def QueueDb.exceedsBounds (db : QueueDb) (id : String) (delta : JobLoopUsage) : Bool :=
  ((db.loopUsage id).elim (some delta) (·.add delta)).any fun usage =>
    !((db.loopLimits id).elim [] (loopBoundViolations usage)).isEmpty

/-- What an access does to a row, with the conditions under which it does it. -/
inductive RowStep (db : QueueDb) : Access → QueueJob → QueueJob → Prop
  | same {q : Access} {j : QueueJob} : RowStep db q j j
  | drain {now : ℕ} {j : QueueJob} : j.status = .leased →
      RowStep db (.drainUpdate now) j { j.release with status := .pending, updatedMs := now }
  | retry {id : String} {now : ℕ} {j : QueueJob} : j.id = id →
      RowStep db (.retryUpdate id now) j
        { j.release with status := .pending, nextRunMs := some now, updatedMs := now }
  | overBudget {id actor reason : String} {delta : JobLoopUsage} {now : ℕ} {j : QueueJob} :
      j.id = id → ¬ QueueDb.isTerminalForUsage j.status → db.exceedsBounds id delta →
      RowStep db (.recordLoopUsage id delta actor now) j
        { j.release with
          status := .loopBudgetExceeded
          failureKind := some "loop_bound_exceeded"
          failureFingerprint := some reason
          nextRunMs := none
          updatedMs := now }
  | stall {id actor reason : String} {now : ℕ} {status : QueueJobStatus} {j : QueueJob} :
      j.id = id → ¬ QueueDb.isTerminalForStall j.status →
      status = .loopStallEscalated ∨ status = .loopStallTerminated →
      RowStep db (.checkStall id actor now) j
        { j.release with
          status
          failureKind := some "loop_stalled"
          failureFingerprint := some reason
          nextRunMs := none
          updatedMs := now }
  | cancel {id : String} {now : ℕ} {j : QueueJob} : j.id = id →
      RowStep db (.cancelUpdate id now) j { j with status := .canceled, updatedMs := now }
  | lease {id worker : String} {expires now : ℕ} {j : QueueJob} : leasable id now j →
      RowStep db (.leaseUpdate id worker expires now) j
        { j with
          status := .leased
          leaseOwner := some worker
          leaseExpiresMs := some expires
          updatedMs := now }
  | complete {id worker : String} {outputKind outputFingerprint : Option String} {now : ℕ}
      {j : QueueJob} : leasedBy id worker j →
      RowStep db (.completeUpdate id worker outputKind outputFingerprint now) j
        { j.release with
          status := .succeeded
          attempts := j.attempts + 1
          outputKind
          outputFingerprint
          nextRunMs := none
          updatedMs := now }
  | fail {id worker failureKind failureFingerprint : String} {status : QueueJobStatus}
      {attempts now : ℕ} {nextRunMs : Option ℕ} {j : QueueJob} : leasedBy id worker j →
      RowStep db (.failUpdate id worker status attempts failureKind failureFingerprint nextRunMs now)
        j { j.release with
            status
            attempts
            failureKind := some failureKind
            failureFingerprint := some failureFingerprint
            nextRunMs
            updatedMs := now }
  | approvalWait {id worker approvalId reason : String} {expiresMs now : ℕ} {j : QueueJob} :
      leasedBy id worker j →
      RowStep db (.approvalWaitUpdate id worker approvalId expiresMs reason now) j
        { j.release with
          status := .approvalWait
          approvalId := some approvalId
          approvalExpiresMs := some expiresMs
          approvalReason := some reason
          nextRunMs := none
          updatedMs := now }
  | approve {id approvalId actor : String} {reason : Option String} {now : ℕ} {j : QueueJob} :
      j.id = id → j.status = .approvalWait → j.approvalId = some approvalId →
      RowStep db (.decideApproval id approvalId .approve actor reason now) j
        { j.release with status := .pending, nextRunMs := some now, updatedMs := now }
  | deny {id approvalId actor : String} {reason : Option String} {now : ℕ} {j : QueueJob} :
      j.id = id → j.status = .approvalWait → j.approvalId = some approvalId →
      RowStep db (.decideApproval id approvalId .deny actor reason now) j
        { j.release with status := .approvalDenied, nextRunMs := none, updatedMs := now }
  | expire {id approvalId actor : String} {reason : Option String} {now : ℕ} {j : QueueJob} :
      j.id = id → j.status = .approvalWait → j.approvalId = some approvalId →
      RowStep db (.decideApproval id approvalId .expire actor reason now) j
        { j.release with status := .approvalExpired, nextRunMs := none, updatedMs := now }

theorem RowStep.id_eq {db : QueueDb} {q : Access} {j j' : QueueJob} (h : RowStep db q j j') :
    j'.id = j.id := by
  cases h <;> rfl

/-- Rows have different ids. -/
def QueueDb.Keyed (db : QueueDb) : Prop := (db.jobs.map QueueJob.id).Nodup

theorem findJob_eq_some {db : QueueDb} (h : db.Keyed) {id : String} {j : QueueJob} :
    findJob id db.jobs = some j ↔ j ∈ db.jobs ∧ j.id = id := by
  unfold QueueDb.Keyed at h
  unfold findJob
  generalize db.jobs = jobs at h
  constructor
  · intro hj
    exact ⟨List.mem_of_find?_eq_some hj, by simpa using List.find?_some hj⟩
  · rintro ⟨hmem, rfl⟩
    induction jobs with
    | nil => cases hmem
    | cons a jobs ih =>
      rw [List.map_cons, List.nodup_cons] at h
      rw [List.find?_cons]
      by_cases ha : a.id = j.id
      · have hja : j = a := by
          rcases List.mem_cons.mp hmem with hja | hmem
          · exact hja
          · exact absurd (ha ▸ List.mem_map_of_mem hmem) h.1
        simp [hja]
      · have hmem' : j ∈ jobs :=
          (List.mem_cons.mp hmem).resolve_left fun hja => ha (hja ▸ rfl)
        simp [ha, ih h.2 hmem']

/-- A statement on the rows that satisfy `p`. -/
theorem updateJobs_rows (db : QueueDb) {q : Access} {p : QueueJob → Bool} {f : QueueJob → QueueJob}
    (h : ∀ j ∈ db.jobs, p j → RowStep db q j (f j)) :
    ∃ g : QueueJob → QueueJob, (db.updateJobs p f).2.jobs = db.jobs.map g ∧
      ∀ j ∈ db.jobs, RowStep db q j (g j) := by
  refine ⟨fun j => if p j then f j else j, rfl, fun j hj => ?_⟩
  dsimp only
  by_cases hp : p j
  · rw [if_pos hp]
    exact h j hj hp
  · rw [if_neg hp]
    exact .same

theorem sameRows {db db' : QueueDb} {q : Access} (h : db'.jobs = db.jobs) :
    ∃ g : QueueJob → QueueJob, db'.jobs = db.jobs.map g ∧ ∀ j ∈ db.jobs, RowStep db q j (g j) :=
  ⟨id, by rw [h, List.map_id], fun _ _ => .same⟩

theorem recordLoopUsage_rows {db : QueueDb} (h : db.Keyed) (id : String) (delta : JobLoopUsage)
    (actor : String) (now : ℕ) :
    ∃ g : QueueJob → QueueJob, (db.recordLoopUsage id delta actor now).2.jobs = db.jobs.map g ∧
      ∀ j ∈ db.jobs, RowStep db (.recordLoopUsage id delta actor now) j (g j) := by
  unfold QueueDb.recordLoopUsage
  split
  next => exact sameRows rfl
  next job hjob =>
    split
    next => exact sameRows rfl
    next hterm =>
      split
      next => exact sameRows rfl
      next usage husage =>
        dsimp only
        split
        next => exact sameRows rfl
        next hviolated =>
          refine updateJobs_rows db fun j hj hid => ?_
          have hid : j.id = id := of_decide_eq_true hid
          have hsome := (findJob_eq_some h).mpr ⟨hj, hid⟩
          have hjj : job = j := Option.some.inj (hjob.symm.trans hsome)
          subst hjj
          refine .overBudget hid hterm ?_
          rw [QueueDb.exceedsBounds, husage, Option.any_some]
          simpa using hviolated

theorem checkStall_rows {db : QueueDb} (h : db.Keyed) (id actor : String) (now : ℕ) :
    ∃ g : QueueJob → QueueJob, (db.checkStall id actor now).2.jobs = db.jobs.map g ∧
      ∀ j ∈ db.jobs, RowStep db (.checkStall id actor now) j (g j) := by
  unfold QueueDb.checkStall
  split
  next => exact sameRows rfl
  next => exact sameRows rfl
  next job policy hjob _ =>
    dsimp only
    split
    next hstalled =>
      refine updateJobs_rows db fun j hj hid => ?_
      have hid : j.id = id := of_decide_eq_true hid
      have hsome := (findJob_eq_some h).mpr ⟨hj, hid⟩
      have hjj : job = j := Option.some.inj (hjob.symm.trans hsome)
      subst hjj
      refine .stall hid (of_decide_eq_true hstalled).2 ?_
      cases policy.action with
      | escalate => exact .inl rfl
      | terminate => exact .inr rfl
    next => exact sameRows rfl

theorem decideApproval_rows {db : QueueDb} (id approvalId : String)
    (decision : JobApprovalDecision) (actor : String) (reason : Option String) (now : ℕ) :
    ∃ g : QueueJob → QueueJob,
      (db.decideApproval id approvalId decision actor reason now).2.jobs = db.jobs.map g ∧
      ∀ j ∈ db.jobs, RowStep db (.decideApproval id approvalId decision actor reason now) j (g j) := by
  unfold QueueDb.decideApproval
  split
  next => exact sameRows rfl
  next =>
    split
    next => exact sameRows rfl
    next =>
      split
      next => exact sameRows rfl
      next =>
        split
        next => exact sameRows rfl
        next =>
          split
          next => exact sameRows rfl
          next =>
            refine updateJobs_rows db fun j hj hp => ?_
            obtain ⟨hid, hstatus, happroval⟩ := of_decide_eq_true hp
            cases decision with
            | approve => exact .approve hid hstatus happroval
            | deny => exact .deny hid hstatus happroval
            | expire => exact .expire hid hstatus happroval

/-- The rows after an access: the old ones, each changed by a statement, and at most one new row. -/
theorem exec_jobs {db : QueueDb} (h : db.Keyed) (q : Access) :
    ∃ g : QueueJob → QueueJob, (∀ j ∈ db.jobs, RowStep db q j (g j)) ∧
      ((q.execDb db).2.jobs = db.jobs.map g ∨
        ∃ job, q = .insertJob job ∧ findJob job.id db.jobs = none ∧
          (q.execDb db).2.jobs = db.jobs.map g ++ [job]) := by
  have hrows : (∃ g : QueueJob → QueueJob, (q.execDb db).2.jobs = db.jobs.map g ∧
      ∀ j ∈ db.jobs, RowStep db q j (g j)) ∨
      ∃ job, q = .insertJob job ∧ findJob job.id db.jobs = none ∧
        (q.execDb db).2.jobs = db.jobs ++ [job] := by
    cases q with
    | insertJob job =>
      rw [Access.execDb, QueueDb.insertJob]
      split
      next => exact .inl (sameRows rfl)
      next hnone =>
        split
        next => exact .inl (sameRows rfl)
        next => exact .inr ⟨job, rfl, Option.not_isSome_iff_eq_none.mp hnone, rfl⟩
    | drainUpdate now => exact .inl (updateJobs_rows db fun j _ hj => .drain (of_decide_eq_true hj))
    | retryUpdate id now => exact .inl (updateJobs_rows db fun j _ hj => .retry (of_decide_eq_true hj))
    | cancelUpdate id now => exact .inl (updateJobs_rows db fun j _ hj => .cancel (of_decide_eq_true hj))
    | leaseUpdate id worker expires now => exact .inl (updateJobs_rows db fun j _ hj => .lease hj)
    | completeUpdate => exact .inl (updateJobs_rows db fun j _ hj => .complete hj)
    | failUpdate => exact .inl (updateJobs_rows db fun j _ hj => .fail hj)
    | approvalWaitUpdate => exact .inl (updateJobs_rows db fun j _ hj => .approvalWait hj)
    | recordLoopUsage id delta actor now => exact .inl (recordLoopUsage_rows h id delta actor now)
    | checkStall id actor now => exact .inl (checkStall_rows h id actor now)
    | decideApproval id approvalId decision actor reason now =>
      exact .inl (decideApproval_rows id approvalId decision actor reason now)
    | upsertSchedule manifest =>
      refine .inl (sameRows ?_)
      show (db.upsertSchedule manifest).jobs = db.jobs
      unfold QueueDb.upsertSchedule
      split <;> rfl
    | recordFire scheduleId fireMs now =>
      refine .inl (sameRows ?_)
      show (db.recordFire scheduleId fireMs now).2.jobs = db.jobs
      unfold QueueDb.recordFire
      dsimp only
      split <;> rfl
    | freshId | getJob | getByIdempotencyKey | listJobs | setPaused | isPaused | setLoopLimits
    | setStallPolicy | recordHeartbeat | listSchedules | linkFire | markScheduleChecked | setLimit
    | concurrencyAllows => exact .inl (sameRows rfl)
  rcases hrows with ⟨g, hjobs, hg⟩ | ⟨job, hq, hnone, hjobs⟩
  · exact ⟨g, hg, .inl hjobs⟩
  · exact ⟨id, fun _ _ => .same, .inr ⟨job, hq, hnone, by rw [hjobs, List.map_id]⟩⟩

theorem exec_db (q : Access) (s : QueueState) : (q.exec s).2.db = (q.execDb s.db).2 := by
  cases q <;> rfl

/-- The pause flag and the limits of a database. -/
def QueueDb.settings (db : QueueDb) : Bool × (LimitScope → Option ℕ) := (db.paused, db.limits)

def QueueDb.unrelated (db : QueueDb) : (Bool × (LimitScope → Option ℕ)) × List QueueScheduleManifest :=
  (db.settings, db.schedules)

theorem recordLoopUsage_unrelated (db : QueueDb) (id : String) (delta : JobLoopUsage)
    (actor : String) (now : ℕ) :
    (db.recordLoopUsage id delta actor now).2.unrelated = db.unrelated := by
  unfold QueueDb.recordLoopUsage
  split
  · rfl
  · split
    · rfl
    · split
      · rfl
      · dsimp only
        split <;> rfl

theorem checkStall_unrelated (db : QueueDb) (id actor : String) (now : ℕ) :
    (db.checkStall id actor now).2.unrelated = db.unrelated := by
  unfold QueueDb.checkStall
  split
  · rfl
  · rfl
  · dsimp only
    split <;> rfl

theorem decideApproval_unrelated (db : QueueDb) (id approvalId : String)
    (decision : JobApprovalDecision) (actor : String) (reason : Option String) (now : ℕ) :
    (db.decideApproval id approvalId decision actor reason now).2.unrelated = db.unrelated := by
  unfold QueueDb.decideApproval
  split
  · rfl
  · split
    · rfl
    · split
      · rfl
      · split
        · rfl
        · split <;> rfl

/-- The pause flag and the limits are changed by their own accesses only. -/
theorem exec_settings (db : QueueDb) {q : Access} (hpaused : ∀ paused, q ≠ .setPaused paused)
    (hlimit : ∀ scope limit, q ≠ .setLimit scope limit) :
    (q.execDb db).2.settings = db.settings := by
  cases q with
  | setPaused paused => exact absurd rfl (hpaused paused)
  | setLimit scope limit => exact absurd rfl (hlimit scope limit)
  | insertJob job =>
    rw [Access.execDb, QueueDb.insertJob]
    split
    · rfl
    · split <;> rfl
  | recordLoopUsage id delta actor now =>
    exact congrArg Prod.fst (recordLoopUsage_unrelated db id delta actor now)
  | checkStall id actor now => exact congrArg Prod.fst (checkStall_unrelated db id actor now)
  | decideApproval id approvalId decision actor reason now =>
    exact congrArg Prod.fst (decideApproval_unrelated db id approvalId decision actor reason now)
  | upsertSchedule manifest =>
    rw [Access.execDb, QueueDb.upsertSchedule]
    split <;> rfl
  | recordFire scheduleId fireMs now =>
    show (db.recordFire scheduleId fireMs now).2.settings = _
    unfold QueueDb.recordFire
    dsimp only
    split <;> rfl
  | _ => rfl

/-- The schedules are changed by their own accesses only. -/
theorem exec_schedules (db : QueueDb) {q : Access} (hupsert : ∀ m, q ≠ .upsertSchedule m)
    (hmark : ∀ id now lastFire, q ≠ .markScheduleChecked id now lastFire) :
    (q.execDb db).2.schedules = db.schedules := by
  cases q with
  | upsertSchedule m => exact absurd rfl (hupsert m)
  | markScheduleChecked id now lastFire => exact absurd rfl (hmark id now lastFire)
  | insertJob job =>
    rw [Access.execDb, QueueDb.insertJob]
    split
    · rfl
    · split <;> rfl
  | recordLoopUsage id delta actor now =>
    exact congrArg Prod.snd (recordLoopUsage_unrelated db id delta actor now)
  | checkStall id actor now => exact congrArg Prod.snd (checkStall_unrelated db id actor now)
  | decideApproval id approvalId decision actor reason now =>
    exact congrArg Prod.snd (decideApproval_unrelated db id approvalId decision actor reason now)
  | recordFire scheduleId fireMs now =>
    show (db.recordFire scheduleId fireMs now).2.schedules = _
    unfold QueueDb.recordFire
    dsimp only
    split <;> rfl
  | _ => rfl

theorem exec_paused (db : QueueDb) {q : Access} (h : ∀ paused, q ≠ .setPaused paused) :
    (q.execDb db).2.paused = db.paused := by
  by_cases hlimit : ∃ scope limit, q = .setLimit scope limit
  · obtain ⟨scope, limit, rfl⟩ := hlimit
    rfl
  · exact congrArg Prod.fst (exec_settings db h fun scope limit hq => hlimit ⟨scope, limit, hq⟩)

theorem exec_limits (db : QueueDb) {q : Access} (h : ∀ scope limit, q ≠ .setLimit scope limit) :
    (q.execDb db).2.limits = db.limits := by
  by_cases hpaused : ∃ paused, q = .setPaused paused
  · obtain ⟨paused, rfl⟩ := hpaused
    rfl
  · exact congrArg Prod.snd (exec_settings db (fun paused hq => hpaused ⟨paused, hq⟩) h)

section Rows

variable {db : QueueDb} {q : Access}

theorem keyed_exec (h : db.Keyed) (q : Access) : (q.execDb db).2.Keyed := by
  obtain ⟨g, hg, hjobs⟩ := exec_jobs h q
  have hids : (db.jobs.map g).map QueueJob.id = db.jobs.map QueueJob.id := by
    rw [List.map_map]
    exact List.map_congr_left fun j hj => (hg j hj).id_eq
  unfold QueueDb.Keyed at h ⊢
  rcases hjobs with hjobs | ⟨job, -, hnone, hjobs⟩
  · rwa [hjobs, hids]
  · rw [hjobs, List.map_append, hids, List.map_singleton, List.nodup_append]
    refine ⟨h, by simp, ?_⟩
    rintro _ hmem _ hjob rfl
    obtain ⟨j, hj, hid⟩ := List.mem_map.mp hmem
    have hsome := List.find?_eq_none.mp hnone j hj
    exact hsome (decide_eq_true (hid.trans (List.mem_singleton.mp hjob)))

/-- What holds of every row, if every statement preserves it and new rows satisfy it. -/
theorem forall_exec {I : QueueJob → Prop} (h : db.Keyed)
    (hstep : ∀ j ∈ db.jobs, ∀ j', RowStep db q j j' → I j')
    (hnew : ∀ job, q = .insertJob job → I job) : ∀ j ∈ (q.execDb db).2.jobs, I j := by
  obtain ⟨g, hg, hjobs⟩ := exec_jobs h q
  have hmap : ∀ j ∈ db.jobs.map g, I j := by
    intro j hj
    obtain ⟨j₀, hj₀, rfl⟩ := List.mem_map.mp hj
    exact hstep j₀ hj₀ _ (hg j₀ hj₀)
  intro j hj
  rcases hjobs with hjobs | ⟨job, hq, -, hjobs⟩
  · rw [hjobs] at hj
    exact hmap j hj
  · rw [hjobs, List.mem_append, List.mem_singleton] at hj
    rcases hj with hj | rfl
    · exact hmap j hj
    · exact hnew j hq

/-- A row stays, changed by a statement. -/
theorem findJob_exec (h : db.Keyed) {id : String} {j : QueueJob}
    (hj : findJob id db.jobs = some j) (q : Access) :
    ∃ j', RowStep db q j j' ∧ findJob id (q.execDb db).2.jobs = some j' := by
  obtain ⟨hmem, hid⟩ := (findJob_eq_some h).mp hj
  obtain ⟨g, hg, hjobs⟩ := exec_jobs h q
  refine ⟨g j, hg j hmem, (findJob_eq_some (keyed_exec h q)).mpr ⟨?_, (hg j hmem).id_eq.trans hid⟩⟩
  have hmap : g j ∈ db.jobs.map g := List.mem_map_of_mem hmem
  rcases hjobs with hjobs | ⟨job, -, -, hjobs⟩
  · rwa [hjobs]
  · rw [hjobs]
    exact List.mem_append_left _ hmap

end Rows

/-! ### Which operation issues which access -/

/-- The worker, the duration and the time of the lease that an operation asks for. -/
def Op.lease? : Op → Option (String × ℕ × ℕ)
  | .leaseNextAt worker ttlMs now => some (worker, ttlMs, now)
  | .runOneWithOutput _ _ now => some ("corvid-run-one", 300000, now)
  | .runOneFailed _ _ _ now => some ("corvid-run-one", 300000, now)
  | _ => none

/-- The accesses that an operation can issue, as far as they change a job. -/
def Op.Issues (op : Op) : Access → Prop
  | .insertJob job => ∃ spec id key now, job = JobSpec.job spec id key now
  | .retryUpdate id now => op = .retryJob id now
  | .cancelUpdate id now => op = .cancel id now
  | .recordLoopUsage id delta actor now => ∃ steps wallMs spendUsd toolCalls,
      delta = ⟨steps, wallMs, sanitizeUsd spendUsd, toolCalls, now⟩ ∧ ¬ blank actor ∧
        op = .recordLoopUsageAt id steps wallMs spendUsd toolCalls actor now
  | .leaseUpdate _ worker expires now =>
      ∃ ttlMs, op.lease? = some (worker, ttlMs, now) ∧ expires = saturatingAdd now (max ttlMs 1)
  | .failUpdate _ _ status .. => status = .retryWait ∨ status = .deadLettered
  | .approvalWaitUpdate id worker approvalId expiresMs reason now =>
      op = .enterApprovalWait id worker approvalId expiresMs reason now
  | .decideApproval id approvalId decision actor reason now =>
      op = .decideApprovalWaitAt id approvalId decision actor reason now
  | _ => True

/-- The accesses that an operation can issue, as far as they change a job or a schedule. -/
def Op.CanIssue (op : Op) : Access → Prop
  | .upsertSchedule m => ∃ manifest budgetUsd now,
      op = .upsertSchedule manifest budgetUsd now ∧ m.id = manifest.id
  | .markScheduleChecked _ now _ => ∃ maxMissed, op = .recoverSchedulesAt now maxMissed
  | q => op.Issues q

theorem Op.CanIssue.issues {op : Op} {q : Access} (h : op.CanIssue q) : op.Issues q := by
  cases q with
  | upsertSchedule | markScheduleChecked => trivial
  | _ => exact h

theorem issues_of_canIssue {op : Op} {α : Type} {p : QueueM α} (h : p.All op.CanIssue) :
    p.All op.Issues :=
  h.mono fun _ => Op.CanIssue.issues

section Issues

variable (op : Op)

theorem all_requireJob (id : String) : (requireJob id).All op.CanIssue := by
  refine Prog.all_query_bind trivial fun job? => ?_
  cases job? <;> trivial

theorem all_enqueueTypedAt (spec : JobSpec) (now : ℕ) : (enqueueTypedAt spec now).All op.CanIssue := by
  unfold enqueueTypedAt
  split
  · trivial
  · refine Prog.all_query_bind trivial fun id =>
      Prog.all_query_bind ⟨spec, id, none, now, rfl⟩ fun r => ?_
    cases r <;> trivial

theorem all_enqueueTypedIdempotent (spec : JobSpec) (key : Option String) (now : ℕ) :
    (enqueueTypedIdempotent spec key now).All op.CanIssue := by
  unfold enqueueTypedIdempotent
  split
  next => exact all_enqueueTypedAt op spec now
  next key _ =>
    refine Prog.all_query_bind trivial fun existing => ?_
    cases existing with
    | some job => trivial
    | none =>
      dsimp only
      split
      · trivial
      · refine Prog.all_query_bind trivial fun id =>
          Prog.all_query_bind ⟨spec, id, some key, now, rfl⟩ fun r => ?_
        cases r with
        | ok => trivial
        | error err =>
          refine Prog.all_query_bind trivial fun existing => ?_
          cases existing <;> trivial

theorem all_leaseFirst {worker : String} {ttlMs now : ℕ}
    (hop : op.lease? = some (worker, ttlMs, now)) (jobs : List QueueJob) :
    (leaseFirst worker (saturatingAdd now (max ttlMs 1)) now jobs).All op.CanIssue := by
  induction jobs with
  | nil => trivial
  | cons j jobs ih =>
    refine Prog.all_query_bind trivial fun allowed => ?_
    split
    · refine Prog.all_query_bind ⟨ttlMs, hop, rfl⟩ fun updated => ?_
      split
      · exact ⟨trivial, fun _ => trivial⟩
      · exact ih
    · exact ih

theorem all_leaseNextAt {worker : String} {ttlMs now : ℕ}
    (hop : op.lease? = some (worker, ttlMs, now)) :
    (leaseNextAt worker ttlMs now).All op.CanIssue := by
  refine Prog.all_query_bind trivial fun paused => ?_
  split
  · trivial
  · split
    · trivial
    · exact ⟨trivial, fun jobs => all_leaseFirst op hop _⟩

theorem all_ite_requireJob {c : Prop} [Decidable c] {p : QueueM QueueJob} (hp : p.All op.CanIssue)
    (id : String) : (if c then p else requireJob id).All op.CanIssue := by
  split
  · exact hp
  · exact all_requireJob op id

theorem all_completeLeased (id worker : String) (outputKind outputFingerprint : Option String)
    (now : ℕ) : (completeLeased id worker outputKind outputFingerprint now).All op.CanIssue :=
  Prog.all_query_bind trivial fun _ => all_ite_requireJob op (Prog.all_fail _) id

theorem afterFailure_status (attempts maxRetries baseDelayMs now : ℕ) :
    (afterFailure attempts maxRetries baseDelayMs now).1 = .retryWait ∨
      (afterFailure attempts maxRetries baseDelayMs now).1 = .deadLettered := by
  unfold afterFailure
  split
  · exact .inl rfl
  · exact .inr rfl

theorem all_failLeased (id worker failureKind failureFingerprint : String) (baseDelayMs now : ℕ) :
    (failLeased id worker failureKind failureFingerprint baseDelayMs now).All op.CanIssue := by
  refine Prog.all_bind (all_requireJob op id) fun job => ?_
  split
  · trivial
  · exact Prog.all_query_bind (afterFailure_status _ _ _ _) fun _ =>
      all_ite_requireJob op (Prog.all_fail _) id

theorem all_query {q : Access} (hq : op.CanIssue q) : (access q).All op.CanIssue :=
  ⟨hq, fun _ => trivial⟩

theorem all_enqueueScheduleFire (schedule : QueueScheduleManifest) (fireMs now : ℕ) :
    (enqueueScheduleFire schedule fireMs now).All op.CanIssue := by
  unfold enqueueScheduleFire
  refine Prog.all_query_bind trivial fun inserted => ?_
  split
  · refine Prog.all_bind (all_enqueueTypedAt op _ now) fun job => ?_
    exact Prog.all_query_bind trivial fun _ => trivial
  · trivial

theorem all_enqueueFires (schedule : QueueScheduleManifest) (now : ℕ) (fires : List ℕ) :
    (enqueueFires schedule now fires).All op.CanIssue := by
  induction fires with
  | nil => trivial
  | cons fire fires ih =>
    rw [enqueueFires]
    refine Prog.all_bind (all_enqueueScheduleFire op schedule fire now) fun job? =>
      Prog.all_bind ih fun recoveries => ?_
    cases job? <;> trivial

theorem all_recoverSchedule (lib : CronLibrary) (now maxMissed : ℕ)
    (schedule : QueueScheduleManifest) (report : SchedulerRecoveryReport) :
    (recoverSchedule lib now maxMissed schedule report).All
      (Op.recoverSchedulesAt now maxMissed).CanIssue := by
  have hmark : ∀ (lastFire : Option ℕ) (report : SchedulerRecoveryReport),
      Prog.All (Op.recoverSchedulesAt now maxMissed).CanIssue
        (access (.markScheduleChecked schedule.id now lastFire) >>= fun _ => pure report) :=
    fun lastFire report => Prog.all_query_bind ⟨maxMissed, rfl⟩ fun _ => trivial
  unfold recoverSchedule
  split
  next => trivial
  next due _ =>
    split
    · exact hmark _ _
    · split
      · exact hmark _ _
      · exact Prog.all_bind (all_enqueueFires _ schedule now _) fun _ => hmark _ _
      · exact Prog.all_bind (all_enqueueFires _ schedule now _) fun _ => hmark _ _

theorem all_recoverAll (lib : CronLibrary) (now maxMissed : ℕ)
    (schedules : List QueueScheduleManifest) (report : SchedulerRecoveryReport) :
    (recoverAll lib now maxMissed schedules report).All
      (Op.recoverSchedulesAt now maxMissed).CanIssue := by
  induction schedules generalizing report with
  | nil => trivial
  | cons schedule schedules ih =>
    rw [recoverAll]
    exact Prog.all_bind (all_recoverSchedule lib now maxMissed schedule report) ih

end Issues

/-- Every access of an operation is one that it can issue. -/
theorem Op.all_canIssue (lib : CronLibrary) (op : Op) : (op.prog lib).All op.CanIssue := by
  cases op with
  | enqueue spec now => exact Prog.all_map (all_enqueueTypedAt _ spec now)
  | enqueueIdempotent spec key now => exact Prog.all_map (all_enqueueTypedIdempotent _ spec key now)
  | setPaused paused => exact Prog.all_map (all_query _ trivial)
  | drainActiveLeases now =>
    refine Prog.all_map ?_
    unfold Queue.drainActiveLeases
    exact Prog.all_query_bind trivial fun _ => all_query _ trivial
  | retryJob id now =>
    refine Prog.all_map (Prog.all_bind (all_requireJob _ id) fun job => ?_)
    split
    · trivial
    · exact Prog.all_query_bind rfl fun _ => all_requireJob _ id
  | cancel id now => 
    exact Prog.all_map (Prog.all_query_bind rfl fun _ => all_ite_requireJob _ (Prog.all_fail _) id)
  | setGlobalConcurrencyLimit limit =>
    refine Prog.all_map ?_
    unfold Queue.setGlobalConcurrencyLimit Queue.setConcurrencyLimit
    split
    · trivial
    · exact all_query _ trivial
  | setTaskConcurrencyLimit task limit =>
    refine Prog.all_map ?_
    unfold Queue.setTaskConcurrencyLimit Queue.setConcurrencyLimit
    split
    · trivial
    · split
      · trivial
      · exact all_query _ trivial
  | setLoopLimits id limits =>
    exact Prog.all_map (Prog.all_bind (all_requireJob _ id) fun _ => all_query _ trivial)
  | recordLoopUsageAt id steps wallMs spendUsd toolCalls actor now =>
    refine Prog.all_map ?_
    unfold Queue.recordLoopUsageAt
    split
    next => trivial
    next hactor =>
      refine Prog.all_query_bind ⟨steps, wallMs, spendUsd, toolCalls, rfl, hactor, rfl⟩ fun r => ?_
      cases r <;> trivial
  | setStallPolicy id stallAfterMs action now =>
    refine Prog.all_map ?_
    unfold Queue.setStallPolicy
    split
    · trivial
    · exact Prog.all_bind (all_requireJob _ id) fun _ => all_query _ trivial
  | recordLoopHeartbeatAt id actor message now =>
    refine Prog.all_map ?_
    unfold Queue.recordLoopHeartbeatAt
    split
    · trivial
    · exact Prog.all_bind (all_requireJob _ id) fun _ => all_query _ trivial
  | checkStallAt id actor now =>
    refine Prog.all_map ?_
    unfold Queue.checkStallAt
    split
    · trivial
    · refine Prog.all_query_bind trivial fun r => ?_
      cases r <;> trivial
  | leaseNextAt worker ttlMs now => exact all_leaseNextAt _ rfl
  | completeLeased id worker outputKind outputFingerprint now =>
    exact Prog.all_map (all_completeLeased _ id worker outputKind outputFingerprint now)
  | failLeased id worker failureKind failureFingerprint baseDelayMs now =>
    exact Prog.all_map (all_failLeased _ id worker failureKind failureFingerprint baseDelayMs now)
  | enterApprovalWait id worker approvalId expiresMs reason now =>
    refine Prog.all_map ?_
    unfold Queue.enterApprovalWait
    split
    · trivial
    · split
      · trivial
      · exact Prog.all_query_bind rfl fun _ => all_ite_requireJob _ (Prog.all_fail _) id
  | decideApprovalWaitAt id approvalId decision actor reason now =>
    refine Prog.all_map ?_
    unfold Queue.decideApprovalWaitAt
    split
    · trivial
    · split
      · trivial
      · refine Prog.all_query_bind rfl fun r => ?_
        cases r with
        | ok => exact all_requireJob _ id
        | error err => trivial
  | runOneWithOutput outputKind outputFingerprint now =>
    refine Prog.all_bind (all_leaseNextAt _ rfl) fun job? => ?_
    cases job? with
    | none => trivial
    | some job => exact Prog.all_map (all_completeLeased _ job.id _ outputKind outputFingerprint now)
  | runOneFailed failureKind failureFingerprint baseDelayMs now =>
    refine Prog.all_bind (all_leaseNextAt _ rfl) fun job? => ?_
    cases job? with
    | none => trivial
    | some job => exact Prog.all_map (all_failLeased _ job.id _ _ _ baseDelayMs now)
  | upsertSchedule manifest budgetUsd now =>
    refine Prog.all_map ?_
    unfold Queue.upsertSchedule
    split
    · trivial
    · split
      · trivial
      · split
        · trivial
        · exact all_query _ ⟨_, _, _, rfl, rfl⟩
  | recoverSchedulesAt now maxMissed =>
    refine Prog.all_map (Prog.all_query_bind trivial fun schedules => ?_)
    exact all_recoverAll lib now maxMissed schedules _

theorem Op.all_issues (lib : CronLibrary) (op : Op) : (op.prog lib).All op.Issues :=
  issues_of_canIssue (op.all_canIssue lib)

end Corvid.Queue
