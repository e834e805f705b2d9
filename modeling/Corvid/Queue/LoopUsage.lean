import Corvid.Lib.Calls
import Corvid.Queue.Scheduler
import Mathlib.Data.UInt

/-!
# Loop limits

A job reports what its loop used, and is stopped by the report that exceeds one of its limits. The
reports are added up in signed columns of the database. A sum that leaves their range is refused, but
a sum of counters that are read back as unsigned can wrap around: it is counted from zero again.

## Main definitions

* `Counter`: what is counted, apart from the spend
* `LoopReport`, `record`: a report, and a call with it
* `Kept`: what a call is expected to do
* `Fits`: where its sums do not wrap around

## Main results

* `record_cases`: what a call does
* `kept_iff_fits`: the calls of a run do what they are expected to just when their sums fit
-/

namespace Corvid.Queue

open Store

/-! ## Counters -/

inductive Counter where
  | steps
  | wallMs
  | toolCalls
deriving DecidableEq, Repr

def JobLoopUsage.counter (usage : JobLoopUsage) : Counter → ℕ
  | .steps => usage.steps
  | .wallMs => usage.wallMs
  | .toolCalls => usage.toolCalls

def JobLoopLimits.limit (limits : JobLoopLimits) : Counter → Option ℕ
  | .steps => limits.maxSteps
  | .wallMs => limits.maxWallMs
  | .toolCalls => limits.maxToolCalls

structure LoopReport where
  jobId : String
  stepDelta : UInt64
  wallMsDelta : UInt64
  spendUsdDelta : Option ℚ
  toolCallDelta : UInt64
  actor : String
  now : UInt64
deriving DecidableEq

namespace LoopReport

variable (r : LoopReport)

/-- What a report adds to the usage. -/
def usage : JobLoopUsage where
  steps := r.stepDelta.toNat
  wallMs := r.wallMsDelta.toNat
  spendUsd := sanitizeUsd r.spendUsdDelta
  toolCalls := r.toolCallDelta.toNat
  updatedMs := r.now.toNat

theorem counter_usage_lt (c : Counter) : r.usage.counter c < 2 ^ 64 := by
  cases c with
  | steps => exact r.stepDelta.toNat_lt
  | wallMs => exact r.wallMsDelta.toNat_lt
  | toolCalls => exact r.toolCallDelta.toNat_lt

end LoopReport

/-- A sum of stored integers, read back as unsigned. -/
theorem sqlAdd_eq_some {a b n : ℕ} (h : sqlAdd a b = some n) : n = (a + b) % 2 ^ 64 := by
  unfold sqlAdd at h
  dsimp only at h
  split at h
  next =>
    rw [← Option.some.inj h]
    unfold ofI64 asI64
    split <;> split <;> omega
  next => cases h

theorem JobLoopUsage.counter_add {u delta usage : JobLoopUsage} (h : u.add delta = some usage)
    (c : Counter) : sqlAdd (u.counter c) (delta.counter c) = some (usage.counter c) := by
  simp only [add, Option.bind_eq_bind, Option.bind_eq_some_iff, Option.pure_def,
    Option.some.injEq] at h
  obtain ⟨steps, hsteps, wallMs, hwall, toolCalls, htools, rfl⟩ := h
  cases c with
  | steps => exact hsteps
  | wallMs => exact hwall
  | toolCalls => exact htools

/-! ## Limits -/

/-- Some total exceeds its limit. -/
def CounterExceeded (limits : JobLoopLimits) (totals : Counter → ℕ) : Prop :=
  ∃ c l, limits.limit c = some l ∧ l < totals c

def SpendExceeded (limits : JobLoopLimits) (usage : Option JobLoopUsage) : Prop :=
  ∃ l u, limits.maxSpendUsd = some l ∧ usage = some u ∧ l < u.spendUsd

theorem violation_eq_none {α : Type} {lt : α → α → Bool} {text : α → String} {name : String}
    {used : α} {limit : Option α} :
    violation lt text name used limit = none ↔ ∀ l, limit = some l → ¬ lt l used := by
  cases limit with
  | none => simp [violation]
  | some l => simp [violation]

theorem loopBoundViolations_eq_nil {usage : JobLoopUsage} {limits : JobLoopLimits} :
    loopBoundViolations usage limits = [] ↔
      ¬ (CounterExceeded limits usage.counter ∨ SpendExceeded limits (some usage)) := by
  simp only [loopBoundViolations, List.filterMap_eq_nil_iff, List.forall_mem_cons, id_eq,
    violation_eq_none, decide_eq_true_eq, not_or]
  constructor
  · rintro ⟨hsteps, hwall, hspend, htools, -⟩
    refine ⟨?_, ?_⟩
    · rintro ⟨c, l, hl, hlt⟩
      cases c with
      | steps => exact hsteps l hl hlt
      | wallMs => exact hwall l hl hlt
      | toolCalls => exact htools l hl hlt
    · rintro ⟨l, u, hl, hu, hlt⟩
      rw [← Option.some.inj hu] at hlt
      exact hspend l hl hlt
  · rintro ⟨hcounter, hspend⟩
    exact ⟨fun l hl hlt => hcounter ⟨.steps, l, hl, hlt⟩, fun l hl hlt => hcounter ⟨.wallMs, l, hl, hlt⟩,
      fun l hl hlt => hspend ⟨l, usage, hl, rfl, hlt⟩,
      fun l hl hlt => hcounter ⟨.toolCalls, l, hl, hlt⟩, by simp⟩

namespace LoopUsage

/-! ## A call -/

/-- `record_loop_usage_at` with the arguments of a report. -/
def record (r : LoopReport) (s : QueueState) :
    Except RuntimeError (JobLoopUsage × List String) × QueueState :=
  (recordLoopUsageAt r.jobId r.stepDelta.toNat r.wallMsDelta.toNat r.spendUsdDelta
    r.toolCallDelta.toNat r.actor r.now.toNat).run Access.exec s

/-- The usage after a report, unless a sum is out of range. -/
def nextUsage (r : LoopReport) (db : QueueDb) : Option JobLoopUsage :=
  (db.loopUsage r.jobId).elim (some r.usage) (·.add r.usage)

variable {id : String} {r : LoopReport} {s : QueueState} {limits : JobLoopLimits} {job : QueueJob}

@[simp] theorem record_of_blank (h : blank r.actor) :
    record r s = (.error (.other "std.queue loop usage actor must not be empty"), s) := by
  rw [record, recordLoopUsageAt, if_pos h]
  rfl

/-- A call is a single transaction. -/
theorem record_of_not_blank (h : ¬ blank r.actor) :
    record r s = ((s.db.recordLoopUsage r.jobId r.usage r.actor r.now.toNat).1,
      { s with db := (s.db.recordLoopUsage r.jobId r.usage r.actor r.now.toNat).2 }) := by
  rw [record, recordLoopUsageAt, if_neg h]
  set reply := s.db.recordLoopUsage r.jobId r.usage r.actor r.now.toNat with hreply
  have hexec : Access.exec (.recordLoopUsage r.jobId r.usage r.actor r.now.toNat) s =
      (reply.1, { s with db := reply.2 }) := rfl
  show Prog.run Access.exec (Prog.call (.recordLoopUsage r.jobId r.usage r.actor r.now.toNat) _) s
    = _
  rw [Prog.run, hexec]
  dsimp only
  rcases reply.1 with err | report <;> rfl

/-! ### The rows of a job -/

theorem findJob_map {f : QueueJob → QueueJob} (hf : ∀ j, (f j).id = j.id) {jobs : List QueueJob} :
    findJob id (jobs.map f) = (findJob id jobs).map f := by
  simp only [findJob, List.find?_map, Function.comp_def, hf]

theorem findJob_id (h : findJob id s.db.jobs = some job) : job.id = id := by
  simpa using List.find?_some h

/-- What an accepted call does to the job that it is about. -/
structure Accepted (limits : JobLoopLimits) (job : QueueJob) (usage : JobLoopUsage) (id : String)
    (db : QueueDb) : Prop where
  usage_eq : db.loopUsage id = some usage
  job_of_within : ¬ (CounterExceeded limits usage.counter ∨ SpendExceeded limits (some usage)) →
    findJob id db.jobs = some job
  job_of_exceeded : CounterExceeded limits usage.counter ∨ SpendExceeded limits (some usage) →
    ∃ job', findJob id db.jobs = some job' ∧ job'.status = .loopBudgetExceeded ∧
      job'.leaseOwner = none ∧ job'.leaseExpiresMs = none

theorem loopLimits_recordLoopUsage {db : QueueDb} {delta : JobLoopUsage} {actor : String} {now : ℕ} :
    (db.recordLoopUsage id delta actor now).2.loopLimits = db.loopLimits := by
  unfold QueueDb.recordLoopUsage
  split
  next => rfl
  next =>
    split
    next => rfl
    next =>
      split
      next => rfl
      next =>
        dsimp only
        split <;> rfl

@[simp] theorem loopLimits_record : (record r s).2.db.loopLimits = s.db.loopLimits := by
  by_cases hactor : blank r.actor
  · rw [record_of_blank hactor]
  · rw [record_of_not_blank hactor]
    exact loopLimits_recordLoopUsage

/-- A call does not touch another job. -/
theorem record_of_ne (hid : r.jobId ≠ id) :
    (record r s).2.db.loopUsage id = s.db.loopUsage id ∧
      findJob id (record r s).2.db.jobs = findJob id s.db.jobs := by
  by_cases hactor : blank r.actor
  · rw [record_of_blank hactor]
    exact ⟨rfl, rfl⟩
  rw [record_of_not_blank hactor]
  dsimp only
  unfold QueueDb.recordLoopUsage
  split
  next => exact ⟨rfl, rfl⟩
  next =>
    split
    next => exact ⟨rfl, rfl⟩
    next =>
      split
      next => exact ⟨rfl, rfl⟩
      next =>
        dsimp only
        split
        next => exact ⟨Function.update_of_ne (Ne.symm hid) _ _, rfl⟩
        next =>
          refine ⟨Function.update_of_ne (Ne.symm hid) _ _, ?_⟩
          show findJob id (List.map _ s.db.jobs) = _
          rw [findJob_map fun j => by split <;> rfl]
          cases hfound : findJob id s.db.jobs with
          | none => rfl
          | some job =>
            rw [Option.map_some, if_neg]
            simpa [findJob_id hfound] using Ne.symm hid

/-- A call for a job is refused, or it stores the next usage. -/
theorem record_cases (hid : r.jobId = id) (hjob : findJob id s.db.jobs = some job)
    (hlimits : s.db.loopLimits id = some limits) :
    ((∃ err, record r s = (.error err, s)) ∧
        (blank r.actor ∨ QueueDb.isTerminalForUsage job.status ∨ nextUsage r s.db = none)) ∨
      ∃ usage report, nextUsage r s.db = some usage ∧ (record r s).1 = .ok report ∧
        ¬ blank r.actor ∧ ¬ QueueDb.isTerminalForUsage job.status ∧
        Accepted limits job usage id (record r s).2.db := by
  subst hid
  by_cases hactor : blank r.actor
  · exact .inl ⟨⟨_, record_of_blank hactor⟩, .inl hactor⟩
  rw [record_of_not_blank hactor]
  unfold QueueDb.recordLoopUsage
  rw [hjob]
  dsimp only
  by_cases hterm : QueueDb.isTerminalForUsage job.status
  · rw [if_pos hterm]
    exact .inl ⟨⟨_, rfl⟩, .inr (.inl hterm)⟩
  rw [if_neg hterm]
  have hnext : nextUsage r s.db = (s.db.loopUsage r.jobId).elim (some r.usage) (·.add r.usage) := rfl
  rw [← hnext]
  cases husage : nextUsage r s.db with
  | none => exact .inl ⟨⟨_, rfl⟩, .inr (.inr rfl)⟩
  | some usage =>
    refine .inr ⟨usage, ?_⟩
    dsimp only
    rw [hlimits, Option.elim_some]
    split
    next hempty =>
      have hwithin := loopBoundViolations_eq_nil.mp (List.isEmpty_iff.mp hempty)
      exact ⟨_, rfl, rfl, hactor, hterm, Function.update_self .., fun _ => hjob,
        fun hexceeded => absurd hexceeded hwithin⟩
    next hviolated =>
      have hexceeded : CounterExceeded limits usage.counter ∨ SpendExceeded limits (some usage) := by
        rwa [List.isEmpty_iff, loopBoundViolations_eq_nil, not_not] at hviolated
      refine ⟨_, rfl, rfl, hactor, hterm, Function.update_self ..,
        fun hwithin => absurd hexceeded hwithin, fun _ => ?_⟩
      refine ⟨{ job.release with
        status := .loopBudgetExceeded
        failureKind := some "loop_bound_exceeded"
        failureFingerprint := some (Text.join "," (loopBoundViolations usage limits))
        nextRunMs := none
        updatedMs := r.now.toNat }, ?_, rfl, rfl, rfl⟩
      show findJob r.jobId (List.map _ s.db.jobs) = _
      rw [findJob_map fun j => by split <;> rfl, hjob, Option.map_some, if_pos]
      simp [findJob_id hjob]

/-! ## Sequences of calls -/

/-- The runtime, with what the accepted reports of a job add up to. -/
structure Tally where
  runtime : QueueState
  totals : Counter → ℕ

namespace Tally

variable (σ : Tally)

def usage (id : String) : Option JobLoopUsage := σ.runtime.db.loopUsage id

def row (id : String) : Option QueueJob := findJob id σ.runtime.db.jobs

/-- Whether the job is over one of its limits. -/
def Exceeded (id : String) (limits : JobLoopLimits) : Prop :=
  CounterExceeded limits σ.totals ∨ SpendExceeded limits (σ.usage id)

end Tally

def step (id : String) (σ : Tally) (r : LoopReport) : Tally where
  runtime := (record r σ.runtime).2
  totals c :=
    if r.jobId = id ∧ (record r σ.runtime).1.isOk then σ.totals c + r.usage.counter c
    else σ.totals c

/-- The stored value of a counter is its total, or it has stopped at one that is not below a limit. -/
def Exact (limits : JobLoopLimits) (total stored : ℕ) : Prop :=
  stored = total ∨ stored ≤ total ∧ ∀ c l, limits.limit c = some l → l ≤ stored

/-- What a call is expected to do. -/
structure Kept (id : String) (limits : JobLoopLimits) (σ : Tally) (r : LoopReport) : Prop where
  exact : r.jobId = id → (record r σ.runtime).1.isOk → ∃ usage, (step id σ r).usage id = some usage ∧
    ∀ c, Exact limits ((step id σ r).totals c) (usage.counter c)
  monotone : ∀ usage, σ.usage id = some usage →
    ∃ usage', (step id σ r).usage id = some usage' ∧ ∀ c, usage.counter c ≤ usage'.counter c
  stops : ∀ job, σ.row id = some job → job.status ≠ .loopBudgetExceeded →
    ∃ job', (step id σ r).row id = some job' ∧
      (job'.status = .loopBudgetExceeded ↔ (step id σ r).Exceeded id limits) ∧
      (job'.status = .loopBudgetExceeded → job'.leaseOwner = none ∧ job'.leaseExpiresMs = none)
  stopped : ∀ job, σ.row id = some job → job.status = .loopBudgetExceeded →
    (r.jobId = id → ∃ err, (record r σ.runtime).1 = .error err) ∧
      (step id σ r).row id = some job ∧ (step id σ r).usage id = σ.usage id

/-- No counter of the usage wraps around: a report that is accepted is below what is left. -/
def Fits (id : String) (σ : Tally) (r : LoopReport) : Prop :=
  ∀ job usage usage', r.jobId = id → ¬ blank r.actor → σ.row id = some job →
    ¬ QueueDb.isTerminalForUsage job.status → σ.usage id = some usage →
    usage.add r.usage = some usage' → ∀ c, usage.counter c + r.usage.counter c < 2 ^ 64

/-- As long as the sums fit, the usage is exact, and a job that exceeds a limit is stopped. -/
structure Counted (id : String) (limits : JobLoopLimits) (σ : Tally) : Prop where
  declared : σ.runtime.db.loopLimits id = some limits
  job : ∃ job, σ.row id = some job ∧ (job.status ≠ .loopBudgetExceeded → ¬ σ.Exceeded id limits)
  usage : ∀ c, ((σ.usage id).elim 0 fun u => u.counter c) = σ.totals c
  bounded : ∀ c, σ.totals c < 2 ^ 64

variable {σ : Tally}

theorem Counted.init (hjob : findJob id s.db.jobs = some job)
    (hlimits : s.db.loopLimits id = some limits) (husage : s.db.loopUsage id = none) :
    Counted id limits ⟨s, fun _ => 0⟩ where
  declared := hlimits
  job := by
    refine ⟨job, hjob, fun _ => ?_⟩
    rintro (⟨c, l, -, hlt⟩ | ⟨l, u, -, hu, -⟩)
    · exact Nat.not_lt_zero l hlt
    · rw [Tally.usage, husage] at hu
      cases hu
  usage c := by simp [Tally.usage, husage]
  bounded c := by simp

/-- A call that is refused, or that is about another job. -/
structure Unchanged (id : String) (σ : Tally) (r : LoopReport) : Prop where
  refused : r.jobId = id → ∃ err, (record r σ.runtime).1 = .error err
  totals : (step id σ r).totals = σ.totals
  usage : (step id σ r).usage id = σ.usage id
  row : (step id σ r).row id = σ.row id

theorem Unchanged.of_ne (hid : r.jobId ≠ id) : Unchanged id σ r where
  refused h := absurd h hid
  totals := by
    ext c
    simp [step, hid]
  usage := (record_of_ne hid).1
  row := (record_of_ne hid).2

theorem Unchanged.of_error {err : RuntimeError}
    (h : record r σ.runtime = (.error err, σ.runtime)) : Unchanged id σ r where
  refused _ := ⟨err, by rw [h]⟩
  totals := by
    ext c
    simp [step, h, Except.isOk, Except.toBool]
  usage := by simp [step, h, Tally.usage]
  row := by simp [step, h, Tally.row]

theorem Unchanged.exceeded_iff (h : Unchanged id σ r) :
    (step id σ r).Exceeded id limits ↔ σ.Exceeded id limits := by
  rw [Tally.Exceeded, Tally.Exceeded, h.totals, h.usage]

theorem Unchanged.counted (h : Unchanged id σ r) (hc : Counted id limits σ) :
    Counted id limits (step id σ r) where
  declared := by simp [step, hc.declared]
  job := by
    rw [h.row, h.exceeded_iff]
    exact hc.job
  usage := by
    rw [h.usage, h.totals]
    exact hc.usage
  bounded := by
    rw [h.totals]
    exact hc.bounded

theorem Unchanged.kept (h : Unchanged id σ r) (hc : Counted id limits σ) : Kept id limits σ r where
  exact hid hok := by
    obtain ⟨err, herr⟩ := h.refused hid
    simp [herr, Except.isOk, Except.toBool] at hok
  monotone usage husage := ⟨usage, h.usage.trans husage, fun _ => le_rfl⟩
  stops job hjob hstatus := by
    obtain ⟨job', hjob', hwithin⟩ := hc.job
    obtain rfl : job = job' := Option.some.inj (hjob.symm.trans hjob')
    refine ⟨job, h.row.trans hjob, ?_, fun h => absurd h hstatus⟩
    rw [h.exceeded_iff]
    exact iff_of_false hstatus (hwithin hstatus)
  stopped job hjob _ := ⟨h.refused, h.row.trans hjob, h.usage⟩

/-! ### Accepted reports -/

theorem counter_nextUsage {db : QueueDb} {usage : JobLoopUsage} {c : Counter}
    (hstored : ((db.loopUsage r.jobId).elim 0 fun u => u.counter c) < 2 ^ 64)
    (h : nextUsage r db = some usage) :
    usage.counter c =
      (((db.loopUsage r.jobId).elim 0 fun u => u.counter c) + r.usage.counter c) % 2 ^ 64 := by
  unfold nextUsage at h
  have hdelta := r.counter_usage_lt c
  cases hu : db.loopUsage r.jobId with
  | none =>
    rw [hu] at h
    obtain rfl : r.usage = usage := Option.some.inj h
    rw [Option.elim_none, Nat.zero_add, Nat.mod_eq_of_lt hdelta]
  | some u =>
    rw [hu] at h hstored
    exact sqlAdd_eq_some (JobLoopUsage.counter_add h c)

/-- A report that is stored without wrapping around. -/
structure Stored (id : String) (limits : JobLoopLimits) (σ : Tally) (r : LoopReport)
    (job : QueueJob) (usage : JobLoopUsage) : Prop where
  row : σ.row id = some job
  active : ¬ QueueDb.isTerminalForUsage job.status
  accepted : Accepted limits job usage id (record r σ.runtime).2.db
  totals : (step id σ r).totals = usage.counter
  grows : ∀ c, σ.totals c ≤ usage.counter c
  bounded : ∀ c, usage.counter c < 2 ^ 64

theorem Stored.exceeded_iff {usage : JobLoopUsage} (h : Stored id limits σ r job usage) :
    (step id σ r).Exceeded id limits ↔
      CounterExceeded limits usage.counter ∨ SpendExceeded limits (some usage) := by
  rw [Tally.Exceeded, h.totals]
  exact iff_of_eq (by rw [← h.accepted.usage_eq]; rfl)

/-- The job is stopped just when it is over a limit. -/
theorem Stored.exists_row {usage : JobLoopUsage} (h : Stored id limits σ r job usage) :
    ∃ job', (step id σ r).row id = some job' ∧
      (job'.status = .loopBudgetExceeded ↔ (step id σ r).Exceeded id limits) ∧
      (job'.status = .loopBudgetExceeded → job'.leaseOwner = none ∧ job'.leaseExpiresMs = none) := by
  rw [h.exceeded_iff]
  by_cases hexceeded : CounterExceeded limits usage.counter ∨ SpendExceeded limits (some usage)
  · obtain ⟨job', hjob', hstatus, howner, hexpires⟩ := h.accepted.job_of_exceeded hexceeded
    exact ⟨job', hjob', iff_of_true hstatus hexceeded, fun _ => ⟨howner, hexpires⟩⟩
  · have hstatus : job.status ≠ .loopBudgetExceeded := fun heq => h.active (by rw [heq]; rfl)
    exact ⟨job, h.accepted.job_of_within hexceeded, iff_of_false hstatus hexceeded,
      fun heq => absurd heq hstatus⟩

theorem Stored.counted {usage : JobLoopUsage} (h : Stored id limits σ r job usage)
    (hc : Counted id limits σ) : Counted id limits (step id σ r) where
  declared := by simp [step, hc.declared]
  job := by
    obtain ⟨job', hjob', hiff, -⟩ := h.exists_row
    exact ⟨job', hjob', fun hstatus => mt hiff.mpr hstatus⟩
  usage c := by
    have husage : (step id σ r).usage id = some usage := h.accepted.usage_eq
    rw [husage, h.totals]
    rfl
  bounded := by
    rw [h.totals]
    exact h.bounded

theorem Stored.kept {usage : JobLoopUsage} (h : Stored id limits σ r job usage)
    (hc : Counted id limits σ) : Kept id limits σ r where
  exact _ _ := ⟨usage, h.accepted.usage_eq, fun c => .inl (by rw [h.totals])⟩
  monotone stored hstored := by
    refine ⟨usage, h.accepted.usage_eq, fun c => ?_⟩
    have hc := hc.usage c
    rw [hstored] at hc
    exact hc.trans_le (h.grows c)
  stops _ _ _ := h.exists_row
  stopped job' hjob' hstatus := by
    obtain rfl : job' = job := Option.some.inj (hjob'.symm.trans h.row)
    exact absurd (by rw [hstatus]; rfl) h.active

/-- A call is about another job, or it is refused, or its report is stored unless a sum wraps around. -/
theorem Counted.cases (hc : Counted id limits σ) (r : LoopReport) :
    (Unchanged id σ r ∧ (r.jobId ≠ id ∨ blank r.actor ∨
        (∃ job, σ.row id = some job ∧ QueueDb.isTerminalForUsage job.status) ∨
        nextUsage r σ.runtime.db = none)) ∨ ∃ job usage, r.jobId = id ∧ ¬ blank r.actor ∧ σ.row id = some job ∧
      ¬ QueueDb.isTerminalForUsage job.status ∧ nextUsage r σ.runtime.db = some usage ∧
      (step id σ r).usage id = some usage ∧
      (∀ c, usage.counter c = (σ.totals c + r.usage.counter c) % 2 ^ 64) ∧
      ((∀ c, σ.totals c + r.usage.counter c < 2 ^ 64) → Stored id limits σ r job usage) := by
  by_cases hid : r.jobId = id
  case neg => exact .inl ⟨.of_ne hid, .inl hid⟩
  obtain ⟨job, hjob, -⟩ := hc.job
  rcases record_cases hid hjob hc.declared with
    ⟨⟨err, herr⟩, hwhy⟩ | ⟨usage, report, hnext, hok, hactor, hterm, haccepted⟩
  · exact .inl ⟨.of_error herr, .inr (hwhy.imp_right (Or.imp_left fun h => ⟨job, hjob, h⟩))⟩
  have hcounter : ∀ c, usage.counter c = (σ.totals c + r.usage.counter c) % 2 ^ 64 := by
    intro c
    have hstored := hc.usage c
    rw [Tally.usage, ← hid] at hstored
    rw [← hstored]
    exact counter_nextUsage (hstored.trans_lt (hc.bounded c)) hnext
  refine .inr ⟨job, usage, hid, hactor, hjob, hterm, hnext, haccepted.usage_eq, hcounter, fun hfits => ?_⟩
  have hsum : ∀ c, usage.counter c = σ.totals c + r.usage.counter c := fun c => by
    rw [hcounter, Nat.mod_eq_of_lt (hfits c)]
  exact
    { row := hjob
      active := hterm
      accepted := haccepted
      totals := by
        ext c
        simp [step, hid, hok, Except.isOk, Except.toBool, hsum]
      grows c := by simp [hsum]
      bounded c := by simp only [hsum, hfits] }

/-! ## Main results -/

/-- A sum that wraps around is less than what was stored before. -/
theorem Counted.fits_of_kept (hc : Counted id limits σ) (h : Kept id limits σ r) : Fits id σ r := by
  intro job usage usage' hid hactor hjob hterm husage hadd c
  have hnext : nextUsage r σ.runtime.db = some usage' := by
    rw [nextUsage, hid]
    show (σ.usage id).elim _ _ = _
    rw [husage]
    exact hadd
  rcases hc.cases r with
    ⟨-, hwhy⟩ | ⟨job', after, -, -, -, -, -, hafter, hcounter, -⟩
  · rcases hwhy with hne | hblank | ⟨job', hjob', hterm'⟩ | hnone
    · exact absurd hid hne
    · exact absurd hblank hactor
    · obtain rfl : job = job' := Option.some.inj (hjob.symm.trans hjob')
      exact absurd hterm' hterm
    · rw [hnone] at hnext
      cases hnext
  · obtain ⟨after', hafter', hmono⟩ := h.monotone usage husage
    obtain rfl : after = after' := Option.some.inj (hafter.symm.trans hafter')
    have hstored := hc.usage c
    rw [husage, Option.elim_some] at hstored
    have hle := hmono c
    rw [hcounter c, ← hstored] at hle
    have hold := hc.bounded c
    rw [← hstored] at hold
    have hdelta := r.counter_usage_lt c
    omega

theorem Counted.kept_and_counted (hc : Counted id limits σ) (h : Fits id σ r) :
    Kept id limits σ r ∧ Counted id limits (step id σ r) := by
  rcases hc.cases r with
    ⟨hunchanged, -⟩ | ⟨job, usage, hid, hactor, hjob, hterm, hnext, -, -, hstored⟩
  · exact ⟨hunchanged.kept hc, hunchanged.counted hc⟩
  have hfits : ∀ c, σ.totals c + r.usage.counter c < 2 ^ 64 := by
    intro c
    have htotal := hc.usage c
    rw [nextUsage, hid] at hnext
    change (σ.usage id).elim _ _ = _ at hnext
    cases husage : σ.usage id with
    | none =>
      rw [husage, Option.elim_none] at htotal
      rw [← htotal, Nat.zero_add]
      exact r.counter_usage_lt c
    | some stored =>
      rw [husage] at htotal hnext
      rw [← htotal]
      exact h job stored usage hid hactor hjob hterm husage hnext c
  exact ⟨(hstored hfits).kept hc, (hstored hfits).counted hc⟩

/-- Every call of a run does what it is expected to just when no sum of a run wraps around. -/
theorem kept_iff_fits (id : String) (limits : JobLoopLimits) (s : QueueState) (rs : List LoopReport)
    (hjob : ∃ job, findJob id s.db.jobs = some job) (hlimits : s.db.loopLimits id = some limits)
    (husage : s.db.loopUsage id = none) :
    Calls.Throughout (step id) (Kept id limits) rs ⟨s, fun _ => 0⟩ ↔
      Calls.Throughout (step id) (Fits id) rs ⟨s, fun _ => 0⟩ := by
  obtain ⟨job, hjob⟩ := hjob
  exact Calls.throughout_iff_of_inv (I := Counted id limits)
    (fun σ r _ hc => ⟨hc.fits_of_kept, fun h => (hc.kept_and_counted h).1⟩)
    (fun σ r _ hc h => (hc.kept_and_counted h).2) (Counted.init hjob hlimits husage)

/-- A job with a limit on its steps. -/
def limited (maxSteps : ℕ) : QueueState :=
  runAll .everyMinute [.enqueue (.plain "sync") 5, .setLoopLimits "job_1" ⟨some maxSteps, none, none, none, 6⟩]

def steps (stepDelta : UInt64) : LoopReport := ⟨"job_1", stepDelta, 0, none, 0, "worker", 7⟩

theorem Fits.of_lt (h : ∀ c, ((σ.usage id).elim 0 fun u => u.counter c) + r.usage.counter c < 2 ^ 64) :
    Fits id σ r := by
  intro job usage usage' hid hactor hjob hterm husage hadd c
  have hc := h c
  rwa [husage] at hc

theorem kept_of_small_reports :
    Calls.Throughout (step "job_1") (Kept "job_1" ⟨some 9, none, none, none, 6⟩)
      [steps 4, steps 5, steps 3] ⟨limited 9, fun _ => 0⟩ := by
  refine (kept_iff_fits "job_1" _ (limited 9) _ (Option.isSome_iff_exists.mp ?_) ?_ ?_).mpr
    ⟨.of_lt ?_, .of_lt ?_, .of_lt ?_, trivial⟩
  · decide +kernel
  · decide +kernel
  · decide +kernel
  · intro c
    cases c <;> decide +kernel
  · intro c
    cases c <;> decide +kernel
  · intro c
    cases c <;> decide +kernel

/-- The second report wraps the steps around to zero, and the job goes on. -/
theorem not_kept_wrapping_report :
    ¬ Calls.Throughout (step "job_1") (Kept "job_1" ⟨some (2 ^ 64 - 1), none, none, none, 6⟩)
      [steps (2 ^ 64 - 1), steps 1] ⟨limited (2 ^ 64 - 1), fun _ => 0⟩ := by
  rintro ⟨-, hkept, -⟩
  have hbefore : (step "job_1" ⟨limited (2 ^ 64 - 1), fun _ => 0⟩ (steps (2 ^ 64 - 1))).usage "job_1" =
      some ⟨2 ^ 64 - 1, 0, 0, 0, 7⟩ := by
    decide +kernel
  have hafter : (step "job_1" (step "job_1" ⟨limited (2 ^ 64 - 1), fun _ => 0⟩ (steps (2 ^ 64 - 1)))
      (steps 1)).usage "job_1" = some ⟨0, 0, 0, 0, 7⟩ := by
    decide +kernel
  obtain ⟨usage, husage, hmono⟩ := hkept.monotone _ hbefore
  obtain rfl := Option.some.inj (hafter.symm.trans husage)
  exact absurd (hmono .steps) (by decide)

end LoopUsage

end Corvid.Queue
