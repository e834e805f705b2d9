import Corvid.Queue.Lease

/-!
# Retry accounting

A call of `fail_leased` reads the job, counts one attempt further, and stores the sum with an update
that is guarded by the status and the owner of the job, but not by the attempts that it has read. When
the job is given up and leased again under the same name in between, an attempt gets lost.

## Main definitions

* `fails`, `retries`: the calls of `fail_leased` that take effect, and those with a retry to come
* `RetriesExact`: the attempts of a job are its failures, and it is dead-lettered when they exceed its
  retries
* `Counted`: an update stores the next number of attempts

## Main results

* `retriesExact_iff`: the accounting is exact all along a run just in case all updates are counted
-/

namespace Corvid.Queue

open Store

section Events

variable {ι : Type} (id : String)

/-- A call of `fail_leased` takes effect on the job. -/
def fails : QueueLabel ι → Bool
  | .access _ s (.failUpdate id' worker ..) => id' = id ∧ s.db.jobs.any (leasedBy id worker)
  | _ => false

/-- A call of `fail_leased` takes effect on the job, which is to be retried. -/
def retries : QueueLabel ι → Bool
  | .access _ s (.failUpdate id' worker status ..) =>
    id' = id ∧ s.db.jobs.any (leasedBy id worker) ∧ status = .retryWait
  | _ => false

def failures (log : List (QueueLabel ι)) : ℕ := log.countP (fails id)

end Events

/-- The stored attempts of a job that has not succeeded are its failures, it is dead-lettered as soon
as they exceed its retries, and it is not retried more often than that. -/
structure Exact {ι : Type} (log : List (QueueLabel ι)) (j : QueueJob) : Prop where
  attempts : j.status ≠ .succeeded → j.attempts = failures j.id log
  deadLettered : j.status ≠ .succeeded →
    (j.status = .deadLettered ↔ j.maxRetries < failures j.id log)
  retried : log.countP (retries j.id) ≤ j.maxRetries

def RetriesExact {ι : Type} (log : List (QueueLabel ι)) (s : QueueState) : Prop :=
  ∀ j ∈ s.db.jobs, Exact log j

/-- The operations that create jobs and work on them. -/
def Op.works : Op → Bool
  | .enqueue .. | .enqueueIdempotent .. | .leaseNextAt .. | .completeLeased .. | .failLeased ..
  | .runOneWithOutput .. | .runOneFailed .. => true
  | _ => false

def Working {ι : Type} (_ : List (QueueLabel ι)) (_ : QueuePool ι) : QueueLabel ι → Prop
  | .start _ op => op.works
  | _ => True

def attemptsOf (id : String) (s : QueueState) : Option ℕ :=
  (findJob id s.db.jobs).map QueueJob.attempts

/-- The row that an update of `fail_leased` changes has the attempts that the call has read last, and
there is a next number. -/
def Counted {ι : Type} (c : QueuePool ι) : QueueLabel ι → Prop
  | .access i s (.failUpdate id worker ..) => s.db.jobs.any (leasedBy id worker) →
      ∀ call ∈ c.calls i, ∀ x ∈ call.done.getLast?,
        attemptsOf id x.1 = attemptsOf id s ∧ ∀ n ∈ attemptsOf id s, n < u64Max
  | _ => True

/-! ### What a call has read -/

/-- The accesses by which a worker gives up a job. -/
def Access.settles : Access → Bool
  | .completeUpdate .. | .failUpdate .. | .approvalWaitUpdate .. => true
  | _ => false

theorem all_not_settles_enqueueTypedAt (spec : JobSpec) (now : ℕ) :
    (enqueueTypedAt spec now).All fun q => ¬ q.settles := by
  unfold enqueueTypedAt
  split
  · trivial
  · refine Prog.all_query_bind nofun fun id => Prog.all_query_bind nofun fun r => ?_
    cases r <;> trivial

theorem all_not_settles_enqueueTypedIdempotent (spec : JobSpec) (key : Option String) (now : ℕ) :
    (enqueueTypedIdempotent spec key now).All fun q => ¬ q.settles := by
  unfold enqueueTypedIdempotent
  split
  next => exact all_not_settles_enqueueTypedAt spec now
  next key _ =>
    refine Prog.all_query_bind (by simp [Access.settles]) fun existing => ?_
    cases existing with
    | some job => trivial
    | none =>
      dsimp only
      split
      · trivial
      · refine Prog.all_query_bind (by simp [Access.settles]) fun id => Prog.all_query_bind (by simp [Access.settles]) fun r => ?_
        cases r with
        | ok => trivial
        | error err =>
          refine Prog.all_query_bind (by simp [Access.settles]) fun existing => ?_
          cases existing <;> trivial

theorem all_not_settles_leaseNextAt (worker : String) (ttlMs now : ℕ) :
    (leaseNextAt worker ttlMs now).All fun q => ¬ q.settles := by
  refine Prog.all_query_bind nofun fun paused => ?_
  split
  · trivial
  · split
    · trivial
    · refine Prog.all_query_bind nofun fun jobs => ?_
      generalize jobs.filter (eligibleToLease now) = candidates
      induction candidates with
      | nil => trivial
      | cons j candidates ih =>
        refine Prog.all_query_bind nofun fun allowed => ?_
        split
        · refine Prog.all_query_bind nofun fun updated => ?_
          split
          · exact ⟨nofun, fun _ => trivial⟩
          · exact ih
        · exact ih

/-- What is left to do after a job has been settled. -/
theorem all_not_settles_found (updated : ℕ) (id worker : String) :
    (if updated = 0 then notLeasedBy id worker else requireJob id).All fun q => ¬ q.settles := by
  split
  · trivial
  · refine Prog.all_query_bind nofun fun job? => ?_
    cases job? <;> trivial

def Access.fails : Access → Bool
  | .failUpdate .. => true
  | _ => false

theorem settles_of_fails {q : Access} (h : q.fails) : q.settles := by
  cases q with
  | failUpdate => rfl
  | _ => cases h

theorem all_not_fails_completeLeased (id worker : String)
    (outputKind outputFingerprint : Option String) (now : ℕ) :
    (completeLeased id worker outputKind outputFingerprint now).All fun q => ¬ q.fails :=
  Prog.all_query_bind nofun fun updated => (all_not_settles_found updated id worker).mono
    fun _ hq hfails => hq (settles_of_fails hfails)

theorem afterFailure_fst (attempts maxRetries baseDelayMs now : ℕ) :
    (afterFailure attempts maxRetries baseDelayMs now).1 =
      if attempts ≤ maxRetries then .retryWait else .deadLettered := by
  unfold afterFailure
  split <;> rfl

/-- The row that a call of `fail_leased` has read, and what it makes of it. -/
structure ReadRow (id : String) (status : QueueJobStatus) (attempts : ℕ) (s : QueueState)
    (j : QueueJob) : Prop where
  found : findJob id s.db.jobs = some j
  leased : j.status = .leased
  attempts_eq : attempts = saturatingAdd j.attempts 1
  status_eq : status = if attempts ≤ j.maxRetries then .retryWait else .deadLettered

section Reads

variable {id worker failureKind failureFingerprint : String} {status : QueueJobStatus}
  {attempts now : ℕ} {nextRunMs : Option ℕ} {done : List (QueueState × Access)}

theorem reaches_requireJob_bind {α : Type} {f : QueueJob → QueueM α} {x : QueueState × Access}
    {r : QueueM α} (h : (requireJob id >>= f).Reaches Access.exec (x :: done) r)
    (hr : ∀ e, r ≠ .fail e) :
    ∃ s j, findJob id s.db.jobs = some j ∧ x = (s, .getJob id) ∧
      (f j).Reaches Access.exec done r := by
  obtain ⟨s, q⟩ := x
  obtain ⟨rfl, h⟩ := Prog.reaches_query_bind_cons.mp h
  have hget : (Access.exec (.getJob id) s).1 = findJob id s.db.jobs := rfl
  dsimp only at h
  rw [hget] at h
  cases hj : findJob id s.db.jobs with
  | some j =>
    rw [hj] at h
    exact ⟨s, j, hj, rfl, h⟩
  | none =>
    rw [hj] at h
    cases done with
    | nil => exact absurd (Prog.reaches_nil.mp h).symm (hr _)
    | cons y done => exact h.elim

theorem reaches_failLeased {id' worker' failureKind' failureFingerprint' : String} {base now' : ℕ}
    {k : (Access.failUpdate id worker status attempts failureKind failureFingerprint nextRunMs
      now).Reply → QueueM QueueJob}
    (h : (failLeased id' worker' failureKind' failureFingerprint' base now').Reaches Access.exec done
      (.call (.failUpdate id worker status attempts failureKind failureFingerprint nextRunMs now) k)) :
    ∃ s j, done = [(s, .getJob id)] ∧ ReadRow id status attempts s j := by
  cases done with
  | nil => cases h
  | cons x done =>
    obtain ⟨s, j, hj, rfl, hbody⟩ := reaches_requireJob_bind h (by simp)
    split at hbody
    next => cases done <;> cases hbody
    next hleased =>
      cases done with
      | cons y done =>
        -- the update is the second access of the call, and those after it read only
        obtain ⟨-, hlater⟩ := Prog.reaches_query_bind_cons.mp hbody
        exact absurd rfl (Prog.Reaches.all (all_not_settles_found _ id' worker') hlater).1
      | nil =>
        cases Prog.reaches_query_bind_nil.mp hbody
        refine ⟨s, j, rfl, hj, ?_, rfl, ?_⟩
        · exact not_not.mp fun hne => hleased (.inl hne)
        · exact afterFailure_fst _ _ _ _

/-- A call that stores a failed attempt has read the job just before. -/
theorem read_of_fail (lib : CronLibrary) {op : Op} (hop : op.works)
    {k : (Access.failUpdate id worker status attempts failureKind failureFingerprint nextRunMs
      now).Reply → QueueM (Option QueueJob)}
    (h : (op.prog lib).Reaches Access.exec done
      (.call (.failUpdate id worker status attempts failureKind failureFingerprint nextRunMs now) k)) :
    ∃ s j, done.getLast? = some (s, .getJob id) ∧ ReadRow id status attempts s j := by
  have hnever : ∀ {p : QueueM (Option QueueJob)}
      {k : (Access.failUpdate id worker status attempts failureKind failureFingerprint nextRunMs
        now).Reply → QueueM (Option QueueJob)}, (p.All fun q => ¬ q.fails) →
      ¬ p.Reaches Access.exec done (.call (.failUpdate id worker status attempts failureKind
        failureFingerprint nextRunMs now) k) :=
    fun hp h => (Prog.Reaches.all hp h).1 rfl
  cases op with
  | enqueue spec now => 
    exact absurd h (hnever (Prog.all_map ((all_not_settles_enqueueTypedAt spec now).mono
      fun q hq hfails => hq (settles_of_fails hfails))))
  | enqueueIdempotent spec key now =>
    exact absurd h (hnever (Prog.all_map ((all_not_settles_enqueueTypedIdempotent spec key now).mono
      fun q hq hfails => hq (settles_of_fails hfails))))
  | leaseNextAt worker' ttlMs now' =>
    exact absurd h (hnever ((all_not_settles_leaseNextAt _ _ _).mono
      fun q hq hfails => hq (settles_of_fails hfails)))
  | failLeased id' worker' failureKind' failureFingerprint' base now' =>
    obtain ⟨k', h, -⟩ := Prog.reaches_map_call h
    obtain ⟨s, j, rfl, hread⟩ := reaches_failLeased h
    exact ⟨s, j, rfl, hread⟩
  | completeLeased id' worker' outputKind outputFingerprint now' =>
    exact absurd h (hnever (Prog.all_map (all_not_fails_completeLeased _ _ _ _ _)))
  | runOneWithOutput outputKind outputFingerprint now' =>
    refine absurd h (hnever (Prog.all_bind ?_ fun job? => ?_))
    · exact (all_not_settles_leaseNextAt _ _ _).mono fun q hq hfails => hq (settles_of_fails hfails)
    · cases job? with
      | none => trivial
      | some job => exact Prog.all_map (all_not_fails_completeLeased _ _ _ _ _)
  | runOneFailed failureKind' failureFingerprint' base now' =>
    rcases Prog.reaches_bind h with ⟨p', hp', hcall⟩ | ⟨d₁, d₂, job?, rfl, -, h⟩
    · cases p' with
      | fail err => cases hcall
      | call q k' =>
        cases hcall
        exact absurd rfl (Prog.Reaches.all (all_not_settles_leaseNextAt _ _ _) hp').1
      | ret job? =>
        cases job? with
        | none => cases hcall
        | some job => cases hcall
    · cases job? with
      | none => exact absurd h Prog.not_reaches_ret_call
      | some job =>
        obtain ⟨k', h, -⟩ := Prog.reaches_map_call h
        obtain ⟨s, j, rfl, hread⟩ := reaches_failLeased h
        exact ⟨s, j, by simp, hread⟩
  | _ => cases hop

end Reads

/-! ### Rows -/

theorem RowStep.maxRetries_eq {db : QueueDb} {q : Access} {j j' : QueueJob}
    (h : RowStep db q j j') : j'.maxRetries = j.maxRetries := by
  cases h <;> rfl

/-- A statement of an operation that works on jobs, other than the update of `fail_leased`, counts no
attempt, unless the job succeeds. -/
theorem RowStep.uncounted {db : QueueDb} {q : Access} {op : Op} {j j' : QueueJob}
    (h : RowStep db q j j') (hissues : op.Issues q) (hop : op.works)
    (hfails : ∀ id worker status attempts failureKind failureFingerprint nextRunMs now,
      q = .failUpdate id worker status attempts failureKind failureFingerprint nextRunMs now →
        ¬ leasedBy id worker j) (hstatus : j'.status ≠ .succeeded) :
    j.status ≠ .succeeded ∧ j'.attempts = j.attempts ∧
      (j'.status = .deadLettered ↔ j.status = .deadLettered) := by
  cases h with
  | same => exact ⟨hstatus, rfl, Iff.rfl⟩
  | drain hleased => simp [hleased, QueueJob.release]
  | retry =>
    obtain rfl : op = _ := hissues
    cases hop
  | cancel =>
    obtain rfl : op = _ := hissues
    cases hop
  | overBudget _ hterm =>
    have hne : j.status ≠ .succeeded ∧ j.status ≠ .deadLettered := by
      constructor <;> intro heq <;> exact hterm (by rw [heq]; rfl)
    simp [hne, QueueJob.release]
  | stall _ hterm hstall =>
    have hne : j.status ≠ .succeeded ∧ j.status ≠ .deadLettered := by
      constructor <;> intro heq <;> exact hterm (by rw [heq]; rfl)
    rcases hstall with rfl | rfl <;> simp [hne, QueueJob.release]
  | lease hlease =>
    obtain ⟨-, hstatus | hstatus | ⟨hstatus, -⟩⟩ := of_decide_eq_true hlease <;> simp [hstatus]
  | complete => exact absurd rfl hstatus
  | fail hlease => exact absurd hlease (hfails _ _ _ _ _ _ _ _ rfl)
  | approvalWait hlease => simp [(of_decide_eq_true hlease).2.1, QueueJob.release]
  | approve _ hwait => simp [hwait, QueueJob.release]
  | deny _ hwait => simp [hwait, QueueJob.release]
  | expire _ hwait => simp [hwait, QueueJob.release]

section Runs

variable {ι : Type} [DecidableEq ι] {lib : CronLibrary}
  {C : List (QueueLabel ι) → QueuePool ι → QueueLabel ι → Prop} {log : List (QueueLabel ι)}
  {c c' : QueuePool ι} {l : QueueLabel ι}

/-- What all statements leave alone is still as a call has read it. -/
theorem kept_since_read {β : Type} (f : QueueJob → β)
    (hf : ∀ db q j j', RowStep db q j j' → f j' = f j)
    (h : Pool.Run Access.exec (Op.prog lib) ⟨.empty, 0⟩ C log c) {i : ι}
    {call : Call QueueState Access.Reply RuntimeError (Option QueueJob) Op}
    (hcall : c.calls i = some call) {x : QueueState × Access} (hx : x ∈ call.done) {id : String}
    {j : QueueJob} (hj : findJob id x.1.db.jobs = some j) :
    ∃ j', findJob id c.state.db.jobs = some j' ∧ f j' = f j := by
  induction h generalizing call with
  | nil => cases hcall
  | @snoc log c c' l hrun hstep hC ih =>
    have hstate : ∀ j₁, findJob id c.state.db.jobs = some j₁ →
        ∃ j₂, findJob id c'.state.db.jobs = some j₂ ∧ f j₂ = f j₁ := by
      intro j₁ hj₁
      cases hstep with
      | @access _ _ _ q =>
        obtain ⟨j₂, hrow, hj₂⟩ := findJob_exec (sound_of_run hrun).keyed hj₁ q
        rw [exec_db]
        exact ⟨j₂, hj₂, hf _ _ _ _ hrow⟩
      | _ => exact ⟨j₁, hj₁, rfl⟩
    have hlater : ∀ {call}, c.calls i = some call → x ∈ call.done →
        ∃ j', findJob id c'.state.db.jobs = some j' ∧ f j' = f j := by
      intro call hold hx
      obtain ⟨j₁, hj₁, hf₁⟩ := ih hold hx
      obtain ⟨j₂, hj₂, hf₂⟩ := hstate j₁ hj₁
      exact ⟨j₂, hj₂, hf₂.trans hf₁⟩
    rcases hstep.calls hcall with ⟨hold, -⟩ | ⟨op, rfl, -⟩ | ⟨op, done, q, k, hold, rfl, -⟩
    · exact hlater hold hx
    · exact absurd hx List.not_mem_nil
    · rcases List.mem_append.mp hx with hx | hx
      · exact hlater hold hx
      · rw [List.mem_singleton.mp hx] at hj
        exact hstate j hj

/-- The operations that are called are those that may be started. -/
theorem works_of_run (hC : ∀ log c i op, C log c (.start i op) → op.works)
    (h : Pool.Run Access.exec (Op.prog lib) ⟨.empty, 0⟩ C log c) {i : ι}
    {call : Call QueueState Access.Reply RuntimeError (Option QueueJob) Op}
    (hcall : c.calls i = some call) : call.op.works := by
  induction h generalizing call with
  | nil => cases hcall
  | snoc _ hstep hallowed ih =>
    rcases hstep.calls hcall with ⟨hold, -⟩ | ⟨op, rfl, rfl⟩ | ⟨op, done, q, k, hold, rfl, -⟩
    · exact ih hold
    · exact hC _ _ _ _ hallowed
    · have hworks := ih hold
      exact hworks

end Runs

/-! ### Counting -/

section Counting

variable {ι : Type} {log : List (QueueLabel ι)} {l : QueueLabel ι} {s : QueueState}

theorem failures_snoc (id : String) (log : List (QueueLabel ι)) (l : QueueLabel ι) :
    failures id (log ++ [l]) = failures id log + if fails id l then 1 else 0 := by
  rw [failures, List.countP_append, List.countP_singleton]
  rfl

theorem fails_of_retries {id : String} (h : retries id l) : fails id l := by
  unfold retries at h
  split at h
  next =>
    obtain ⟨hid, hany, -⟩ := of_decide_eq_true h
    exact decide_eq_true ⟨hid, hany⟩
  next => cases h

theorem countP_retries_le (id : String) (log : List (QueueLabel ι)) :
    log.countP (retries id) ≤ failures id log :=
  List.countP_mono_left fun _ _ h => fails_of_retries h

/-- A label at which no call of `fail_leased` takes effect on a job counts nothing for it. -/
theorem failures_snoc_of_not {id : String} (hl : ¬ fails id l) :
    failures id (log ++ [l]) = failures id log ∧
      (log ++ [l]).countP (retries id) = log.countP (retries id) := by
  rw [failures_snoc, List.countP_append, List.countP_singleton, if_neg hl,
    if_neg fun h => hl (fails_of_retries h)]
  exact ⟨rfl, rfl⟩

/-- The accounting is exact, and nothing is counted for jobs that do not exist. -/
structure RetryInv (log : List (QueueLabel ι)) (s : QueueState) : Prop where
  exact : RetriesExact log s
  unborn : ∀ id, findJob id s.db.jobs = none → failures id log = 0

theorem findJob_eq_none_of_exec {id : String} {q : Access} (hkeyed : s.db.Keyed)
    (h : findJob id (q.exec s).2.db.jobs = none) : findJob id s.db.jobs = none := by
  cases hj : findJob id s.db.jobs with
  | none => rfl
  | some j =>
    obtain ⟨j', -, hj'⟩ := findJob_exec hkeyed hj q
    rw [exec_db, hj'] at h
    cases h

theorem not_fails_of_silent (hl : ∀ i s q, l ≠ .access i s q) (id : String) : ¬ fails id l := by
  unfold fails
  split
  next => exact absurd rfl (hl _ _ _)
  next => simp

/-- A row for which nothing is counted. -/
theorem Exact.snoc {j : QueueJob} (h : Exact log j) (hl : ¬ fails j.id l) : Exact (log ++ [l]) j := by
  obtain ⟨hfailures, hretries⟩ : failures j.id (log ++ [l]) = failures j.id log ∧
    (log ++ [l]).countP (retries j.id) = log.countP (retries j.id) := failures_snoc_of_not hl
  refine ⟨?_, ?_, ?_⟩
  · rw [hfailures]
    exact h.attempts
  · rw [hfailures]
    exact h.deadLettered
  · rw [hretries]
    exact h.retried

theorem RetryInv.silent (h : RetryInv log s) (hl : ∀ id, ¬ fails id l) :
    RetryInv (log ++ [l]) s := by
  refine ⟨fun j hj => (h.exact j hj).snoc (hl j.id), fun id hid => ?_⟩
  rw [(failures_snoc_of_not (hl id)).1]
  exact h.unborn id hid

/-- The rows after an access that counts nothing. -/
theorem RetryInv.uncounted (h : RetryInv log s) (hkeyed : s.db.Keyed) {i : ι} {q : Access} {op : Op}
    (hissues : op.Issues q) (hop : op.works)
    (hl : ∀ id, ¬ fails id (.access i s q : QueueLabel ι)) : RetryInv log (q.exec s).2 := by
  obtain ⟨g, hg, hjobs⟩ := exec_jobs hkeyed q
  have hold : ∀ j ∈ s.db.jobs.map g, Exact log j := by
    intro j' hj'
    obtain ⟨j, hj, rfl⟩ := List.mem_map.mp hj'
    have huncounted := (hg j hj).uncounted hissues hop (by
      rintro id worker status attempts failureKind failureFingerprint nextRunMs now rfl hlease
      exact hl id (decide_eq_true ⟨rfl, List.any_eq_true.mpr ⟨j, hj, hlease⟩⟩))
    have hexact := h.exact j hj
    refine ⟨fun hstatus => ?_, fun hstatus => ?_, ?_⟩
    · obtain ⟨hstatus', hattempts, -⟩ := huncounted hstatus
      rw [(hg j hj).id_eq]
      exact hattempts.trans (hexact.attempts hstatus')
    · obtain ⟨hstatus', -, hdead⟩ := huncounted hstatus
      rw [(hg j hj).id_eq, (hg j hj).maxRetries_eq]
      exact hdead.trans (hexact.deadLettered hstatus')
    · rw [(hg j hj).id_eq, (hg j hj).maxRetries_eq]
      exact hexact.retried
  refine ⟨fun j hj => ?_, fun id hid => h.unborn id (findJob_eq_none_of_exec hkeyed hid)⟩
  rw [exec_db] at hj
  rcases hjobs with hjobs | ⟨job, rfl, hnone, hjobs⟩
  · exact hold j (hjobs ▸ hj)
  · rcases List.mem_append.mp (hjobs ▸ hj) with hj | hj
    · exact hold j hj
    · -- nothing has been counted for the new job
      obtain rfl := List.mem_singleton.mp hj
      obtain ⟨spec, id, key, now, rfl⟩ := hissues
      have hzero := h.unborn _ hnone
      have hle := countP_retries_le (spec.job id key now).id log
      refine ⟨fun _ => hzero.symm, fun _ => ?_, ?_⟩
      · rw [hzero]
        simp [JobSpec.job]
      · exact hle.trans (hzero ▸ Nat.zero_le _)

/-- An update that stores the next number of attempts. -/
theorem RetryInv.counted (h : RetryInv log s) (hkeyed : s.db.Keyed) {i : ι}
    {id worker failureKind failureFingerprint : String} {status : QueueJobStatus} {attempts now : ℕ}
    {nextRunMs : Option ℕ} {j : QueueJob} (hj : findJob id s.db.jobs = some j)
    (hlease : leasedBy id worker j) (hattempts : attempts = j.attempts + 1)
    (hstatus : status = if attempts ≤ j.maxRetries then .retryWait else .deadLettered) :
    RetryInv (log ++ [.access i s (.failUpdate id worker status attempts failureKind
        failureFingerprint nextRunMs now)])
      (Access.exec (.failUpdate id worker status attempts failureKind failureFingerprint nextRunMs
        now) s).2 := by
  obtain ⟨hmem, hid⟩ := (findJob_eq_some hkeyed).mp hj
  have hfails : ∀ id', fails id' (.access i s (.failUpdate id worker status attempts failureKind
      failureFingerprint nextRunMs now) : QueueLabel ι) ↔ id' = id := by
    intro id'
    constructor
    · exact fun hl => (of_decide_eq_true hl).1.symm
    · rintro rfl
      exact decide_eq_true ⟨rfl, List.any_eq_true.mpr ⟨j, hmem, hlease⟩⟩
  have hold := h.exact j hmem
  have hleased : j.status = .leased := (of_decide_eq_true hlease).2.1
  have hcount : j.attempts = failures id log := by
    rw [hold.attempts (by simp [hleased]), hid]
  refine ⟨fun j' hj' => ?_, fun id' hid' => ?_⟩
  · obtain ⟨j₁, hj₁, rfl⟩ := List.mem_map.mp hj'
    by_cases hrow : leasedBy id worker j₁
    · -- the row of the job
      obtain rfl : j = j₁ := by
        have hfind := (findJob_eq_some hkeyed).mpr ⟨hj₁, (of_decide_eq_true hrow).1⟩
        exact Option.some.inj (hj.symm.trans hfind)
      rw [if_pos hrow]
      have hnext : failures id (log ++ [.access i s (.failUpdate id worker status attempts failureKind
          failureFingerprint nextRunMs now)]) = attempts := by
        rw [failures_snoc, if_pos ((hfails id).mpr rfl), ← hcount, hattempts]
      refine ⟨fun _ => ?_, fun _ => ?_, ?_⟩
      · show attempts = failures j.id _
        rw [hid, hnext]
      · show status = .deadLettered ↔ j.maxRetries < failures j.id _
        rw [hid, hnext, hstatus]
        split
        next hle => simpa using hle
        next hlt => simpa using hlt
      · show List.countP (retries j.id) _ ≤ j.maxRetries
        rw [hid, List.countP_append, List.countP_singleton]
        split
        next hretries =>
          -- all retries so far are failures
          have hle : attempts ≤ j.maxRetries := by
            by_contra hlt
            rw [if_neg hlt] at hstatus
            have hwait : status = .retryWait := (of_decide_eq_true hretries).2.2
            rw [hstatus] at hwait
            cases hwait
          have hsofar := countP_retries_le id log
          omega
        next => exact hid ▸ hold.retried
    · have hne : j₁.id ≠ id := by
        intro heq
        have hfind := (findJob_eq_some hkeyed).mpr ⟨hj₁, heq⟩
        obtain rfl := Option.some.inj (hj.symm.trans hfind)
        exact hrow hlease
      rw [if_neg hrow]
      exact (h.exact j₁ hj₁).snoc fun hl => hne ((hfails _).mp hl)
  · have hnone := findJob_eq_none_of_exec hkeyed hid'
    have hne : id' ≠ id := by
      rintro rfl
      rw [hj] at hnone
      cases hnone
    rw [(failures_snoc_of_not fun hl => hne ((hfails _).mp hl)).1]
    exact h.unborn id' hnone

end Counting

/-! ### Runs -/

section Runs

variable {ι : Type} [DecidableEq ι] {lib : CronLibrary} {log : List (QueueLabel ι)}
  {c c' : QueuePool ι} {l : QueueLabel ι}

/-- What a call that takes effect has read, and the row that it finds. -/
theorem found_of_fails {C : List (QueueLabel ι) → QueuePool ι → QueueLabel ι → Prop}
    (hC : ∀ log c i op, C log c (.start i op) → op.works)
    (h : Pool.Run Access.exec (Op.prog lib) ⟨.empty, 0⟩ C log c) {i : ι}
    {call : Call QueueState Access.Reply RuntimeError (Option QueueJob) Op}
    (hcall : c.calls i = some call) {id worker failureKind failureFingerprint : String}
    {status : QueueJobStatus} {attempts now : ℕ} {nextRunMs : Option ℕ}
    {k : (Access.failUpdate id worker status attempts failureKind failureFingerprint nextRunMs
      now).Reply → QueueM (Option QueueJob)}
    (hrest : call.rest = .call (.failUpdate id worker status attempts failureKind failureFingerprint
      nextRunMs now) k)
    (hany : c.state.db.jobs.any (leasedBy id worker)) :
    ∃ s j₀ j, call.done.getLast? = some (s, .getJob id) ∧ ReadRow id status attempts s j₀ ∧
      findJob id c.state.db.jobs = some j ∧ leasedBy id worker j ∧ j.maxRetries = j₀.maxRetries := by
  obtain ⟨j, hj, hlease⟩ := List.any_eq_true.mp hany
  have hfind := (findJob_eq_some (sound_of_run h).keyed).mpr ⟨hj, (of_decide_eq_true hlease).1⟩
  have hreaches := h.reaches hcall
  rw [hrest] at hreaches
  obtain ⟨s, j₀, hlast, hread⟩ := read_of_fail lib (works_of_run hC h hcall) hreaches
  obtain ⟨j', hj', hmax⟩ := kept_since_read QueueJob.maxRetries
    (fun _ _ _ _ hrow => hrow.maxRetries_eq) h hcall (List.mem_of_getLast? hlast) hread.found
  obtain rfl := Option.some.inj (hfind.symm.trans hj')
  exact ⟨s, j₀, j, hlast, hread, hfind, hlease, hmax⟩

/-- The accounting is exact in runs whose updates store the next number of attempts. -/
theorem retryInv_of_counted (h : Pool.Run Access.exec (Op.prog lib) ⟨.empty, 0⟩
    (fun log c l => Working log c l ∧ Counted c l) log c) : RetryInv log c.state := by
  induction h with
  | nil => exact ⟨by simp [RetriesExact, QueueDb.empty], fun _ _ => rfl⟩
  | @snoc log c c' l hrun hstep hC ih =>
    have hkeyed := (sound_of_run hrun).keyed
    cases hstep with
    | start => exact ih.silent (not_fails_of_silent (by simp))
    | ret => exact ih.silent (not_fails_of_silent (by simp))
    | fail => exact ih.silent (not_fails_of_silent (by simp))
    | @access i op done q k hcall =>
      have hissues := (Prog.Reaches.all (op.all_issues lib) (hrun.reaches hcall)).1
      have hworks := works_of_run (fun _ _ _ _ hC => hC.1) hrun hcall
      by_cases hfails : ∃ id, fails id (.access i c.state q : QueueLabel ι)
      · obtain ⟨id, hfails⟩ := hfails
        unfold fails at hfails
        split at hfails
        next i' s id' worker status attempts failureKind failureFingerprint nextRunMs now heq =>
          obtain ⟨-, rfl, rfl⟩ := Pool.Label.access.inj heq
          obtain ⟨rfl, hany⟩ := of_decide_eq_true hfails
          obtain ⟨s, j₀, j, hlast, hread, hj, hlease, hmax⟩ :=
            found_of_fails (fun _ _ _ _ hC => hC.1) hrun hcall rfl hany
          obtain ⟨hsame, hlt⟩ := hC.2 hany _ hcall _ hlast
          rw [attemptsOf, attemptsOf, hj, hread.found] at hsame
          have hattempts : j₀.attempts = j.attempts := Option.some.inj hsame
          have hlt : j.attempts < u64Max := hlt _ (by rw [attemptsOf, hj]; rfl)
          refine ih.counted hkeyed hj hlease ?_ ?_
          · rw [hread.attempts_eq, hattempts, saturatingAdd]
            omega
          · rw [hmax]
            exact hread.status_eq
        next => cases hfails
      · have hnever : ∀ id, ¬ fails id (.access i c.state q : QueueLabel ι) :=
          fun id hid => hfails ⟨id, hid⟩
        exact (ih.uncounted hkeyed hissues hworks hnever).silent hnever

/-- The retry accounting is exact all along a run just in case every update of `fail_leased` that
changes a row stores the next number of attempts. -/
theorem retriesExact_iff (lib : CronLibrary) (log : List (QueueLabel ι)) (c : QueuePool ι)
    (h : Pool.Run Access.exec (Op.prog lib) ⟨.empty, 0⟩ Working log c) :
    (∀ pre post c', log = pre ++ post →
      Pool.Run Access.exec (Op.prog lib) ⟨.empty, 0⟩ Working pre c' → RetriesExact pre c'.state) ↔
    ∀ pre l post c', log = pre ++ l :: post →
      Pool.Run Access.exec (Op.prog lib) ⟨.empty, 0⟩ Working pre c' → Counted c' l := by
  constructor
  · intro hexact pre l post c' hlog hrun
    have hstarts : ∀ log c i op, Working log c (.start i op : QueueLabel ι) → op.works :=
      fun _ _ _ _ h => h
    rw [hlog] at h
    obtain ⟨c₁, c₂, hrun₁, hstep, hC⟩ := h.split
    obtain rfl := hrun.unique hrun₁
    unfold Counted
    split
    next i s id worker status attempts failureKind failureFingerprint nextRunMs now =>
      intro hany call hcall x hx
      cases hstep with
      | access hbusy =>
        obtain rfl := Option.some.inj (hcall.symm.trans hbusy)
        obtain ⟨s, j₀, j, hlast, hread, hj, hlease, -⟩ :=
          found_of_fails hstarts hrun hcall rfl hany
        obtain rfl := Option.some.inj (hx.symm.trans hlast)
        obtain ⟨hmem, hid⟩ := (findJob_eq_some (sound_of_run hrun).keyed).mp hj
        -- the attempts before, at the read, and after
        have hbefore : j.attempts = failures id pre := by
          have hleased : j.status = .leased := (of_decide_eq_true hlease).2.1
          rw [← hid]
          exact (hexact pre _ _ hlog hrun j hmem).attempts (by simp [hleased])
        have hatRead : j₀.attempts ≤ failures id pre := by
          obtain ⟨pre', post', c₀, rfl, hrun₀, rfl⟩ :=
            hrun.of_done hcall (List.mem_of_getLast? hlast)
          obtain ⟨hmem₀, hid₀⟩ := (findJob_eq_some (sound_of_run hrun₀).keyed).mp hread.found
          have heq := (hexact pre' _ _ (hlog.trans (List.append_assoc _ _ _)) hrun₀ j₀
            hmem₀).attempts (by simp [hread.leased])
          rw [heq, hid₀, failures, failures, List.countP_append]
          exact Nat.le_add_right _ _
        have hafter : attempts = failures id pre + 1 := by
          have hnext := hexact (pre ++ [_]) post _ (by simp [hlog]) (.snoc hrun (.access hbusy) hC)
            _ (List.mem_map_of_mem hmem)
          rw [if_pos hlease] at hnext
          have hstatus : status ≠ .succeeded := by
            rw [hread.status_eq]
            split <;> simp
          have heq := hnext.attempts hstatus
          have hfails : fails id (.access i c'.state (.failUpdate id worker status attempts failureKind
              failureFingerprint nextRunMs now) : QueueLabel ι) := decide_eq_true ⟨rfl, hany⟩
          rw [failures_snoc] at heq
          simpa [QueueJob.release, hid, hfails] using heq
        have hsum := hread.attempts_eq
        rw [saturatingAdd] at hsum
        rw [attemptsOf, attemptsOf, hj, hread.found]
        refine ⟨congrArg some (by omega), fun n hn => ?_⟩
        obtain rfl := Option.some.inj hn
        omega
    next => trivial
  · intro hcounted pre post c' hlog hrun
    suffices hboth : ∀ pre c', Pool.Run Access.exec (Op.prog lib) ⟨.empty, 0⟩ Working pre c' →
        ∀ post, log = pre ++ post → Pool.Run Access.exec (Op.prog lib) ⟨.empty, 0⟩
          (fun log c l => Working log c l ∧ Counted c l) pre c' from
      (retryInv_of_counted (hboth pre c' hrun post hlog)).exact
    intro pre c' hrun
    induction hrun with
    | nil => exact fun _ _ => .nil
    | @snoc pre c' c'' l hrun hstep hC ih =>
      intro post hlog
      rw [List.append_assoc, List.singleton_append] at hlog
      exact .snoc (ih _ hlog) hstep ⟨hC, hcounted _ _ _ _ hlog hrun⟩

end Runs

/-! ### Schedules -/

def workingTest (_ : QueuePool String) : QueueLabel String → Bool
  | .start _ op => op.works
  | _ => true

theorem working_of_workingTest (log : List (QueueLabel String)) (c : QueuePool String)
    (l : QueueLabel String) (h : workingTest c l) : Working log c l := by
  cases l with
  | start i op => exact h
  | access => trivial
  | finish => trivial

/-- The steps of a schedule start work and store the next number of attempts. -/
def countedTest (c : QueuePool String) : QueueLabel String → Bool
  | .start _ op => op.works
  | .access i s (.failUpdate id worker ..) => s.db.jobs.any (leasedBy id worker) →
      ∀ call ∈ c.calls i, ∀ x ∈ call.done.getLast?,
        attemptsOf id x.1 = attemptsOf id s ∧ ∀ n ∈ attemptsOf id s, n < u64Max
  | _ => true

theorem counted_of_countedTest (log : List (QueueLabel String)) (c : QueuePool String)
    (l : QueueLabel String) (h : countedTest c l) : Working log c l ∧ Counted c l := by
  unfold countedTest at h
  split at h
  next => exact ⟨h, trivial⟩
  next => exact ⟨trivial, fun hany => of_decide_eq_true h hany⟩
  next hstart hfail =>
    constructor
    · apply working_of_workingTest
      unfold workingTest
      split
      next => exact absurd rfl (hstart _ _)
      next => rfl
    · unfold Counted
      split
      next => exact absurd rfl (hfail _ _ _ _ _ _ _ _ _ _)
      next => trivial

/-- The job fails under one worker, and again under another thread of the same name. -/
def failedInTurn : List (List (String × Op)) :=
  [.replicate 4 ("ops", .enqueue { JobSpec.plain "sync" with maxRetries := 1 } 4),
    .replicate 7 ("a", .leaseNextAt "w" 10 5),
    .replicate 5 ("a", .failLeased "job_1" "w" "timeout" "f" 0 6),
    .replicate 7 ("b", .leaseNextAt "w" 10 7),
    .replicate 5 ("b", .failLeased "job_1" "w" "timeout" "f" 0 8)]

/-- One thread reads the job. Before its update another one fails the job and leases it again. -/
def failedTwice : List (List (String × Op)) :=
  [.replicate 4 ("ops", .enqueue { JobSpec.plain "sync" with maxRetries := 1 } 4),
    .replicate 7 ("a", .leaseNextAt "w" 10 5),
    .replicate 2 ("a", .failLeased "job_1" "w" "timeout" "f" 0 6),
    .replicate 5 ("b", .failLeased "job_1" "w" "timeout" "f" 0 6),
    .replicate 7 ("b", .leaseNextAt "w" 10 7),
    .replicate 1 ("a", .failLeased "job_1" "w" "timeout" "f" 0 6)]

theorem retriesExact_failedInTurn :
    RetriesExact (playOps failedInTurn).1 (playOps failedInTurn).2.state ∧
      (findJob "job_1" (playOps failedInTurn).2.state.db.jobs).map (fun j => (j.status, j.attempts)) =
        some (.deadLettered, 2) := by
  have hrun : Pool.Run Access.exec (Op.prog .everyMinute) ⟨.empty, 0⟩
      (fun log c l => Working log c l ∧ Counted c l) (playOps failedInTurn).1
      (playOps failedInTurn).2 :=
    Pool.run_of_passes counted_of_countedTest (by decide +kernel)
  have hworking := hrun.mono fun _ _ _ h => h.1
  refine ⟨?_, by decide +kernel⟩
  refine (retriesExact_iff .everyMinute _ _ hworking).mpr ?_ _ [] _ (List.append_nil _).symm hworking
  intro pre l post c' hlog hpre
  rw [hlog] at hrun
  obtain ⟨c₁, c₂, hrun₁, -, hC⟩ := hrun.split
  obtain rfl := hpre.unique hrun₁
  exact hC.2

/-- Two calls take effect, and one attempt is stored. -/
theorem retries_inexact :
    ¬ ∀ (log : List (QueueLabel String)) (c : QueuePool String),
      Pool.Run Access.exec (Op.prog .everyMinute) ⟨.empty, 0⟩ Working log c →
        RetriesExact log c.state := by
  intro h
  have hrun : Pool.Run Access.exec (Op.prog .everyMinute) ⟨.empty, 0⟩ Working
      (playOps failedTwice).1 (playOps failedTwice).2 :=
    Pool.run_of_passes working_of_workingTest (by decide +kernel)
  have hattempts : (playOps failedTwice).2.state.db.jobs.all fun j =>
      j.status = .succeeded ∨ j.attempts = failures j.id (playOps failedTwice).1 := by
    rw [List.all_eq_true]
    exact fun j hj => decide_eq_true (or_iff_not_imp_left.mpr (h _ _ hrun j hj).attempts)
  revert hattempts
  decide +kernel

end Corvid.Queue
