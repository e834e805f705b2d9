import Corvid.Lib.Pool
import Corvid.Queue.Rows

/-!
# Leases under concurrency

Threads run the operations of the queue side by side, and their accesses interleave. A lease is
granted by an update that checks the status of the job and the expiry of its last lease, and nothing
else: the pause flag, the time of the next run and the concurrency limits have been read before, and
may have changed since.

## Main definitions

* `grant`, `releases`, `ends`: what an entry of a log does to the lease of a job
* `LeasesSafe`: leases are exclusive and respect limits, backoff and pause
* `Fresh`: the updates that grant a lease find what their calls have read

## Main results

* `leasesSafe_of_fresh`: leases are safe in all interleavings of such steps
-/

namespace Corvid.Queue

open Store

abbrev QueueLabel (ι : Type) := Pool.Label ι QueueState Access RuntimeError (Option QueueJob) Op

abbrev QueuePool (ι : Type) := Pool ι QueueState Access.Reply RuntimeError (Option QueueJob) Op

section Events

variable {ι : Type} (id : String)

/-- The worker, the expiry and the time of the lease on the job that an entry grants. -/
def grant : QueueLabel ι → Option (String × ℕ × ℕ)
  | .access _ s (.leaseUpdate id' worker expires now) =>
    if id' = id ∧ s.db.jobs.any (leasable id now) then some (worker, expires, now) else none
  | _ => none

/-- The last lease on the job. -/
def lastGrant (log : List (QueueLabel ι)) : Option (String × ℕ × ℕ) :=
  (log.filterMap (grant id)).getLast?

/-- The worker completes or fails the job, or has it wait on an approval. -/
def releases (worker : String) : QueueLabel ι → Bool
  | .access _ s (.completeUpdate id' worker' _ _ _)
  | .access _ s (.failUpdate id' worker' _ _ _ _ _ _)
  | .access _ s (.approvalWaitUpdate id' worker' _ _ _ _) =>
    id' = id ∧ worker' = worker ∧ s.db.jobs.any (leasedBy id worker)
  | _ => false

def isLeased (jobs : List QueueJob) : Bool := (findJob id jobs).any (·.status = .leased)

/-- The job is no longer leased. -/
def ends : QueueLabel ι → Bool
  | .access _ s q => isLeased id s.db.jobs && !isLeased id (q.exec s).2.db.jobs
  | _ => false

/-- A lease that has been granted and has not been ended since. -/
def Held (log : List (QueueLabel ι)) (worker : String) (expires : ℕ) : Prop :=
  ∃ pre g post now, log = pre ++ g :: post ∧ grant id g = some (worker, expires, now) ∧
    ∀ x ∈ post, ¬ ends id x

/-- A time that is not before any of the leases. -/
def Current (now : ℕ) (log : List (QueueLabel ι)) : Prop :=
  ∀ l ∈ log, ∀ id worker expires now', grant id l = some (worker, expires, now') → now' ≤ now

/-- A job is leased before its next run. -/
def early : QueueLabel ι → Bool
  | .access _ s (.leaseUpdate id _ _ now) =>
    s.db.jobs.any fun j => leasable id now j && !j.nextRunMs.all (· ≤ now)
  | _ => false

def setsLimit (scope : LimitScope) (limit : ℕ) : QueueLabel ι → Bool
  | .access _ _ (.setLimit scope' limit') => scope' = scope ∧ limit' = limit
  | _ => false

def resetsLimit (scope : LimitScope) : QueueLabel ι → Bool
  | .access _ _ (.setLimit scope' _) => scope' = scope
  | _ => false

def returnsFromDrain : QueueLabel ι → Bool
  | .finish _ (.drainActiveLeases _) _ => true
  | _ => false

def unpauses : QueueLabel ι → Bool
  | .access _ _ (.setPaused paused) => !paused
  | _ => false

end Events

/-- The job and the worker of an operation that gives up a lease. -/
def Op.release? : Op → Option (String × String)
  | .completeLeased id worker .. => some (id, worker)
  | .failLeased id worker .. => some (id, worker)
  | .enterApprovalWait id worker .. => some (id, worker)
  | _ => none

def LimitScope.covers : LimitScope → String → Bool
  | .global, _ => true
  | .task name, t => t = name

def unexpired (now : ℕ) (j : QueueJob) : Bool := j.status = .leased ∧ j.leaseExpiresMs.any (now < ·)

section Properties

variable {ι : Type} (log : List (QueueLabel ι)) (c : QueuePool ι)

/-- A job has at most one unexpired lease. -/
def Exclusive : Prop :=
  ∀ id worker₁ expires₁ worker₂ expires₂ now, Held id log worker₁ expires₁ →
    Held id log worker₂ expires₂ → Current now log → now < expires₁ → now < expires₂ →
      worker₁ = worker₂ ∧ expires₁ = expires₂

/-- A job is given up only by the worker with the last lease. -/
def Owned : Prop :=
  ∀ pre x post id worker, log = pre ++ x :: post → releases id worker x →
    ∃ expires now, lastGrant id pre = some (worker, expires, now)

/-- An operation that gives up a job succeeds only if the job is given up. -/
def Released : Prop :=
  ∀ pre i op result post id worker, log = pre ++ .finish i op (.ok result) :: post →
    op.release? = some (id, worker) → ∃ p p' x, pre = p ++ .start i op :: p' ∧
      (∀ op r, .finish i op r ∉ p') ∧ x ∈ p' ∧ releases id worker x

/-- The jobs of a scope whose unexpired lease has been granted in a part of the log. -/
def counted (scope : LimitScope) (now : ℕ) (j : QueueJob) : Bool :=
  unexpired now j && scope.covers j.task && log.any fun l => (grant j.id l).isSome

/-- The unexpired leases granted since a limit is in force do not exceed it. -/
def Limited : Prop :=
  ∀ pre x post scope limit now, log = pre ++ x :: post → setsLimit scope limit x →
    (∀ y ∈ post, ¬ resetsLimit scope y) → Current now log →
      c.state.db.jobs.countP (counted post scope now) ≤ limit

/-- No job is leased before its next run. -/
def NotEarly : Prop := ∀ x ∈ log, ¬ early x

/-- No job is leased after a drain, until the queue is resumed. -/
def Drained : Prop :=
  ∀ pre x mid y post id, log = pre ++ x :: (mid ++ y :: post) → returnsFromDrain x →
    (grant id y).isSome → ∃ z ∈ mid, unpauses z

structure LeasesSafe : Prop where
  exclusive : Exclusive log
  owned : Owned log
  released : Released log
  limited : Limited log c
  notEarly : NotEarly log
  drained : Drained log

end Properties

/-- The reads of a call have the same answers still: the pause flag, whether the job is eligible, and
the concurrency check that the call has just made. -/
def stillSo (s : QueueState) (id : String) (now : ℕ) (done : List (QueueState × Access)) : Bool :=
  (done.all fun x => match x.2 with
    | .isPaused => s.db.paused = x.1.db.paused
    | .listJobs => (findJob id s.db.jobs).any (eligibleToLease now) =
        (findJob id x.1.db.jobs).any (eligibleToLease now)
    | _ => true) &&
  done.getLast?.all fun x => match x.2 with
    | .concurrencyAllows task now =>
        s.db.concurrencyAllows task now = x.1.db.concurrencyAllows task now
    | _ => true

/-- A lease is granted on reads that are still so, with an expiry that the database can compare, and
the queue is not resumed in the middle of a drain. -/
def Fresh {ι : Type} (_ : List (QueueLabel ι)) (c : QueuePool ι) : QueueLabel ι → Prop
  | .access i s (.leaseUpdate id _ expires now) => s.db.jobs.any (leasable id now) →
      expires < 2 ^ 63 ∧ (c.calls i).all fun call => stillSo s id now call.done
  | .access _ _ (.setPaused false) => ∀ i call now, c.calls i = some call →
      call.op ≠ .drainActiveLeases now
  | _ => True

/-! ### What a call has read when it updates -/

/-- The checks before the update that leases a job. -/
def Checked (done : List (QueueState × Access)) (id : String) (now : ℕ) : Prop :=
  (∃ s, (s, .isPaused) ∈ done ∧ s.db.paused = false) ∧
  ∃ s j s', (s, .listJobs) ∈ done ∧ j ∈ s.db.jobs ∧ j.id = id ∧ eligibleToLease now j ∧
    done.getLast? = some (s', .concurrencyAllows j.task now) ∧ s'.db.concurrencyAllows j.task now

section Programs

variable {worker id w : String} {expires now e n : ℕ} {done : List (QueueState × Access)}

theorem reaches_leaseFirst {jobs : List QueueJob}
    {k : (Access.leaseUpdate id w e n).Reply → QueueM (Option QueueJob)}
    (h : (leaseFirst worker expires now jobs).Reaches Access.exec done
      (.call (.leaseUpdate id w e n) k)) :
    n = now ∧ ∃ j ∈ jobs, j.id = id ∧ ∃ s,
      done.getLast? = some (s, .concurrencyAllows j.task now) ∧
      s.db.concurrencyAllows j.task now := by
  induction jobs generalizing done with
  | nil => cases done <;> cases h
  | cons j jobs ih =>
    have hrest : ∀ {x : QueueState × Access} {done : List (QueueState × Access)},
        (leaseFirst worker expires now jobs).Reaches Access.exec done
          (.call (.leaseUpdate id w e n) k) →
        n = now ∧ ∃ j' ∈ j :: jobs, j'.id = id ∧ ∃ s,
          (x :: done).getLast? = some (s, .concurrencyAllows j'.task now) ∧
          s.db.concurrencyAllows j'.task now := by
      intro x done h
      obtain ⟨hn, j', hj', hid, s, hlast, hallows⟩ := ih h
      refine ⟨hn, j', List.mem_cons_of_mem _ hj', hid, s, ?_, hallows⟩
      rw [List.getLast?_cons, hlast]
      rfl
    rw [leaseFirst] at h
    cases done with
    | nil => cases Prog.reaches_query_bind_nil.mp h
    | cons x done =>
      obtain ⟨s, q⟩ := x
      obtain ⟨rfl, h⟩ := Prog.reaches_query_bind_cons.mp h
      split at h
      next hallows =>
        cases done with
        | nil =>
          cases Prog.reaches_query_bind_nil.mp h
          exact ⟨rfl, j, List.mem_cons_self, rfl, s, rfl, hallows⟩
        | cons y done =>
          obtain ⟨-, h⟩ := Prog.reaches_query_bind_cons.mp h
          split at h
          next =>
            -- the job is leased, and only read after that
            have hget : (access (.getJob j.id)).All (fun q => ∀ i w e n, q ≠ .leaseUpdate i w e n) :=
              ⟨by simp, fun _ => trivial⟩
            exact absurd rfl ((Prog.Reaches.all hget h).1 id w e n)
          next =>
            obtain ⟨hn, j', hj', hid, s', hlast, hallows'⟩ := hrest (x := y) h
            exact ⟨hn, j', hj', hid, s', hlast, hallows'⟩
      next => exact hrest h

theorem reaches_leaseNextAt {ttlMs : ℕ}
    {k : (Access.leaseUpdate id w e n).Reply → QueueM (Option QueueJob)}
    (h : (leaseNextAt worker ttlMs now).Reaches Access.exec done
      (.call (.leaseUpdate id w e n) k)) : Checked done id n := by
  rw [leaseNextAt] at h
  cases done with
  | nil => cases Prog.reaches_query_bind_nil.mp h
  | cons x done =>
    obtain ⟨s₀, q⟩ := x
    obtain ⟨rfl, h⟩ := Prog.reaches_query_bind_cons.mp h
    split at h
    next => cases done <;> cases h
    next hpaused =>
      split at h
      next => cases done <;> cases h
      next =>
        cases done with
        | nil => cases Prog.reaches_query_bind_nil.mp h
        | cons x done =>
          obtain ⟨s, q⟩ := x
          obtain ⟨rfl, h⟩ := Prog.reaches_query_bind_cons.mp h
          obtain ⟨rfl, j, hj, hid, s', hlast, hallows⟩ := reaches_leaseFirst h
          obtain ⟨hmem, heligible⟩ := List.mem_filter.mp hj
          refine ⟨⟨s₀, List.mem_cons_self, Bool.eq_false_iff.mpr hpaused⟩, s, j, s', ?_,
            (List.mem_insertionSort _).mp hmem, hid, heligible, ?_, hallows⟩
          · exact List.mem_cons_of_mem _ List.mem_cons_self
          · rw [List.getLast?_cons, List.getLast?_cons, hlast]
            rfl

theorem not_issues_leaseUpdate : ¬ (Op.setPaused true).Issues (.leaseUpdate id w e n) := by
  simp [Op.Issues, Op.lease?]

/-- An operation that leases a job first, and does something else then. -/
theorem reaches_leaseNextAt_bind {ttlMs : ℕ} {f : Option QueueJob → QueueM (Option QueueJob)}
    {k : (Access.leaseUpdate id w e n).Reply → QueueM (Option QueueJob)}
    (h : (leaseNextAt worker ttlMs now >>= f).Reaches Access.exec done
      (.call (.leaseUpdate id w e n) k))
    (hf : ∀ job?, (f job?).All (Op.setPaused true).Issues) : Checked done id n := by
  rcases Prog.reaches_bind h with ⟨p', hp', hcall⟩ | ⟨d₁, d₂, job?, rfl, -, h⟩
  · cases p' with
    | ret job? =>
      have hissues := hf job?
      rw [show f job? = _ from hcall.symm] at hissues
      exact absurd hissues.1 not_issues_leaseUpdate
    | fail err => cases hcall
    | call q k' =>
      cases hcall
      exact reaches_leaseNextAt hp'
  · exact absurd (Prog.Reaches.all (hf job?) h).1 not_issues_leaseUpdate

/-- An operation that leases a job has made the checks before. -/
theorem checked_of_reaches (lib : CronLibrary) {op : Op}
    {k : (Access.leaseUpdate id w e n).Reply → QueueM (Option QueueJob)}
    (h : (op.prog lib).Reaches Access.exec done (.call (.leaseUpdate id w e n) k)) :
    Checked done id n := by
  obtain ⟨ttlMs, hlease, -⟩ := (Prog.Reaches.all (op.all_issues lib) h).1
  unfold Op.lease? at hlease
  split at hlease
  next => exact reaches_leaseNextAt h
  next =>
    refine reaches_leaseNextAt_bind h fun job? => ?_
    cases job? with
    | none => trivial
    | some job => exact Prog.all_map (issues_of_canIssue (all_completeLeased _ _ _ _ _ _))
  next =>
    refine reaches_leaseNextAt_bind h fun job? => ?_
    cases job? with
    | none => trivial
    | some job => exact Prog.all_map (issues_of_canIssue (all_failLeased _ _ _ _ _ _ _))
  next => cases hlease

end Programs

/-! ### Rows over time -/

/-- Jobs stay, with their tasks. -/
def Extends (s s' : QueueState) : Prop :=
  ∀ j ∈ s.db.jobs, ∃ j' ∈ s'.db.jobs, j'.id = j.id ∧ j'.task = j.task

theorem RowStep.task_eq {db : QueueDb} {q : Access} {j j' : QueueJob} (h : RowStep db q j j') :
    j'.task = j.task := by
  cases h <;> rfl

theorem Extends.exec {s s' : QueueState} (h : Extends s s') (hkeyed : s'.db.Keyed) (q : Access) :
    Extends s (q.exec s').2 := by
  intro j hj
  obtain ⟨j', hj', hid, htask⟩ := h j hj
  obtain ⟨j'', hrow, hj''⟩ := findJob_exec hkeyed ((findJob_eq_some hkeyed).mpr ⟨hj', rfl⟩) q
  rw [exec_db]
  refine ⟨j'', ((findJob_eq_some (keyed_exec hkeyed q)).mp hj'').1, ?_, ?_⟩
  · exact hrow.id_eq.trans hid
  · exact hrow.task_eq.trans htask

section Runs

variable {ι : Type} {lib : CronLibrary}

/-- What holds in all interleavings. -/
structure Sound (c : QueuePool ι) : Prop where
  keyed : c.state.db.Keyed
  older : ∀ i call, c.calls i = some call → ∀ x ∈ call.done,
    x.1.db.Keyed ∧ Extends x.1 c.state

variable {C : List (QueueLabel ι) → QueuePool ι → QueueLabel ι → Prop} {log : List (QueueLabel ι)}
  {c c' : QueuePool ι} {l : QueueLabel ι}

theorem Sound.step [DecidableEq ι] (h : Sound c) (hstep : Pool.Step Access.exec (Op.prog lib) c l c') :
    Sound c' := by
  have hstate : (c'.state = c.state) ∨ ∃ q : Access, c'.state = (q.exec c.state).2 := by
    cases hstep with
    | access => exact .inr ⟨_, rfl⟩
    | _ => exact .inl rfl
  have hkeyed : c'.state.db.Keyed := by
    rcases hstate with hstate | ⟨q, hstate⟩
    · rw [hstate]
      exact h.keyed
    · rw [hstate, exec_db]
      exact keyed_exec h.keyed q
  have hextends : ∀ {s : QueueState}, Extends s c.state → Extends s c'.state := by
    intro s hs
    rcases hstate with hstate | ⟨q, hstate⟩
    · rwa [hstate]
    · rw [hstate]
      exact hs.exec h.keyed q
  refine ⟨hkeyed, fun i call hcall x hx => ?_⟩
  rcases hstep.calls hcall with ⟨hold, -⟩ | ⟨op, rfl, -⟩ | ⟨op, done, q, k, hold, rfl, -⟩
  · exact (h.older i call hold x hx).imp_right hextends
  · exact absurd hx List.not_mem_nil
  · rcases List.mem_append.mp hx with hx | hx
    · exact (h.older i _ hold x hx).imp_right hextends
    · rw [List.mem_singleton.mp hx]
      exact ⟨h.keyed, hextends fun j hj => ⟨j, hj, rfl, rfl⟩⟩

theorem sound_of_run [DecidableEq ι]
    (h : Pool.Run Access.exec (Op.prog lib) ⟨.empty, 0⟩ C log c) : Sound c := by
  induction h with
  | nil => exact ⟨List.nodup_nil, by simp⟩
  | snoc _ hstep _ ih => exact ih.step hstep

/-- What is known of a job at the update that leases it. -/
structure Granted (s : QueueState) (j : QueueJob) (expires now : ℕ) : Prop where
  eligible : eligibleToLease now j
  allows : s.db.concurrencyAllows j.task now
  running : s.db.paused = false
  expires_lt : expires < 2 ^ 63
  now_lt : now < expires

theorem granted_of_fresh [DecidableEq ι]
    (h : Pool.Run Access.exec (Op.prog lib) ⟨.empty, 0⟩ C log c) {i : ι} {op : Op} {done : List (QueueState × Access)} {id worker : String} {expires now : ℕ}
    {k : (Access.leaseUpdate id worker expires now).Reply → QueueM (Option QueueJob)}
    (hcall : c.calls i = some ⟨op, done, .call (.leaseUpdate id worker expires now) k⟩)
    (hfresh : Fresh log c (.access i c.state (.leaseUpdate id worker expires now)))
    (hany : c.state.db.jobs.any (leasable id now)) :
    ∃ j, findJob id c.state.db.jobs = some j ∧ leasable id now j ∧
      Granted c.state j expires now := by
  have hsound := sound_of_run h
  obtain ⟨hexpires, hstill⟩ := hfresh hany
  rw [hcall, Option.all_some, stillSo, Bool.and_eq_true, List.all_eq_true] at hstill
  obtain ⟨hreads, hallows⟩ := hstill
  obtain ⟨⟨s₀, hs₀, hrunning⟩, s, k', s', hs, hk', hid, heligible, hlast, hallowed⟩ :=
    checked_of_reaches lib (h.reaches hcall)
  obtain ⟨j, hj, hleasable⟩ := List.any_eq_true.mp hany
  have hjid := (of_decide_eq_true hleasable).1
  have hfind := (findJob_eq_some hsound.keyed).mpr ⟨hj, hjid⟩
  obtain ⟨hkeyed, hextends⟩ := hsound.older i _ hcall _ hs
  have htask : j.task = k'.task := by
    obtain ⟨j', hj', hid', htask'⟩ := hextends k' hk'
    have hfind' := (findJob_eq_some hsound.keyed).mpr ⟨hj', hid'.trans hid⟩
    rw [← Option.some.inj (hfind'.symm.trans hfind)]
    exact htask'
  obtain ⟨ttlMs, -, hsum⟩ := (Prog.Reaches.all (op.all_issues lib) (h.reaches hcall)).1
  refine ⟨j, hfind, hleasable, ?_, ?_, ?_, hexpires, ?_⟩
  · have hsame : Option.any _ _ = Option.any _ _ := of_decide_eq_true (hreads _ hs)
    rw [hfind, (findJob_eq_some hkeyed).mpr ⟨hk', hid⟩, Option.any_some, Option.any_some] at hsame
    exact hsame.trans heligible
  · rw [hlast, Option.all_some] at hallows
    rw [htask]
    exact (of_decide_eq_true hallows).trans hallowed
  · have hsame : c.state.db.paused = s₀.db.paused := of_decide_eq_true (hreads _ hs₀)
    exact hsame.trans hrunning
  · unfold saturatingAdd u64Max at hsum
    omega

/-! ### One step -/

/-- What a step does to the store: nothing, an access that grants no lease, or a lease. -/
inductive LeaseStep (s : QueueState) : QueueLabel ι → QueueState → Prop
  | silent {l : QueueLabel ι} : (∀ i s q, l ≠ .access i s q) → LeaseStep s l s
  | plain {i : ι} {q : Access} {op : Op} : op.Issues q →
      (∀ id worker expires now, q = .leaseUpdate id worker expires now →
        ¬ s.db.jobs.any (leasable id now)) → LeaseStep s (.access i s q) (q.exec s).2
  | lease {i : ι} {id worker : String} {expires now : ℕ} {j : QueueJob} :
      findJob id s.db.jobs = some j → leasable id now j → Granted s j expires now →
      LeaseStep s (.access i s (.leaseUpdate id worker expires now))
        (Access.exec (.leaseUpdate id worker expires now) s).2

theorem leaseStep_of_fresh [DecidableEq ι]
    (h : Pool.Run Access.exec (Op.prog lib) ⟨.empty, 0⟩ C log c)
    (hstep : Pool.Step Access.exec (Op.prog lib) c l c') (hfresh : Fresh log c l) :
    LeaseStep c.state l c'.state := by
  cases hstep with
  | start => exact .silent (by simp)
  | ret => exact .silent (by simp)
  | fail => exact .silent (by simp)
  | @access i op done q k hcall =>
    have hissues := (Prog.Reaches.all (op.all_issues lib) (h.reaches hcall)).1
    by_cases hlease : ∃ id worker expires now, q = .leaseUpdate id worker expires now ∧
        c.state.db.jobs.any (leasable id now)
    · obtain ⟨id, worker, expires, now, rfl, hany⟩ := hlease
      obtain ⟨j, hj, hleasable, hgranted⟩ := granted_of_fresh h hcall hfresh hany
      exact .lease hj hleasable hgranted
    · refine .plain hissues fun id worker expires now hq hany => hlease ?_
      exact ⟨id, worker, expires, now, hq, hany⟩

/-- An access that grants no lease leaves the leased jobs as they are, or ends their leases. -/
theorem exec_leased {s : QueueState} (hkeyed : s.db.Keyed) {q : Access} {op : Op}
    (hissues : op.Issues q) (hlease : ∀ id worker expires now,
      q = .leaseUpdate id worker expires now → ¬ s.db.jobs.any (leasable id now)) :
    ∃ g : QueueJob → QueueJob, (∀ j ∈ s.db.jobs, (g j).status = .leased → g j = j) ∧
      ((q.exec s).2.db.jobs = s.db.jobs.map g ∨
        ∃ job, job.status = .pending ∧ (q.exec s).2.db.jobs = s.db.jobs.map g ++ [job]) := by
  obtain ⟨g, hg, hjobs⟩ := exec_jobs hkeyed q
  refine ⟨g, fun j hj hstatus => ?_, ?_⟩
  · generalize hgj : g j = j' at hstatus
    have hrow := hg j hj
    rw [hgj] at hrow
    cases hrow with
    | same => rfl
    | lease hleasable =>
      exact absurd (List.any_eq_true.mpr ⟨j, hj, hleasable⟩) (hlease _ _ _ _ rfl)
    | fail => rcases hissues with rfl | rfl <;> cases hstatus
    | stall _ _ hstall => rcases hstall with rfl | rfl <;> cases hstatus
    | _ => cases hstatus
  · rw [exec_db]
    rcases hjobs with hjobs | ⟨job, rfl, -, hjobs⟩
    · exact .inl hjobs
    · obtain ⟨spec, id, key, now, rfl⟩ := hissues
      exact .inr ⟨_, rfl, hjobs⟩

theorem mem_of_exec_leased {s : QueueState} (hkeyed : s.db.Keyed) {q : Access} {op : Op}
    (hissues : op.Issues q) (hlease : ∀ id worker expires now,
      q = .leaseUpdate id worker expires now → ¬ s.db.jobs.any (leasable id now)) {j : QueueJob}
    (hj : j ∈ (q.exec s).2.db.jobs) (hstatus : j.status = .leased) : j ∈ s.db.jobs := by
  obtain ⟨g, hg, hjobs⟩ := exec_leased hkeyed hissues hlease
  have hmap : j ∈ s.db.jobs.map g → j ∈ s.db.jobs := by
    intro hj
    obtain ⟨j₀, hj₀, rfl⟩ := List.mem_map.mp hj
    rwa [hg j₀ hj₀ hstatus]
  rcases hjobs with hjobs | ⟨job, hpending, hjobs⟩
  · exact hmap (hjobs ▸ hj)
  · rcases List.mem_append.mp (hjobs ▸ hj) with hj | hj
    · exact hmap hj
    · rw [List.mem_singleton.mp hj, hpending] at hstatus
      cases hstatus

/-! ### Owners -/

theorem lastGrant_snoc (id : String) (log : List (QueueLabel ι)) (l : QueueLabel ι) :
    lastGrant id (log ++ [l]) = (grant id l).or (lastGrant id log) := by
  unfold lastGrant
  rw [List.filterMap_append]
  cases hl : grant id l with
  | none => simp [hl]
  | some g => simp [hl]

theorem grant_of_plain {s : QueueState} {i : ι} {q : Access}
    (hlease : ∀ id worker expires now, q = .leaseUpdate id worker expires now →
      ¬ s.db.jobs.any (leasable id now)) (id : String) :
    grant id (.access i s q : QueueLabel ι) = none := by
  unfold grant
  split
  next id' worker expires now heq =>
    obtain ⟨-, rfl, rfl⟩ := Pool.Label.access.inj heq
    refine if_neg ?_
    rintro ⟨rfl, hany⟩
    exact hlease _ _ _ _ rfl hany
  next => rfl

theorem grant_of_silent {l : QueueLabel ι} (hl : ∀ i s q, l ≠ .access i s q) (id : String) :
    grant id l = none := by
  unfold grant
  split
  next => exact absurd rfl (hl _ _ _)
  next => rfl

/-- A leased job has the worker and the expiry of its last lease. -/
def OwnerInv (log : List (QueueLabel ι)) (s : QueueState) : Prop :=
  ∀ j ∈ s.db.jobs, j.status = .leased → ∃ worker expires now,
    lastGrant j.id log = some (worker, expires, now) ∧ j.leaseOwner = some worker ∧
      j.leaseExpiresMs = some expires ∧ expires < 2 ^ 63 ∧ j.nextRunMs.all (· ≤ expires)

theorem OwnerInv.nextRun_le {s : QueueState} (h : OwnerInv log s) {j : QueueJob} {expires now : ℕ}
    (hj : j ∈ s.db.jobs) (hgranted : Granted s j expires now) : j.nextRunMs.all (· ≤ now) := by
  have heligible := hgranted.eligible
  unfold eligibleToLease at heligible
  split at heligible
  next => exact heligible
  next => exact heligible
  next hstatus =>
    -- the job was due when it was leased, and that lease has expired
    obtain ⟨_, expires₀, _, -, -, hexpires₀, -, hnext⟩ := h j hj hstatus
    rw [hexpires₀] at heligible
    have hle : expires₀ ≤ now := of_decide_eq_true heligible
    cases hrun : j.nextRunMs with
    | none => rfl
    | some run =>
      rw [hrun] at hnext
      have hrun' : run ≤ expires₀ := of_decide_eq_true hnext
      exact decide_eq_true (hrun'.trans hle)
  next => cases heligible

theorem grant_of_lease {s : QueueState} {i : ι} {id worker : String} {expires now : ℕ}
    {j : QueueJob} (hkeyed : s.db.Keyed) (hj : findJob id s.db.jobs = some j)
    (hleasable : leasable id now j) :
    grant id (.access i s (.leaseUpdate id worker expires now) : QueueLabel ι) =
      some (worker, expires, now) := by
  refine if_pos ⟨rfl, List.any_eq_true.mpr ⟨j, ?_, hleasable⟩⟩
  exact ((findJob_eq_some hkeyed).mp hj).1

theorem grant_of_lease_ne {s : QueueState} {i : ι} {id id' worker : String} {expires now : ℕ}
    (hne : id' ≠ id) :
    grant id' (.access i s (.leaseUpdate id worker expires now) : QueueLabel ι) = none :=
  if_neg fun h => hne h.1.symm

theorem OwnerInv.step {s s' : QueueState} (h : OwnerInv log s) (hkeyed : s.db.Keyed)
    (hstep : LeaseStep s l s') : OwnerInv (log ++ [l]) s' := by
  cases hstep with
  | silent hl =>
    intro j hj hstatus
    rw [lastGrant_snoc, grant_of_silent hl, Option.none_or]
    exact h j hj hstatus
  | plain hissues hlease =>
    intro j hj hstatus
    rw [lastGrant_snoc, grant_of_plain hlease, Option.none_or]
    exact h j (mem_of_exec_leased hkeyed hissues hlease hj hstatus) hstatus
  | @lease i id worker expires now j hj hleasable hgranted =>
    intro j' hj' hstatus
    obtain ⟨j₀, hj₀, rfl⟩ := List.mem_map.mp hj'
    have hmem := ((findJob_eq_some hkeyed).mp hj).1
    by_cases hid : j₀.id = id
    · subst hid
      obtain rfl : j₀ = j :=
        Option.some.inj (((findJob_eq_some hkeyed).mpr ⟨hj₀, rfl⟩).symm.trans hj)
      rw [if_pos hleasable]
      refine ⟨worker, expires, now, ?_, rfl, rfl, hgranted.expires_lt, ?_⟩
      · rw [lastGrant_snoc, grant_of_lease hkeyed hj hleasable]
        rfl
      · have hnext := h.nextRun_le hmem hgranted
        have hlt := hgranted.now_lt
        cases hrun : j₀.nextRunMs with
        | none => rfl
        | some run =>
          rw [hrun] at hnext
          have hrun' : run ≤ now := of_decide_eq_true hnext
          exact decide_eq_true (hrun'.trans hlt.le)
    · have hnot : ¬ leasable id now j₀ := fun hl => hid (of_decide_eq_true hl).1
      rw [if_neg hnot] at hstatus ⊢
      rw [lastGrant_snoc, grant_of_lease_ne hid, Option.none_or]
      exact h j₀ hj₀ hstatus

/-! ### Exclusion -/

theorem isLeased_iff {s : QueueState} (hkeyed : s.db.Keyed) {id : String} :
    isLeased id s.db.jobs ↔ ∃ j ∈ s.db.jobs, j.id = id ∧ j.status = .leased := by
  unfold isLeased
  constructor
  · intro h
    cases hj : findJob id s.db.jobs with
    | none =>
      rw [hj] at h
      cases h
    | some j =>
      rw [hj] at h
      obtain ⟨hmem, hid⟩ := (findJob_eq_some hkeyed).mp hj
      exact ⟨j, hmem, hid, of_decide_eq_true h⟩
  · rintro ⟨j, hj, hid, hstatus⟩
    rw [(findJob_eq_some hkeyed).mpr ⟨hj, hid⟩]
    exact decide_eq_true hstatus

/-- A lease that is not ended is the last one, or has expired when the next one was granted. -/
def HeldInv (log : List (QueueLabel ι)) (s : QueueState) : Prop :=
  ∀ id pre g post worker expires now, log = pre ++ g :: post →
    grant id g = some (worker, expires, now) → (∀ x ∈ post, ¬ ends id x) →
    isLeased id s.db.jobs ∧ ((∀ x ∈ post, grant id x = none) ∨
      ∃ x ∈ post, ∃ worker' expires' now', grant id x = some (worker', expires', now') ∧
        expires ≤ now')

/-- The last lease is the last one of the log. -/
theorem lastGrant_of_split {id : String} {pre post : List (QueueLabel ι)} {g : QueueLabel ι}
    {x : String × ℕ × ℕ} (hg : grant id g = some x) (hpost : ∀ y ∈ post, grant id y = none) :
    lastGrant id (pre ++ g :: post) = some x := by
  unfold lastGrant
  have hnil : post.filterMap (grant id) = [] := by
    rw [List.filterMap_eq_nil_iff]
    exact hpost
  rw [List.filterMap_append, List.filterMap_cons_some hg, hnil, List.getLast?_concat]

/-- A lease that is granted on a leased job comes after the expiry of the last one. -/
theorem OwnerInv.expired {s : QueueState} (h : OwnerInv log s) {j : QueueJob} {id : String}
    {now : ℕ} (hj : j ∈ s.db.jobs) (hstatus : j.status = .leased) (hleasable : leasable id now j)
    {worker : String} {expires now' : ℕ}
    (hlast : lastGrant j.id log = some (worker, expires, now')) : expires ≤ now := by
  obtain ⟨worker₀, expires₀, now₀, hlast₀, -, hexpires, hlt, -⟩ := h j hj hstatus
  obtain ⟨-, rfl, -⟩ : worker₀ = worker ∧ expires₀ = expires ∧ now₀ = now' := by
    simpa using hlast₀.symm.trans hlast
  rcases (of_decide_eq_true hleasable).2 with hpending | hretry | ⟨-, hle⟩
  · rw [hpending] at hstatus
    cases hstatus
  · rw [hretry] at hstatus
    cases hstatus
  · rw [hexpires, Option.map_some, Option.getD_some, asI64_of_lt hlt] at hle
    unfold asI64 at hle
    split at hle <;> omega

/-- The step that grants a lease. -/
theorem LeaseStep.of_grant {s s' : QueueState} (h : LeaseStep s l s') {id worker : String}
    {expires now : ℕ} (hg : grant id l = some (worker, expires, now)) :
    ∃ j, findJob id s.db.jobs = some j ∧ leasable id now j ∧ Granted s j expires now ∧
      s' = (Access.exec (.leaseUpdate id worker expires now) s).2 := by
  cases h with
  | silent hl =>
    rw [grant_of_silent hl] at hg
    cases hg
  | plain _ hlease =>
    rw [grant_of_plain hlease] at hg
    cases hg
  | @lease _ id' _ _ _ j hj hleasable hgranted =>
    by_cases hid : id = id'
    · subst hid
      rw [grant, if_pos (by
        refine ⟨rfl, List.any_eq_true.mpr ⟨j, List.mem_of_find?_eq_some hj, hleasable⟩⟩)] at hg
      cases hg
      exact ⟨j, hj, hleasable, hgranted, rfl⟩
    · rw [grant_of_lease_ne hid] at hg
      cases hg

theorem HeldInv.step {s s' : QueueState} (h : HeldInv log s) (howner : OwnerInv log s)
    (hkeyed : s.db.Keyed) (hkeyed' : s'.db.Keyed) (hstep : LeaseStep s l s') :
    HeldInv (log ++ [l]) s' := by
  intro id pre g post worker expires now hlog hg hends
  rcases snoc_eq_append_cons hlog with ⟨rfl, rfl, rfl⟩ | ⟨post, rfl, rfl⟩
  · obtain ⟨j, hj, hleasable, -, rfl⟩ := hstep.of_grant hg
    obtain ⟨hmem, hid⟩ := (findJob_eq_some hkeyed).mp hj
    refine ⟨(isLeased_iff hkeyed').mpr ⟨_, List.mem_map_of_mem hmem, ?_⟩, .inl (by simp)⟩
    rw [if_pos hleasable]
    exact ⟨hid, rfl⟩
  · obtain ⟨hleased, hlast⟩ := h id pre g post worker expires now rfl hg
      fun x hx => hends x (List.mem_append_left _ hx)
    refine ⟨?_, ?_⟩
    · have hends' := hends l (List.mem_append_right _ (List.mem_singleton_self l))
      cases hstep with
      | silent => exact hleased
      | plain => simpa [ends, hleased] using hends'
      | lease => simpa [ends, hleased] using hends'
    · cases hl : grant id l with
      | none =>
        refine hlast.imp (fun hnone x hx => ?_) fun ⟨x, hx, hlater⟩ => ?_
        · rcases List.mem_append.mp hx with hx | hx
          · exact hnone x hx
          · rwa [List.mem_singleton.mp hx]
        · exact ⟨x, List.mem_append_left _ hx, hlater⟩
      | some x =>
        obtain ⟨worker', expires', now'⟩ := x
        rcases hlast with hnone | ⟨x, hx, hlater⟩
        · -- the first lease after this one
          obtain ⟨j, hj, hleasable, -, -⟩ := hstep.of_grant hl
          obtain ⟨hmem, rfl⟩ := (findJob_eq_some hkeyed).mp hj
          obtain ⟨k, hk, hid, hstatus⟩ := (isLeased_iff hkeyed).mp hleased
          obtain rfl : k = j :=
            Option.some.inj (((findJob_eq_some hkeyed).mpr ⟨hk, hid⟩).symm.trans hj)
          refine .inr ⟨l, List.mem_append_right _ (List.mem_singleton_self l), worker', expires',
            now', hl, ?_⟩
          exact howner.expired hmem hstatus hleasable (lastGrant_of_split hg hnone)
        · exact .inr ⟨x, List.mem_append_left _ hx, hlater⟩

theorem split_trichotomy {α : Type} {pre₁ post₁ pre₂ post₂ : List α} {g₁ g₂ : α}
    (h : pre₁ ++ g₁ :: post₁ = pre₂ ++ g₂ :: post₂) :
    g₁ = g₂ ∨ g₂ ∈ post₁ ∨ g₁ ∈ post₂ := by
  rcases List.append_eq_append_iff.mp h with ⟨a, -, ha⟩ | ⟨a, -, ha⟩
  · cases a with
    | nil => exact .inl (List.cons.inj ha).1
    | cons x a =>
      rw [List.cons_append] at ha
      refine .inr (.inl ?_)
      rw [(List.cons.inj ha).2]
      exact List.mem_append_right _ List.mem_cons_self
  · cases a with
    | nil => exact .inl (List.cons.inj ha).1.symm
    | cons x a =>
      rw [List.cons_append] at ha
      refine .inr (.inr ?_)
      rw [(List.cons.inj ha).2]
      exact List.mem_append_right _ List.mem_cons_self

/-- A lease that is followed by another one has expired. -/
theorem HeldInv.le_of_mem {s : QueueState} (h : HeldInv log s) {id : String}
    {pre post : List (QueueLabel ι)} {g g' : QueueLabel ι} {worker : String} {expires now : ℕ}
    {x : String × ℕ × ℕ} (hlog : log = pre ++ g :: post)
    (hg : grant id g = some (worker, expires, now)) (hends : ∀ x ∈ post, ¬ ends id x)
    (hg' : grant id g' = some x) (hmem : g' ∈ post) {t : ℕ} (ht : Current t log) : expires ≤ t := by
  rcases (h id pre g post worker expires now hlog hg hends).2 with hnone | hlater
  · rw [hnone g' hmem] at hg'
    cases hg'
  · obtain ⟨y, hy, worker', expires', now', hgy, hle⟩ := hlater
    refine hle.trans (ht y ?_ id worker' expires' now' hgy)
    rw [hlog]
    exact List.mem_append_right _ (List.mem_cons_of_mem _ hy)

theorem HeldInv.exclusive {s : QueueState} (h : HeldInv log s) {id worker₁ worker₂ : String}
    {expires₁ expires₂ t : ℕ} (h₁ : Held id log worker₁ expires₁)
    (h₂ : Held id log worker₂ expires₂) (ht : Current t log) (hlt₁ : t < expires₁)
    (hlt₂ : t < expires₂) : worker₁ = worker₂ ∧ expires₁ = expires₂ := by
  obtain ⟨pre₁, g₁, post₁, now₁, hlog₁, hg₁, hends₁⟩ := h₁
  obtain ⟨pre₂, g₂, post₂, now₂, hlog₂, hg₂, hends₂⟩ := h₂
  rcases split_trichotomy (hlog₁.symm.trans hlog₂) with rfl | hmem | hmem
  · obtain ⟨hw, he, -⟩ : worker₁ = worker₂ ∧ expires₁ = expires₂ ∧ now₁ = now₂ := by
      simpa using hg₁.symm.trans hg₂
    exact ⟨hw, he⟩
  · exact absurd (h.le_of_mem hlog₁ hg₁ hends₁ hg₂ hmem ht) (Nat.not_le.mpr hlt₁)
  · exact absurd (h.le_of_mem hlog₂ hg₂ hends₂ hg₁ hmem ht) (Nat.not_le.mpr hlt₂)

/-! ### Limits -/

def LimitScope.taskName : LimitScope → Option String
  | .global => none
  | .task name => some name

theorem LimitScope.covers_eq (scope : LimitScope) (t : String) :
    scope.covers t = scope.taskName.all fun name => t = name := by
  cases scope <;> rfl

/-- The check of a limit that covers the task. -/
theorem countActiveLeases_lt {db : QueueDb} {scope : LimitScope} {limit now : ℕ} {t : String}
    (hlimit : db.limits scope = some limit) (hallows : db.concurrencyAllows t now)
    (hcovers : scope.covers t) : countActiveLeases scope.taskName now db.jobs < limit := by
  obtain ⟨hglobal, htask⟩ := Bool.and_eq_true_iff.mp hallows
  cases scope with
  | global =>
    rw [hlimit] at hglobal
    exact of_decide_eq_true hglobal
  | task name =>
    obtain rfl : t = name := of_decide_eq_true hcovers
    rw [hlimit] at htask
    exact of_decide_eq_true htask

theorem countP_id_le_one {jobs : List QueueJob} (h : (jobs.map QueueJob.id).Nodup) (id : String) :
    jobs.countP (·.id = id) ≤ 1 := by
  have hcount : jobs.countP (·.id = id) = (jobs.map QueueJob.id).count id := by
    rw [List.count, List.countP_map]
    exact List.countP_congr fun j _ => by simp
  rw [hcount]
  exact List.nodup_iff_count.mp h id

/-- A count goes up by one at most, if only one job comes in. -/
theorem countP_le_succ {jobs : List QueueJob} (h : (jobs.map QueueJob.id).Nodup) (id : String)
    {p q : QueueJob → Bool} (hpq : ∀ j ∈ jobs, p j → j.id ≠ id → q j) :
    jobs.countP p ≤ jobs.countP q + 1 := by
  have hor : jobs.countP p ≤ jobs.countP q + jobs.countP (·.id = id) := by
    clear h
    induction jobs with
    | nil => simp
    | cons j jobs ih =>
      have hrest := ih fun k hk => hpq k (List.mem_cons_of_mem _ hk)
      have hhead := hpq j List.mem_cons_self
      simp only [List.countP_cons]
      by_cases hid : j.id = id <;> by_cases hp : p j <;> simp_all <;> omega
  exact hor.trans (Nat.add_le_add_left (countP_id_le_one h id) _)

/-- A limit is in force since it was set, and the leases since then respect it. -/
def LimitInv (log : List (QueueLabel ι)) (s : QueueState) : Prop :=
  ∀ pre x post scope limit, log = pre ++ x :: post → setsLimit scope limit x →
    (∀ y ∈ post, ¬ resetsLimit scope y) → s.db.limits scope = some limit ∧
      ∀ now, Current now log → s.db.jobs.countP (counted post scope now) ≤ limit

theorem Current.of_snoc {now : ℕ} (h : Current now (log ++ [l])) : Current now log :=
  fun x hx => h x (List.mem_append_left _ hx)

/-- An unexpired lease is active for a check at an earlier time. -/
theorem OwnerInv.activeLease {s : QueueState} (h : OwnerInv log s) {j : QueueJob}
    (hj : j ∈ s.db.jobs) {t now : ℕ} (hle : now ≤ t) (hunexpired : unexpired t j) :
    Queue.activeLease now j := by
  obtain ⟨hstatus, hlt⟩ := of_decide_eq_true hunexpired
  obtain ⟨_, expires, _, -, -, hexpires, hbound, -⟩ := h j hj hstatus
  rw [hexpires, Option.any_some, decide_eq_true_iff] at hlt
  refine decide_eq_true ⟨hstatus, ?_⟩
  rw [hexpires, Option.map_some, Option.getD_some, asI64_of_lt hbound,
    asI64_of_lt (hle.trans_lt (hlt.trans hbound))]
  omega

theorem counted_snoc {scope : LimitScope} {now : ℕ} {post : List (QueueLabel ι)} {j : QueueJob}
    (hl : grant j.id l = none) :
    counted (post ++ [l]) scope now j = counted post scope now j := by
  simp [counted, hl]

theorem leased_of_counted {scope : LimitScope} {now : ℕ} {post : List (QueueLabel ι)} {j : QueueJob}
    (h : counted post scope now j) : j.status = .leased := by
  simp only [counted, Bool.and_eq_true] at h
  exact (of_decide_eq_true h.1.1).1

theorem limits_of_step {s s' : QueueState} {scope : LimitScope} (hstep : LeaseStep s l s')
    (hl : ¬ resetsLimit scope l) : s'.db.limits scope = s.db.limits scope := by
  cases hstep with
  | silent => rfl
  | lease => rfl
  | @plain i q op hissues hlease =>
    rw [exec_db]
    by_cases hq : ∃ scope' limit, q = .setLimit scope' limit
    · obtain ⟨scope', limit, rfl⟩ := hq
      have hne : scope ≠ scope' := fun heq => hl (decide_eq_true heq.symm)
      exact Function.update_of_ne hne _ _
    · rw [exec_limits _ fun scope' limit heq => hq ⟨scope', limit, heq⟩]

/-- A step that grants no lease in the scope does not add to its count. -/
theorem countP_counted_le {s s' : QueueState} {scope : LimitScope} {post : List (QueueLabel ι)}
    {now : ℕ} (hkeyed : s.db.Keyed) (hstep : LeaseStep s l s')
    (hout : ∀ id j, (grant id l).isSome → findJob id s.db.jobs = some j → ¬ scope.covers j.task) :
    s'.db.jobs.countP (counted (post ++ [l]) scope now) ≤
      s.db.jobs.countP (counted post scope now) := by
  cases hstep with
  | silent hl =>
    exact (List.countP_congr fun j _ => by rw [counted_snoc (grant_of_silent hl _)]).le
  | @plain i q op hissues hlease =>
    obtain ⟨g, hg, hjobs⟩ := exec_leased hkeyed hissues hlease
    have hmap : (s.db.jobs.map g).countP (counted (post ++ [.access i s q]) scope now) ≤
        s.db.jobs.countP (counted post scope now) := by
      rw [List.countP_map]
      refine List.countP_mono_left fun j hj hcounted => ?_
      rw [Function.comp_apply, counted_snoc (grant_of_plain hlease _)] at hcounted
      rwa [← hg j hj (leased_of_counted hcounted)]
    rcases hjobs with hjobs | ⟨job, hpending, hjobs⟩
    · rwa [hjobs]
    · have hnot : ¬ counted (post ++ [.access i s q]) scope now job := fun hcounted => by
        have hstatus := leased_of_counted hcounted
        rw [hpending] at hstatus
        cases hstatus
      rw [hjobs, List.countP_append, List.countP_singleton, if_neg hnot]
      exact hmap
  | @lease i id worker expires now' j hj hleasable hgranted =>
    have hcovers := hout id j (by rw [grant_of_lease hkeyed hj hleasable]; rfl) hj
    show (s.db.jobs.map _).countP _ ≤ _
    rw [List.countP_map]
    refine List.countP_mono_left fun k hk hcounted => ?_
    by_cases hid : k.id = id
    · -- the job that is leased is not in the scope
      obtain rfl : k = j :=
        Option.some.inj (((findJob_eq_some hkeyed).mpr ⟨hk, hid⟩).symm.trans hj)
      rw [Function.comp_apply, if_pos hleasable] at hcounted
      simp only [counted, hcovers, Bool.and_eq_true] at hcounted
      exact absurd hcounted.1.2 (by simp)
    · have hnot : ¬ leasable id now' k := fun hl => hid (of_decide_eq_true hl).1
      rwa [Function.comp_apply, if_neg hnot, counted_snoc (grant_of_lease_ne hid)] at hcounted

/-- A lease in the scope of a limit has been checked against it. -/
theorem countP_counted_le_limit {s s' : QueueState} {scope : LimitScope}
    {post : List (QueueLabel ι)} {limit t : ℕ} (hkeyed : s.db.Keyed) (howner : OwnerInv log s)
    (hstep : LeaseStep s l s') (hlimit : s.db.limits scope = some limit)
    (ht : Current t (log ++ [l])) {id : String} {j : QueueJob} {x : String × ℕ × ℕ}
    (hg : grant id l = some x) (hj : findJob id s.db.jobs = some j)
    (hcovers : scope.covers j.task) : s'.db.jobs.countP (counted post scope t) ≤ limit := by
  obtain ⟨worker, expires, now⟩ := x
  have hle : now ≤ t := ht l (List.mem_append_right _ (List.mem_singleton_self l)) _ _ _ _ hg
  obtain ⟨k, hk, hleasable, hgranted, rfl⟩ := hstep.of_grant hg
  obtain rfl : j = k := Option.some.inj (hj.symm.trans hk)
  have hlt := countActiveLeases_lt hlimit hgranted.allows hcovers
  refine le_trans ?_ hlt
  show (s.db.jobs.map _).countP _ ≤ _
  rw [List.countP_map]
  refine countP_le_succ hkeyed id fun k hk hcounted hid => ?_
  have hnot : ¬ leasable id now k := fun hl => hid (of_decide_eq_true hl).1
  rw [Function.comp_apply, if_neg hnot] at hcounted
  simp only [counted, Bool.and_eq_true] at hcounted
  rw [Bool.and_eq_true, ← scope.covers_eq]
  exact ⟨howner.activeLease hk hle hcounted.1.1, hcounted.1.2⟩

theorem LimitInv.step {s s' : QueueState} (h : LimitInv log s) (howner : OwnerInv log s)
    (hkeyed : s.db.Keyed) (hstep : LeaseStep s l s') : LimitInv (log ++ [l]) s' := by
  intro pre x post scope limit hlog hx hpost
  rcases snoc_eq_append_cons hlog with ⟨rfl, rfl, rfl⟩ | ⟨post, rfl, rfl⟩
  · refine ⟨?_, fun now _ => ?_⟩
    · unfold setsLimit at hx
      split at hx
      next =>
        obtain ⟨rfl, rfl⟩ := of_decide_eq_true hx
        cases hstep with
        | silent hl => exact absurd rfl (hl _ _ _)
        | plain => exact Function.update_self _ _ _
      next => cases hx
    · have hzero : s'.db.jobs.countP (counted ([] : List (QueueLabel ι)) scope now) = 0 :=
        List.countP_eq_zero.mpr fun j _ => by simp [counted]
      omega
  · have hl := hpost l (List.mem_append_right _ (List.mem_singleton_self l))
    obtain ⟨hlimit, hcount⟩ := h pre x post scope limit rfl hx
      fun y hy => hpost y (List.mem_append_left _ hy)
    refine ⟨(limits_of_step hstep hl).trans hlimit, fun now hnow => ?_⟩
    by_cases hin : ∃ id j x, grant id l = some x ∧ findJob id s.db.jobs = some j ∧
        scope.covers j.task
    · obtain ⟨id, j, x, hg, hj, hcovers⟩ := hin
      exact countP_counted_le_limit hkeyed howner hstep hlimit hnow hg hj hcovers
    · refine (countP_counted_le hkeyed hstep fun id j hg hj hcovers => hin ?_).trans
        (hcount now hnow.of_snoc)
      obtain ⟨x, hx⟩ := Option.isSome_iff_exists.mp hg
      exact ⟨id, j, x, hx, hj, hcovers⟩

/-! ### Pauses -/

/-- A step that does not resume a paused queue leaves it paused. -/
theorem paused_of_step {s s' : QueueState} (hstep : LeaseStep s l s') (hl : ¬ unpauses l)
    (hpaused : s.db.paused) : s'.db.paused := by
  cases hstep with
  | silent => exact hpaused
  | lease => exact hpaused
  | @plain i q op hissues hlease =>
    rw [exec_db]
    by_cases hq : ∃ paused, q = .setPaused paused
    · obtain ⟨paused, rfl⟩ := hq
      have htrue : paused = true := by simpa [unpauses] using hl
      exact htrue
    · rw [exec_paused _ fun paused heq => hq ⟨paused, heq⟩]
      exact hpaused

/-- A drain starts with a pause. -/
theorem reaches_drain {now : ℕ} {p : QueueM (Option QueueJob)}
    (h : ((Op.drainActiveLeases now).prog lib).Reaches Access.exec [] p) :
    ∃ k, p = .call (.setPaused true) k :=
  ⟨_, (Prog.reaches_nil.mp h).symm⟩

theorem not_draining_of_unpauses (hfresh : Fresh log c l) (hl : unpauses l) {i : ι}
    {call : Call QueueState Access.Reply RuntimeError (Option QueueJob) Op} {now : ℕ}
    (hcall : c.calls i = some call) : call.op ≠ .drainActiveLeases now := by
  unfold unpauses at hl
  split at hl
  next paused =>
    obtain rfl : paused = false := by simpa using hl
    exact hfresh i call now hcall
  next => cases hl

/-- The queue is paused once a drain has begun, and after it has returned. -/
structure PauseInv (log : List (QueueLabel ι)) (c : QueuePool ι) : Prop where
  draining : ∀ i call now, c.calls i = some call → call.op = .drainActiveLeases now →
    call.done ≠ [] → c.state.db.paused
  drained : ∀ pre x mid, log = pre ++ x :: mid → returnsFromDrain x → (∀ z ∈ mid, ¬ unpauses z) →
    c.state.db.paused

theorem PauseInv.step [DecidableEq ι] (h : PauseInv log c)
    (hrun : Pool.Run Access.exec (Op.prog lib) ⟨.empty, 0⟩ C log c)
    (hstep : Pool.Step Access.exec (Op.prog lib) c l c') (hfresh : Fresh log c l) :
    PauseInv (log ++ [l]) c' := by
  have hlease := leaseStep_of_fresh hrun hstep hfresh
  constructor
  · intro i call now hcall hop hdone
    rcases hstep.calls hcall with ⟨hold, -⟩ | ⟨op, rfl, -⟩ | ⟨op, done, q, k, hold, rfl, hl⟩
    · refine paused_of_step hlease (fun hl => ?_) (h.draining i call now hold hop hdone)
      exact not_draining_of_unpauses hfresh hl hold hop
    · exact absurd rfl hdone
    · obtain rfl : op = .drainActiveLeases now := hop
      rcases List.eq_nil_or_concat done with rfl | ⟨done, x, rfl⟩
      · -- the first access is the pause
        obtain ⟨k', hk'⟩ := reaches_drain (hrun.reaches hold)
        cases hk'
        subst hl
        cases hstep
        rfl
      · refine paused_of_step hlease (fun hl => ?_) (h.draining i _ now hold rfl (by simp))
        exact not_draining_of_unpauses hfresh hl hold rfl
  · intro pre x mid hlog hx hmid
    rcases snoc_eq_append_cons hlog with ⟨rfl, rfl, rfl⟩ | ⟨mid, rfl, rfl⟩
    · have hdone : ∀ {i : ι} {now : ℕ} {done : List (QueueState × Access)}
          {p : QueueM (Option QueueJob)}, (∀ q k, p ≠ .call q k) →
          c.calls i = some ⟨.drainActiveLeases now, done, p⟩ → c.state.db.paused := by
        intro i now done p hp hcall
        refine h.draining i _ now hcall rfl fun hnil => ?_
        have hreaches := hrun.reaches hcall
        dsimp only at hnil hreaches
        rw [hnil] at hreaches
        obtain ⟨k, hk⟩ := reaches_drain hreaches
        exact hp _ _ hk
      unfold returnsFromDrain at hx
      split at hx
      next =>
        cases hstep with
        | ret hcall => exact hdone (by simp) hcall
        | fail hcall => exact hdone (by simp) hcall
      next => cases hx
    · refine paused_of_step hlease ?_ (h.drained pre x mid rfl hx fun z hz => ?_)
      · exact hmid l (List.mem_append_right _ (List.mem_singleton_self l))
      · exact hmid z (List.mem_append_left _ hz)

/-! ### Operations that give up a job -/

theorem any_of_countP_ne_zero {jobs : List QueueJob} {p : QueueJob → Bool}
    (h : ¬ jobs.countP p = 0) : jobs.any p := by
  obtain ⟨j, hj, hp⟩ := List.countP_pos_iff.mp (Nat.pos_of_ne_zero h)
  exact List.any_eq_true.mpr ⟨j, hj, hp⟩

variable {i : ι} {id worker : String} {done : List (QueueState × Access)} {r : Option QueueJob}

theorem releases_of_complete {outputKind outputFingerprint : Option String} {now : ℕ}
    {j : QueueJob} (h : (completeLeased id worker outputKind outputFingerprint now).Reaches
      Access.exec done (.ret j)) :
    ∃ x ∈ done, releases id worker (.access i x.1 x.2 : QueueLabel ι) := by
  cases done with
  | nil => cases Prog.reaches_query_bind_nil.mp h
  | cons x done =>
    obtain ⟨s, q⟩ := x
    obtain ⟨rfl, h⟩ := Prog.reaches_query_bind_cons.mp h
    split at h
    next => exact absurd h Prog.not_reaches_fail_ret
    next hcount =>
      refine ⟨_, List.mem_cons_self, decide_eq_true ⟨rfl, rfl, any_of_countP_ne_zero hcount⟩⟩

theorem releases_of_fail {failureKind failureFingerprint : String} {baseDelayMs now : ℕ}
    {j : QueueJob} (h : (failLeased id worker failureKind failureFingerprint baseDelayMs now).Reaches
      Access.exec done (.ret j)) :
    ∃ x ∈ done, releases id worker (.access i x.1 x.2 : QueueLabel ι) := by
  obtain ⟨d₁, d₂, job, rfl, -, h⟩ := Prog.reaches_bind_ret h
  split at h
  next => exact absurd h Prog.not_reaches_fail_ret
  next =>
    cases d₂ with
    | nil => cases Prog.reaches_query_bind_nil.mp h
    | cons x d₂ =>
      obtain ⟨s, q⟩ := x
      obtain ⟨rfl, h⟩ := Prog.reaches_query_bind_cons.mp h
      split at h
      next => exact absurd h Prog.not_reaches_fail_ret
      next hcount =>
        refine ⟨_, List.mem_append_right _ List.mem_cons_self, ?_⟩
        exact decide_eq_true ⟨rfl, rfl, any_of_countP_ne_zero hcount⟩

theorem releases_of_wait {approvalId reason : String} {expiresMs now : ℕ} {j : QueueJob}
    (h : (enterApprovalWait id worker approvalId expiresMs reason now).Reaches Access.exec done
      (.ret j)) :
    ∃ x ∈ done, releases id worker (.access i x.1 x.2 : QueueLabel ι) := by
  unfold enterApprovalWait at h
  split at h
  next => exact absurd h Prog.not_reaches_fail_ret
  next =>
    split at h
    next => exact absurd h Prog.not_reaches_fail_ret
    next =>
      cases done with
      | nil => cases Prog.reaches_query_bind_nil.mp h
      | cons x done =>
        obtain ⟨s, q⟩ := x
        obtain ⟨rfl, h⟩ := Prog.reaches_query_bind_cons.mp h
        split at h
        next => exact absurd h Prog.not_reaches_fail_ret
        next hcount =>
          refine ⟨_, List.mem_cons_self, decide_eq_true ⟨rfl, rfl, any_of_countP_ne_zero hcount⟩⟩

/-- An operation that gives up a job and succeeds has given it up. -/
theorem releases_of_reaches {op : Op} (hop : op.release? = some (id, worker))
    (h : (op.prog lib).Reaches Access.exec done (.ret r)) :
    ∃ x ∈ done, releases id worker (.access i x.1 x.2 : QueueLabel ι) := by
  have hmap : ∀ {p : QueueM QueueJob}, (some <$> p).Reaches Access.exec done (.ret r) →
      (∀ d j, p.Reaches Access.exec d (.ret j) →
        ∃ x ∈ d, releases id worker (.access i x.1 x.2 : QueueLabel ι)) →
      ∃ x ∈ done, releases id worker (.access i x.1 x.2 : QueueLabel ι) := by
    intro p h hp
    obtain ⟨d₁, d₂, j, rfl, h, -⟩ := Prog.reaches_bind_ret h
    obtain ⟨x, hx, hreleases⟩ := hp d₁ j h
    exact ⟨x, List.mem_append_left _ hx, hreleases⟩
  unfold Op.release? at hop
  split at hop
  next =>
    cases hop
    exact hmap h fun d j h => releases_of_complete h
  next =>
    cases hop
    exact hmap h fun d j h => releases_of_fail h
  next =>
    cases hop
    exact hmap h fun d j h => releases_of_wait h
  next => cases hop

/-! ### Runs -/

/-- What holds in interleavings of fresh steps. -/
structure LeaseInv (log : List (QueueLabel ι)) (c : QueuePool ι) : Prop where
  owner : OwnerInv log c.state
  held : HeldInv log c.state
  limit : LimitInv log c.state
  pause : PauseInv log c

theorem leaseInv_of_run [DecidableEq ι]
    (h : Pool.Run Access.exec (Op.prog lib) ⟨.empty, 0⟩ Fresh log c) : LeaseInv log c := by
  induction h with
  | nil =>
    refine ⟨?_, ?_, ?_, ?_, ?_⟩
    · simp [OwnerInv, QueueDb.empty]
    · simp [HeldInv]
    · simp [LimitInv]
    · simp
    · simp
  | snoc hrun hstep hfresh ih =>
    have hkeyed := (sound_of_run hrun).keyed
    have hkeyed' := ((sound_of_run hrun).step hstep).keyed
    have hlease := leaseStep_of_fresh hrun hstep hfresh
    exact ⟨ih.owner.step hkeyed hlease, ih.held.step ih.owner hkeyed hkeyed' hlease,
      ih.limit.step ih.owner hkeyed hlease, ih.pause.step hrun hstep hfresh⟩

/-- The worker that gives up a job has its last lease. -/
theorem OwnerInv.lastGrant_of_leasedBy {s : QueueState} (h : OwnerInv log s)
    (hany : s.db.jobs.any (leasedBy id worker)) :
    ∃ expires now, lastGrant id log = some (worker, expires, now) := by
  obtain ⟨j, hj, hlease⟩ := List.any_eq_true.mp hany
  obtain ⟨rfl, hstatus, howner⟩ := of_decide_eq_true hlease
  obtain ⟨worker', expires, now, hlast, howner', -⟩ := h j hj hstatus
  obtain rfl : worker' = worker := Option.some.inj (howner'.symm.trans howner)
  exact ⟨expires, now, hlast⟩

theorem owned_of_run [DecidableEq ι]
    (h : Pool.Run Access.exec (Op.prog lib) ⟨.empty, 0⟩ Fresh log c) : Owned log := by
  rintro pre x post id worker rfl hx
  obtain ⟨c₁, c₂, hrun, hstep, -⟩ := h.split
  have howner := (leaseInv_of_run hrun).owner
  unfold releases at hx
  split at hx
  next =>
    obtain ⟨rfl, rfl, hany⟩ := of_decide_eq_true hx
    cases hstep
    exact howner.lastGrant_of_leasedBy hany
  next =>
    obtain ⟨rfl, rfl, hany⟩ := of_decide_eq_true hx
    cases hstep
    exact howner.lastGrant_of_leasedBy hany
  next =>
    obtain ⟨rfl, rfl, hany⟩ := of_decide_eq_true hx
    cases hstep
    exact howner.lastGrant_of_leasedBy hany
  next => cases hx

theorem released_of_run [DecidableEq ι]
    (h : Pool.Run Access.exec (Op.prog lib) ⟨.empty, 0⟩ C log c) : Released log := by
  rintro pre i op result post id worker rfl hop
  obtain ⟨c₁, c₂, hrun, hstep, -⟩ := h.split
  cases hstep with
  | ret hcall =>
    obtain ⟨p, p', hpre, hfinish, hdone⟩ := hrun.since_start hcall
    obtain ⟨x, hx, hreleases⟩ := releases_of_reaches hop (hrun.reaches hcall)
    exact ⟨p, p', _, hpre, hfinish, hdone x hx, hreleases⟩

theorem notEarly_of_run [DecidableEq ι]
    (h : Pool.Run Access.exec (Op.prog lib) ⟨.empty, 0⟩ Fresh log c) : NotEarly log := by
  intro x hx hearly
  obtain ⟨pre, post, rfl⟩ := List.append_of_mem hx
  obtain ⟨c₁, c₂, hrun, hstep, hfresh⟩ := h.split
  unfold early at hearly
  split at hearly
  next i s id worker expires now =>
    obtain ⟨j, hj, hj'⟩ := List.any_eq_true.mp hearly
    obtain ⟨hleasable, hnext⟩ := Bool.and_eq_true_iff.mp hj'
    have hkeyed := (sound_of_run hrun).keyed
    have hlease := leaseStep_of_fresh hrun hstep hfresh
    cases hstep with
    | access hcall =>
      have hfind := (findJob_eq_some hkeyed).mpr ⟨hj, (of_decide_eq_true hleasable).1⟩
      obtain ⟨k, hk, -, hgranted, -⟩ := hlease.of_grant (grant_of_lease hkeyed hfind hleasable)
      obtain rfl : j = k := Option.some.inj (hfind.symm.trans hk)
      rw [(leaseInv_of_run hrun).owner.nextRun_le hj hgranted] at hnext
      cases hnext
  next => cases hearly

theorem drained_of_run [DecidableEq ι]
    (h : Pool.Run Access.exec (Op.prog lib) ⟨.empty, 0⟩ Fresh log c) : Drained log := by
  rintro pre x mid y post id rfl hx hy
  rw [← List.cons_append, ← List.append_assoc] at h
  obtain ⟨c₁, c₂, hrun, hstep, hfresh⟩ := h.split
  by_contra hnone
  have hpaused := (leaseInv_of_run hrun).pause.drained pre x mid rfl hx
    fun z hz hz' => hnone ⟨z, hz, hz'⟩
  obtain ⟨⟨worker, expires, now⟩, hg⟩ := Option.isSome_iff_exists.mp hy
  obtain ⟨j, -, -, hgranted, -⟩ := (leaseStep_of_fresh hrun hstep hfresh).of_grant hg
  rw [hgranted.running] at hpaused
  cases hpaused

/-- In all interleavings in which leases are granted on fresh reads, they are exclusive, are given up
by their owners only, and respect limits, backoff and pause. -/
theorem leasesSafe_of_fresh {ι : Type} [DecidableEq ι] (lib : CronLibrary)
    (log : List (QueueLabel ι)) (c : QueuePool ι)
    (h : Pool.Run Access.exec (Op.prog lib) ⟨.empty, 0⟩ Fresh log c) : LeasesSafe log c := by
  have hinv := leaseInv_of_run h
  refine ⟨?_, owned_of_run h, released_of_run h, ?_, notEarly_of_run h, drained_of_run h⟩
  · intro id worker₁ expires₁ worker₂ expires₂ now h₁ h₂ hnow hlt₁ hlt₂
    exact hinv.held.exclusive h₁ h₂ hnow hlt₁ hlt₂
  · intro pre x post scope limit now hlog hx hpost hnow
    exact (hinv.limit pre x post scope limit hlog hx hpost).2 now hnow

end Runs

/-! ### Schedules -/

/-- The run of a schedule, which lists the threads that take a step with their operations. -/
def playOps (schedule : List (List (String × Op))) : List (QueueLabel String) × QueuePool String :=
  Pool.play Access.exec (Op.prog .everyMinute) ⟨.empty, 0⟩ schedule.flatten

/-- The steps of a schedule are fresh, and do not resume the queue. -/
def freshTest (c : QueuePool String) : QueueLabel String → Bool
  | .access i s (.leaseUpdate id _ expires now) => s.db.jobs.any (leasable id now) →
      expires < 2 ^ 63 ∧ (c.calls i).all fun call => stillSo s id now call.done
  | .access _ _ (.setPaused false) => false
  | _ => true

theorem fresh_of_freshTest (log : List (QueueLabel String)) (c : QueuePool String)
    (l : QueueLabel String) (h : freshTest c l) : Fresh log c l := by
  unfold freshTest at h
  unfold Fresh
  split at h
  next => exact of_decide_eq_true h
  next => cases h
  next hlease hpaused =>
    split
    next => exact absurd rfl (hlease _ _ _ _ _ _)
    next => exact absurd rfl (hpaused _ _)
    next => trivial

/-- A worker leases a job and completes it, the other one finds nothing to do. -/
theorem leasesSafe_of_fresh_two_workers :
    let run := playOps [
      .replicate 4 ("ops", .enqueue (.plain "sync") 4),
      .replicate 3 ("ops", .setGlobalConcurrencyLimit 1),
      .replicate 7 ("a", .leaseNextAt "a" 10 5),
      .replicate 4 ("b", .leaseNextAt "b" 10 6),
      .replicate 4 ("a", .completeLeased "job_1" "a" none none 7)]
    (grant "job_1" (run.1.getD 11 (.start "" (.setPaused true)))).isSome ∧
      LeasesSafe run.1 run.2 := by
  intro run
  refine ⟨by decide +kernel, leasesSafe_of_fresh .everyMinute _ _ ?_⟩
  exact Pool.run_of_passes fresh_of_freshTest (by decide +kernel)

/-- All leases of a log are asked for by a given time. -/
def leasesBy (now : ℕ) (log : List (QueueLabel String)) : Bool :=
  log.all fun l => match l with
    | .access _ _ (.leaseUpdate _ _ _ now') => now' ≤ now
    | _ => true

theorem current_of_leasesBy {now : ℕ} {log : List (QueueLabel String)} (h : leasesBy now log) :
    Current now log := by
  intro l hl id worker expires now' hg
  have hle := List.all_eq_true.mp h l hl
  unfold grant at hg
  split at hg
  next =>
    split at hg
    next =>
      cases hg
      exact of_decide_eq_true hle
    next => cases hg
  next => cases hg

/-- The schedule in which an expiry is too large for the database. -/
def farExpiry : List (List (String × Op)) :=
  [.replicate 4 ("ops", .enqueue (.plain "sync") 4),
    .replicate 4 ("a", .leaseNextAt "a" 10 5),
    .replicate 7 ("b", .leaseNextAt "b" (2 ^ 64) 5),
    .replicate 1 ("a", .leaseNextAt "a" 10 5)]

/-- The schedule in which two workers check the limit before either of them leases. -/
def twoChecks : List (List (String × Op)) :=
  [.replicate 4 ("ops", .enqueue { JobSpec.plain "sync" with nextRunMs := some 6 } 4),
    .replicate 4 ("ops", .enqueue (.plain "sync") 4),
    .replicate 3 ("ops", .setGlobalConcurrencyLimit 1),
    .replicate 4 ("b", .leaseNextAt "b" 10 5),
    .replicate 7 ("a", .leaseNextAt "a" 10 6),
    .replicate 1 ("b", .leaseNextAt "b" 10 5)]

/-- The schedule in which a job fails between the listing and the lease of another worker. -/
def failedBetween : List (List (String × Op)) :=
  [.replicate 4 ("ops", .enqueue { JobSpec.plain "sync" with maxRetries := 1 } 4),
    .replicate 4 ("a", .leaseNextAt "a" 10 5),
    .replicate 7 ("b", .leaseNextAt "b" 10 5),
    .replicate 5 ("b", .failLeased "job_1" "b" "timeout" "f" 1000 6),
    .replicate 1 ("a", .leaseNextAt "a" 10 5)]

/-- The schedule in which a drain comes between the check and the lease of a worker. -/
def drainBetween : List (List (String × Op)) :=
  [.replicate 4 ("ops", .enqueue (.plain "sync") 4),
    .replicate 4 ("a", .leaseNextAt "a" 10 5),
    .replicate 4 ("ops", .drainActiveLeases 6),
    .replicate 1 ("a", .leaseNextAt "a" 10 5)]

/-- Without the condition none of exclusion, limits, backoff and pause is respected. -/
theorem leases_unsafe :
    (¬ ∀ (log : List (QueueLabel String)) c, Pool.Run Access.exec (Op.prog .everyMinute)
      ⟨.empty, 0⟩ (fun _ _ _ => True) log c → Exclusive log) ∧
    (¬ ∀ (log : List (QueueLabel String)) c, Pool.Run Access.exec (Op.prog .everyMinute)
      ⟨.empty, 0⟩ (fun _ _ _ => True) log c → Limited log c) ∧
    (¬ ∀ (log : List (QueueLabel String)) c, Pool.Run Access.exec (Op.prog .everyMinute)
      ⟨.empty, 0⟩ (fun _ _ _ => True) log c → NotEarly log) ∧
    ¬ ∀ (log : List (QueueLabel String)) c, Pool.Run Access.exec (Op.prog .everyMinute)
      ⟨.empty, 0⟩ (fun _ _ _ => True) log c → Drained log := by
  refine ⟨fun h => ?_, fun h => ?_, fun h => ?_, fun h => ?_⟩
  · have hb : Held "job_1" (playOps farExpiry).1 "b" u64Max :=
      ⟨_, _, _, 5, split_at _ 12 (by decide +kernel), by decide +kernel, by decide +kernel⟩
    have ha : Held "job_1" (playOps farExpiry).1 "a" 15 :=
      ⟨_, _, _, 5, split_at _ 15 (by decide +kernel), by decide +kernel, by decide +kernel⟩
    have hsame := h _ _ (Pool.run_play farExpiry.flatten) "job_1" "a" 15 "b" u64Max 5 ha hb
      (current_of_leasesBy (by decide +kernel)) (by decide) (by decide +kernel)
    exact absurd hsame.1 (by decide)
  · have hcount := h _ _ (Pool.run_play twoChecks.flatten) _ _ _ .global 1 6
      (split_at _ 9 (by decide +kernel)) (by decide +kernel) (by decide +kernel)
      (current_of_leasesBy (by decide +kernel))
    revert hcount
    decide +kernel
  · have hearly := h _ _ (Pool.run_play failedBetween.flatten)
    revert hearly
    unfold NotEarly
    decide +kernel
  · have hlog : (playOps drainBetween).1 = _ := split_at _ 11 (by decide +kernel)
    have hrest : (playOps drainBetween).1.drop 12 = _ := split_at _ 0 (by decide +kernel)
    rw [hrest] at hlog
    have hz := h _ _ (Pool.run_play drainBetween.flatten) _ _ _ _ _ "job_1" hlog
      (by decide +kernel) (by decide +kernel)
    revert hz
    decide +kernel

end Corvid.Queue
