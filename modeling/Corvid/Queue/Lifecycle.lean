import Corvid.Queue.Rows

/-!
# Terminal states and lease columns

A job that has reached a terminal state stays there, and the lease columns of a job are set exactly
while it is leased. `cancel` breaks both: it has no guard on the status and leaves the lease columns
alone. `record_loop_usage_at` leaves out one status in its own list of terminal ones.

## Main definitions

* `LeaseConsistent`, `Terminal`: the two halves of the invariant
* `Sane`: the operations that do not run into the missing guards
* `Reached`: the states of runs, one operation after another

## Main results

* `lifecycle_of_sane`: the invariant, in runs of such operations
-/

namespace Corvid.Queue

open Store

def LeaseConsistent (j : QueueJob) : Prop :=
  (j.leaseOwner ≠ none ↔ j.status = .leased) ∧ (j.leaseExpiresMs ≠ none ↔ j.status = .leased)

instance : DecidablePred LeaseConsistent := fun _ => inferInstanceAs (Decidable (_ ∧ _))

/-- The terminal statuses, of which a retry is the only way out. -/
def Terminal (status : QueueJobStatus) : Prop :=
  status = .succeeded ∨ status = .deadLettered ∨ status = .canceled ∨ status = .approvalDenied ∨
    status = .approvalExpired ∨ status = .loopBudgetExceeded ∨ status = .loopStallTerminated

instance : DecidablePred Terminal := fun _ => inferInstanceAs (Decidable (_ ∨ _))

/-- What a terminal job keeps. -/
def SameOutcome (j j' : QueueJob) : Prop :=
  j'.status = j.status ∧ j'.outputKind = j.outputKind ∧
    j'.outputFingerprint = j.outputFingerprint ∧ j'.failureKind = j.failureKind ∧
    j'.failureFingerprint = j.failureFingerprint

instance (j j' : QueueJob) : Decidable (SameOutcome j j') := inferInstanceAs (Decidable (_ ∧ _))

/-- A cancellation of a job that is neither leased nor terminal, or is canceled already, and loop
usage that does not push a terminated job over its bounds. -/
def Sane (db : QueueDb) : Op → Prop
  | .cancel id _ => ∀ j ∈ db.jobs, j.id = id →
      j.status ≠ .leased ∧ (Terminal j.status → j.status = .canceled)
  | .recordLoopUsageAt id steps wallMs spendUsd toolCalls actor now =>
      ¬ blank actor →
      db.exceedsBounds id ⟨steps, wallMs, sanitizeUsd spendUsd, toolCalls, now⟩ →
      ∀ j ∈ db.jobs, j.id = id → j.status ≠ .loopStallTerminated
  | _ => True

/-- The states that operations reach one after another, each of them allowed by `C`. -/
inductive Reached (lib : CronLibrary) (C : QueueDb → Op → Prop) : QueueState → Prop
  | init : Reached lib C ⟨.empty, 0⟩
  | step {s : QueueState} (op : Op) : Reached lib C s → C s.db op →
      Reached lib C (op.run lib s).2

theorem reached_runAll (lib : CronLibrary) (ops : List Op) :
    Reached lib (fun _ _ => True) (runAll lib ops) := by
  induction ops using List.reverseRecOn with
  | nil => exact .init
  | append_singleton ops op ih =>
    rw [runAll, List.foldl_append]
    exact .step op ih trivial

/-! ### Accesses -/

/-- The same condition on the accesses. -/
def Access.Sane (db : QueueDb) : Access → Prop
  | .insertJob job => ∃ spec id key now, job = JobSpec.job spec id key now
  | .cancelUpdate id _ => ∀ j ∈ db.jobs, j.id = id →
      j.status ≠ .leased ∧ (Terminal j.status → j.status = .canceled)
  | .recordLoopUsage id delta _ _ => db.exceedsBounds id delta →
      ∀ j ∈ db.jobs, j.id = id → j.status ≠ .loopStallTerminated
  | .failUpdate _ _ status .. => status = .retryWait ∨ status = .deadLettered
  | _ => True

theorem Op.sane_of_issues {op : Op} (hcancel : ∀ id now, op ≠ .cancel id now)
    (husage : ∀ id steps wallMs spendUsd toolCalls actor now,
      op ≠ .recordLoopUsageAt id steps wallMs spendUsd toolCalls actor now)
    (db : QueueDb) {q : Access} (h : op.Issues q) : q.Sane db := by
  cases q with
  | insertJob job => exact h
  | failUpdate => exact h
  | cancelUpdate id now => exact absurd h (hcancel id now)
  | recordLoopUsage id delta actor now =>
    obtain ⟨steps, wallMs, spendUsd, toolCalls, -, -, hop⟩ := h
    exact absurd hop (husage _ _ _ _ _ _ _)
  | _ => trivial

/-- An operation that issues none of the accesses in question. -/
theorem sane_of_issues_setPaused (db : QueueDb) {q : Access} (h : (Op.setPaused true).Issues q) :
    q.Sane db :=
  Op.sane_of_issues (by simp) (by simp) db h

theorem Op.along_sane (lib : CronLibrary) (op : Op) (s : QueueState) (h : Sane s.db op) :
    (op.prog lib).Along Access.exec (fun s q => q.Sane s.db) s := by
  have hplain : ∀ {α : Type} {p : QueueM α} (s : QueueState),
      p.All (Op.setPaused true).Issues → p.Along Access.exec (fun s q => q.Sane s.db) s :=
    fun s hp => Prog.along_of_all (fun s q => sane_of_issues_setPaused s.db) hp s
  by_cases hcancel : ∃ id now, op = .cancel id now
  · obtain ⟨id, now, rfl⟩ := hcancel
    refine ⟨h, hplain _ (Prog.all_map (p := if _ = 0 then _ else requireJob id) ?_)⟩
    exact issues_of_canIssue (all_ite_requireJob _ (Prog.all_fail _) id)
  · by_cases husage : ∃ id steps wallMs spendUsd toolCalls actor now,
        op = .recordLoopUsageAt id steps wallMs spendUsd toolCalls actor now
    · obtain ⟨id, steps, wallMs, spendUsd, toolCalls, actor, now, rfl⟩ := husage
      show Prog.Along Access.exec _ ((fun _ => none) <$>
        Queue.recordLoopUsageAt id steps wallMs spendUsd toolCalls actor now) s
      unfold Queue.recordLoopUsageAt
      by_cases hactor : blank actor
      · rw [if_pos hactor]
        trivial
      · rw [if_neg hactor]
        refine ⟨h hactor, hplain _ (Prog.all_map ?_)⟩
        generalize (Access.exec _ s).1 = r
        cases r <;> trivial
    · refine Prog.along_of_all (fun s q hq => Op.sane_of_issues ?_ ?_ s.db hq) (op.all_issues lib) s
      · exact fun id now heq => hcancel ⟨id, now, heq⟩
      · exact fun id steps wallMs spendUsd toolCalls actor now heq =>
          husage ⟨id, steps, wallMs, spendUsd, toolCalls, actor, now, heq⟩

/-! ### Rows -/

/-- A statement keeps the lease columns in step with the status. -/
theorem RowStep.leaseConsistent {db : QueueDb} {q : Access} {j j' : QueueJob}
    (h : RowStep db q j j') (hq : q.Sane db) (hj : j ∈ db.jobs) (hc : LeaseConsistent j) :
    LeaseConsistent j' := by
  cases h with
  | same => exact hc
  | cancel hid =>
    -- the lease columns are left alone, and they are null already
    have hne := (hq j hj hid).1
    have howner : j.leaseOwner = none := by simpa [hne] using hc.1
    have hexpires : j.leaseExpiresMs = none := by simpa [hne] using hc.2
    simp [LeaseConsistent, howner, hexpires]
  | fail =>
    rcases hq with rfl | rfl <;> simp [LeaseConsistent, QueueJob.release]
  | stall _ _ hstatus =>
    rcases hstatus with rfl | rfl <;> simp [LeaseConsistent, QueueJob.release]
  | _ => simp [LeaseConsistent, QueueJob.release]

theorem SameOutcome.refl (j : QueueJob) : SameOutcome j j := ⟨rfl, rfl, rfl, rfl, rfl⟩

theorem SameOutcome.trans {j j' j'' : QueueJob} (h : SameOutcome j j') (h' : SameOutcome j' j'') :
    SameOutcome j j'' :=
  ⟨h'.1.trans h.1, h'.2.1.trans h.2.1, h'.2.2.1.trans h.2.2.1, h'.2.2.2.1.trans h.2.2.2.1,
    h'.2.2.2.2.trans h.2.2.2.2⟩

/-- A statement other than that of a retry leaves a terminal job as it is. -/
theorem RowStep.sameOutcome {db : QueueDb} {q : Access} {j j' : QueueJob}
    (h : RowStep db q j j') (hq : q.Sane db) (hretry : ∀ id now, q ≠ .retryUpdate id now)
    (hj : j ∈ db.jobs) (hterm : Terminal j.status) : SameOutcome j j' := by
  cases h with
  | same => exact .refl j
  | retry => exact absurd rfl (hretry _ _)
  | cancel hid => exact ⟨((hq j hj hid).2 hterm).symm, rfl, rfl, rfl, rfl⟩
  | drain hstatus => simp [Terminal, hstatus] at hterm
  | overBudget hid husage hexceeds =>
    -- the list of terminal statuses lacks one, which the condition excludes
    have hne := hq hexceeds j hj hid
    rcases hterm with h | h | h | h | h | h | h <;> simp_all [QueueDb.isTerminalForUsage]
  | stall hid hstall =>
    rcases hterm with h | h | h | h | h | h | h <;>
      simp_all [QueueDb.isTerminalForStall, QueueDb.isTerminalForUsage]
  | lease hlease =>
    have hstatus := (of_decide_eq_true hlease).2
    rcases hstatus with h | h | ⟨h, -⟩ <;> simp [Terminal, h] at hterm
  | complete hlease => simp [Terminal, (of_decide_eq_true hlease).2.1] at hterm
  | fail hlease => simp [Terminal, (of_decide_eq_true hlease).2.1] at hterm
  | approvalWait hlease => simp [Terminal, (of_decide_eq_true hlease).2.1] at hterm
  | approve _ hstatus => simp [Terminal, hstatus] at hterm
  | deny _ hstatus => simp [Terminal, hstatus] at hterm
  | expire _ hstatus => simp [Terminal, hstatus] at hterm

/-! ### Runs -/

/-- Rows have different ids and consistent lease columns. -/
structure QueueDb.Consistent (db : QueueDb) : Prop where
  keyed : db.Keyed
  leases : ∀ j ∈ db.jobs, LeaseConsistent j

theorem QueueDb.Consistent.exec {s : QueueState} {q : Access} (h : s.db.Consistent)
    (hq : q.Sane s.db) : (q.exec s).2.db.Consistent := by
  rw [exec_db]
  refine ⟨keyed_exec h.keyed q, forall_exec h.keyed ?_ ?_⟩
  · exact fun j hj j' hstep => hstep.leaseConsistent hq hj (h.leases j hj)
  · rintro job rfl
    obtain ⟨spec, id, key, now, rfl⟩ := hq
    simp [LeaseConsistent, JobSpec.job]

theorem Reached.consistent {lib : CronLibrary} {s : QueueState} (h : Reached lib Sane s) :
    s.db.Consistent := by
  induction h with
  | init => exact ⟨List.nodup_nil, by simp [QueueDb.empty]⟩
  | step _ _ hop ih =>
    exact Prog.run_inv (I := fun s => s.db.Consistent) (fun s q hs hq => hs.exec hq)
      (Op.along_sane lib _ _ hop) ih

/-- No access of an operation other than `retryJob` is that of a retry. -/
theorem Op.along_not_retry (lib : CronLibrary) {op : Op} (h : ∀ id now, op ≠ .retryJob id now)
    (s : QueueState) :
    (op.prog lib).Along Access.exec (fun _ q => ∀ id now, q ≠ .retryUpdate id now) s := by
  refine Prog.along_of_all (fun s q hq id now heq => ?_) (op.all_issues lib) s
  subst heq
  exact h id now hq

/-- In runs of sane operations the lease columns are set exactly while a job is leased, and a terminal
job keeps its status and its fingerprints until it is retried. -/
theorem lifecycle_of_sane (lib : CronLibrary) (s : QueueState) (h : Reached lib Sane s) :
    (∀ j ∈ s.db.jobs, LeaseConsistent j) ∧
      ∀ op, Sane s.db op → (∀ id now, op ≠ .retryJob id now) →
        ∀ id j, findJob id s.db.jobs = some j → Terminal j.status →
          ∃ j', findJob id (op.run lib s).2.db.jobs = some j' ∧ SameOutcome j j' := by
  refine ⟨h.consistent.leases, fun op hop hretry id j hj hterm => ?_⟩
  -- the row under this id, from access to access
  let I (s : QueueState) := s.db.Keyed ∧ ∃ j', findJob id s.db.jobs = some j' ∧ SameOutcome j j'
  have hstep : ∀ (s : QueueState) (q : Access), I s → (q.Sane s.db ∧ ∀ id now, q ≠ .retryUpdate id now) →
      I (q.exec s).2 := by
    rintro s q ⟨hkeyed, j', hj', hsame⟩ ⟨hq, hq'⟩
    obtain ⟨j'', hrow, hj''⟩ := findJob_exec hkeyed hj' q
    have hmem := ((findJob_eq_some hkeyed).mp hj').1
    have hterm' : Terminal j'.status := hsame.1.symm ▸ hterm
    refine ⟨?_, j'', ?_, hsame.trans (hrow.sameOutcome hq hq' hmem hterm')⟩
    · rw [exec_db]
      exact keyed_exec hkeyed q
    · rw [exec_db]
      exact hj''
  have hinit : I s := ⟨h.consistent.keyed, j, hj, .refl j⟩
  have halong := Prog.Along.and (Op.along_sane lib op s hop) (Op.along_not_retry lib hretry s)
  exact (Prog.run_inv hstep halong hinit).2

theorem lifecycle_of_sane_drain :
    let s := runAll .everyMinute [.enqueue (.plain "sync") 5, .runOneWithOutput none (some "f") 6]
    ∃ j j', findJob "job_1" s.db.jobs = some j ∧ j.status = .succeeded ∧
      findJob "job_1" ((Op.drainActiveLeases 7).run .everyMinute s).2.db.jobs = some j' ∧
      SameOutcome j j' := by
  intro s
  have hs : Reached .everyMinute Sane s :=
    .step (.runOneWithOutput none (some "f") 6)
      (.step (.enqueue (.plain "sync") 5) .init trivial) trivial
  obtain ⟨j, hj, hstatus⟩ : ∃ j, findJob "job_1" s.db.jobs = some j ∧ j.status = .succeeded := by
    decide +kernel
  obtain ⟨j', hj', hsame⟩ := (lifecycle_of_sane _ s hs).2 (.drainActiveLeases 7) trivial (by simp)
    "job_1" j hj (.inl hstatus)
  exact ⟨j, j', hj, hstatus, hj', hsame⟩

/-- A canceled job keeps its lease; cancellation undoes a success; usage rewrites the failure of a
job that was terminated. -/
theorem lifecycle_fails :
    (¬ ∀ s, Reached .everyMinute (fun _ _ => True) s → ∀ j ∈ s.db.jobs, LeaseConsistent j) ∧
      (¬ ∀ s, Reached .everyMinute (fun _ _ => True) s → ∀ id now j,
        findJob id s.db.jobs = some j → Terminal j.status →
          ∃ j', findJob id ((Op.cancel id now).run .everyMinute s).2.db.jobs = some j' ∧
            SameOutcome j j') ∧
      ¬ ∀ s, Reached .everyMinute (fun _ _ => True) s →
        ∀ id steps wallMs spendUsd toolCalls actor now j,
        findJob id s.db.jobs = some j → Terminal j.status →
          ∃ j', findJob id ((Op.recordLoopUsageAt id steps wallMs spendUsd toolCalls actor now).run
            .everyMinute s).2.db.jobs = some j' ∧ SameOutcome j j' := by
  have reached (ops : List Op) : Reached .everyMinute (fun _ _ => True) (runAll .everyMinute ops) :=
    reached_runAll _ ops
  refine ⟨fun h => ?_, fun h => ?_, fun h => ?_⟩
  · have hj := h _ (reached
      [.enqueue (.plain "sync") 5, .leaseNextAt "worker" 10 6, .cancel "job_1" 7])
    revert hj
    decide +kernel
  · have hs := h _ (reached
      [.enqueue (.plain "sync") 5, .runOneWithOutput none (some "f") 6]) "job_1" 7
    revert hs
    decide +kernel
  · have hs := h _ (reached
      [.enqueue (.plain "sync") 5, .setStallPolicy "job_1" 1 .terminate 6,
        .checkStallAt "job_1" "ops" 9, .setLoopLimits "job_1" ⟨some 1, none, none, none, 9⟩])
      "job_1" 2 0 none 0 "ops" 9
    revert hs
    decide +kernel

end Corvid.Queue
