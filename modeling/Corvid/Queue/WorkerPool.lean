import Corvid.Queue.Retries

/-!
# Worker pools

A worker of a pool leases a job, executes it, and completes or fails it under its own name. Names are
made of the index of a worker in its pool only, so workers of different pools share them, and a lease
is known by the name of its owner alone.

## Main definitions

* `workerIteration`: an iteration of the loop of a worker
* `PoolOp`, `PoolOp.prog`: what the threads over a database do
* `SettledByHolder`: a job is settled only by the run that holds the last lease on it
* `Unshared`: no worker leases a job that a worker of the same name is still running

## Main results

* `settledByHolder_of_unshared`: in runs of such steps jobs are settled by the holders of their leases
-/

namespace Corvid.Queue

open Store

inductive JobOutcome where
  | success (outputKind outputFingerprint : Option String)
  | failure (failureKind failureFingerprint : String) (baseDelayMs : ℕ)
  | skip
deriving DecidableEq, Repr

/-- The name that a pool gives to its worker with an index. -/
def workerId (index : ℕ) : String := s!"worker-{index}"

/-- An iteration of `worker_loop`. The executor runs outside of the database, and the clock is read
for the lease and again at the end. A lease that is skipped or whose execution has failed is left to
expire. -/
def workerIteration (index leaseTtlMs : ℕ) (executor : QueueJob → Except RuntimeError JobOutcome)
    (leasedMs settledMs : ℕ) : QueueM (Option QueueJob) := do
  match ← leaseNextAt (workerId index) leaseTtlMs leasedMs with
  | none => return none
  | some job =>
    match executor job with
    | .ok (.success outputKind outputFingerprint) =>
      some <$> completeLeased job.id (workerId index) outputKind outputFingerprint settledMs
    | .ok (.failure failureKind failureFingerprint baseDelayMs) =>
      some <$> failLeased job.id (workerId index) failureKind failureFingerprint baseDelayMs settledMs
    | .ok .skip => return none
    | .error err => .fail err

/-- A worker task, by its pool and its index, or a client that enqueues jobs. -/
inductive Task (P : Type) where
  | worker (pool : P) (index : ℕ)
  | client (n : ℕ)
deriving DecidableEq

inductive PoolOp where
  | iterate (index leaseTtlMs : ℕ) (executor : QueueJob → Except RuntimeError JobOutcome)
      (leasedMs settledMs : ℕ)
  | client (op : Op)

def PoolOp.prog (lib : CronLibrary) : PoolOp → QueueM (Option QueueJob)
  | iterate index leaseTtlMs executor leasedMs settledMs =>
    workerIteration index leaseTtlMs executor leasedMs settledMs
  | client op => op.prog lib

abbrev TaskLabel (P : Type) :=
  Pool.Label (Task P) QueueState Access RuntimeError (Option QueueJob) PoolOp

abbrev TaskPool (P : Type) :=
  Pool (Task P) QueueState Access.Reply RuntimeError (Option QueueJob) PoolOp

section Events

variable {P : Type} (id : String)

/-- An access that leases the job. -/
def leasesRow (x : QueueState × Access) : Bool :=
  match x.2 with
  | .leaseUpdate id' _ _ now => id' = id ∧ x.1.db.jobs.any (leasable id now)
  | _ => false

/-- The task that an entry leases the job to. -/
def grantee : TaskLabel P → Option (Task P)
  | .access i s q => if leasesRow id (s, q) then some i else none
  | _ => none

/-- An access of `complete_leased` or `fail_leased` that changes the row of the job. -/
def settlesRow (x : QueueState × Access) : Bool :=
  match x.2 with
  | .completeUpdate id' worker .. | .failUpdate id' worker .. =>
    id' = id ∧ x.1.db.jobs.any (leasedBy id worker)
  | _ => false

/-- The task that an entry settles the job for. -/
def settler : TaskLabel P → Option (Task P)
  | .access i s q => if settlesRow id (s, q) then some i else none
  | _ => none

end Events

/-- A job is settled by the task with the last lease on it, in the run that has taken the lease. -/
def SettledByHolder {P : Type} (log : List (TaskLabel P)) : Prop :=
  ∀ pre x post id i, log = pre ++ x :: post → settler id x = some i →
    ∃ p g m, pre = p ++ g :: m ∧ grantee id g = some i ∧ (∀ y ∈ m, grantee id y = none) ∧
      ∀ op r, .finish i op r ∉ m

def Op.enqueues : Op → Bool
  | .enqueue .. | .enqueueIdempotent .. => true
  | _ => false

/-- Workers run the loop under their own index, and clients enqueue jobs. -/
def Task.Runs {P : Type} : Task P → PoolOp → Prop
  | worker _ index, .iterate index' .. => index' = index
  | client _, .client op => op.enqueues
  | _, _ => False

def Assigned {P : Type} (_ : List (TaskLabel P)) (_ : TaskPool P) : TaskLabel P → Prop
  | .start i op => i.Runs op
  | _ => True

def Task.index? {P : Type} : Task P → Option ℕ
  | worker _ index => some index
  | client _ => none

/-- The task has leased the job and has not tried to settle it yet. -/
def Running {P : Type} (c : TaskPool P) (id : String) (i : Task P) : Prop :=
  ∃ call, c.calls i = some call ∧ (∃ x ∈ call.done, leasesRow id x) ∧
    ∀ x ∈ call.done, ¬ x.2.settles

/-- No job is leased while another task with the same index is still running it. -/
def Unshared {P : Type} (c : TaskPool P) : TaskLabel P → Prop
  | .access i s q => ∀ id i' index, leasesRow id (s, q) → i' ≠ i → i.index? = some index →
      i'.index? = some index → ¬ Running c id i'
  | _ => True

/-! ### The run of a worker -/

section Programs

variable {worker id : String} {done : List (QueueState × Access)} {q : Access}

theorem leases_of_leaseFirst {expires now : ℕ} {candidates : List QueueJob} {job : QueueJob}
    (h : (leaseFirst worker expires now candidates).Reaches Access.exec done (.ret (some job))) :
    ∃ x ∈ done, leasesRow job.id x := by
  induction candidates generalizing done with
  | nil => cases Prog.reaches_ret_ret h
  | cons j candidates ih =>
    obtain ⟨s₁, d₁, rfl, hallowed⟩ := Prog.reaches_query_bind_ret.mp h
    split at hallowed
    next =>
      obtain ⟨s₂, d₂, rfl, hupdated⟩ := Prog.reaches_query_bind_ret.mp hallowed
      split at hupdated
      next hone =>
        -- the job is read again right after the update
        obtain ⟨s₃, rfl, hjob⟩ := Prog.reaches_query_ret.mp hupdated
        have hid : job.id = j.id := by simpa using List.find?_some hjob
        have hcount : s₂.db.jobs.countP (leasable j.id now) = 1 := hone
        have hany := any_of_countP_ne_zero (hcount ▸ Nat.one_ne_zero)
        rw [hid]
        exact ⟨_, List.mem_cons_of_mem _ List.mem_cons_self, decide_eq_true ⟨rfl, hany⟩⟩
      next =>
        obtain ⟨x, hx, hleases⟩ := ih hupdated
        exact ⟨x, List.mem_cons_of_mem _ (List.mem_cons_of_mem _ hx), hleases⟩
    next =>
      obtain ⟨x, hx, hleases⟩ := ih hallowed
      exact ⟨x, List.mem_cons_of_mem _ hx, hleases⟩

/-- A worker gets a job that it has leased. -/
theorem leases_of_leaseNextAt {ttlMs now : ℕ} {job : QueueJob}
    (h : (leaseNextAt worker ttlMs now).Reaches Access.exec done (.ret (some job))) :
    ∃ x ∈ done, leasesRow job.id x := by
  obtain ⟨s, d, rfl, hpaused⟩ := Prog.reaches_query_bind_ret.mp h
  split at hpaused
  next => cases Prog.reaches_ret_ret hpaused
  next =>
    split at hpaused
    next => exact absurd hpaused Prog.not_reaches_fail_ret
    next =>
      obtain ⟨s', d', rfl, hfirst⟩ := Prog.reaches_query_bind_ret.mp hpaused
      obtain ⟨x, hx, hleases⟩ := leases_of_leaseFirst hfirst
      exact ⟨x, List.mem_cons_of_mem _ (List.mem_cons_of_mem _ hx), hleases⟩

/-- A worker settles the job that it has leased, under its own name, and only once. -/
theorem settles_of_completeLeased {outputKind outputFingerprint : Option String} {now : ℕ}
    {k : q.Reply → QueueM QueueJob}
    (h : (completeLeased id worker outputKind outputFingerprint now).Reaches Access.exec done
      (.call q k)) (hq : q.settles) :
    done = [] ∧ q = .completeUpdate id worker outputKind outputFingerprint now := by
  cases done with
  | nil =>
    cases Prog.reaches_query_bind_nil.mp h
    exact ⟨rfl, rfl⟩
  | cons x done =>
    obtain ⟨-, hrest⟩ := Prog.reaches_query_bind_cons.mp h
    exact absurd hq (Prog.Reaches.all (all_not_settles_found _ id worker) hrest).1

theorem settles_of_failLeased {failureKind failureFingerprint : String} {base now : ℕ}
    {k : q.Reply → QueueM QueueJob}
    (h : (failLeased id worker failureKind failureFingerprint base now).Reaches Access.exec done
      (.call q k)) (hq : q.settles) :
    ∃ s status attempts nextRunMs, done = [(s, .getJob id)] ∧ q = .failUpdate id worker status attempts
      failureKind failureFingerprint nextRunMs now := by
  cases done with
  | nil =>
    cases h
    cases hq
  | cons x done =>
    obtain ⟨s, j, hj, rfl, hbody⟩ := reaches_requireJob_bind h (by simp)
    split at hbody
    next => cases done <;> cases hbody
    next =>
      cases done with
      | nil =>
        cases Prog.reaches_query_bind_nil.mp hbody
        exact ⟨s, _, _, _, rfl, rfl⟩
      | cons y done =>
        obtain ⟨-, hrest⟩ := Prog.reaches_query_bind_cons.mp hbody
        exact absurd hq (Prog.Reaches.all (all_not_settles_found _ id worker) hrest).1

/-- A worker has leased the job that it is about to settle, and has not settled anything before. -/
theorem settles_of_workerIteration {index ttlMs leasedMs settledMs : ℕ}
    {executor : QueueJob → Except RuntimeError JobOutcome} {k : q.Reply → QueueM (Option QueueJob)}
    (h : (workerIteration index ttlMs executor leasedMs settledMs).Reaches Access.exec done
      (.call q k)) (hq : q.settles) :
    ∃ id, (∃ x ∈ done, leasesRow id x) ∧ (∀ x ∈ done, ¬ x.2.settles) ∧
      ∀ id' s, settlesRow id' (s, q) → id = id' ∧ s.db.jobs.any (leasedBy id' (workerId index)) := by
  have hlease := all_not_settles_leaseNextAt (workerId index) ttlMs leasedMs
  rcases Prog.reaches_bind h with ⟨p', hp', hcall⟩ | ⟨d₁, d₂, job?, rfl, hd₁, hd₂⟩
  · cases p' with
    | fail err => cases hcall
    | call q' k' =>
      cases hcall
      exact absurd hq (Prog.Reaches.all hlease hp').1
    | ret job? =>
      cases job? with
      | none => cases hcall
      | some job =>
        dsimp only [Prog.ret_bind] at hcall
        split at hcall
        next =>
          cases hcall
          refine ⟨job.id, leases_of_leaseNextAt hp', Prog.Reaches.forall_done hlease hp', ?_⟩
          exact fun id' s hrow => ⟨(of_decide_eq_true hrow).1,
            (of_decide_eq_true hrow).1 ▸ (of_decide_eq_true hrow).2⟩
        next =>
          cases hcall
          cases hq
        next => cases hcall
        next => cases hcall
  · cases job? with
    | none => exact absurd hd₂ Prog.not_reaches_ret_call
    | some job =>
      have hdone := Prog.Reaches.forall_done hlease hd₁
      obtain ⟨x, hx, hleases⟩ := leases_of_leaseNextAt hd₁
      have hleased : ∃ x ∈ d₁ ++ d₂, leasesRow job.id x := ⟨x, List.mem_append_left _ hx, hleases⟩
      dsimp only at hd₂
      split at hd₂
      next =>
        obtain ⟨k', hsettle, -⟩ := Prog.reaches_map_call hd₂
        obtain ⟨rfl, rfl⟩ := settles_of_completeLeased hsettle hq
        refine ⟨job.id, hleased, by simpa using hdone, fun id' s hrow => ?_⟩
        obtain ⟨rfl, hany⟩ := of_decide_eq_true hrow
        exact ⟨rfl, hany⟩
      next =>
        obtain ⟨k', hsettle, -⟩ := Prog.reaches_map_call hd₂
        obtain ⟨s₀, status, attempts, nextRunMs, rfl, rfl⟩ := settles_of_failLeased hsettle hq
        refine ⟨job.id, hleased, fun y hy => ?_, fun id' s hrow => ?_⟩
        · rcases List.mem_append.mp hy with hy | hy
          · exact hdone y hy
          · rw [List.mem_singleton.mp hy]
            nofun
        · obtain ⟨rfl, hany⟩ := of_decide_eq_true hrow
          exact ⟨rfl, hany⟩
      next => exact absurd hd₂ Prog.not_reaches_ret_call
      next => cases d₂ <;> cases hd₂

/-- The accesses of a worker are those of a lease under its name, as far as they change a job and do
not settle it. -/
theorem all_issues_workerIteration (index ttlMs leasedMs settledMs : ℕ)
    (executor : QueueJob → Except RuntimeError JobOutcome) :
    (workerIteration index ttlMs executor leasedMs settledMs).All
      (Op.leaseNextAt (workerId index) ttlMs leasedMs).Issues := by
  refine issues_of_canIssue (Prog.all_bind (all_leaseNextAt _ rfl) fun job? => ?_)
  cases job? with
  | none => trivial
  | some job =>
    dsimp only
    split
    next => exact Prog.all_map (all_completeLeased _ _ _ _ _ _)
    next => exact Prog.all_map (all_failLeased _ _ _ _ _ _ _)
    next => trivial
    next => trivial

end Programs

/-! ### Holders of leases -/

theorem workerId_injective : Function.Injective workerId :=
  Text.append_toString_injective "worker-"

def lastGrantee {P : Type} (id : String) (log : List (TaskLabel P)) : Option (Task P) :=
  (log.filterMap (grantee id)).getLast?

theorem lastGrantee_snoc {P : Type} (id : String) (log : List (TaskLabel P)) (l : TaskLabel P) :
    lastGrantee id (log ++ [l]) = (grantee id l).or (lastGrantee id log) := by
  unfold lastGrantee
  rw [List.filterMap_append]
  cases hl : grantee id l <;> simp [hl]

/-- Only a lease puts a job into the hands of a worker. -/
theorem leasedBy_of_exec {s : QueueState} {q : Access} {op : Op} {id worker : String}
    (hkeyed : s.db.Keyed) (hissues : op.Issues q) (hq : ¬ leasesRow id (s, q))
    (h : (q.exec s).2.db.jobs.any (leasedBy id worker)) : s.db.jobs.any (leasedBy id worker) := by
  obtain ⟨j, hj, hlease⟩ := List.any_eq_true.mp h
  refine List.any_eq_true.mpr ⟨j, ?_, hlease⟩
  obtain ⟨hid, hstatus, -⟩ := of_decide_eq_true hlease
  by_cases hgrant : ∃ id' w e n, q = .leaseUpdate id' w e n ∧ s.db.jobs.any (leasable id' n)
  · -- another job is leased
    obtain ⟨id', w, e, n, rfl, hany⟩ := hgrant
    have hne : id' ≠ id := fun heq => hq (decide_eq_true ⟨heq, heq ▸ hany⟩)
    obtain ⟨j₀, hj₀, rfl⟩ := List.mem_map.mp hj
    by_cases hleasable : leasable id' n j₀
    · rw [if_pos hleasable] at hid
      exact absurd ((of_decide_eq_true hleasable).1.symm.trans hid) hne
    · rw [if_neg hleasable]
      exact hj₀
  · refine mem_of_exec_leased hkeyed hissues ?_ hj hstatus
    exact fun id' w e n heq hany => hgrant ⟨id', w, e, n, heq, hany⟩

/-- The owner after a lease. -/
theorem owner_of_leases {s : QueueState} {id id' worker w : String} {expires now : ℕ}
    (hkeyed : s.db.Keyed) (hq : leasesRow id (s, .leaseUpdate id' w expires now))
    (h : (Access.exec (.leaseUpdate id' w expires now) s).2.db.jobs.any (leasedBy id worker)) :
    w = worker := by
  obtain ⟨rfl, hany⟩ := of_decide_eq_true hq
  obtain ⟨j, hj, hleasable⟩ := List.any_eq_true.mp hany
  obtain ⟨j', hj', hlease⟩ := List.any_eq_true.mp h
  obtain ⟨hid, -, howner⟩ := of_decide_eq_true hlease
  obtain ⟨j₀, hj₀, rfl⟩ := List.mem_map.mp hj'
  by_cases hrow : leasable id' now j₀
  · rw [if_pos hrow] at howner
    exact Option.some.inj howner
  · -- ids are unique, so this row is the one that is leased
    rw [if_neg hrow] at hid
    have hfind := (findJob_eq_some hkeyed).mpr ⟨hj₀, hid⟩
    have hfind' := (findJob_eq_some hkeyed).mpr ⟨hj, (of_decide_eq_true hleasable).1⟩
    obtain rfl := Option.some.inj (hfind.symm.trans hfind')
    exact absurd hleasable hrow

section Runs

variable {P : Type} {lib : CronLibrary}

theorem lease?_of_enqueues {op : Op} (h : op.enqueues) : op.lease? = none := by
  cases op <;> simp_all [Op.enqueues, Op.lease?]

/-- The accesses of a task: those of a lease under its name, or of an enqueue. -/
theorem issues_of_runs {i : Task P} {op : PoolOp} (h : i.Runs op) {done : List (QueueState × Access)}
    {q : Access} {k : q.Reply → QueueM (Option QueueJob)}
    (hreaches : (op.prog lib).Reaches Access.exec done (.call q k)) :
    ∃ op' : Op, op'.Issues q ∧ ∀ worker ttlMs now, op'.lease? = some (worker, ttlMs, now) →
      ∃ index, i.index? = some index ∧ worker = workerId index := by
  cases i with
  | worker p index =>
    cases op with
    | client op => exact h.elim
    | iterate index' ttlMs executor leasedMs settledMs =>
      obtain rfl : index' = index := h
      refine ⟨_, (Prog.Reaches.all (all_issues_workerIteration _ _ _ _ _) hreaches).1, ?_⟩
      intro worker ttlMs now hlease
      exact ⟨index', rfl, (Prod.mk.inj (Option.some.inj hlease)).1.symm⟩
  | client n =>
    cases op with
    | iterate => exact h.elim
    | client op =>
      have hop : op.enqueues := h
      refine ⟨op, (Prog.Reaches.all (op.all_issues lib) hreaches).1, fun worker ttlMs now hlease => ?_⟩
      rw [lease?_of_enqueues hop] at hlease
      cases hlease

/-- A task settles a job in a run that has leased the job and not settled anything yet. -/
theorem running_of_settles {i : Task P} {op : PoolOp} (h : i.Runs op)
    {done : List (QueueState × Access)} {q : Access} {k : q.Reply → QueueM (Option QueueJob)}
    (hreaches : (op.prog lib).Reaches Access.exec done (.call q k)) {id : String} {s : QueueState}
    (hrow : settlesRow id (s, q)) :
    ∃ index, i.index? = some index ∧ s.db.jobs.any (leasedBy id (workerId index)) ∧
      (∃ x ∈ done, leasesRow id x) ∧ ∀ x ∈ done, ¬ x.2.settles := by
  have hsettles : q.settles := by
    cases q with
    | completeUpdate => rfl
    | failUpdate => rfl
    | _ => cases hrow
  cases i with
  | worker p index =>
    cases op with
    | client op => exact h.elim
    | iterate index' ttlMs executor leasedMs settledMs =>
      obtain rfl : index' = index := h
      obtain ⟨id', hleases, hunsettled, hid⟩ := settles_of_workerIteration hreaches hsettles
      obtain ⟨rfl, hany⟩ := hid id s hrow
      exact ⟨index', rfl, hany, hleases, hunsettled⟩
  | client n =>
    cases op with
    | iterate => exact h.elim
    | client op =>
      have hop : op.enqueues := h
      have hall : (op.prog lib).All fun q => ¬ q.settles := by
        cases op with
        | enqueue spec now => exact Prog.all_map (all_not_settles_enqueueTypedAt spec now)
        | enqueueIdempotent spec key now =>
          exact Prog.all_map (all_not_settles_enqueueTypedIdempotent spec key now)
        | _ => cases hop
      exact absurd hsettles (Prog.Reaches.all hall hreaches).1

variable [DecidableEq P]
  {C : List (TaskLabel P) → TaskPool P → TaskLabel P → Prop} {log : List (TaskLabel P)}
  {c c' : TaskPool P} {l : TaskLabel P}

theorem keyed_of_tasks (h : Pool.Run Access.exec (PoolOp.prog lib) ⟨.empty, 0⟩ C log c) :
    c.state.db.Keyed := by
  induction h with
  | nil => exact List.nodup_nil
  | snoc _ hstep _ ih =>
    cases hstep with
    | access =>
      rw [exec_db]
      exact keyed_exec ih _
    | _ => exact ih

theorem runs_of_run (hC : ∀ log c l, C log c l → Assigned log c l)
    (h : Pool.Run Access.exec (PoolOp.prog lib) ⟨.empty, 0⟩ C log c) {i : Task P}
    {call : Call QueueState Access.Reply RuntimeError (Option QueueJob) PoolOp}
    (hcall : c.calls i = some call) : i.Runs call.op := by
  induction h generalizing call with
  | nil => cases hcall
  | snoc _ hstep hallowed ih =>
    rcases hstep.calls hcall with ⟨hold, -⟩ | ⟨op, rfl, rfl⟩ | ⟨op, done, q, k, hold, rfl, -⟩
    · exact ih hold
    · exact hC _ _ _ hallowed
    · have hruns := ih hold
      exact hruns

/-- A task that runs a job which is leased under its name has the last lease on it. -/
def HolderInv (log : List (TaskLabel P)) (c : TaskPool P) : Prop :=
  ∀ id i index, Running c id i → i.index? = some index →
    c.state.db.jobs.any (leasedBy id (workerId index)) → lastGrantee id log = some i

theorem Running.of_step (hstep : Pool.Step Access.exec (PoolOp.prog lib) c l c') {id : String}
    {i : Task P} (h : Running c' id i) :
    Running c id i ∨ ∃ s q, l = .access i s q ∧ leasesRow id (s, q) := by
  obtain ⟨call, hcall, ⟨x, hx, hleases⟩, hunsettled⟩ := h
  rcases hstep.calls hcall with ⟨hold, -⟩ | ⟨op, rfl, -⟩ | ⟨op, done, q, k, hold, rfl, rfl⟩
  · exact .inl ⟨call, hold, ⟨x, hx, hleases⟩, hunsettled⟩
  · exact absurd hx List.not_mem_nil
  · rcases List.mem_append.mp hx with hx | hx
    · refine .inl ⟨_, hold, ⟨x, hx, hleases⟩, fun y hy => ?_⟩
      exact hunsettled y (List.mem_append_left _ hy)
    · obtain rfl := List.mem_singleton.mp hx
      exact .inr ⟨_, _, rfl, hleases⟩

theorem HolderInv.step (hC : ∀ log c l, C log c l → Assigned log c l ∧ Unshared c l)
    (hrun : Pool.Run Access.exec (PoolOp.prog lib) ⟨.empty, 0⟩ C log c)
    (hstep : Pool.Step Access.exec (PoolOp.prog lib) c l c') (hallowed : C log c l)
    (h : HolderInv log c) : HolderInv (log ++ [l]) c' := by
  intro id i index hrunning hindex hany
  rw [lastGrantee_snoc]
  rcases hrunning.of_step hstep with hbefore | ⟨s, q, rfl, hleases⟩
  · cases hstep with
    | @access i₀ op done q k hbusy =>
      have hkeyed := keyed_of_tasks hrun
      obtain ⟨op', hissues, hname⟩ := issues_of_runs
        (runs_of_run (fun _ _ _ hl => (hC _ _ _ hl).1) hrun hbusy) (hrun.reaches hbusy)
      by_cases hleases : leasesRow id (c.state, q)
      · by_cases hi : i = i₀
        · subst hi
          simp [grantee, hleases]
        · -- the lease goes to another task, which has another name
          cases q with
          | leaseUpdate id' w expires now =>
            obtain ⟨ttlMs, hlease, -⟩ := hissues
            obtain ⟨index', hindex', rfl⟩ := hname _ _ _ hlease
            have hsame := workerId_injective (owner_of_leases hkeyed hleases hany)
            exact absurd hbefore
              ((hC _ _ _ hallowed).2 id i index hleases hi (hsame ▸ hindex') hindex)
          | _ => cases hleases
      · have hlast := h id i index hbefore hindex (leasedBy_of_exec hkeyed hissues hleases hany)
        simp [grantee, hleases, hlast]
    | start => exact h id i index hbefore hindex hany
    | ret => exact h id i index hbefore hindex hany
    | fail => exact h id i index hbefore hindex hany
  · simp [grantee, hleases]

theorem holderInv_of_run (hC : ∀ log c l, C log c l → Assigned log c l ∧ Unshared c l)
    (h : Pool.Run Access.exec (PoolOp.prog lib) ⟨.empty, 0⟩ C log c) : HolderInv log c := by
  induction h with
  | nil => rintro id i index ⟨call, ⟨⟩, -⟩
  | snoc hrun hstep hallowed ih => exact ih.step hC hrun hstep hallowed

/-- In runs in which no job is leased while another worker of the same name is still running it, a job
is settled only by the run that holds the last lease on it. -/
theorem settledByHolder_of_unshared (lib : CronLibrary) (log : List (TaskLabel P)) (c : TaskPool P)
    (h : Pool.Run Access.exec (PoolOp.prog lib) ⟨.empty, 0⟩
      (fun log c l => Assigned log c l ∧ Unshared c l) log c) : SettledByHolder log := by
  rintro pre x post id i rfl hsettler
  obtain ⟨c₁, c₂, hrun, hstep, -⟩ := h.split
  cases hstep with
  | start => cases hsettler
  | ret => cases hsettler
  | fail => cases hsettler
  | access hbusy =>
    obtain ⟨hrow, hi⟩ := Option.ite_none_right_eq_some.mp hsettler
    obtain rfl := Option.some.inj hi
    obtain ⟨index, hindex, hany, ⟨x, hx, hleases⟩, hunsettled⟩ := running_of_settles
      (runs_of_run (fun _ _ _ hl => hl.1) hrun hbusy) (hrun.reaches hbusy) hrow
    have hlast := holderInv_of_run (fun _ _ _ hl => hl) hrun id _ index
      ⟨_, hbusy, ⟨x, hx, hleases⟩, hunsettled⟩ hindex hany
    obtain ⟨p, g, m, rfl, hg, hm⟩ := exists_last hlast
    refine ⟨p, g, m, rfl, hg, hm, fun op r hmem => ?_⟩
    -- the task has leased the job since its start, and has not finished since then
    obtain ⟨p₀, u, hpre, hfinish, hdone⟩ := hrun.since_start hbusy
    refine hfinish op r (mem_of_last (P := fun y => grantee id y ≠ none) hpre.symm
      ⟨_, hdone x hx, ?_⟩ (fun y hy => not_not.mpr (hm y hy)) _ hmem)
    simp [grantee, hleases]

/-- The worker with an index belongs to a given pool. -/
def Separate (pool : ℕ → P) : TaskLabel P → Prop
  | .start (.worker p index) _ => p = pool index
  | _ => True

/-- Pools that have no index in common, such as a single pool, meet the condition. -/
theorem unshared_of_separate (pool : ℕ → P)
    (h : Pool.Run Access.exec (PoolOp.prog lib) ⟨.empty, 0⟩
      (fun log c l => Assigned log c l ∧ Separate pool l) log c) :
    Pool.Run Access.exec (PoolOp.prog lib) ⟨.empty, 0⟩
      (fun log c l => Assigned log c l ∧ Unshared c l) log c := by
  suffices hboth : Pool.Run Access.exec (PoolOp.prog lib) ⟨.empty, 0⟩
      (fun log c l => Assigned log c l ∧ Unshared c l) log c ∧
      ∀ p index call, c.calls (.worker p index) = some call → p = pool index from hboth.1
  induction h with
  | nil => exact ⟨.nil, fun _ _ _ hcall => nomatch hcall⟩
  | @snoc log c c' l hrun hstep hallowed ih =>
    obtain ⟨hrun', hpool⟩ := ih
    refine ⟨.snoc hrun' hstep ⟨hallowed.1, ?_⟩, fun p index call hcall => ?_⟩
    · cases hstep with
      | @access i op done q k hbusy =>
        rintro id i' index - hne hindex hindex' ⟨call, hcall, -⟩
        cases i with
        | client => cases hindex
        | worker p =>
          cases i' with
          | client => cases hindex'
          | worker p' =>
            obtain rfl := Option.some.inj hindex
            obtain rfl := Option.some.inj hindex'
            rw [hpool _ _ _ hbusy, hpool _ _ _ hcall] at hne
            exact hne rfl
      | _ => trivial
    · rcases hstep.calls hcall with ⟨hold, -⟩ | ⟨op, rfl, rfl⟩ | ⟨op, done, q, k, hold, rfl, -⟩
      · exact hpool p index _ hold
      · exact hallowed.2
      · exact hpool p index _ hold

end Runs

/-! ### Schedules -/

def playTasks (schedule : List (List (Task String × PoolOp))) :
    List (TaskLabel String) × TaskPool String :=
  Pool.play Access.exec (PoolOp.prog .everyMinute) ⟨.empty, 0⟩ schedule.flatten

/-- An iteration of a worker whose executor succeeds with a fingerprint. -/
def succeeding (index : ℕ) (fingerprint : String) (leasedMs settledMs : ℕ) : PoolOp :=
  .iterate index 10 (fun _ => .ok (.success none (some fingerprint))) leasedMs settledMs

/-- The lease of a worker expires, a worker of another pool takes the job over, and the first one tries
to complete it before the second one does. -/
def takenOver (index : ℕ) : List (List (Task String × PoolOp)) :=
  [.replicate 4 (.client 0, .client (.enqueue (.plain "sync") 4)),
    .replicate 6 (.worker "a" 0, succeeding 0 "first" 5 21),
    .replicate 6 (.worker "b" index, succeeding index "second" 20 22),
    .replicate 3 (.worker "a" 0, succeeding 0 "first" 5 21),
    .replicate 3 (.worker "b" index, succeeding index "second" 20 22)]

def assignedTest (_ : TaskPool String) : TaskLabel String → Bool
  | .start (.worker _ index) (.iterate index' ..) => index' = index
  | .start (.client _) (.client op) => op.enqueues
  | .start .. => false
  | _ => true

theorem assigned_of_assignedTest (log : List (TaskLabel String)) (c : TaskPool String)
    (l : TaskLabel String) (h : assignedTest c l) : Assigned log c l := by
  unfold assignedTest at h
  split at h
  next =>
    have heq := of_decide_eq_true h
    exact heq
  next => exact h
  next => cases h
  next hworker hclient hstart =>
    cases l with
    | start i op => exact absurd rfl (hstart _ _)
    | access => trivial
    | finish => trivial

/-- Worker 0 belongs to pool `a`, all others belong to pool `b`. -/
def separateTest (_ : TaskPool String) : TaskLabel String → Bool
  | .start (.worker pool index) (.iterate index' ..) =>
    index' = index ∧ pool = if index = 0 then "a" else "b"
  | .start (.client _) (.client op) => op.enqueues
  | .start .. => false
  | _ => true

theorem separate_of_separateTest (log : List (TaskLabel String)) (c : TaskPool String)
    (l : TaskLabel String) (h : separateTest c l) :
    Assigned log c l ∧ Separate (fun index => if index = 0 then "a" else "b") l := by
  unfold separateTest at h
  split at h
  next => exact ⟨(of_decide_eq_true h).1, (of_decide_eq_true h).2⟩
  next => exact ⟨h, trivial⟩
  next => cases h
  next hworker hclient hstart =>
    cases l with
    | start i op => exact absurd rfl (hstart _ _)
    | access => exact ⟨trivial, trivial⟩
    | finish => exact ⟨trivial, trivial⟩

/-- With different indices the first worker is turned away, and the second one completes the job. -/
theorem settledByHolder_takenOver :
    SettledByHolder (playTasks (takenOver 1)).1 ∧
      (findJob "job_1" (playTasks (takenOver 1)).2.state.db.jobs).map
        (fun j => (j.status, j.outputFingerprint)) = some (.succeeded, some "second") := by
  have hrun : Pool.Run Access.exec (PoolOp.prog .everyMinute) ⟨.empty, 0⟩
      (fun log c l => Assigned log c l ∧ Separate (fun index => if index = 0 then "a" else "b") l)
      (playTasks (takenOver 1)).1 (playTasks (takenOver 1)).2 :=
    Pool.run_of_passes separate_of_separateTest (by decide +kernel)
  refine ⟨?_, by decide +kernel⟩
  exact settledByHolder_of_unshared .everyMinute _ _ (unshared_of_separate _ hrun)

theorem lastGrantee_eq {P : Type} {id : String} {p m : List (TaskLabel P)} {g : TaskLabel P}
    {i : Task P} (hg : grantee id g = some i) (hm : ∀ y ∈ m, grantee id y = none) :
    lastGrantee id (p ++ g :: m) = some i := by
  have hnil : m.filterMap (grantee id) = [] := List.filterMap_eq_nil_iff.mpr hm
  simp [lastGrantee, hg, hnil]

/-- With the same index the first worker completes the job that the second one holds. -/
theorem settled_by_stale_worker :
    ¬ ∀ (log : List (TaskLabel String)) (c : TaskPool String),
      Pool.Run Access.exec (PoolOp.prog .everyMinute) ⟨.empty, 0⟩ Assigned log c →
        SettledByHolder log := by
  intro h
  have hrun : Pool.Run Access.exec (PoolOp.prog .everyMinute) ⟨.empty, 0⟩ Assigned
      (playTasks (takenOver 0)).1 (playTasks (takenOver 0)).2 :=
    Pool.run_of_passes assigned_of_assignedTest (by decide +kernel)
  have hlog := split_at (playTasks (takenOver 0)).1 16 (by decide +kernel)
  obtain ⟨p, g, m, hpre, hg, hm, -⟩ := h _ _ hrun _ _ _ "job_1" (.worker "a" 0) hlog
    (by decide +kernel)
  have hlast : lastGrantee "job_1" ((playTasks (takenOver 0)).1.take 16) = some (.worker "a" 0) := by
    rw [hpre]
    exact lastGrantee_eq hg hm
  revert hlast
  decide +kernel

end Corvid.Queue
