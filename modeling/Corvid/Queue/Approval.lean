import Corvid.Queue.Rows

/-!
# Jobs that wait on an approval

A job that has entered an approval wait is not leased before the approval is granted in time. Two
operations break this: a retry makes any job runnable that is not leased, and an approval is accepted
after it has expired.

## Main definitions

* `History`, `Run`: runs, one operation after another, with their history
* `enters`, `decides`, `approves`, `leases`: what an operation of a run does to a job
* `Outstanding`: a job has entered a wait that has not been approved since
* `Gated`: no retry while an approval is outstanding, and no late approval

## Main results

* `no_lease_without_approval`: in such runs only an approval leads back to a lease
-/

namespace Corvid.Queue

open Store

abbrev History := List (QueueState × Op)

/-- Runs from the empty queue. `C` says which operations are allowed after which history. -/
inductive Run (lib : CronLibrary) (C : History → QueueState → Op → Prop) :
    History → QueueState → Prop
  | nil : Run lib C [] ⟨.empty, 0⟩
  | snoc {hist : History} {s : QueueState} (op : Op) : Run lib C hist s → C hist s op →
      Run lib C (hist ++ [(s, op)]) (op.run lib s).2

section Events

variable (lib : CronLibrary) (id a : String)

def succeeds (x : QueueState × Op) : Bool := (x.2.run lib x.1).1.isOk

/-- The job enters a wait for the approval `a`. -/
def enters (x : QueueState × Op) : Bool :=
  match x.2 with
  | .enterApprovalWait id' _ a' _ _ _ => id' = id ∧ a' = a ∧ succeeds lib x
  | _ => false

/-- A decision on the approval `a` of the job succeeds. -/
def decides (decision : JobApprovalDecision) (x : QueueState × Op) : Bool :=
  match x.2 with
  | .decideApprovalWaitAt id' a' decision' _ _ _ =>
    id' = id ∧ a' = a ∧ decision' = decision ∧ succeeds lib x
  | _ => false

/-- The approval `a` of the job is granted before it expires. -/
def approves (x : QueueState × Op) : Bool :=
  match x.2 with
  | .decideApprovalWaitAt _ _ _ _ _ now =>
    decides lib id a .approve x ∧
      (findJob id x.1.db.jobs).any fun j => j.approvalExpiresMs.any (now < ·)
  | _ => false

/-- The job is leased. -/
def leases (x : QueueState × Op) : Bool :=
  ((x.2.prog lib).trace Access.exec x.1).any fun y =>
    match y.2 with
    | .leaseUpdate id' _ _ now => id' = id ∧ y.1.db.jobs.any (leasable id now)
    | _ => false

/-- The job has entered a wait for the approval `a`, which has not been granted in time since. -/
def Outstanding (hist : History) : Prop :=
  ∃ pre x mid, hist = pre ++ x :: mid ∧ enters lib id a x ∧ ∀ z ∈ mid, ¬ approves lib id a z

end Events

/-- No retry of a job while an approval of it is outstanding, and no approval that comes too late. -/
def Gated (lib : CronLibrary) (hist : History) (s : QueueState) : Op → Prop
  | .retryJob id _ => ∀ a, ¬ Outstanding lib id a hist
  | .decideApprovalWaitAt id a .approve actor _ now => ¬ blank actor →
      ∀ j, findJob id s.db.jobs = some j → j.status = .approvalWait → j.approvalId = some a →
        j.approvalExpiresMs.any (now < ·)
  | _ => True

/-! ### Histories -/

section Histories

variable {lib : CronLibrary} {C : History → QueueState → Op → Prop} {id a : String}

theorem Run.split {h₁ h₂ : History} {s s' : QueueState} {op : Op}
    (h : Run lib C (h₁ ++ (s, op) :: h₂) s') : Run lib C h₁ s ∧ C h₁ s op := by
  induction h₂ using List.reverseRecOn generalizing s' with
  | nil =>
    generalize hhist : h₁ ++ [(s, op)] = hist at h
    cases h with
    | nil => simp at hhist
    | snoc _ hrun hop =>
      obtain ⟨rfl, heq⟩ := List.append_inj' hhist rfl
      obtain ⟨rfl, rfl⟩ := Prod.mk.inj (List.singleton_inj.mp heq)
      exact ⟨hrun, hop⟩
  | append_singleton h₂ x ih =>
    generalize hhist : h₁ ++ (s, op) :: (h₂ ++ [x]) = hist at h
    cases h with
    | nil => simp at hhist
    | snoc _ hrun hop =>
      rw [← List.cons_append, ← List.append_assoc] at hhist
      obtain ⟨rfl, -⟩ := List.append_inj' hhist rfl
      exact ih hrun

theorem outstanding_snoc {hist : History} {x : QueueState × Op}
    (h : Outstanding lib id a (hist ++ [x])) :
    (Outstanding lib id a hist ∧ ¬ approves lib id a x) ∨ enters lib id a x := by
  obtain ⟨pre, y, mid, heq, henter, hmid⟩ := h
  induction mid using List.reverseRecOn with
  | nil =>
    obtain ⟨-, heq⟩ := List.append_inj' heq rfl
    rw [List.singleton_inj.mp heq]
    exact .inr henter
  | append_singleton mid z _ =>
    rw [← List.cons_append, ← List.append_assoc] at heq
    obtain ⟨rfl, hz⟩ := List.append_inj' heq rfl
    rw [List.singleton_inj.mp hz]
    refine .inl ⟨⟨pre, y, mid, rfl, henter, fun w hw => hmid w ?_⟩, hmid z ?_⟩
    · exact List.mem_append_left _ hw
    · exact List.mem_append_right _ (List.mem_singleton_self z)

theorem Outstanding.snoc {hist : History} {x : QueueState × Op} (h : Outstanding lib id a hist)
    (hx : ¬ approves lib id a x) : Outstanding lib id a (hist ++ [x]) := by
  obtain ⟨pre, y, mid, rfl, henter, hmid⟩ := h
  refine ⟨pre, y, mid ++ [x], by simp, henter, fun z hz => ?_⟩
  rcases List.mem_append.mp hz with hz | hz
  · exact hmid z hz
  · rwa [List.mem_singleton.mp hz]

theorem outstanding_of_enters {hist : History} {x : QueueState × Op} (h : enters lib id a x) :
    Outstanding lib id a (hist ++ [x]) :=
  ⟨hist, x, [], rfl, h, fun _ hz => absurd hz List.not_mem_nil⟩

end Histories

/-! ### A parked row -/

/-- The statuses from which a job is leased, or has been. -/
def Runnable (status : QueueJobStatus) : Prop :=
  status = .pending ∨ status = .retryWait ∨ status = .leased

/-- The access neither retries the job nor grants the approval it waits for. -/
def Harmless (id : String) (s : QueueState) : Access → Prop
  | .retryUpdate id' _ => id' ≠ id
  | .decideApproval id' b .approve _ _ _ => id' = id → ∀ j, findJob id s.db.jobs = some j →
      ¬ (j.status = .approvalWait ∧ j.approvalId = some b)
  | _ => True

/-- The job is not runnable, and if it waits on an approval it does so since it was `j`. -/
def ParkedSince (j j' : QueueJob) : Prop :=
  ¬ Runnable j'.status ∧
    (j'.status = .approvalWait → j.status = .approvalWait ∧ j'.approvalId = j.approvalId)

section Parked

variable {id : String} {s : QueueState} {q : Access} {j j' : QueueJob}

theorem RowStep.parkedSince (h : RowStep s.db q j j') (hj : findJob id s.db.jobs = some j)
    (hid : j.id = id) (hq : Harmless id s q) (hr : ¬ Runnable j.status) : ParkedSince j j' := by
  have hleased : ∀ {i w : String}, ¬ leasedBy i w j := fun hlease =>
    hr (.inr (.inr (of_decide_eq_true hlease).2.1))
  cases h with
  | same => exact ⟨hr, fun hwait => ⟨hwait, rfl⟩⟩
  | drain hstatus => exact absurd (.inr (.inr hstatus)) hr
  | retry hid' => exact absurd (hid'.symm.trans hid) hq
  | overBudget => simp [ParkedSince, Runnable]
  | stall _ _ hstatus => rcases hstatus with rfl | rfl <;> simp [ParkedSince, Runnable]
  | cancel => simp [ParkedSince, Runnable]
  | lease hlease =>
    refine absurd ?_ hr
    rcases (of_decide_eq_true hlease).2 with h | h | h
    · exact .inl h
    · exact .inr (.inl h)
    · exact .inr (.inr h.1)
  | complete hlease => exact absurd hlease hleased
  | fail hlease => exact absurd hlease hleased
  | approvalWait hlease => exact absurd hlease hleased
  | approve hid' hstatus happroval =>
    exact absurd ⟨hstatus, happroval⟩ (hq (hid'.symm.trans hid) j hj)
  | deny => simp [ParkedSince, Runnable]
  | expire => simp [ParkedSince, Runnable]

theorem ParkedSince.trans {j'' : QueueJob} (h : ParkedSince j j') (h' : ParkedSince j' j'') :
    ParkedSince j j'' := by
  refine ⟨h'.1, fun hwait => ?_⟩
  obtain ⟨hwait', happroval'⟩ := h'.2 hwait
  obtain ⟨hwait'', happroval''⟩ := h.2 hwait'
  exact ⟨hwait'', happroval'.trans happroval''⟩

/-- The row of the job is parked since it was `j`. -/
def RowParked (id : String) (j : QueueJob) (s : QueueState) : Prop :=
  s.db.Keyed ∧ ∃ j', findJob id s.db.jobs = some j' ∧ ParkedSince j j'

theorem RowParked.exec (h : RowParked id j s) (hq : Harmless id s q) :
    RowParked id j (q.exec s).2 := by
  obtain ⟨hkeyed, j', hj', hparked⟩ := h
  obtain ⟨j'', hrow, hj''⟩ := findJob_exec hkeyed hj' q
  have hid := ((findJob_eq_some hkeyed).mp hj').2
  have hparked' := hparked.trans (hrow.parkedSince hj' hid hq hparked.1)
  refine ⟨?_, j'', ?_, hparked'⟩ <;> rw [exec_db]
  · exact keyed_exec hkeyed q
  · exact hj''

/-- A parked row is not leased. -/
theorem RowParked.not_leasable (h : RowParked id j s) (now : ℕ) :
    ¬ s.db.jobs.any (leasable id now) := by
  obtain ⟨hkeyed, j', hj', hparked⟩ := h
  rw [List.any_eq_true]
  rintro ⟨k, hk, hlease⟩
  obtain ⟨hid, hstatus⟩ := of_decide_eq_true hlease
  have hkj : k = j' := Option.some.inj (((findJob_eq_some hkeyed).mpr ⟨hk, hid⟩).symm.trans hj')
  subst hkj
  refine hparked.1 ?_
  rcases hstatus with h | h | h
  · exact .inl h
  · exact .inr (.inl h)
  · exact .inr (.inr h.1)

end Parked

/-! ### What an operation does to a parked row -/

section Operations

variable (lib : CronLibrary) {id : String} {op : Op} {s : QueueState} {j : QueueJob}

theorem harmless_of_issues_setPaused (id : String) (s : QueueState) {q : Access}
    (h : (Op.setPaused true).Issues q) : Harmless id s q := by
  unfold Harmless
  split
  · exact absurd h (by simp [Op.Issues])
  · exact absurd h (by simp [Op.Issues])
  · trivial

/-- An operation that neither retries the job nor grants the approval it waits for. -/
theorem Op.along_harmless (hretry : ∀ now, op ≠ .retryJob id now)
    (happrove : ∀ b actor reason now, op = .decideApprovalWaitAt id b .approve actor reason now →
      ¬ blank actor → ¬ blank b → ∀ j, findJob id s.db.jobs = some j →
        ¬ (j.status = .approvalWait ∧ j.approvalId = some b)) :
    (op.prog lib).Along Access.exec (Harmless id) s := by
  by_cases hop : ∃ b actor reason now, op = .decideApprovalWaitAt id b .approve actor reason now
  · obtain ⟨b, actor, reason, now, rfl⟩ := hop
    show Prog.Along Access.exec _ (some <$>
      Queue.decideApprovalWaitAt id b .approve actor reason now) s
    unfold Queue.decideApprovalWaitAt
    by_cases hactor : blank actor
    · rw [if_pos hactor]
      trivial
    · rw [if_neg hactor]
      by_cases hb : blank b
      · rw [if_pos hb]
        trivial
      · rw [if_neg hb]
        refine ⟨fun _ => happrove b actor reason now rfl hactor hb, ?_⟩
        refine Prog.along_of_all (fun s q => harmless_of_issues_setPaused id s) ?_ _
        refine Prog.all_map ?_
        generalize (Access.exec _ s).1 = r
        cases r with
        | ok => exact issues_of_canIssue (all_requireJob _ id)
        | error err => trivial
  · refine Prog.along_of_all (fun s q hq => ?_) (op.all_issues lib) s
    unfold Harmless
    split
    next id' now =>
      rintro rfl
      exact hretry now hq
    next id' b actor reason now =>
      rintro rfl
      exact absurd ⟨b, actor, reason, now, hq⟩ hop
    next => trivial

theorem RowParked.run {lib : CronLibrary} (h : RowParked id j s)
    (hop : (op.prog lib).Along Access.exec (Harmless id) s) :
    RowParked id j (op.run lib s).2 ∧ ¬ leases lib id (s, op) := by
  have hstep : ∀ (s : QueueState) (q : Access), RowParked id j s → Harmless id s q →
      RowParked id j (q.exec s).2 := fun s q hs hq => hs.exec hq
  refine ⟨Prog.run_inv hstep hop h, ?_⟩
  rw [leases, List.any_eq_true]
  rintro ⟨x, hx, hlease⟩
  have hparked := Prog.trace_inv hstep hop h x hx
  split at hlease
  next now _ =>
    obtain ⟨-, hany⟩ := of_decide_eq_true hlease
    exact hparked.not_leasable now hany
  next => cases hlease

/-- A job that is found is returned. -/
theorem run_requireJob (id : String) (s : QueueState) :
    (some <$> requireJob id : QueueM (Option QueueJob)).run Access.exec s =
      ((findJob id s.db.jobs).elim (.error (.other s!"std.queue job `{id}` not found"))
        (.ok ∘ some), s) := by
  rw [requireJob, Prog.run_map_query_bind]
  show Prog.run Access.exec _ s = _
  have hreply : (Access.exec (.getJob id) s).1 = findJob id s.db.jobs := rfl
  rw [hreply]
  cases findJob id s.db.jobs <;> rfl

theorem run_enterApprovalWait (id worker : String) {a reason : String} (expires now : ℕ)
    (s : QueueState) (ha : ¬ blank a) (hreason : ¬ blank reason) :
    let after := (Access.exec (.approvalWaitUpdate id worker a expires reason now) s).2
    (Op.enterApprovalWait id worker a expires reason now).run lib s =
      if s.db.jobs.countP (leasedBy id worker) = 0 then
        (.error (.other s!"std.queue job `{id}` is not leased by `{worker}`"), after)
      else (some <$> requireJob id : QueueM (Option QueueJob)).run Access.exec after := by
  intro after
  show Prog.run Access.exec (some <$> Queue.enterApprovalWait id worker a expires reason now) s = _
  unfold Queue.enterApprovalWait
  rw [if_neg ha, if_neg hreason]
  show Prog.run Access.exec (Prog.bind (if s.db.jobs.countP (leasedBy id worker) = 0 then
    notLeasedBy id worker else requireJob id) _) after = _
  split <;> rfl

theorem run_decideApprovalWaitAt (id : String) {a actor : String} (decision : JobApprovalDecision)
    (reason : Option String) (now : ℕ) (s : QueueState) (hactor : ¬ blank actor) (ha : ¬ blank a) :
    let r := s.db.decideApproval id a decision actor reason now
    (Op.decideApprovalWaitAt id a decision actor reason now).run lib s =
      match r.1 with
      | .ok () => (some <$> requireJob id : QueueM (Option QueueJob)).run Access.exec
          { s with db := r.2 }
      | .error err => (.error err, { s with db := r.2 }) := by
  intro r
  show Prog.run Access.exec (some <$> Queue.decideApprovalWaitAt id a decision actor reason now) s
    = _
  unfold Queue.decideApprovalWaitAt
  rw [if_neg hactor, if_neg ha]
  rw [Prog.run_map_query_bind]
  show Prog.run Access.exec _ { s with db := r.2 } = _
  have hreply : (Access.exec (.decideApproval id a decision actor reason now) s).1 = r.1 := rfl
  rw [hreply]
  rcases r.1 with err | _ <;> rfl

end Operations

/-! ### The events -/

section Events

variable {lib : CronLibrary} {id a : String} {op : Op} {s : QueueState}

theorem isOk_run_requireJob {j : QueueJob} (hj : findJob id s.db.jobs = some j) :
    ((some <$> requireJob id : QueueM (Option QueueJob)).run Access.exec s).1.isOk := by
  rw [run_requireJob, hj]
  rfl

theorem updateJobs_of_countP_eq_zero {db : QueueDb} {p : QueueJob → Bool} {f : QueueJob → QueueJob}
    (h : db.jobs.countP p = 0) : (db.updateJobs p f).2.jobs = db.jobs := by
  rw [List.countP_eq_zero] at h
  refine (List.map_congr_left fun j hj => ?_).trans (List.map_id _)
  rw [if_neg (h j hj)]
  rfl

/-- An operation fails and changes no row, or succeeds and its update hits the row of the job. -/
theorem run_enterApprovalWait_cases (lib : CronLibrary) {worker reason : String} {expires now : ℕ}
    (hkeyed : s.db.Keyed) :
    let r := (Op.enterApprovalWait id worker a expires reason now).run lib s
    r.1.isOk = false ∧ r.2.db.jobs = s.db.jobs ∨
      r.1.isOk ∧ (∃ j ∈ s.db.jobs, leasedBy id worker j) ∧
        r.2.db = (Access.execDb (.approvalWaitUpdate id worker a expires reason now) s.db).2 := by
  intro r
  by_cases hblank : blank a ∨ blank reason
  · obtain ⟨err, hrun⟩ : ∃ err, r = (.error err, s) := by
      show ∃ err, Prog.run Access.exec
        (some <$> Queue.enterApprovalWait id worker a expires reason now) s = (.error err, s)
      unfold Queue.enterApprovalWait
      by_cases ha : blank a
      · rw [if_pos ha]
        exact ⟨_, rfl⟩
      · rw [if_neg ha, if_pos (hblank.resolve_left ha)]
        exact ⟨_, rfl⟩
    rw [hrun]
    exact .inl ⟨rfl, rfl⟩
  · rw [not_or] at hblank
    have hrun : r = _ := run_enterApprovalWait lib id worker expires now s hblank.1 hblank.2
    rw [hrun]
    split
    next hcount => exact .inl ⟨rfl, updateJobs_of_countP_eq_zero hcount⟩
    next hcount =>
      obtain ⟨j, hj, hlease⟩ := List.countP_pos_iff.mp (Nat.pos_of_ne_zero hcount)
      have hid := (of_decide_eq_true hlease).1
      obtain ⟨j', -, hj'⟩ := findJob_exec hkeyed ((findJob_eq_some hkeyed).mpr ⟨hj, hid⟩)
        (.approvalWaitUpdate id worker a expires reason now)
      refine .inr ⟨isOk_run_requireJob hj', ⟨j, hj, hlease⟩, ?_⟩
      rw [run_requireJob]
      rfl

theorem decideApproval_cases (db : QueueDb) (id a : String) (decision : JobApprovalDecision)
    (actor : String) (reason : Option String) (now : ℕ) :
    (∃ err, db.decideApproval id a decision actor reason now = (.error err, db)) ∨
      (db.decideApproval id a decision actor reason now).1 = .ok () ∧
        ∃ j, findJob id db.jobs = some j ∧ j.status = .approvalWait ∧ j.approvalId = some a := by
  unfold QueueDb.decideApproval
  split
  next => exact .inl ⟨_, rfl⟩
  next j hj =>
    split
    next => exact .inl ⟨_, rfl⟩
    next hstatus =>
      split
      next => exact .inl ⟨_, rfl⟩
      next happroval =>
        split
        next => exact .inl ⟨_, rfl⟩
        next =>
          split
          next => exact .inl ⟨_, rfl⟩
          next => exact .inr ⟨rfl, j, hj, not_not.mp hstatus, not_not.mp happroval⟩

/-- An approval is always accepted, be it late. -/
theorem decideApproval_approve {db : QueueDb} {j : QueueJob} (hj : findJob id db.jobs = some j)
    (hstatus : j.status = .approvalWait) (happroval : j.approvalId = some a) (actor : String)
    (reason : Option String) (now : ℕ) :
    (db.decideApproval id a .approve actor reason now).1 = .ok () := by
  simp [QueueDb.decideApproval, hj, hstatus, happroval]

/-- The row of the job after a decision. -/
theorem decideApproval_row {db : QueueDb} (hkeyed : db.Keyed) {j : QueueJob}
    (hj : findJob id db.jobs = some j) (hstatus : j.status = .approvalWait)
    (happroval : j.approvalId = some a) {decision : JobApprovalDecision} {actor : String}
    {reason : Option String} {now : ℕ}
    (hok : (db.decideApproval id a decision actor reason now).1 = .ok ()) :
    ∃ j', findJob id (db.decideApproval id a decision actor reason now).2.jobs = some j' ∧
      j'.status ≠ .approvalWait ∧ (decision ≠ .approve → ¬ Runnable j'.status) := by
  have hkeyed' := keyed_exec hkeyed (.decideApproval id a decision actor reason now)
  obtain ⟨hmem, hid⟩ := (findJob_eq_some hkeyed).mp hj
  suffices h : ∃ j' ∈ (db.decideApproval id a decision actor reason now).2.jobs, j'.id = id ∧
      j'.status ≠ .approvalWait ∧ (decision ≠ .approve → ¬ Runnable j'.status) by
    obtain ⟨j', hj', hid', h⟩ := h
    exact ⟨j', (findJob_eq_some hkeyed').mpr ⟨hj', hid'⟩, h⟩
  unfold QueueDb.decideApproval at hok ⊢
  simp only [hj, hstatus, happroval, ne_eq, not_true_eq_false, if_false] at hok ⊢
  split at hok
  next => cases hok
  next hexpiry =>
    rw [if_neg hexpiry]
    split at hok
    next => cases hok
    next hearly =>
      rw [if_neg hearly]
      refine ⟨_, List.mem_map_of_mem hmem, ?_⟩
      cases decision <;> simp [hid, hstatus, happroval, QueueJob.release, Runnable]

/-- A decision that fails changes nothing; one that succeeds answers the wait of the job. -/
theorem run_decideApprovalWaitAt_cases (lib : CronLibrary) {decision : JobApprovalDecision}
    {actor : String} {reason : Option String} {now : ℕ} (hkeyed : s.db.Keyed) :
    let r := (Op.decideApprovalWaitAt id a decision actor reason now).run lib s
    r.1.isOk = false ∧ r.2 = s ∨
      r.1.isOk ∧ (∃ j, findJob id s.db.jobs = some j ∧ j.status = .approvalWait ∧
        j.approvalId = some a) ∧
        (s.db.decideApproval id a decision actor reason now).1 = .ok () ∧
        r.2.db = (s.db.decideApproval id a decision actor reason now).2 := by
  intro r
  by_cases hblank : blank actor ∨ blank a
  · obtain ⟨err, hrun⟩ : ∃ err, r = (.error err, s) := by
      show ∃ err, Prog.run Access.exec
        (some <$> Queue.decideApprovalWaitAt id a decision actor reason now) s = (.error err, s)
      unfold Queue.decideApprovalWaitAt
      by_cases hactor : blank actor
      · rw [if_pos hactor]
        exact ⟨_, rfl⟩
      · rw [if_neg hactor, if_pos (hblank.resolve_left hactor)]
        exact ⟨_, rfl⟩
    rw [hrun]
    exact .inl ⟨rfl, rfl⟩
  · rw [not_or] at hblank
    have hrun : r = _ := run_decideApprovalWaitAt lib id decision reason now s hblank.1 hblank.2
    rcases decideApproval_cases s.db id a decision actor reason now with ⟨err, hdecide⟩ | hdecide
    · rw [hrun, hdecide]
      exact .inl ⟨rfl, rfl⟩
    · obtain ⟨hok, j, hj, hwait⟩ := hdecide
      obtain ⟨j', -, hj'⟩ := findJob_exec hkeyed hj (.decideApproval id a decision actor reason now)
      rw [hrun, hok]
      refine .inr ⟨isOk_run_requireJob hj', ⟨j, hj, hwait⟩, rfl, ?_⟩
      dsimp only
      rw [run_requireJob]


theorem enters_iff : enters lib id a (s, op) ↔ ∃ worker expires reason now,
    op = .enterApprovalWait id worker a expires reason now ∧ (op.run lib s).1.isOk := by
  constructor
  · intro h
    unfold enters at h
    split at h
    next worker _ expires reason now hop =>
      obtain ⟨rfl, rfl, hsucceeds⟩ := of_decide_eq_true h
      exact ⟨worker, expires, reason, now, hop, hsucceeds⟩
    next => cases h
  · rintro ⟨worker, expires, reason, now, rfl, hsucceeds⟩
    exact decide_eq_true ⟨rfl, rfl, hsucceeds⟩

theorem decides_iff {decision : JobApprovalDecision} : decides lib id a decision (s, op) ↔
    ∃ actor reason now, op = .decideApprovalWaitAt id a decision actor reason now ∧
      (op.run lib s).1.isOk := by
  constructor
  · intro h
    unfold decides at h
    split at h
    next actor reason now hop =>
      obtain ⟨rfl, rfl, rfl, hsucceeds⟩ := of_decide_eq_true h
      exact ⟨actor, reason, now, hop, hsucceeds⟩
    next => cases h
  · rintro ⟨actor, reason, now, rfl, hsucceeds⟩
    exact decide_eq_true ⟨rfl, rfl, rfl, hsucceeds⟩

theorem decides_of_approves {x : QueueState × Op} (h : approves lib id a x) :
    decides lib id a .approve x := by
  unfold approves at h
  split at h
  next => exact (of_decide_eq_true h).1
  next => cases h

theorem row_of_enters (h : enters lib id a (s, op)) (hkeyed : s.db.Keyed) :
    ∃ j', findJob id (op.run lib s).2.db.jobs = some j' ∧ j'.status = .approvalWait ∧
      j'.approvalId = some a := by
  obtain ⟨worker, expires, reason, now, rfl, hok⟩ := enters_iff.mp h
  rcases run_enterApprovalWait_cases lib hkeyed with ⟨hfail, -⟩ | ⟨-, hrow, hdb⟩
  · exact nomatch hok.symm.trans hfail
  · obtain ⟨j, hj, hlease⟩ := hrow
    have hkeyed' := keyed_exec hkeyed (.approvalWaitUpdate id worker a expires reason now)
    rw [hdb]
    refine ⟨_, (findJob_eq_some hkeyed').mpr ⟨List.mem_map_of_mem hj, ?_⟩, ?_⟩
    · simp [hlease, QueueJob.release, (of_decide_eq_true hlease).1]
    · simp [hlease]

theorem rows_of_decides {decision : JobApprovalDecision} (h : decides lib id a decision (s, op))
    (hkeyed : s.db.Keyed) :
    ∃ j, findJob id s.db.jobs = some j ∧ j.status = .approvalWait ∧ j.approvalId = some a ∧
      ∃ j', findJob id (op.run lib s).2.db.jobs = some j' ∧ j'.status ≠ .approvalWait ∧
        (decision ≠ .approve → ¬ Runnable j'.status) := by
  obtain ⟨actor, reason, now, rfl, hok⟩ := decides_iff.mp h
  rcases run_decideApprovalWaitAt_cases lib hkeyed with ⟨hfail, -⟩ | ⟨-, hrow, hdecide, hdb⟩
  · exact nomatch hok.symm.trans hfail
  · obtain ⟨j, hj, hstatus, happroval⟩ := hrow
    refine ⟨j, hj, hstatus, happroval, ?_⟩
    rw [hdb]
    exact decideApproval_row hkeyed hj hstatus happroval hdecide

/-- A row that waits after an access has waited before, unless it enters the wait. -/
theorem RowStep.waiting {q : Access} {j j' : QueueJob} (h : RowStep s.db q j j')
    (hissues : op.Issues q)
    (henter : ∀ id worker b expires reason now,
      op ≠ .enterApprovalWait id worker b expires reason now)
    (hwait : j'.status = .approvalWait) :
    j.status = .approvalWait ∧ j.approvalId = j'.approvalId := by
  cases h with
  | same => exact ⟨hwait, rfl⟩
  | approvalWait => exact absurd hissues (henter _ _ _ _ _ _)
  | fail => rcases hissues with rfl | rfl <;> cases hwait
  | stall _ _ hstatus => rcases hstatus with rfl | rfl <;> cases hwait
  | _ => cases hwait

/-- A job that waits after an operation has waited before, unless it enters the wait. -/
theorem waiting_of_run (hkeyed : s.db.Keyed) {j' : QueueJob}
    (hj' : j' ∈ (op.run lib s).2.db.jobs) (hwait : j'.status = .approvalWait) :
    (∃ j ∈ s.db.jobs, j.id = j'.id ∧ j.status = .approvalWait ∧ j.approvalId = j'.approvalId) ∨
      ∃ b, j'.approvalId = some b ∧ enters lib j'.id b (s, op) := by
  by_cases hop : ∃ id worker b expires reason now,
      op = .enterApprovalWait id worker b expires reason now
  · obtain ⟨id, worker, b, expires, reason, now, rfl⟩ := hop
    rcases run_enterApprovalWait_cases lib hkeyed with ⟨-, hjobs⟩ | ⟨hok, -, hdb⟩
    · rw [hjobs] at hj'
      exact .inl ⟨j', hj', rfl, hwait, rfl⟩
    · rw [hdb] at hj'
      obtain ⟨j, hj, rfl⟩ := List.mem_map.mp hj'
      by_cases hlease : leasedBy id worker j
      · refine .inr ⟨b, by simp [hlease], enters_iff.mpr ⟨worker, expires, reason, now, ?_, hok⟩⟩
        simp [hlease, QueueJob.release, (of_decide_eq_true hlease).1]
      · simp only [hlease] at hwait ⊢
        exact .inl ⟨j, hj, rfl, hwait, rfl⟩
  · left
    -- the waiting rows, from access to access
    let I (t : QueueState) := t.db.Keyed ∧ ∀ k ∈ t.db.jobs, k.status = .approvalWait →
      ∃ j ∈ s.db.jobs, j.id = k.id ∧ j.status = .approvalWait ∧ j.approvalId = k.approvalId
    have hstep : ∀ (t : QueueState) (q : Access), I t → op.Issues q → I (q.exec t).2 := by
      rintro t q ⟨hkeyed, hrows⟩ hissues
      unfold I
      rw [exec_db]
      refine ⟨keyed_exec hkeyed q, forall_exec hkeyed (fun k hk k' hrow hwait => ?_) ?_⟩
      · obtain ⟨hwait', happroval⟩ := hrow.waiting hissues
          (fun id worker b expires reason now heq =>
            hop ⟨id, worker, b, expires, reason, now, heq⟩) hwait
        obtain ⟨j, hj, hid, hstatus, happroval'⟩ := hrows k hk hwait'
        exact ⟨j, hj, hid.trans hrow.id_eq.symm, hstatus, happroval'.trans happroval⟩
      · rintro job rfl hwait
        obtain ⟨spec, id, key, now, rfl⟩ := hissues
        cases hwait
    have halong : (op.prog lib).Along Access.exec (fun _ q => op.Issues q) s :=
      Prog.along_of_all (fun _ _ h => h) (op.all_issues lib) s
    exact (Prog.run_inv hstep halong ⟨hkeyed, fun k hk hwait => ⟨k, hk, rfl, hwait, rfl⟩⟩).2
      j' hj' hwait

/-- A decision leases nothing. -/
theorem not_leases_of_decides {decision : JobApprovalDecision} {x : QueueState × Op}
    (h : decides lib id a decision x) (id' : String) : ¬ leases lib id' x := by
  obtain ⟨actor, reason, now, hop, -⟩ := decides_iff.mp h
  rw [leases, hop, List.any_eq_true]
  rintro ⟨y, hy, hlease⟩
  have hissues := Prog.forall_trace_of_all (Op.all_issues lib _) _ y hy
  split at hlease
  next heq =>
    simp [heq, Op.Issues, Op.lease?] at hissues
  next => cases hlease

end Events

/-! ### Runs -/

/-- What holds after a history of gated operations. -/
structure GateInv (lib : CronLibrary) (hist : History) (s : QueueState) : Prop where
  keyed : s.db.Keyed
  parked : ∀ id a, Outstanding lib id a hist → ∃ j, findJob id s.db.jobs = some j ∧
    ¬ Runnable j.status ∧ (j.status = .approvalWait → j.approvalId = some a)
  waiting : ∀ j ∈ s.db.jobs, j.status = .approvalWait →
    ∃ a, j.approvalId = some a ∧ Outstanding lib j.id a hist
  rejected : ∀ id a, ∀ x ∈ hist, decides lib id a .deny x ∨ decides lib id a .expire x →
    Outstanding lib id a hist ∧ ∃ j, findJob id s.db.jobs = some j ∧ j.status ≠ .approvalWait

section Runs

variable {lib : CronLibrary} {hist : History} {s : QueueState} {op : Op} {id a : String}

/-- A job with an outstanding approval stays parked, unless the approval is granted. -/
theorem GateInv.rowParked (h : GateInv lib hist s) (hop : Gated lib hist s op)
    (hout : Outstanding lib id a hist) (happroves : ¬ approves lib id a (s, op)) :
    ∃ j, findJob id s.db.jobs = some j ∧ ¬ Runnable j.status ∧
      (j.status = .approvalWait → j.approvalId = some a) ∧
      RowParked id j (op.run lib s).2 ∧ ¬ leases lib id (s, op) := by
  obtain ⟨j, hj, hrunnable, happroval⟩ := h.parked id a hout
  refine ⟨j, hj, hrunnable, happroval, RowParked.run ⟨h.keyed, j, hj, ?_⟩ ?_⟩
  · exact ⟨hrunnable, fun hwait => ⟨hwait, rfl⟩⟩
  · refine Op.along_harmless lib ?_ ?_
    · rintro now rfl
      exact hop a hout
    · rintro b actor reason now rfl hactor hb k hk ⟨hwait, hkb⟩
      obtain rfl : j = k := Option.some.inj (hj.symm.trans hk)
      obtain rfl : a = b := Option.some.inj ((happroval hwait).symm.trans hkb)
      refine happroves (decide_eq_true ⟨decides_iff.mpr ⟨actor, reason, now, rfl, ?_⟩, ?_⟩)
      · rcases run_decideApprovalWaitAt lib id .approve reason now s hactor hb with hrun
        rw [hrun, decideApproval_approve hj hwait hkb]
        obtain ⟨j', -, hj'⟩ := findJob_exec h.keyed hj (.decideApproval id a .approve actor reason now)
        exact isOk_run_requireJob hj'
      · rw [hj]
        exact hop hactor j hj hwait hkb

theorem GateInv.not_leases (h : GateInv lib hist s) (hop : Gated lib hist s op)
    (hout : Outstanding lib id a hist) : ¬ leases lib id (s, op) := by
  by_cases happroves : approves lib id a (s, op)
  · exact not_leases_of_decides (decides_of_approves happroves) id
  · obtain ⟨_, _, _, _, _, hlease⟩ := h.rowParked hop hout happroves
    exact hlease

theorem GateInv.snoc (h : GateInv lib hist s) (hop : Gated lib hist s op) :
    GateInv lib (hist ++ [(s, op)]) (op.run lib s).2 := by
  have hkeyed : (op.run lib s).2.db.Keyed := by
    have hstep : ∀ (s : QueueState) q, s.db.Keyed → True → (Access.exec q s).2.db.Keyed := by
      intro s q hs _
      rw [exec_db]
      exact keyed_exec hs q
    exact Prog.run_inv hstep
      (Prog.along_of_all (P := op.Issues) (fun _ _ _ => trivial) (op.all_issues lib) s) h.keyed
  refine ⟨hkeyed, fun id a hout => ?_, fun j' hj' hwait => ?_, fun id a x hx hx' => ?_⟩
  · rcases outstanding_snoc hout with ⟨hout, happroves⟩ | henter
    · obtain ⟨j, hj, -, happroval, ⟨-, j', hj', hparked⟩, -⟩ := h.rowParked hop hout happroves
      refine ⟨j', hj', hparked.1, fun hwait => ?_⟩
      obtain ⟨hwait', heq⟩ := hparked.2 hwait
      exact heq.trans (happroval hwait')
    · obtain ⟨j', hj', hwait, happroval⟩ := row_of_enters henter h.keyed
      exact ⟨j', hj', by simp [Runnable, hwait], fun _ => happroval⟩
  · rcases waiting_of_run h.keyed hj' hwait with ⟨j, hj, hid, hwait', happroval⟩ | ⟨b, hb, henter⟩
    · obtain ⟨b, hb, hout⟩ := h.waiting j hj hwait'
      refine ⟨b, happroval.symm.trans hb, (hid ▸ hout).snoc fun happroves => ?_⟩
      -- an approval would have ended the wait
      obtain ⟨-, -, -, -, k, hk, hne, -⟩ := rows_of_decides (decides_of_approves happroves) h.keyed
      have hkj := ((findJob_eq_some hkeyed).mpr ⟨hj', rfl⟩).symm.trans hk
      exact hne (Option.some.inj hkj ▸ hwait)
    · exact ⟨b, hb, outstanding_of_enters henter⟩
  · rcases List.mem_append.mp hx with hx | hx
    · obtain ⟨hout, j, hj, hne⟩ := h.rejected id a x hx hx'
      have happroves : ¬ approves lib id a (s, op) := fun happroves => by
        obtain ⟨k, hk, hwait, -⟩ := rows_of_decides (decides_of_approves happroves) h.keyed
        exact hne (Option.some.inj (hk.symm.trans hj) ▸ hwait)
      obtain ⟨k, hk, -, -, ⟨-, j', hj', hparked⟩, -⟩ := h.rowParked hop hout happroves
      obtain rfl : j = k := Option.some.inj (hj.symm.trans hk)
      exact ⟨hout.snoc happroves, j', hj', fun hwait => hne (hparked.2 hwait).1⟩
    · rw [List.mem_singleton.mp hx] at hx'
      obtain ⟨decision, hdecision, hdecides⟩ : ∃ decision, decision ≠ .approve ∧
          decides lib id a decision (s, op) := by
        rcases hx' with hx' | hx'
        · exact ⟨_, by simp, hx'⟩
        · exact ⟨_, by simp, hx'⟩
      obtain ⟨j, hj, hwait, happroval, j', hj', hne, -⟩ := rows_of_decides hdecides h.keyed
      obtain ⟨hmem, hid⟩ := (findJob_eq_some h.keyed).mp hj
      obtain ⟨b, hb, hout⟩ := h.waiting j hmem hwait
      obtain rfl : a = b := Option.some.inj (happroval.symm.trans hb)
      refine ⟨(hid ▸ hout).snoc fun happroves => ?_, j', hj', hne⟩
      obtain ⟨_, _, _, hop', -⟩ := decides_iff.mp (decides_of_approves happroves)
      obtain ⟨_, _, _, hop'', -⟩ := decides_iff.mp hdecides
      rw [hop'] at hop''
      exact hdecision (Op.decideApprovalWaitAt.inj hop'').2.2.1.symm

theorem Run.gateInv (h : Run lib (Gated lib) hist s) : GateInv lib hist s := by
  induction h with
  | nil =>
    refine ⟨List.nodup_nil, ?_, by simp [QueueDb.empty], by simp⟩
    rintro id a ⟨pre, x, mid, heq, -⟩
    simp at heq
  | snoc _ _ hop ih => exact ih.snoc hop

/-- In runs of gated operations a job that has entered a wait for an approval is leased again only
after the approval has been granted in time, and never after it has been denied or has expired. -/
theorem no_lease_without_approval (lib : CronLibrary) (hist : History) (s : QueueState)
    (h : Run lib (Gated lib) hist s) (id a : String) :
    (∀ pre x mid y post, hist = pre ++ x :: (mid ++ y :: post) → enters lib id a x →
      leases lib id y → ∃ z ∈ mid, approves lib id a z) ∧
    ∀ pre x mid y post, hist = pre ++ x :: (mid ++ y :: post) →
      decides lib id a .deny x ∨ decides lib id a .expire x → ¬ leases lib id y := by
  constructor
  · rintro pre x mid ⟨t, op⟩ post rfl henter hlease
    rw [← List.cons_append, ← List.append_assoc] at h
    obtain ⟨hrun, hop⟩ := h.split
    by_contra hnone
    refine hrun.gateInv.not_leases hop ⟨pre, x, mid, rfl, henter, fun z hz happroves => ?_⟩ hlease
    exact hnone ⟨z, hz, happroves⟩
  · rintro pre x mid ⟨t, op⟩ post rfl hreject
    rw [← List.cons_append, ← List.append_assoc] at h
    obtain ⟨hrun, hop⟩ := h.split
    refine hrun.gateInv.not_leases hop (hrun.gateInv.rejected id a x ?_ hreject).1
    exact List.mem_append_right _ List.mem_cons_self

end Runs

theorem no_lease_without_approval_granted :
    let lib := CronLibrary.everyMinute
    let enqueue := Op.enqueue (.plain "sync") 5
    let lease := Op.leaseNextAt "worker" 10 6
    let wait := Op.enterApprovalWait "job_1" "worker" "a" 100 "spends money" 7
    let approve := Op.decideApprovalWaitAt "job_1" "a" .approve "ops" none 8
    let lease' := Op.leaseNextAt "worker" 10 9
    enters lib "job_1" "a" (runAll lib [enqueue, lease], wait) ∧
      leases lib "job_1" (runAll lib [enqueue, lease, wait, approve], lease') ∧
      ∃ z ∈ [(runAll lib [enqueue, lease, wait], approve)], approves lib "job_1" "a" z := by
  intro lib enqueue lease wait approve lease'
  have hrun := (Run.nil : Run lib (Gated lib) [] ⟨.empty, 0⟩)
    |>.snoc enqueue trivial |>.snoc lease trivial |>.snoc wait trivial
    |>.snoc approve (fun _ => by decide +kernel) |>.snoc lease' trivial
  have henter : enters lib "job_1" "a" (runAll lib [enqueue, lease], wait) := by decide +kernel
  have hlease : leases lib "job_1" (runAll lib [enqueue, lease, wait, approve], lease') := by
    decide +kernel
  refine ⟨henter, hlease, ?_⟩
  exact (no_lease_without_approval lib _ _ hrun "job_1" "a").1
    [(runAll lib [], enqueue), (runAll lib [enqueue], lease)] _ _ _ [] rfl henter hlease

/-- A job is leased after a late approval, and after a denial and a retry. -/
theorem lease_without_approval :
    (¬ ∀ hist s, Run .everyMinute (fun _ _ _ => True) hist s → ∀ id a pre x mid y post,
      hist = pre ++ x :: (mid ++ y :: post) → enters .everyMinute id a x →
        leases .everyMinute id y → ∃ z ∈ mid, approves .everyMinute id a z) ∧
    ¬ ∀ hist s, Run .everyMinute (fun _ _ _ => True) hist s → ∀ id a pre x mid y post,
      hist = pre ++ x :: (mid ++ y :: post) →
        decides .everyMinute id a .deny x ∨ decides .everyMinute id a .expire x →
          ¬ leases .everyMinute id y := by
  let lib := CronLibrary.everyMinute
  let enqueue := Op.enqueue (.plain "sync") 5
  let lease := Op.leaseNextAt "worker" 10 6
  let wait := Op.enterApprovalWait "job_1" "worker" "a" 100 "spends money" 7
  let approve := Op.decideApprovalWaitAt "job_1" "a" .approve "ops" none 200
  let deny := Op.decideApprovalWaitAt "job_1" "a" .deny "ops" none 8
  let retry := Op.retryJob "job_1" 9
  let lease' := Op.leaseNextAt "worker" 10 300
  have hwait := (Run.nil : Run lib (fun _ _ _ => True) [] ⟨.empty, 0⟩)
    |>.snoc enqueue trivial |>.snoc lease trivial |>.snoc wait trivial
  refine ⟨fun h => ?_, fun h => ?_⟩
  · have hrun := hwait |>.snoc approve trivial |>.snoc lease' trivial
    have hz := h _ _ hrun "job_1" "a"
      [(runAll lib [], enqueue), (runAll lib [enqueue], lease)] (runAll lib [enqueue, lease], wait)
      [(runAll lib [enqueue, lease, wait], approve)]
      (runAll lib [enqueue, lease, wait, approve], lease') [] rfl (by decide +kernel)
      (by decide +kernel)
    revert hz
    decide +kernel
  · have hrun := hwait |>.snoc deny trivial |>.snoc retry trivial
      |>.snoc lease' trivial
    refine h _ _ hrun "job_1" "a"
      [(runAll lib [], enqueue), (runAll lib [enqueue], lease), (runAll lib [enqueue, lease], wait)]
      (runAll lib [enqueue, lease, wait], deny) [(runAll lib [enqueue, lease, wait, deny], retry)]
      (runAll lib [enqueue, lease, wait, deny, retry], lease') [] rfl ?_ ?_
    · decide +kernel
    · decide +kernel

end Corvid.Queue
