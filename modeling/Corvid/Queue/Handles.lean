import Corvid.Lib.Rely
import Corvid.Queue.Recovery

/-!
# Several handles on one database

Every handle draws the numbers of its jobs from a counter of its own, which is set once, when the
handle is opened. Handles that are open at the same time draw the same numbers. An idempotent enqueue
whose insert fails looks for a row with its key, whichever constraint was violated.

## Main definitions

* `HandleAccess`, `HandleOp`: accesses and operations through a handle
* `EnqueuedOnce`: an idempotent enqueue is exactly once
* `FreshNumber`: an insert with a key that is not taken has an id that is not taken

## Main results

* `enqueuedOnce_of_freshNumber`: idempotent enqueues are exactly once in runs of such inserts
-/

namespace Corvid.Queue

open Store

/-- The database, with the counters of the handles that are open. -/
structure HandlesState where
  db : QueueDb
  nextIds : ℕ → Option ℕ

inductive HandleAccess where
  | openHandle (handle : ℕ)
  | access (handle : ℕ) (q : Access)
deriving DecidableEq, Repr

abbrev HandleAccess.Reply : HandleAccess → Type
  | openHandle _ => Unit
  | access _ q => q.Reply

def HandleAccess.exec : (q : HandleAccess) → HandlesState → q.Reply × HandlesState
  -- `seed_next_id`
  | openHandle h, s =>
    ((), { s with nextIds := Function.update s.nextIds h (some (seedNextId s.db.jobs)) })
  | access h q, s =>
    ((q.exec ⟨s.db, (s.nextIds h).getD 0⟩).1,
      { db := (q.exec ⟨s.db, (s.nextIds h).getD 0⟩).2.db
        nextIds := Function.update s.nextIds h
          (some (q.exec ⟨s.db, (s.nextIds h).getD 0⟩).2.nextId) })

/-- An operation of the queue through a handle. -/
def onHandle {α : Type} (h : ℕ) : QueueM α → Prog HandleAccess.Reply RuntimeError α
  | .ret a => .ret a
  | .fail e => .fail e
  | .call q k => .call (.access h q) fun r => onHandle h (k r)

inductive HandleOp where
  | openHandle (handle : ℕ)
  | enqueue (handle : ℕ) (spec : JobSpec) (now : ℕ)
  | enqueueIdempotent (handle : ℕ) (spec : JobSpec) (key : Option String) (now : ℕ)
deriving DecidableEq, Repr

/-- The program of an operation. Its result is the job it returns, if it returns one. -/
def HandleOp.prog : HandleOp → Prog HandleAccess.Reply RuntimeError (Option QueueJob)
  | openHandle h => (fun _ => none) <$> Prog.query (.openHandle h)
  | enqueue h spec now => some <$> onHandle h (enqueueTypedAt spec now)
  | enqueueIdempotent h spec key now => some <$> onHandle h (enqueueTypedIdempotent spec key now)

abbrev HandleLabel (ι : Type) :=
  Pool.Label ι HandlesState HandleAccess RuntimeError (Option QueueJob) HandleOp

abbrev HandlePool (ι : Type) :=
  Pool ι HandlesState HandleAccess.Reply RuntimeError (Option QueueJob) HandleOp

/-- A handle is opened once, and used when it is open. -/
def Opened {ι : Type} (log : List (HandleLabel ι)) (c : HandlePool ι) : HandleLabel ι → Prop
  | .start _ (.openHandle h) => ∀ i, .start i (.openHandle h) ∉ log
  | .start _ (.enqueue h ..) => (c.state.nextIds h).isSome
  | .start _ (.enqueueIdempotent h ..) => (c.state.nextIds h).isSome
  | _ => True

/-- An idempotent enqueue of a job with a key returns a job. Calls with the same key return the same
job, which is the only one with that key, and calls with different keys return different jobs. -/
structure EnqueuedOnce {ι : Type} (log : List (HandleLabel ι)) (c : HandlePool ι) : Prop where
  succeeds : ∀ i h spec key now r, .finish i (.enqueueIdempotent h spec (some key) now) r ∈ log →
    ¬ blank key → ¬ blank spec.task → ∃ job, r = .ok (some job)
  same : ∀ i i' h h' spec spec' key now now' job job',
    .finish i (.enqueueIdempotent h spec (some key) now) (.ok (some job)) ∈ log →
    .finish i' (.enqueueIdempotent h' spec' (some key) now') (.ok (some job')) ∈ log →
    ¬ blank key → job.id = job'.id
  only : ∀ i h spec key now job,
    .finish i (.enqueueIdempotent h spec (some key) now) (.ok (some job)) ∈ log → ¬ blank key →
    c.state.db.jobs.countP (fun j => j.idempotencyKey = some key) = 1
  distinct : ∀ i i' h h' spec spec' key key' now now' job job',
    .finish i (.enqueueIdempotent h spec (some key) now) (.ok (some job)) ∈ log →
    .finish i' (.enqueueIdempotent h' spec' (some key') now') (.ok (some job')) ∈ log →
    ¬ blank key → ¬ blank key' → key ≠ key' → job.id ≠ job'.id

/-- A row that is inserted with a key has a key or an id of its own. -/
def FreshNumber (s : HandlesState) : HandleAccess → Prop
  | .access _ (.insertJob job) => ∀ key, job.idempotencyKey = some key →
      (∀ j ∈ s.db.jobs, j.id ≠ job.id) ∨ ∃ j ∈ s.db.jobs, j.idempotencyKey = some key
  | _ => True

/-! ### Rows -/

theorem RowStep.idempotencyKey_eq {db : QueueDb} {q : Access} {j j' : QueueJob}
    (h : RowStep db q j j') : j'.idempotencyKey = j.idempotencyKey := by
  cases h <;> rfl

/-- Rows have different ids, and different keys if they have any. -/
structure QueueDb.UniqueKeys (db : QueueDb) : Prop where
  keyed : db.Keyed
  keys : ∀ key, db.jobs.countP (fun j => j.idempotencyKey = some key) ≤ 1

/-- Rows stay, with their ids and keys. -/
def KeepsRows (db db' : QueueDb) : Prop :=
  ∀ j ∈ db.jobs, ∃ j' ∈ db'.jobs, j'.id = j.id ∧ j'.idempotencyKey = j.idempotencyKey

theorem KeepsRows.refl (db : QueueDb) : KeepsRows db db := fun j hj => ⟨j, hj, rfl, rfl⟩

theorem KeepsRows.trans {db db' db'' : QueueDb} (h : KeepsRows db db') (h' : KeepsRows db' db'') :
    KeepsRows db db'' := by
  intro j hj
  obtain ⟨j', hj', hid, hkey⟩ := h j hj
  obtain ⟨j'', hj'', hid', hkey'⟩ := h' j' hj'
  exact ⟨j'', hj'', hid'.trans hid, hkey'.trans hkey⟩

/-- A row is inserted unless its id or its key is taken. -/
theorem insertJob_cases (db : QueueDb) (job : QueueJob) :
    (((∃ j ∈ db.jobs, j.id = job.id) ∨
        ∃ key, job.idempotencyKey = some key ∧ ∃ j ∈ db.jobs, j.idempotencyKey = some key) ∧
      ∃ err, db.insertJob job = (.error err, db)) ∨
    (∀ key, job.idempotencyKey = some key → ∀ j ∈ db.jobs, j.idempotencyKey ≠ some key) ∧
      db.insertJob job = (.ok (), { db with jobs := db.jobs ++ [job] }) := by
  unfold QueueDb.insertJob
  split
  next hid =>
    obtain ⟨j, hj⟩ := Option.isSome_iff_exists.mp hid
    refine .inl ⟨.inl ⟨j, List.mem_of_find?_eq_some hj, ?_⟩, _, rfl⟩
    simpa using List.find?_some hj
  next =>
    split
    next hkey =>
      obtain ⟨hsome, hany⟩ := hkey
      obtain ⟨key, hkey⟩ := Option.isSome_iff_exists.mp hsome
      obtain ⟨j, hj, hsame⟩ := List.any_eq_true.mp hany
      exact .inl ⟨.inr ⟨key, hkey, j, hj, (of_decide_eq_true hsame).trans hkey⟩, _, rfl⟩
    next hfree =>
      refine .inr ⟨fun key hkey j hj hsame => hfree ⟨by simp [hkey], ?_⟩, rfl⟩
      exact List.any_eq_true.mpr ⟨j, hj, decide_eq_true (hsame.trans hkey.symm)⟩

theorem UniqueKeys.exec {db : QueueDb} (h : db.UniqueKeys) (q : Access) :
    (q.execDb db).2.UniqueKeys ∧ KeepsRows db (q.execDb db).2 := by
  obtain ⟨g, hg, hjobs⟩ := exec_jobs h.keyed q
  have hmap : ∀ key, (db.jobs.map g).countP (fun j => j.idempotencyKey = some key) =
      db.jobs.countP (fun j => j.idempotencyKey = some key) := by
    intro key
    rw [List.countP_map]
    refine List.countP_congr fun j hj => ?_
    simp [(hg j hj).idempotencyKey_eq]
  have hkeeps : KeepsRows db (q.execDb db).2 := by
    intro j hj
    have hmem : g j ∈ (q.execDb db).2.jobs := by
      have hgj : g j ∈ db.jobs.map g := List.mem_map_of_mem hj
      rcases hjobs with hjobs | ⟨job, -, -, hjobs⟩
      · rwa [hjobs]
      · rw [hjobs]
        exact List.mem_append_left _ hgj
    exact ⟨g j, hmem, (hg j hj).id_eq, (hg j hj).idempotencyKey_eq⟩
  refine ⟨⟨keyed_exec h.keyed q, fun key => ?_⟩, hkeeps⟩
  rcases hjobs with hjobs | ⟨job, rfl, -, -⟩
  · rw [hjobs, hmap]
    exact h.keys key
  · show (db.insertJob job).2.jobs.countP _ ≤ 1
    rcases insertJob_cases db job with ⟨-, err, hinsert⟩ | ⟨hfree, hinsert⟩
    · rw [hinsert]
      exact h.keys key
    · rw [hinsert, List.countP_append, List.countP_singleton]
      split
      next hkey =>
        have hzero : db.jobs.countP (fun j => j.idempotencyKey = some key) = 0 := by
          rw [List.countP_eq_zero]
          exact fun j hj hj' => hfree key (of_decide_eq_true hkey) j hj (of_decide_eq_true hj')
        rw [hzero]
      next => exact h.keys key

/-! ### Enqueues -/

/-- How an idempotent enqueue ends: with a row that has its key and the id of its result. -/
def HandleOp.Done : HandleOp → Except RuntimeError (Option QueueJob) → HandlesState → Prop
  | enqueueIdempotent _ spec (some key) _, r, s => ¬ blank key →
      (¬ blank spec.task → ∃ job, r = .ok (some job)) ∧
      ∀ job, r = .ok (some job) → ∃ j ∈ s.db.jobs, j.id = job.id ∧ j.idempotencyKey = some key
  | _, _, _ => True

theorem getByIdempotencyKey_eq_some {h : ℕ} {s : HandlesState} {key : String} {j : QueueJob}
    (hj : (HandleAccess.exec (.access h (.getByIdempotencyKey key)) s).1 = some j) :
    j ∈ s.db.jobs ∧ j.idempotencyKey = some key :=
  ⟨List.mem_of_find?_eq_some hj, by simpa using List.find?_some hj⟩

theorem ends_enqueueIdempotent (h : ℕ) (spec : JobSpec) {key : String} (hkey : ¬ blank key)
    (now : ℕ) (s : HandlesState) :
    (onHandle h (enqueueTypedIdempotent spec (some key) now)).Ends HandleAccess.exec
      (fun s s' => KeepsRows s.db s'.db) FreshNumber
      (fun r => HandleOp.Done (.enqueueIdempotent h spec (some key) now) (r.map some)) s := by
  have hfilter : (some key).filter (!blank ·) = some key := by simp [hkey]
  have hreturn : ∀ {j : QueueJob} {s : HandlesState}, j ∈ s.db.jobs → j.idempotencyKey = some key →
      (Prog.ret j : Prog HandleAccess.Reply RuntimeError QueueJob).Ends HandleAccess.exec
        (fun s s' => KeepsRows s.db s'.db) FreshNumber
        (fun r => HandleOp.Done (.enqueueIdempotent h spec (some key) now) (r.map some)) s := by
    intro j s hj hjkey s' hs' _
    refine ⟨fun _ => ⟨j, rfl⟩, fun job hjob => ?_⟩
    cases hjob
    obtain ⟨j', hj', hid, hkey'⟩ := hs' j hj
    exact ⟨j', hj', hid, hkey'.trans hjkey⟩
  unfold enqueueTypedIdempotent
  rw [hfilter]
  intro s₁ hs₁ _
  generalize hfound : (HandleAccess.exec (.access h (.getByIdempotencyKey key)) s₁).1 = found
  cases found with
  | some j => 
    obtain ⟨hj, hjkey⟩ := getByIdempotencyKey_eq_some hfound
    exact hreturn hj hjkey
  | none =>
    dsimp only
    split
    next hblank =>
      intro s' _ _
      exact ⟨fun htask => absurd hblank htask, fun job hjob => nomatch hjob⟩
    next =>
      intro s₂ _ _ s₃ _ hfresh
      generalize (HandleAccess.exec (.access h .freshId) s₂).1 = id at hfresh ⊢
      have hjobkey : (spec.job id (some key) now).idempotencyKey = some key := rfl
      have hinsert : HandleAccess.exec (.access h (.insertJob (spec.job id (some key) now))) s₃ =
          ((s₃.db.insertJob (spec.job id (some key) now)).1,
            { db := (s₃.db.insertJob (spec.job id (some key) now)).2
              nextIds := Function.update s₃.nextIds h (some ((s₃.nextIds h).getD 0)) }) := rfl
      rw [hinsert]
      rcases insertJob_cases s₃.db (spec.job id (some key) now) with
        ⟨htaken, err, heq⟩ | ⟨-, heq⟩
      · -- the id is free, unless the key is taken
        obtain ⟨j, hj, hjkey⟩ : ∃ j ∈ s₃.db.jobs, j.idempotencyKey = some key := by
          rcases htaken with ⟨j, hj, hid⟩ | ⟨key', hkey', hj⟩
          · rcases hfresh key hjobkey with hfree | hj'
            · exact absurd hid (hfree j hj)
            · exact hj'
          · cases hjobkey.symm.trans hkey'
            exact hj
        rw [heq]
        intro s₄ hs₄ _
        obtain ⟨j', hj', -, hkey'⟩ := hs₄ j hj
        generalize hagain : (HandleAccess.exec (.access h (.getByIdempotencyKey key)) s₄).1 = again
        cases again with
        | some j'' =>
          obtain ⟨hj'', hjkey''⟩ := getByIdempotencyKey_eq_some hagain
          exact hreturn hj'' hjkey''
        | none =>
          have hnone := List.find?_eq_none.mp hagain j' hj'
          exact absurd (decide_eq_true (hkey'.trans hjkey)) hnone
      · rw [heq]
        exact hreturn (List.mem_append_right _ (List.mem_singleton_self _)) hjobkey

theorem ends_handleOp (op : HandleOp) (s : HandlesState) :
    op.prog.Ends HandleAccess.exec (fun s s' => KeepsRows s.db s'.db) FreshNumber op.Done s := by
  cases op with
  | openHandle => exact Prog.ends_of_forall (fun _ _ => trivial) _ s
  | enqueue => exact Prog.ends_of_forall (fun _ _ => trivial) _ s
  | enqueueIdempotent h spec key now =>
    cases key with
    | none => exact Prog.ends_of_forall (fun _ _ => trivial) _ s
    | some key =>
      by_cases hkey : blank key
      · exact Prog.ends_of_forall (fun _ _ hnot => absurd hkey hnot) _ s
      · exact (ends_enqueueIdempotent h spec hkey now s).map

theorem handleExec_uniqueKeys (s : HandlesState) (q : HandleAccess) (h : s.db.UniqueKeys) :
    (q.exec s).2.db.UniqueKeys ∧ KeepsRows s.db (q.exec s).2.db := by
  cases q with
  | openHandle => exact ⟨h, .refl _⟩
  | access handle q =>
    show (q.exec ⟨s.db, (s.nextIds handle).getD 0⟩).2.db.UniqueKeys ∧
      KeepsRows s.db (q.exec ⟨s.db, (s.nextIds handle).getD 0⟩).2.db
    rw [exec_db]
    exact UniqueKeys.exec h q

/-- Rows with the same key are the same. -/
theorem QueueDb.UniqueKeys.countP_eq_one {db : QueueDb} (h : db.UniqueKeys) {j : QueueJob}
    {key : String} (hj : j ∈ db.jobs) (hkey : j.idempotencyKey = some key) :
    db.jobs.countP (fun j => j.idempotencyKey = some key) = 1 := by
  have hpos : 0 < db.jobs.countP (fun j => j.idempotencyKey = some key) :=
    List.countP_pos_iff.mpr ⟨j, hj, decide_eq_true hkey⟩
  have hle := h.keys key
  omega

theorem QueueDb.UniqueKeys.eq_of_key {db : QueueDb} (h : db.UniqueKeys) {j j' : QueueJob}
    {key : String} (hj : j ∈ db.jobs) (hj' : j' ∈ db.jobs) (hkey : j.idempotencyKey = some key)
    (hkey' : j'.idempotencyKey = some key) : j = j' := by
  have hone := h.countP_eq_one hj hkey
  rw [List.countP_eq_length_filter, List.length_eq_one_iff] at hone
  obtain ⟨j₀, hfilter⟩ := hone
  have hmem : ∀ {j}, j ∈ db.jobs → j.idempotencyKey = some key → j = j₀ := by
    intro j hj hkey
    have hmem : j ∈ db.jobs.filter (fun j => j.idempotencyKey = some key) :=
      List.mem_filter.mpr ⟨hj, decide_eq_true hkey⟩
    rw [hfilter] at hmem
    exact List.mem_singleton.mp hmem
  exact (hmem hj hkey).trans (hmem hj' hkey').symm

/-- Idempotent enqueues are exactly once across handles, in runs in which a job is inserted with an id
that is free, unless its key is taken. -/
theorem enqueuedOnce_of_freshNumber {ι : Type} [DecidableEq ι] (log : List (HandleLabel ι))
    (c : HandlePool ι)
    (h : Pool.Run HandleAccess.exec HandleOp.prog ⟨.empty, fun _ => none⟩
      (fun log c l => Opened log c l ∧ ∀ i s q, l = .access i s q → FreshNumber s q) log c) :
    EnqueuedOnce log c := by
  obtain ⟨hunique, -, hdone⟩ := h.ends (fun s => .refl s.db) (fun _ _ _ h h' => h.trans h')
    handleExec_uniqueKeys (fun _ _ _ _ _ hl => hl.2 _ _ _ rfl) ends_handleOp
    ⟨List.nodup_nil, fun key => Nat.zero_le 1⟩
  refine ⟨?_, ?_, ?_, ?_⟩
  · intro i h spec key now r hmem hkey htask
    exact (hdone i _ r hmem hkey).1 htask
  · intro i i' h h' spec spec' key now now' job job' hmem hmem' hkey
    obtain ⟨j, hj, hid, hjkey⟩ := (hdone i _ _ hmem hkey).2 job rfl
    obtain ⟨j', hj', hid', hjkey'⟩ := (hdone i' _ _ hmem' hkey).2 job' rfl
    rw [← hid, ← hid', hunique.eq_of_key hj hj' hjkey hjkey']
  · intro i h spec key now job hmem hkey
    obtain ⟨j, hj, -, hjkey⟩ := (hdone i _ _ hmem hkey).2 job rfl
    exact hunique.countP_eq_one hj hjkey
  · intro i i' h h' spec spec' key key' now now' job job' hmem hmem' hkey hkey' hne hsame
    obtain ⟨j, hj, hid, hjkey⟩ := (hdone i _ _ hmem hkey).2 job rfl
    obtain ⟨j', hj', hid', hjkey'⟩ := (hdone i' _ _ hmem' hkey').2 job' rfl
    have hfind := (findJob_eq_some hunique.keyed).mpr ⟨hj, hid⟩
    have hfind' := (findJob_eq_some hunique.keyed).mpr ⟨hj', hid'.trans hsame.symm⟩
    obtain rfl := Option.some.inj (hfind.symm.trans hfind')
    exact hne (Option.some.inj (hjkey.symm.trans hjkey'))

/-! ### Schedules -/

def playHandles (schedule : List (List (String × HandleOp))) :
    List (HandleLabel String) × HandlePool String :=
  Pool.play HandleAccess.exec HandleOp.prog ⟨.empty, fun _ => none⟩ schedule.flatten

def opensHandle (h : ℕ) : HandleLabel String → Bool
  | .start _ (.openHandle h') => h' = h
  | _ => false

def handleOpenTest (c : HandlePool String) : HandleLabel String → Bool
  | .start _ (.enqueue h ..) => (c.state.nextIds h).isSome
  | .start _ (.enqueueIdempotent h ..) => (c.state.nextIds h).isSome
  | _ => true

/-- A handle that is opened has not been opened before. -/
def opensOnce (log : List (HandleLabel String)) : HandleLabel String → Bool
  | .start _ (.openHandle h) => !log.any (opensHandle h)
  | _ => true

theorem opened_of_tests {log : List (HandleLabel String)} {c : HandlePool String}
    (h : Pool.Run HandleAccess.exec HandleOp.prog ⟨.empty, fun _ => none⟩
      (fun _ c l => handleOpenTest c l) log c) (honce : Pool.passesAt opensOnce log) :
    Pool.Run HandleAccess.exec HandleOp.prog ⟨.empty, fun _ => none⟩ Opened log c := by
  refine (h.and (h.of_passesAt honce)).mono fun log c l hl => ?_
  unfold Opened
  split
  next i handle =>
    intro j hmem
    have hany : log.any (opensHandle handle) := List.any_eq_true.mpr ⟨_, hmem, decide_eq_true rfl⟩
    simpa [opensOnce, hany] using hl.2
  next => exact hl.1
  next => exact hl.1
  next => trivial

/-- A handle is opened after the other one has stored a job. -/
def inTurn : List (List (String × HandleOp)) :=
  [.replicate 3 ("a", .openHandle 1),
    .replicate 5 ("a", .enqueueIdempotent 1 (.plain "sync") (some "k") 4),
    .replicate 3 ("b", .openHandle 2),
    .replicate 3 ("b", .enqueueIdempotent 2 (.plain "sync") (some "k") 5),
    .replicate 5 ("b", .enqueueIdempotent 2 (.plain "sync") (some "l") 6)]

/-- Both handles are opened on the empty database. -/
def bothEmpty : List (List (String × HandleOp)) :=
  [.replicate 3 ("a", .openHandle 1),
    .replicate 3 ("b", .openHandle 2),
    .replicate 4 ("a", .enqueue 1 (.plain "sync") 4),
    .replicate 6 ("b", .enqueueIdempotent 2 (.plain "sync") (some "k") 5)]

def freshNumberTest (c : HandlePool String) (l : HandleLabel String) : Bool :=
  handleOpenTest c l && match l with
    | .access _ s (.access _ (.insertJob job)) => job.idempotencyKey.all fun key =>
        (s.db.jobs.all fun j => j.id ≠ job.id) || s.db.jobs.any fun j => j.idempotencyKey = some key
    | _ => true

theorem freshNumber_of_freshNumberTest (_ : List (HandleLabel String)) (c : HandlePool String)
    (l : HandleLabel String) (h : freshNumberTest c l) :
    handleOpenTest c l ∧ ∀ i s q, l = .access i s q → FreshNumber s q := by
  obtain ⟨hopen, hfresh⟩ := Bool.and_eq_true_iff.mp h
  refine ⟨hopen, ?_⟩
  rintro i s q rfl
  unfold FreshNumber
  split
  next h job =>
    intro key hkey
    dsimp only at hfresh
    rw [hkey, Option.all_some, Bool.or_eq_true] at hfresh
    simpa using hfresh
  next => trivial

theorem enqueuedOnce_inTurn :
    EnqueuedOnce (playHandles inTurn).1 (playHandles inTurn).2 ∧
      (playHandles inTurn).2.state.db.jobs.map (fun j => (j.id, j.idempotencyKey)) =
        [("job_1", some "k"), ("job_2", some "l")] := by
  have hrun : Pool.Run HandleAccess.exec HandleOp.prog ⟨.empty, fun _ => none⟩
      (fun _ c l => handleOpenTest c l ∧ ∀ i s q, l = .access i s q → FreshNumber s q)
      (playHandles inTurn).1 (playHandles inTurn).2 :=
    Pool.run_of_passes freshNumber_of_freshNumberTest (by decide +kernel)
  have hopened := opened_of_tests (hrun.mono fun _ _ _ hl => hl.1) (by decide +kernel)
  refine ⟨enqueuedOnce_of_freshNumber _ _ ?_, by decide +kernel⟩
  exact (hopened.and hrun).mono fun _ _ _ hl => ⟨hl.1, hl.2.2⟩

/-- An idempotent enqueue fails although its key and its task are not blank. -/
def failsToEnqueue : HandleLabel String → Bool
  | .finish _ (.enqueueIdempotent _ spec (some key) _) (.error _) => !blank key && !blank spec.task
  | _ => false

/-- A plain enqueue through one handle takes the id of an idempotent one through another handle, which
fails and stores nothing. -/
theorem enqueue_fails :
    ¬ ∀ (log : List (HandleLabel String)) (c : HandlePool String),
      Pool.Run HandleAccess.exec HandleOp.prog ⟨.empty, fun _ => none⟩ Opened log c →
        EnqueuedOnce log c := by
  intro h
  have hrun : Pool.Run HandleAccess.exec HandleOp.prog ⟨.empty, fun _ => none⟩
      (fun _ c l => handleOpenTest c l) (playHandles bothEmpty).1 (playHandles bothEmpty).2 :=
    Pool.run_of_passes (fun _ _ _ hl => hl) (by decide +kernel)
  have honce := h _ _ (opened_of_tests hrun (by decide +kernel))
  have hfails : (playHandles bothEmpty).1.any failsToEnqueue := by decide +kernel
  obtain ⟨l, hmem, hl⟩ := List.any_eq_true.mp hfails
  unfold failsToEnqueue at hl
  split at hl
  next =>
    obtain ⟨hkey, htask⟩ := Bool.and_eq_true_iff.mp hl
    obtain ⟨job, hjob⟩ := honce.succeeds _ _ _ _ _ _ hmem (by simpa using hkey) (by simpa using htask)
    cases hjob
  next => cases hl

end Corvid.Queue
