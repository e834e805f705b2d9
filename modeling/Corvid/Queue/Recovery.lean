import Corvid.Queue.Rows
import Mathlib.Data.List.Forall2

/-!
# Recovery of schedules

Each fire of a schedule gets exactly one job, also when recoveries crash and the queue is reopened.
Two things can go wrong: a crash between the record of a fire and its job loses the job, as the record
keeps later recoveries from enqueueing it; and a recovery looks for fires strictly after a time that
is one millisecond late.

## Main definitions

* `reopen`: the runtime after a restart
* `IsFire`, `Lawful`: the fires of a schedule, and what is assumed of the cron library
* `Attempts`: recoveries one after another, each of them complete or broken off by a crash
* `Careful`: the recoveries that neither break a fire in two nor overlook one
* `ExactlyOnce`: the jobs of all fires after recoveries

## Main results

* `recovery_exactly_once`: careful recoveries fire each occurrence exactly once
* `recovery_loses_fire`: other recoveries need not
-/

namespace Corvid.Queue

open Store

/-! ### Reopening -/

/-- `id like 'job_%'`. -/
def likeJob (id : String) : Bool :=
  match id.toList with
  | a :: b :: c :: _ :: _ => a.toLower = 'j' ∧ b.toLower = 'o' ∧ c.toLower = 'b'
  | _ => false

/-- `cast(.. as integer)`: the number at the start of a text, or zero. -/
def castInteger (cs : List Char) : ℤ :=
  let magnitude (cs : List Char) : ℤ := Nat.ofDigitChars 10 (cs.takeWhile Char.isDigit) 0
  match cs.dropWhile fun c => c = ' ' ∨ 9 ≤ c.toNat ∧ c.toNat ≤ 13 with
  | '-' :: cs => max (-magnitude cs) (-2 ^ 63)
  | '+' :: cs => min (magnitude cs) (2 ^ 63 - 1)
  | cs => min (magnitude cs) (2 ^ 63 - 1)

/-- The largest number of a job id. -/
def seedNextId (jobs : List QueueJob) : ℕ :=
  (((jobs.filter (likeJob ·.id)).map fun j => castInteger (j.id.toList.drop 4)).foldl max 0).toNat

def reopen (s : QueueState) : QueueState := { s with nextId := seedNextId s.db.jobs }

/-! ### Fires -/

/-- The cron library returns the first fire after a time, if there is one. -/
structure CronLibrary.Lawful (lib : CronLibrary) : Prop where
  next_some : ∀ cron zone t f, lib.next cron zone t = some f →
    t < f ∧ ∀ t' g, lib.next cron zone t' = some g → t < g → f ≤ g
  next_none : ∀ cron zone t, lib.next cron zone t = none →
    ∀ t' g, lib.next cron zone t' = some g → g ≤ t

def CronLibrary.IsFire (lib : CronLibrary) (m : QueueScheduleManifest) (f : ℕ) : Prop :=
  ∃ cron zone t, parseCron lib m.cron = .ok cron ∧ Queue.parseZone lib m.zone = .ok zone ∧
    lib.next cron zone t = some (f : ℤ)

/-- The job says that it is that of a fire of a schedule. -/
def isFireJob (id : String) (f : ℕ) (j : QueueJob) : Bool :=
  match j.payload with
  | .object fields => fields.lookup "schedule_id" = some (.string id) ∧
      fields.lookup "scheduled_fire_ms" = some (.int f)
  | _ => false

def QueueDb.recorded (db : QueueDb) (id : String) (f : ℕ) : Bool :=
  db.fires.any fun r => r.scheduleId = id ∧ r.fireMs = f

/-! ### Attempts -/

/-- A fire is recorded and its job is not inserted yet. -/
def openFire (s : QueueState) : Access → Bool
  | .recordFire scheduleId fireMs now => (s.db.recordFire scheduleId fireMs now).1
  | .freshId => true
  | _ => false

/-- The last time in milliseconds that can be represented. -/
def maxMillis : ℕ := 8210266876799999

section Attempts

variable (lib : CronLibrary)

def dueFires (now maxMissed : ℕ) (m : QueueScheduleManifest) : List ℕ :=
  (missedFireTimes lib m now maxMissed).toOption.getD []

/-- No schedule has more fires in its window than a recovery enqueues. -/
def EnoughMissed (s : QueueState) (now maxMissed : ℕ) : Prop :=
  ∀ m ∈ s.db.schedules, ∀ cron zone, parseCron lib m.cron = .ok cron →
    parseZone lib m.zone = .ok zone →
    ∀ n, (firesAfter (lib.next cron zone) now n m.startMs).length ≤ maxMissed

/-- The times are in range and ids do not run out; no fire lies between the last check and the start
of the window; and a crash comes neither after the record of a fire nor before its job. -/
def Careful (s : QueueState) (now maxMissed : ℕ) (crash : Option ℕ) : Prop :=
  now ≤ maxMillis ∧
  s.db.jobs.length + (s.db.schedules.map fun m => (dueFires lib now maxMissed m).length).sum
    < 2 ^ 63 ∧
  (∀ m ∈ s.db.schedules, m.lastCheckedMs < now → m.startMs ≤ maxMillis ∧
    ∀ f, lib.IsFire m f → m.lastCheckedMs < f → m.startMs < f) ∧
  ∀ n ∈ crash, (((Op.recoverSchedulesAt now maxMissed).prog lib).trace Access.exec s |>.take n
    |>.getLast?.all fun x => !openFire x.1 x.2)

/-- The schedules as they are created. -/
def created (manifests : List (QueueScheduleManifest × Option ℚ × ℕ)) : QueueState :=
  runAll lib (manifests.map fun m => .upsertSchedule m.1 m.2.1 m.2.2)

/-- Recoveries at increasing times. A recovery completes, or crashes after some accesses and the
queue is reopened. -/
inductive Attempts (C : QueueState → ℕ → ℕ → Option ℕ → Prop) (s₀ : QueueState) :
    ℕ → QueueState → Prop
  | init : Attempts C s₀ 0 s₀
  | complete {t : ℕ} {s : QueueState} (now maxMissed : ℕ) : Attempts C s₀ t s → t ≤ now →
      EnoughMissed lib s now maxMissed → C s now maxMissed none →
      Attempts C s₀ now ((Op.recoverSchedulesAt now maxMissed).run lib s).2
  | crash {t : ℕ} {s : QueueState} (now maxMissed n : ℕ) : Attempts C s₀ t s → t ≤ now →
      EnoughMissed lib s now maxMissed → C s now maxMissed (some n) →
      Attempts C s₀ now
        (reopen (((Op.recoverSchedulesAt now maxMissed).prog lib).crash Access.exec n s))

/-- Whatever recoveries there have been, no fire has two jobs, and after one that completes each fire
since the creation of its schedule has exactly one. -/
def ExactlyOnce (C : QueueState → ℕ → ℕ → Option ℕ → Prop) : Prop :=
  ∀ manifests t s, Attempts lib C (created lib manifests) t s →
    (∀ id f, s.db.jobs.countP (isFireJob id f) ≤ 1) ∧
    ∀ now maxMissed, t ≤ now → EnoughMissed lib s now maxMissed → C s now maxMissed none →
      ∀ m ∈ (created lib manifests).db.schedules, m.missedPolicy = .enqueueAllBounded →
        ∀ f, lib.IsFire m f → m.lastCheckedMs < f → f ≤ now →
          ((Op.recoverSchedulesAt now maxMissed).run lib s).2.db.jobs.countP (isFireJob m.id f) = 1

end Attempts

/-! ### Job ids -/

def jobId (n : ℕ) : String := s!"job_{n}"

theorem toList_jobId (n : ℕ) :
    (jobId n).toList = 'j' :: 'o' :: 'b' :: '_' :: Nat.toDigits 10 n := by
  show ("job_" ++ toString n).toList = _
  rw [String.toList_append, Text.toList_toString]
  rfl

theorem jobId_injective : Function.Injective jobId := Text.append_toString_injective "job_"

theorem castInteger_toDigits {n : ℕ} (h : n < 2 ^ 63) : castInteger (Nat.toDigits 10 n) = n := by
  have hdigit : ∀ c ∈ Nat.toDigits 10 n, c.isDigit := fun c hc =>
    Nat.isDigit_of_mem_toDigits (by decide) (by decide) hc
  have hvalue := Nat.ofDigitChars_ten_toDigits (n := n)
  generalize hcs : Nat.toDigits 10 n = cs at hdigit hvalue
  cases cs with
  | nil => exact absurd hcs Nat.toDigits_ne_nil
  | cons c cs =>
    have hc := hdigit c List.mem_cons_self
    have hspace : ¬ (c = ' ' ∨ 9 ≤ c.toNat ∧ c.toNat ≤ 13) := by
      rintro (rfl | hc')
      · exact absurd hc (by decide)
      · have hge : 48 ≤ c.toNat := by
          simp only [Char.isDigit, Bool.and_eq_true, decide_eq_true_eq] at hc
          exact hc.1
        omega
    unfold castInteger
    rw [List.dropWhile_cons_of_neg (by simpa using hspace)]
    split
    next heq =>
      rw [(List.cons.inj heq).1] at hc
      exact absurd hc (by decide)
    next heq =>
      rw [(List.cons.inj heq).1] at hc
      exact absurd hc (by decide)
    next =>
      dsimp only
      rw [List.takeWhile_eq_self_iff.mpr hdigit, hvalue]
      omega

/-- The ids of jobs that are enqueued one after another. -/
def jobIds (n : ℕ) : List String := (List.range n).map fun i => jobId (i + 1)

theorem jobIds_succ (n : ℕ) : jobIds (n + 1) = jobIds n ++ [jobId (n + 1)] := by
  simp [jobIds, List.range_succ]

theorem jobId_notMem_jobIds (n : ℕ) : jobId (n + 1) ∉ jobIds n := by
  intro hmem
  obtain ⟨i, hi, heq⟩ := List.mem_map.mp hmem
  have hlt := List.mem_range.mp hi
  have hsucc := jobId_injective heq
  omega

theorem seedNextId_of_jobIds {jobs : List QueueJob} {n : ℕ} (hn : n < 2 ^ 63)
    (h : jobs.map QueueJob.id = jobIds n) : seedNextId jobs = n := by
  have hlike : ∀ i, likeJob (jobId i) := by
    intro i
    simp [likeJob, toList_jobId]
  have hcast : ∀ i, i < 2 ^ 63 → castInteger ((jobId i).toList.drop 4) = i := by
    intro i hi
    rw [toList_jobId]
    exact castInteger_toDigits hi
  have hseed : seedNextId jobs = ((((jobs.map QueueJob.id).filter likeJob).map fun id =>
      castInteger (id.toList.drop 4)).foldl max 0).toNat := by
    rw [seedNextId, List.filter_map, List.map_map]
    rfl
  rw [hseed, h]
  suffices hfold : (((jobIds n).filter likeJob).map fun id =>
      castInteger (id.toList.drop 4)).foldl max 0 = (n : ℤ) by
    rw [hfold]
    rfl
  clear hseed h
  induction n with
  | zero => rfl
  | succ n ih =>
    rw [jobIds_succ, List.filter_append, List.map_append, List.foldl_append,
      ih (Nat.lt_of_succ_lt hn), List.filter_cons_of_pos (hlike _)]
    simp only [List.filter_nil, List.map_cons, List.map_nil, List.foldl_cons, List.foldl_nil,
      hcast _ hn]
    omega

/-! ### The fires of a window -/

section Window

variable {lib : CronLibrary}

/-- A recovery that is not cut short finds all fires of its window. -/
theorem mem_firesAfter (hlib : lib.Lawful) {cron : lib.Schedule} {zone : lib.Zone} {last f t' : ℤ}
    (hf : lib.next cron zone t' = some f) (hlast : f ≤ last) {n : ℕ} {t : ℤ} (ht : t < f)
    (hn : ∀ k, (firesAfter (lib.next cron zone) last k t).length ≤ n) :
    f ∈ firesAfter (lib.next cron zone) last n t := by
  have hnext : ∀ t, t < f → ∃ g, lib.next cron zone t = some g ∧ g ≤ f := by
    intro t ht
    cases hg : lib.next cron zone t with
    | none =>
      have hle := hlib.next_none cron zone t hg t' f hf
      omega
    | some g => exact ⟨g, rfl, (hlib.next_some cron zone t g hg).2 t' f hf ht⟩
  induction n generalizing t with
  | zero =>
    obtain ⟨g, hg, hgf⟩ := hnext t ht
    have hone := hn 1
    rw [firesAfter, hg] at hone
    dsimp only at hone
    rw [if_neg (by omega), List.length_cons] at hone
    omega
  | succ n ih =>
    obtain ⟨g, hg, hgf⟩ := hnext t ht
    rw [firesAfter, hg]
    dsimp only
    rw [if_neg (by omega)]
    rcases hgf.eq_or_lt with rfl | hlt
    · exact List.mem_cons_self
    · refine List.mem_cons_of_mem _ (ih hlt fun k => ?_)
      have hk := hn (k + 1)
      rw [firesAfter, hg] at hk
      dsimp only at hk
      rw [if_neg (by omega), List.length_cons] at hk
      omega

/-- The expression, the time zone and the task of a schedule have been checked when it was created. -/
structure Valid (lib : CronLibrary) (m : QueueScheduleManifest) : Prop where
  cron : ∃ cron, parseCron lib m.cron = .ok cron
  zone : ∃ zone, parseZone lib m.zone = .ok zone
  task : ¬ blank m.task

theorem timestampMillisOpt_of_le {n : ℕ} (h : n ≤ maxMillis) :
    timestampMillisOpt (asI64 n) = some (n : ℤ) := by
  unfold maxMillis at h
  rw [asI64_of_lt (by omega), timestampMillisOpt, if_pos (by omega)]

/-- The due fires of a schedule include all that have not been looked at. -/
theorem missedFireTimes_spec (hlib : lib.Lawful) {m : QueueScheduleManifest} (hm : Valid lib m)
    {now maxMissed : ℕ} (hnow : now ≤ maxMillis)
    (hstart : m.lastCheckedMs < now → m.startMs ≤ maxMillis ∧
      ∀ f, lib.IsFire m f → m.lastCheckedMs < f → m.startMs < f)
    (henough : ∀ cron zone, parseCron lib m.cron = .ok cron → parseZone lib m.zone = .ok zone →
      ∀ n, (firesAfter (lib.next cron zone) now n m.startMs).length ≤ maxMissed) :
    missedFireTimes lib m now maxMissed = .ok (dueFires lib now maxMissed m) ∧
      ∀ f, lib.IsFire m f → m.lastCheckedMs < f → f ≤ now → f ∈ dueFires lib now maxMissed m := by
  obtain ⟨cron, hcron⟩ := hm.cron
  obtain ⟨zone, hzone⟩ := hm.zone
  have hmem : ∀ f, m.lastCheckedMs < now → lib.IsFire m f → m.lastCheckedMs < f → f ≤ now →
      (f : ℤ) ∈ firesAfter (lib.next cron zone) now maxMissed m.startMs := by
    rintro f hlt hf hchecked hfnow
    have hafter := (hstart hlt).2 f hf hchecked
    obtain ⟨cron', zone', t, hcron', hzone', hf⟩ := hf
    obtain rfl : cron = cron' := Except.ok.inj (hcron.symm.trans hcron')
    obtain rfl : zone = zone' := Except.ok.inj (hzone.symm.trans hzone')
    exact mem_firesAfter hlib hf (by omega) (by omega) (henough cron zone hcron hzone)
  by_cases hskip : now ≤ m.lastCheckedMs ∨ maxMissed = 0
  · have hdue : missedFireTimes lib m now maxMissed = .ok [] := by
      rw [missedFireTimes, if_pos hskip]
      rfl
    refine ⟨by rw [dueFires, hdue]; rfl, fun f hf hchecked hfnow => ?_⟩
    rcases hskip with hle | hzero
    · omega
    · have hf' := hmem f (by omega) hf hchecked hfnow
      rw [hzero] at hf'
      cases hf'
  · have hlt : m.lastCheckedMs < now := by omega
    have hdue : missedFireTimes lib m now maxMissed =
        .ok ((firesAfter (lib.next cron zone) now maxMissed m.startMs).map ofI64) := by
      rw [missedFireTimes, if_neg hskip, hcron, hzone]
      simp only [bind, Except.bind, timestampMillisOpt_of_le (hstart hlt).1,
        timestampMillisOpt_of_le hnow]
      rfl
    refine ⟨by rw [dueFires, hdue]; rfl, fun f hf hchecked hfnow => ?_⟩
    rw [dueFires, hdue]
    refine List.mem_map.mpr ⟨f, hmem f hlt hf hchecked hfnow, ?_⟩
    unfold maxMillis at hnow
    unfold ofI64
    omega

end Window

/-! ### What recoveries keep -/

/-- A schedule since it was created: its fires up to the last check are recorded. -/
structure Progress (lib : CronLibrary) (db : QueueDb) (m₀ m : QueueScheduleManifest) : Prop where
  id : m.id = m₀.id
  cron : m.cron = m₀.cron
  zone : m.zone = m₀.zone
  task : m.task = m₀.task
  policy : m.missedPolicy = m₀.missedPolicy
  upTo : m₀.missedPolicy = .enqueueAllBounded → ∀ f, lib.IsFire m₀ f → m₀.lastCheckedMs < f →
    f ≤ m.lastCheckedMs → db.recorded m₀.id f

/-- The recorded fires are those that have a job, which is one each. -/
structure Ready (lib : CronLibrary) (s₀ s : QueueState) : Prop where
  ids : s.db.jobs.map QueueJob.id = jobIds s.db.jobs.length
  nextId : s.nextId = s.db.jobs.length
  bound : s.db.jobs.length < 2 ^ 63
  events : ∀ r ∈ s.db.fires, r.eventId = QueueDb.eventId r.scheduleId r.fireMs
  jobs : ∀ id f, s.db.jobs.countP (isFireJob id f) = if s.db.recorded id f then 1 else 0
  schedules : List.Forall₂ (Progress lib s.db) s₀.db.schedules s.db.schedules

/-- The schedules are the same, and no recorded fire is lost. -/
structure Grown (s s' : QueueState) : Prop where
  schedules : s'.db.schedules = s.db.schedules
  recorded : ∀ id f, s.db.recorded id f → s'.db.recorded id f

section Steps

variable {lib : CronLibrary} {s₀ s : QueueState}

theorem Progress.mono {db db' : QueueDb} {m₀ m : QueueScheduleManifest}
    (h : Progress lib db m₀ m) (hdb : ∀ id f, db.recorded id f → db'.recorded id f) :
    Progress lib db' m₀ m :=
  { h with upTo := fun hpolicy f hf hcreated hle => hdb _ _ (h.upTo hpolicy f hf hcreated hle) }

theorem Grown.refl (s : QueueState) : Grown s s := ⟨rfl, fun _ _ h => h⟩

theorem Grown.trans {s' s'' : QueueState} (h : Grown s s') (h' : Grown s' s'') : Grown s s'' :=
  ⟨h'.schedules.trans h.schedules, fun id f hr => h'.recorded id f (h.recorded id f hr)⟩

theorem eventId_inj {id id' : String} {f f' : ℕ}
    (h : QueueDb.eventId id f = QueueDb.eventId id' f') : id = id' ∧ f = f' :=
  Text.colon_toString_inj h

/-- A fire is recorded, unless it is recorded already. -/
theorem recordFire_eq (hevents : ∀ r ∈ s.db.fires, r.eventId = QueueDb.eventId r.scheduleId r.fireMs)
    (id : String) (f now : ℕ) :
    s.db.recordFire id f now = if s.db.recorded id f then (false, s.db) else
      (true, { s.db with fires := s.db.fires ++ [⟨QueueDb.eventId id f, id, f, "", now⟩] }) := by
  have hsame : (s.db.fires.any fun r => r.eventId = QueueDb.eventId id f ∨
      r.scheduleId = id ∧ r.fireMs = f) = s.db.recorded id f := by
    rw [Bool.eq_iff_iff, QueueDb.recorded, List.any_eq_true, List.any_eq_true]
    refine exists_congr fun r => and_congr_right fun hr => ?_
    rw [decide_eq_true_iff, decide_eq_true_iff, hevents r hr]
    exact ⟨fun h => h.elim eventId_inj fun h => h, .inr⟩
  rw [QueueDb.recordFire]
  dsimp only
  rw [hsame]

theorem isFireJob_fireSpec {m : QueueScheduleManifest} {f f' now : ℕ} {id id' : String} :
    isFireJob id f' ((m.fireSpec f).job id' none now) ↔ m.id = id ∧ f = f' := by
  simp [isFireJob, QueueScheduleManifest.fireSpec, JobSpec.job, List.lookup_cons]

/-- The state with one more fire and its job. -/
def withFire (s : QueueState) (m : QueueScheduleManifest) (f now : ℕ) : QueueState where
  db := { s.db with
    fires := s.db.fires ++ [⟨QueueDb.eventId m.id f, m.id, f, "", now⟩]
    jobs := s.db.jobs ++ [(m.fireSpec f).job (jobId (s.db.jobs.length + 1)) none now] }
  nextId := s.db.jobs.length + 1

theorem recorded_withFire {m : QueueScheduleManifest} {f now : ℕ} {id : String} {f' : ℕ} :
    (withFire s m f now).db.recorded id f' ↔ s.db.recorded id f' ∨ m.id = id ∧ f = f' := by
  simp [QueueDb.recorded, withFire, List.any_append]

theorem Ready.withFire (h : Ready lib s₀ s) {m : QueueScheduleManifest} {f : ℕ}
    (hnew : ¬ s.db.recorded m.id f) (hroom : s.db.jobs.length + 1 < 2 ^ 63) (now : ℕ) :
    Ready lib s₀ (withFire s m f now) where
  ids := by
    show (s.db.jobs ++ [_]).map QueueJob.id = jobIds (s.db.jobs ++ [_]).length
    rw [List.map_append, h.ids, List.length_append, List.length_singleton, jobIds_succ]
    rfl
  nextId := by
    show _ = (s.db.jobs ++ [_]).length
    rw [List.length_append]
    rfl
  bound := by
    show (s.db.jobs ++ [_]).length < 2 ^ 63
    rw [List.length_append]
    exact hroom
  events := by
    intro r hr
    rcases List.mem_append.mp hr with hr | hr
    · exact h.events r hr
    · rw [List.mem_singleton.mp hr]
  jobs := by
    intro id f'
    show (s.db.jobs ++ [_]).countP _ = _
    rw [List.countP_append, h.jobs id f', List.countP_singleton]
    simp only [isFireJob_fireSpec, recorded_withFire]
    by_cases hfire : m.id = id ∧ f = f'
    · obtain ⟨rfl, rfl⟩ := hfire
      simp [hnew]
    · simp [hfire]
  schedules := by
    refine List.Forall₂.imp (fun m₀ m' hm => hm.mono fun id f' hr => ?_) h.schedules
    exact recorded_withFire.mpr (.inl hr)

theorem recorded_linkFire {event jobId id : String} {f : ℕ} :
    (Access.exec (.linkFire event jobId) s).2.db.recorded id f = s.db.recorded id f := by
  show (s.db.fires.map _).any _ = _
  rw [List.any_map]
  refine congrArg (List.any s.db.fires) (funext fun r => ?_)
  rw [Function.comp_apply]
  split <;> rfl

/-- The link from a fire to its job does not matter. -/
theorem Ready.linkFire (h : Ready lib s₀ s) (event jobId : String) :
    Ready lib s₀ (Access.exec (.linkFire event jobId) s).2 where
  ids := h.ids
  nextId := h.nextId
  bound := h.bound
  events := by
    intro r hr
    obtain ⟨r₀, hr₀, rfl⟩ := List.mem_map.mp hr
    have hevent := h.events r₀ hr₀
    split <;> exact hevent
  jobs := by
    intro id f
    rw [recorded_linkFire]
    exact h.jobs id f
  schedules := by
    refine List.Forall₂.imp (fun m₀ m' hm => hm.mono fun id f' hr => ?_) h.schedules
    rwa [recorded_linkFire]

/-- The job of a fire that has just been recorded. -/
theorem meets_enqueue_fire {J : QueueState → Prop} {m : QueueScheduleManifest}
    (htask : ¬ blank m.task) {f now : ℕ} (hids : s.db.jobs.map QueueJob.id = jobIds s.db.jobs.length)
    (hnext : s.nextId = s.db.jobs.length) (hroom : s.db.jobs.length + 1 < 2 ^ 63)
    (hJ : J (withFire s m f now)) :
    (enqueueTypedAt (m.fireSpec f) now).Meets Access.exec J openFire
      (fun _ s' => s' = withFire s m f now)
      { s with db := { s.db with
          fires := s.db.fires ++ [⟨QueueDb.eventId m.id f, m.id, f, "", now⟩] } } := by
  unfold enqueueTypedAt
  rw [if_neg (show ¬ blank (m.fireSpec f).task from htask)]
  refine Prog.meets_query_bind (fun hopen => absurd rfl hopen) ?_
  generalize hs₁ : ({ s with db := { s.db with
    fires := s.db.fires ++ [⟨QueueDb.eventId m.id f, m.id, f, "", now⟩] } } : QueueState) = s₁
  have hfresh : Access.exec .freshId s₁ =
      (jobId (s.db.jobs.length + 1), { s₁ with nextId := s.db.jobs.length + 1 }) := by
    have hnext₁ : s₁.nextId = s.db.jobs.length := by rw [← hs₁, ← hnext]
    show (jobId (min (s₁.nextId + 1) u64Max), { s₁ with nextId := (s₁.nextId + 1) % 2 ^ 64 }) = _
    rw [hnext₁, Nat.min_eq_left (by unfold u64Max; omega), Nat.mod_eq_of_lt (by omega)]
  have hinsert : Access.exec (.insertJob ((m.fireSpec f).job (jobId (s.db.jobs.length + 1)) none now))
      { s₁ with nextId := s.db.jobs.length + 1 } = (.ok (), withFire s m f now) := by
    have hnone : findJob (jobId (s.db.jobs.length + 1)) s.db.jobs = none := by
      refine List.find?_eq_none.mpr fun j hj hid => ?_
      refine jobId_notMem_jobIds s.db.jobs.length ?_
      rw [← hids, ← of_decide_eq_true hid]
      exact List.mem_map_of_mem hj
    subst hs₁
    simp [Access.exec, Access.execDb, QueueDb.insertJob, JobSpec.job, hnone, withFire]
  rw [hfresh]
  refine Prog.meets_query_bind (fun _ => ?_) ?_
  · rw [hinsert]
    exact hJ
  · rw [hinsert]
    exact rfl

/-- A fire is recorded and its job is enqueued, or it was before. -/
theorem meets_enqueueScheduleFire (h : Ready lib s₀ s) {m : QueueScheduleManifest}
    (htask : ¬ blank m.task) (f now : ℕ) (hroom : s.db.jobs.length + 1 < 2 ^ 63) :
    (enqueueScheduleFire m f now).Meets Access.exec (Ready lib s₀) openFire (fun _ s' =>
      Ready lib s₀ s' ∧ Grown s s' ∧ s'.db.recorded m.id f ∧
        s'.db.jobs.length ≤ s.db.jobs.length + 1) s := by
  have hrecord := recordFire_eq h.events m.id f now
  have hexec : Access.exec (.recordFire m.id f now) s =
    ((s.db.recordFire m.id f now).1, { s with db := (s.db.recordFire m.id f now).2 }) := rfl
  unfold enqueueScheduleFire
  by_cases hold : s.db.recorded m.id f
  · rw [hrecord, if_pos hold] at hexec
    refine Prog.meets_query_bind (fun _ => by rw [hexec]; exact h) ?_
    rw [hexec]
    exact ⟨h, .refl s, hold, Nat.le_succ _⟩
  · rw [hrecord, if_neg hold] at hexec
    refine Prog.meets_query_bind (fun hopen => ?_) ?_
    · exact absurd (show (s.db.recordFire m.id f now).1 from by rw [hrecord, if_neg hold]) hopen
    · rw [hexec]
      have hready := h.withFire hold hroom now
      refine Prog.Meets.bind (meets_enqueue_fire htask h.ids h.nextId hroom hready) ?_
      rintro job _ rfl
      have hlinked := hready.linkFire (QueueDb.eventId m.id f) job.id
      refine Prog.meets_query_bind (fun _ => hlinked) ⟨hlinked, ⟨rfl, fun id f' hr => ?_⟩, ?_, ?_⟩
      · rw [recorded_linkFire]
        exact recorded_withFire.mpr (.inl hr)
      · rw [recorded_linkFire]
        exact recorded_withFire.mpr (.inr ⟨rfl, rfl⟩)
      · show (s.db.jobs ++ [_]).length ≤ _
        rw [List.length_append]
        rfl

/-- All fires of a list are recorded, with their jobs. -/
theorem meets_enqueueFires (h : Ready lib s₀ s) {m : QueueScheduleManifest}
    (htask : ¬ blank m.task) (now : ℕ) {fires : List ℕ}
    (hroom : s.db.jobs.length + fires.length < 2 ^ 63) :
    (enqueueFires m now fires).Meets Access.exec (Ready lib s₀) openFire (fun _ s' =>
      Ready lib s₀ s' ∧ Grown s s' ∧ (∀ f ∈ fires, s'.db.recorded m.id f) ∧
        s'.db.jobs.length ≤ s.db.jobs.length + fires.length) s := by
  induction fires generalizing s with
  | nil => exact ⟨h, .refl s, by simp, Nat.le_add_right _ _⟩
  | cons f fires ih =>
    rw [List.length_cons] at hroom
    rw [enqueueFires]
    refine Prog.Meets.bind (meets_enqueueScheduleFire h htask f now (by omega)) ?_
    rintro job? s₁ ⟨h₁, hgrown₁, hf, hlen₁⟩
    refine Prog.Meets.bind (ih h₁ (by omega)) ?_
    rintro recoveries s₂ ⟨h₂, hgrown₂, hfires, hlen₂⟩
    have hpost : Ready lib s₀ s₂ ∧ Grown s s₂ ∧ (∀ f' ∈ f :: fires, s₂.db.recorded m.id f') ∧
        s₂.db.jobs.length ≤ s.db.jobs.length + (f :: fires).length := by
      refine ⟨h₂, hgrown₁.trans hgrown₂, ?_, by rw [List.length_cons]; omega⟩
      intro f' hf'
      rcases List.mem_cons.mp hf' with rfl | hf'
      · exact hgrown₂.recorded _ _ hf
      · exact hfires f' hf'
    cases job? with
    | none => exact hpost
    | some job => exact hpost

theorem forall₂_mem {α β : Type} {r : α → β → Prop} {l : List α} {l' : List β}
    (h : List.Forall₂ r l l') : List.Forall₂ (fun a b => a ∈ l ∧ b ∈ l' ∧ r a b) l l' := by
  induction h with
  | nil => exact .nil
  | cons hr _ ih =>
    refine .cons ⟨List.mem_cons_self, List.mem_cons_self, hr⟩ (ih.imp fun a b hab => ?_)
    exact ⟨List.mem_cons_of_mem _ hab.1, List.mem_cons_of_mem _ hab.2.1, hab.2.2⟩

theorem Progress.isFire {db : QueueDb} {m₀ m : QueueScheduleManifest} (h : Progress lib db m₀ m)
    {f : ℕ} : lib.IsFire m₀ f ↔ lib.IsFire m f := by
  unfold CronLibrary.IsFire
  rw [h.cron, h.zone]

/-- The mark of a check, on the row of the schedule. -/
def markRow (id : String) (now : ℕ) (lastFire : Option ℕ) (m : QueueScheduleManifest) :
    QueueScheduleManifest :=
  if m.id = id then
    { m with lastCheckedMs := now, lastFireMs := lastFire.or m.lastFireMs, updatedMs := now }
  else m

@[simp] theorem markRow_id (id : String) (now : ℕ) (lastFire : Option ℕ)
    (m : QueueScheduleManifest) : (markRow id now lastFire m).id = m.id := by
  unfold markRow
  split <;> rfl

/-- A schedule can be marked if all its fires up to now are recorded. -/
theorem Ready.mark (h : Ready lib s₀ s) {id : String} {now : ℕ} (lastFire : Option ℕ)
    (hmark : ∀ m₀ m, m ∈ s.db.schedules → Progress lib s.db m₀ m → m.id = id →
      m₀.missedPolicy = .enqueueAllBounded → ∀ f, lib.IsFire m₀ f → m₀.lastCheckedMs < f →
        f ≤ now → s.db.recorded m₀.id f) :
    Ready lib s₀ (Access.exec (.markScheduleChecked id now lastFire) s).2 where
  ids := h.ids
  nextId := h.nextId
  bound := h.bound
  events := h.events
  jobs := h.jobs
  schedules := by
    have hrows : (Access.exec (.markScheduleChecked id now lastFire) s).2.db.schedules =
      s.db.schedules.map (markRow id now lastFire) := rfl
    rw [hrows, List.forall₂_map_right_iff]
    refine (forall₂_mem h.schedules).imp fun m₀ m ⟨_, hm, hprogress⟩ => ?_
    suffices hmarked : Progress lib s.db m₀ (markRow id now lastFire m) from
      hmarked.mono fun _ _ hr => hr
    unfold markRow
    split
    next hid => exact { hprogress with upTo := hmark m₀ m hm hprogress hid }
    next => exact hprogress

/-- What the recovery of one schedule needs. -/
structure Due (lib : CronLibrary) (now maxMissed : ℕ) (m : QueueScheduleManifest) : Prop where
  valid : Valid lib m
  missed : missedFireTimes lib m now maxMissed = .ok (dueFires lib now maxMissed m)
  found : ∀ f, lib.IsFire m f → m.lastCheckedMs < f → f ≤ now → f ∈ dueFires lib now maxMissed m

theorem nodup_unique {l : List QueueScheduleManifest} (h : (l.map QueueScheduleManifest.id).Nodup)
    {m m' : QueueScheduleManifest} (hm : m ∈ l) (hm' : m' ∈ l) (hid : m'.id = m.id) : m' = m := by
  exact List.inj_on_of_nodup_map h hm' hm hid

theorem meets_recoverSchedule (h : Ready lib s₀ s) {m : QueueScheduleManifest} {now maxMissed : ℕ}
    (hdue : Due lib now maxMissed m) (hm : m ∈ s.db.schedules)
    (hnodup : (s.db.schedules.map QueueScheduleManifest.id).Nodup)
    (hroom : s.db.jobs.length + (dueFires lib now maxMissed m).length < 2 ^ 63)
    (report : SchedulerRecoveryReport) :
    (recoverSchedule lib now maxMissed m report).Meets Access.exec (Ready lib s₀) openFire
      (fun _ s' => Ready lib s₀ s' ∧
        (∃ lastFire, s'.db.schedules = s.db.schedules.map (markRow m.id now lastFire)) ∧
        s'.db.jobs.length ≤ s.db.jobs.length + (dueFires lib now maxMissed m).length) s := by
  -- once the due fires are recorded, the schedule can be marked
  have hmark : ∀ (s' : QueueState) (lastFire : Option ℕ) (report : SchedulerRecoveryReport),
      Ready lib s₀ s' → Grown s s' →
      (m.missedPolicy = .enqueueAllBounded →
        ∀ f ∈ dueFires lib now maxMissed m, s'.db.recorded m.id f) →
      s'.db.jobs.length ≤ s.db.jobs.length + (dueFires lib now maxMissed m).length →
      Prog.Meets Access.exec (Ready lib s₀) openFire
        (fun _ s' => Ready lib s₀ s' ∧
          (∃ lastFire, s'.db.schedules = s.db.schedules.map (markRow m.id now lastFire)) ∧
          s'.db.jobs.length ≤ s.db.jobs.length + (dueFires lib now maxMissed m).length)
        (access (.markScheduleChecked m.id now lastFire) >>= fun _ => pure report) s' := by
    intro s' lastFire report h' hgrown hrecorded hlen
    have hmarked : Ready lib s₀ (Access.exec (.markScheduleChecked m.id now lastFire) s').2 := by
      refine h'.mark lastFire fun m₀ m' hm' hprogress hid hpolicy f hf hcreated hle => ?_
      rw [hgrown.schedules] at hm'
      obtain rfl : m' = m := nodup_unique hnodup hm hm' hid
      by_cases hchecked : f ≤ m'.lastCheckedMs
      · exact hprogress.upTo hpolicy f hf hcreated hchecked
      · rw [← hprogress.id]
        exact hrecorded (hprogress.policy.trans hpolicy) f
          (hdue.found f (hprogress.isFire.mp hf) (by omega) hle)
    refine Prog.meets_query_bind (fun _ => hmarked) ⟨hmarked, ⟨lastFire, ?_⟩, hlen⟩
    show s'.db.schedules.map _ = _
    rw [hgrown.schedules]
    rfl
  unfold recoverSchedule
  rw [hdue.missed]
  dsimp only
  split
  next hempty =>
    refine hmark s _ report h (.refl s) (fun _ f hf => ?_) (Nat.le_add_right _ _)
    rw [List.isEmpty_iff.mp hempty] at hf
    cases hf
  next hne =>
    split
    next hpolicy => 
      refine hmark s _ _ h (.refl s) (fun hall => ?_) (Nat.le_add_right _ _)
      rw [hpolicy] at hall
      cases hall
    next hpolicy =>
      have hlast : ((dueFires lib now maxMissed m).getLast?.toList).length ≤
          (dueFires lib now maxMissed m).length := by
        cases hdues : dueFires lib now maxMissed m with
        | nil => simp
        | cons f fires => simp [List.getLast?_cons]
      refine Prog.Meets.bind (meets_enqueueFires h hdue.valid.task now (by omega)) ?_
      rintro recoveries s' ⟨h', hgrown, -, hlen⟩
      refine hmark s' _ _ h' hgrown (fun hall => ?_) (by omega)
      rw [hpolicy] at hall
      cases hall
    next hpolicy =>
      refine Prog.Meets.bind (meets_enqueueFires h hdue.valid.task now hroom) ?_
      rintro recoveries s' ⟨h', hgrown, hrecorded, hlen⟩
      exact hmark s' _ _ h' hgrown (fun _ => hrecorded) hlen

theorem meets_recoverAll {ms : List QueueScheduleManifest} {now maxMissed : ℕ}
    (h : Ready lib s₀ s) (hdue : ∀ m ∈ ms, Due lib now maxMissed m)
    (hms : ∀ m ∈ ms, m ∈ s.db.schedules) (hids : (ms.map QueueScheduleManifest.id).Nodup)
    (hnodup : (s.db.schedules.map QueueScheduleManifest.id).Nodup)
    (hroom : s.db.jobs.length + (ms.map fun m => (dueFires lib now maxMissed m).length).sum
      < 2 ^ 63) (report : SchedulerRecoveryReport) :
    (recoverAll lib now maxMissed ms report).Meets Access.exec (Ready lib s₀) openFire
      (fun _ s' => Ready lib s₀ s' ∧ ∀ x ∈ s'.db.schedules, x.lastCheckedMs = now ∨
        x ∈ s.db.schedules ∧ x.id ∉ ms.map QueueScheduleManifest.id) s := by
  induction ms generalizing s report with
  | nil => exact ⟨h, fun x hx => .inr ⟨hx, List.not_mem_nil⟩⟩
  | cons m ms ih =>
    rw [List.map_cons, List.nodup_cons] at hids
    rw [List.map_cons, List.sum_cons] at hroom
    rw [recoverAll]
    refine Prog.Meets.bind (meets_recoverSchedule h (hdue m List.mem_cons_self)
      (hms m List.mem_cons_self) hnodup (by omega) report) ?_
    rintro report' s₁ ⟨h₁, ⟨lastFire, hrows⟩, hlen⟩
    have hkeep : ∀ x, x.id ≠ m.id → markRow m.id now lastFire x = x := fun x hx => if_neg hx
    refine Prog.Meets.imp ?_ (ih h₁ (fun x hx => hdue x (List.mem_cons_of_mem _ hx)) ?_ hids.2 ?_
      (by omega) report')
    · rintro report'' s₂ ⟨h₂, hmarked⟩
      refine ⟨h₂, fun x hx => (hmarked x hx).elim .inl fun hx₁ => ?_⟩
      obtain ⟨hx₁, hnot⟩ := hx₁
      rw [hrows] at hx₁
      obtain ⟨y, hy, rfl⟩ := List.mem_map.mp hx₁
      by_cases hid : y.id = m.id
      · exact .inl (by rw [markRow, if_pos hid])
      · rw [hkeep y hid] at hnot ⊢
        refine .inr ⟨hy, fun hmem => ?_⟩
        rcases List.mem_cons.mp hmem with heq | hmem
        · exact hid heq
        · exact hnot hmem
    · intro x hx
      have hne : x.id ≠ m.id := fun heq => hids.1 (heq ▸ List.mem_map_of_mem hx)
      rw [hrows]
      exact List.mem_map.mpr ⟨x, hms x (List.mem_cons_of_mem _ hx), hkeep x hne⟩
    · rw [hrows, List.map_map]
      have hcongr : QueueScheduleManifest.id ∘ markRow m.id now lastFire = QueueScheduleManifest.id :=
        funext fun x => markRow_id m.id now lastFire x
      rwa [hcongr]

theorem forall₂_right {α β : Type} {r : α → β → Prop} {l : List α} {l' : List β}
    (h : List.Forall₂ r l l') : ∀ b ∈ l', ∃ a ∈ l, r a b := by
  induction h with
  | nil => simp
  | cons hr _ ih =>
    intro b hb
    rcases List.mem_cons.mp hb with rfl | hb
    · exact ⟨_, List.mem_cons_self, hr⟩
    · obtain ⟨a, ha, hab⟩ := ih b hb
      exact ⟨a, List.mem_cons_of_mem _ ha, hab⟩

/-- Schedules are valid since they were created. -/
theorem Ready.valid (h : Ready lib s₀ s) (hvalid : ∀ m ∈ s₀.db.schedules, Valid lib m) :
    ∀ m ∈ s.db.schedules, Valid lib m := by
  intro m hm
  obtain ⟨m₀, hm₀, hprogress⟩ := forall₂_right h.schedules m hm
  obtain ⟨hcron, hzone, htask⟩ := hvalid m₀ hm₀
  rw [← hprogress.cron] at hcron
  rw [← hprogress.zone] at hzone
  rw [← hprogress.task] at htask
  exact ⟨hcron, hzone, htask⟩

theorem Ready.schedule_ids (h : Ready lib s₀ s) :
    s₀.db.schedules.map QueueScheduleManifest.id = s.db.schedules.map QueueScheduleManifest.id := by
  rw [← List.forall₂_eq_eq_eq, List.forall₂_map_left_iff, List.forall₂_map_right_iff]
  exact h.schedules.imp fun m₀ m hm => hm.id.symm

end Steps

/-! ### Schedules as they are created -/

structure Created (lib : CronLibrary) (s₀ : QueueState) : Prop where
  jobs : s₀.db.jobs = []
  fires : s₀.db.fires = []
  nextId : s₀.nextId = 0
  nodup : (s₀.db.schedules.map QueueScheduleManifest.id).Nodup
  valid : ∀ m ∈ s₀.db.schedules, Valid lib m

section Creation

variable {lib : CronLibrary} {s s₀ : QueueState}

theorem nodup_upsertSchedule {db : QueueDb}
    (h : (db.schedules.map QueueScheduleManifest.id).Nodup) (m : QueueScheduleManifest) :
    ((db.upsertSchedule m).schedules.map QueueScheduleManifest.id).Nodup := by
  unfold QueueDb.upsertSchedule
  split
  next =>
    have hids : ∀ x : QueueScheduleManifest, (if x.id = m.id then
        { m with lastCheckedMs := x.lastCheckedMs, lastFireMs := x.lastFireMs,
                 createdMs := x.createdMs } else x).id = x.id := by
      intro x
      split
      next hid => exact hid.symm
      next => rfl
    show (List.map _ (List.map _ _)).Nodup
    rw [List.map_map]
    have hsame := List.map_congr_left (l := db.schedules) fun x _ => hids x
    exact hsame ▸ h
  next hnew =>
    rw [List.map_append, List.map_singleton, List.nodup_append]
    refine ⟨h, List.nodup_singleton _, ?_⟩
    rintro _ hx _ hy rfl
    obtain ⟨x, hx, hid⟩ := List.mem_map.mp hx
    rw [List.mem_singleton] at hy
    exact hnew (List.any_eq_true.mpr ⟨x, hx, decide_eq_true (hid.trans hy)⟩)

theorem Created.upsert (h : Created lib s) {m : QueueScheduleManifest} (hm : Valid lib m) :
    Created lib { s with db := s.db.upsertSchedule m } := by
  have hnodup := nodup_upsertSchedule h.nodup m
  unfold QueueDb.upsertSchedule at hnodup ⊢
  split
  next hold =>
    rw [if_pos hold] at hnodup
    refine ⟨h.jobs, h.fires, h.nextId, hnodup, fun x hx => ?_⟩
    obtain ⟨y, hy, rfl⟩ := List.mem_map.mp hx
    split
    · exact ⟨hm.cron, hm.zone, hm.task⟩
    · exact h.valid y hy
  next hnew =>
    rw [if_neg hnew] at hnodup
    refine ⟨h.jobs, h.fires, h.nextId, hnodup, fun x hx => ?_⟩
    rcases List.mem_append.mp hx with hx | hx
    · exact h.valid x hx
    · rwa [List.mem_singleton.mp hx]

theorem valid_of_validateSchedule {m : QueueScheduleManifest}
    (h : validateSchedule lib m.cron m.zone = .ok ()) (htask : ¬ blank m.task) : Valid lib m := by
  unfold validateSchedule at h
  cases hcron : parseCron lib m.cron with
  | error err =>
    rw [hcron] at h
    cases h
  | ok cron =>
    cases hzone : parseZone lib m.zone with
    | error err =>
      rw [hcron, hzone] at h
      cases h
    | ok zone => exact ⟨⟨cron, hcron⟩, ⟨zone, hzone⟩, htask⟩

theorem Created.run (h : Created lib s) (m : QueueScheduleManifest) (budgetUsd : Option ℚ)
    (now : ℕ) : Created lib ((Op.upsertSchedule m budgetUsd now).run lib s).2 := by
  show Created lib (Prog.run Access.exec
    ((fun _ => none) <$> Queue.upsertSchedule lib m budgetUsd now) s).2
  unfold Queue.upsertSchedule
  split
  next => exact h
  next hvalid =>
    by_cases hid : blank m.id
    · rw [if_pos hid]
      exact h
    · rw [if_neg hid]
      by_cases htask : blank m.task
      · rw [if_pos htask]
        exact h
      · rw [if_neg htask]
        obtain ⟨hcron, hzone, htask⟩ := valid_of_validateSchedule hvalid htask
        exact h.upsert ⟨hcron, hzone, htask⟩

theorem created_spec (lib : CronLibrary) (manifests : List (QueueScheduleManifest × Option ℚ × ℕ)) :
    Created lib (created lib manifests) := by
  unfold created runAll
  induction manifests using List.reverseRecOn with
  | nil => exact ⟨rfl, rfl, rfl, List.nodup_nil, by simp [QueueDb.empty]⟩
  | append_singleton manifests m ih =>
    rw [List.map_append, List.foldl_append]
    exact ih.run m.1 m.2.1 m.2.2

theorem Created.ready (h : Created lib s₀) : Ready lib s₀ s₀ where
  ids := by rw [h.jobs]; rfl
  nextId := by rw [h.jobs]; exact h.nextId
  bound := by rw [h.jobs]; decide
  events := by rw [h.fires]; simp
  jobs := by
    intro id f
    rw [h.jobs, QueueDb.recorded, h.fires]
    rfl
  schedules := by
    refine List.forall₂_same.mpr fun m _ => ⟨rfl, rfl, rfl, rfl, rfl, ?_⟩
    intro _ f _ hcreated hle
    omega

end Creation

/-! ### Runs -/

section Runs

variable {lib : CronLibrary} {s₀ s : QueueState}

/-- What a careful recovery does, be it complete or not. -/
theorem meets_recoverSchedulesAt (hlib : lib.Lawful) (hs₀ : Created lib s₀)
    (h : Ready lib s₀ s) {now maxMissed : ℕ} {crash : Option ℕ}
    (henough : EnoughMissed lib s now maxMissed) (hcareful : Careful lib s now maxMissed crash) :
    ((Op.recoverSchedulesAt now maxMissed).prog lib).Meets Access.exec (Ready lib s₀) openFire
      (fun _ s' => Ready lib s₀ s' ∧ ∀ x ∈ s'.db.schedules, x.lastCheckedMs = now) s := by
  obtain ⟨hnow, hroom, hwindow, -⟩ := hcareful
  have hnodup : (s.db.schedules.map QueueScheduleManifest.id).Nodup := by
    rw [← h.schedule_ids]
    exact hs₀.nodup
  have hperm := List.perm_insertionSort (fun a b : QueueScheduleManifest => a.id ≤ b.id)
    s.db.schedules
  have hdue : ∀ m ∈ s.db.schedules, Due lib now maxMissed m := by
    intro m hm
    have hvalid := h.valid hs₀.valid m hm
    obtain ⟨hmissed, hfound⟩ := missedFireTimes_spec hlib hvalid hnow (hwindow m hm)
      (henough m hm)
    exact ⟨hvalid, hmissed, hfound⟩
  refine Prog.Meets.bind (Prog.meets_query_bind (fun _ => h) ?_) fun _ s' hs' => hs'
  refine Prog.Meets.imp ?_ (meets_recoverAll (s := s) h (fun m hm => hdue m (hperm.mem_iff.mp hm))
    (fun m hm => hperm.mem_iff.mp hm) ((hperm.map _).nodup_iff.mpr hnodup) hnodup ?_ _)
  · rintro _ s' ⟨h', hmarked⟩
    refine ⟨h', fun x hx => (hmarked x hx).resolve_right fun ⟨hx', hnot⟩ => hnot ?_⟩
    exact List.mem_map_of_mem (hperm.mem_iff.mpr hx')
  · rwa [(hperm.map _).sum_eq]

theorem Ready.reopen (h : Ready lib s₀ s) : Ready lib s₀ (reopen s) :=
  { h with nextId := seedNextId_of_jobIds h.bound h.ids }

theorem ready_of_attempts (hlib : lib.Lawful) (hs₀ : Created lib s₀) {t : ℕ}
    (h : Attempts lib (Careful lib) s₀ t s) : Ready lib s₀ s := by
  induction h with
  | init => exact hs₀.ready
  | complete now maxMissed _ _ henough hcareful ih =>
    obtain ⟨a, s', hrun, hs', -⟩ := (meets_recoverSchedulesAt hlib hs₀ ih henough hcareful).run
    rw [Op.run, hrun]
    exact hs'
  | crash now maxMissed n _ _ henough hcareful ih =>
    refine Ready.reopen ((meets_recoverSchedulesAt hlib hs₀ ih henough hcareful).crash ?_)
    have hlast := hcareful.2.2.2 n rfl
    generalize List.getLast? _ = last at hlast ⊢
    cases last with
    | none => exact ih
    | some x => simpa using hlast

end Runs

theorem forall₂_left {α β : Type} {r : α → β → Prop} {l : List α} {l' : List β}
    (h : List.Forall₂ r l l') : ∀ a ∈ l, ∃ b ∈ l', r a b := by
  induction h with
  | nil => simp
  | cons hr _ ih =>
    intro a ha
    rcases List.mem_cons.mp ha with rfl | ha
    · exact ⟨_, List.mem_cons_self, hr⟩
    · obtain ⟨b, hb, hab⟩ := ih a ha
      exact ⟨b, List.mem_cons_of_mem _ hb, hab⟩

/-- Careful recoveries fire each occurrence exactly once, also when some of them crash. -/
theorem recovery_exactly_once (lib : CronLibrary) (hlib : lib.Lawful) :
    ExactlyOnce lib (Careful lib) := by
  intro manifests t s h
  have hcreated := created_spec lib manifests
  have hready := ready_of_attempts hlib hcreated h
  refine ⟨fun id f => ?_, ?_⟩
  · rw [hready.jobs id f]
    split <;> omega
  · intro now maxMissed _ henough hcareful m₀ hm₀ hpolicy f hf hafter hle
    obtain ⟨a, s', hrun, hs', hmarked⟩ :=
      (meets_recoverSchedulesAt hlib hcreated hready henough hcareful).run
    rw [Op.run, hrun]
    obtain ⟨m, hm, hprogress⟩ := forall₂_left hs'.schedules m₀ hm₀
    have hrecorded := hprogress.upTo hpolicy f hf hafter ((hmarked m hm).symm ▸ hle)
    exact (hs'.jobs m₀.id f).trans (if_pos hrecorded)

/-! ### A schedule that fires every minute -/

section EveryMinute

theorem lawful_everyMinute : CronLibrary.everyMinute.Lawful where
  next_some := by
    intro _ _ t f hf
    have hf := Option.some.inj hf
    refine ⟨by omega, fun t' g hg _ => ?_⟩
    have hg := Option.some.inj hg
    omega
  next_none := by
    intro _ _ _ h
    cases h

theorem length_firesAfter_everyMinute (last : ℤ) (n : ℕ) (t : ℤ) :
    (firesAfter (CronLibrary.everyMinute.next () ()) last n t).length
      ≤ (last / 60000 - t / 60000).toNat := by
  induction n generalizing t with
  | zero => exact Nat.zero_le _
  | succ n ih =>
    have hrest := ih (60000 * (t / 60000 + 1))
    show (if last < 60000 * (t / 60000 + 1) then [] else _ :: firesAfter _ _ _ _).length ≤ _
    split
    next => exact Nat.zero_le _
    next =>
      rw [List.length_cons]
      omega

theorem enoughMissed_everyMinute {s : QueueState} {now maxMissed : ℕ}
    (h : ∀ m ∈ s.db.schedules, now / 60000 ≤ m.startMs / 60000 + maxMissed) :
    EnoughMissed .everyMinute s now maxMissed := by
  intro m hm _ _ _ _ n
  have hlength := length_firesAfter_everyMinute now n m.startMs
  have hwindow := h m hm
  exact hlength.trans (by omega)

theorem careful_everyMinute {s : QueueState} {now maxMissed : ℕ} {crash : Option ℕ}
    (hnow : now ≤ maxMillis)
    (hroom : s.db.jobs.length +
      (s.db.schedules.map fun m => (dueFires .everyMinute now maxMissed m).length).sum < 2 ^ 63)
    (hstart : ∀ m ∈ s.db.schedules,
      m.startMs ≤ maxMillis ∧ m.startMs / 60000 ≤ m.lastCheckedMs / 60000)
    (hcrash : ∀ n ∈ crash, (((Op.recoverSchedulesAt now maxMissed).prog .everyMinute).trace
      Access.exec s |>.take n |>.getLast?.all fun x => !openFire x.1 x.2)) :
    Careful .everyMinute s now maxMissed crash := by
  refine ⟨hnow, hroom, fun m hm _ => ⟨(hstart m hm).1, fun f hf hchecked => ?_⟩, hcrash⟩
  obtain ⟨_, _, t, -, -, hf⟩ := hf
  have hf := Option.some.inj hf
  have hminute := (hstart m hm).2
  omega

end EveryMinute

/-- A schedule that is created half a minute past the full one, or at `checkedMs`. -/
def minutely (checkedMs : ℕ) : QueueScheduleManifest where
  id := "minutely"
  cron := "* * * * *"
  zone := "UTC"
  task := "sync"
  payload := .null
  maxRetries := 1
  budgetUsd := 0
  effectSummary := none
  replayKeyPrefix := none
  missedPolicy := .enqueueAllBounded
  lastCheckedMs := checkedMs
  lastFireMs := none
  createdMs := checkedMs
  updatedMs := checkedMs

/-- The first recovery crashes after it has enqueued the job of the first of two fires. -/
theorem recovery_exactly_once_minutely :
    let s₀ := created .everyMinute [(minutely 30000, none, 30000)]
    let s := reopen (((Op.recoverSchedulesAt 150000 5).prog .everyMinute).crash Access.exec 4 s₀)
    let s' := ((Op.recoverSchedulesAt 210000 5).run .everyMinute s).2
    s.db.jobs.length = 1 ∧ ∀ f, CronLibrary.everyMinute.IsFire (minutely 30000) f → 30000 < f →
      f ≤ 210000 → s'.db.jobs.countP (isFireJob "minutely" f) = 1 := by
  intro s₀ s s'
  have hattempts : Attempts .everyMinute (Careful .everyMinute) s₀ 150000 s :=
    .crash 150000 5 4 .init (Nat.zero_le _) (enoughMissed_everyMinute (by decide +kernel))
      (careful_everyMinute (by decide) (by decide +kernel) (by decide +kernel) (by decide +kernel))
  have honce := (recovery_exactly_once .everyMinute lawful_everyMinute
    [(minutely 30000, none, 30000)] 150000 s hattempts).2 210000 5 (by decide)
    (enoughMissed_everyMinute (by decide +kernel))
    (careful_everyMinute (by decide) (by decide +kernel) (by decide +kernel) (by simp))
    (minutely 30000) (by decide +kernel) rfl
  exact ⟨by decide +kernel, honce⟩

/-- A crash between the record of a fire and its job loses the job, and a fire one millisecond after
the last check is overlooked. -/
theorem recovery_loses_fire :
    ¬ ExactlyOnce .everyMinute (fun _ _ _ _ => True) ∧
      ¬ ExactlyOnce .everyMinute fun _ _ _ crash => crash = none := by
  have hnormal : normalizeCron "* * * * *" = .ok "0 * * * * * *" := by decide +kernel
  have hcron : parseCron .everyMinute "* * * * *" = .ok () := by
    rw [parseCron, hnormal]
    rfl
  have hfire : ∀ checkedMs, CronLibrary.everyMinute.IsFire (minutely checkedMs) 60000 :=
    fun _ => ⟨(), (), 0, hcron, rfl, rfl⟩
  refine ⟨fun h => ?_, fun h => ?_⟩
  · have hlost := (h [(minutely 30000, none, 30000)] 90000 _
      (.crash 90000 5 2 .init (Nat.zero_le _) (enoughMissed_everyMinute (by decide +kernel))
        trivial)).2 90000 5 le_rfl (enoughMissed_everyMinute (by decide +kernel)) trivial
      (minutely 30000) (by decide +kernel) rfl 60000 (hfire _) (by decide) (by decide)
    revert hlost
    decide +kernel
  · have hskipped := (h [(minutely 59999, none, 59999)] 0 _ .init).2 90000 5 (Nat.zero_le _)
      (enoughMissed_everyMinute (by decide +kernel)) rfl (minutely 59999) (by decide +kernel) rfl 60000
      (hfire _) (by decide) (by decide)
    revert hskipped
    decide +kernel

end Corvid.Queue
