import Corvid.Queue.Recovery

/-!
# Schedules that fire once on recovery

A recovery takes the last of the missed fires, but of a backlog that is cut short. What it leaves out
comes up again: the next recovery starts after the fire that was taken. If nothing is left out, later
recoveries only enqueue fires after the recovery.

## Main definitions

* `CaughtUp`: a recovery cuts nothing off
* `Later`: operations after a recovery
* `Settled`: a schedule whose remaining fires are all after a recovery

## Main results

* `recovery_fires_once`: after a recovery that cuts nothing off, later ones enqueue later fires only
* `recovery_fires_again`: the first part of a long backlog is fired by two recoveries
-/

namespace Corvid.Queue

open Store

section Fires

variable (lib : CronLibrary)

/-- The fires between the cursor of a schedule and a recovery are no more than the recovery looks at,
which is none if the schedule has been checked at this time or later. -/
def CaughtUp (now maxMissed : ℕ) (m : QueueScheduleManifest) : Prop :=
  ∀ cron zone, parseCron lib m.cron = .ok cron → parseZone lib m.zone = .ok zone →
    ∀ n, (firesAfter (lib.next cron zone) (asI64 now) n (asI64 m.startMs)).length ≤
      if now ≤ m.lastCheckedMs then 0 else maxMissed

/-- Recoveries at increasing times, and operations that do not change the schedule. -/
def Later (id : String) : ℕ → List Op → ℕ → Prop
  | t, [], now => t ≤ now
  | t, .recoverSchedulesAt t' _ :: ops, now => t ≤ t' ∧ Later id t' ops now
  | t, .upsertSchedule manifest _ _ :: ops, now => manifest.id ≠ id ∧ Later id t ops now
  | t, _ :: ops, now => Later id t ops now

end Fires

/-! ### Due fires -/

section Due

variable {lib : CronLibrary}

theorem asI64_bounds {n : ℕ} (h : n < 2 ^ 64) : -2 ^ 63 ≤ asI64 n ∧ asI64 n < 2 ^ 63 := by
  unfold asI64
  split <;> omega

theorem asI64_ofI64 {z : ℤ} (hlow : -2 ^ 63 ≤ z) (hhigh : z < 2 ^ 63) : asI64 (ofI64 z) = z := by
  unfold asI64 ofI64
  split <;> omega

/-- A time between two others as the database sees them lies between them. -/
theorem between_of_asI64 {a b : ℕ} {z : ℤ} (hab : a ≤ b) (hb : b < 2 ^ 64) (ha : asI64 a < z)
    (hz : z ≤ asI64 b) : a < ofI64 z ∧ ofI64 z ≤ b := by
  unfold asI64 at ha hz
  unfold ofI64
  split at ha <;> split at hz <;> omega

theorem timestampMillisOpt_eq_some {z t : ℤ} (h : timestampMillisOpt z = some t) :
    t = z ∧ -2 ^ 62 ≤ z ∧ z ≤ 2 ^ 62 := by
  unfold timestampMillisOpt at h
  split at h
  · cases h
    omega
  · cases h

theorem mem_firesAfter_bounds (hlib : lib.Lawful) {cron : lib.Schedule} {zone : lib.Zone} {last f : ℤ}
    {n : ℕ} {t : ℤ} (hf : f ∈ firesAfter (lib.next cron zone) last n t) :
    t < f ∧ f ≤ last ∧ ∃ t', lib.next cron zone t' = some f := by
  induction n generalizing t with
  | zero => cases hf
  | succ n ih =>
    rw [firesAfter] at hf
    split at hf
    next => cases hf
    next g hg =>
      have hlt := (hlib.next_some cron zone t g hg).1
      split at hf
      next => cases hf
      next hle =>
        rcases List.mem_cons.mp hf with rfl | hf
        · exact ⟨hlt, by omega, t, hg⟩
        · obtain ⟨hgf, hrest⟩ := ih hf
          exact ⟨hlt.trans hgf, hrest⟩

/-- Fires come in increasing order. -/
theorem firesAfter_pairwise (hlib : lib.Lawful) (cron : lib.Schedule) (zone : lib.Zone) (last : ℤ)
    (n : ℕ) (t : ℤ) : (firesAfter (lib.next cron zone) last n t).Pairwise (· < ·) := by
  induction n generalizing t with
  | zero => exact List.Pairwise.nil
  | succ n ih =>
    rw [firesAfter]
    split
    next => exact List.Pairwise.nil
    next g _ =>
      split
      next => exact List.Pairwise.nil
      next => exact List.pairwise_cons.mpr ⟨fun f hf => (mem_firesAfter_bounds hlib hf).1, ih g⟩

theorem le_getLast {l : List ℤ} (h : l.Pairwise (· < ·)) {a b : ℤ} (ha : a ∈ l)
    (hb : l.getLast? = some b) : a ≤ b := by
  obtain ⟨l, rfl⟩ := List.getLast?_eq_some_iff.mp hb
  rcases List.mem_append.mp ha with ha | ha
  · exact (List.pairwise_append.mp h).2.2 a ha b (List.mem_singleton.mpr rfl) |>.le
  · exact (List.mem_singleton.mp ha).le

/-- Where the due fires of a schedule come from. -/
structure Found (lib : CronLibrary) (m : QueueScheduleManifest) (now maxMissed : ℕ)
    (cron : lib.Schedule) (zone : lib.Zone) : Prop where
  cron_eq : parseCron lib m.cron = .ok cron
  zone_eq : parseZone lib m.zone = .ok zone
  checked : m.lastCheckedMs < now
  pos : 0 < maxMissed
  low : -2 ^ 62 ≤ asI64 m.startMs
  high : asI64 m.startMs ≤ 2 ^ 62
  last : asI64 now ≤ 2 ^ 62

theorem missedFireTimes_cases {m : QueueScheduleManifest} {now maxMissed : ℕ} {due : List ℕ}
    (h : missedFireTimes lib m now maxMissed = .ok due) :
    due = [] ∧ (now ≤ m.lastCheckedMs ∨ maxMissed = 0) ∨
      ∃ cron zone, Found lib m now maxMissed cron zone ∧
        due = (firesAfter (lib.next cron zone) (asI64 now) maxMissed (asI64 m.startMs)).map ofI64 := by
  unfold missedFireTimes at h
  split at h
  next hskip =>
    cases h
    exact .inl ⟨rfl, hskip⟩
  next hskip =>
    cases hcron : parseCron lib m.cron with
    | error err =>
      rw [hcron] at h
      cases h
    | ok cron =>
      cases hzone : parseZone lib m.zone with
      | error err =>
        rw [hcron, hzone] at h
        cases h
      | ok zone =>
        rw [hcron, hzone] at h
        simp only [bind, Except.bind] at h
        split at h
        next => cases h
        next start hstart =>
          split at h
          next => cases h
          next last hlast =>
            cases h
            obtain ⟨rfl, hlow, hhigh⟩ := timestampMillisOpt_eq_some hstart
            obtain ⟨rfl, -, hlast⟩ := timestampMillisOpt_eq_some hlast
            exact .inr ⟨cron, zone,
              ⟨hcron, hzone, by omega, by omega, hlow, hhigh, hlast⟩, rfl⟩

theorem mem_dueFires {m : QueueScheduleManifest} {now maxMissed f : ℕ}
    (h : f ∈ dueFires lib now maxMissed m) :
    ∃ cron zone z, Found lib m now maxMissed cron zone ∧
      z ∈ firesAfter (lib.next cron zone) (asI64 now) maxMissed (asI64 m.startMs) ∧
      ofI64 z = f := by
  unfold dueFires at h
  cases hdue : missedFireTimes lib m now maxMissed with
  | error err =>
    rw [hdue] at h
    cases h
  | ok due =>
    rw [hdue] at h
    obtain ⟨rfl, -⟩ | ⟨cron, zone, hfound, rfl⟩ := missedFireTimes_cases hdue
    · cases h
    · obtain ⟨z, hz, hf⟩ := List.mem_map.mp h
      exact ⟨cron, zone, z, hfound, hz, hf⟩

/-- Only the expression, the time zone and the start of the window matter. -/
theorem dueFires_congr {m m' : QueueScheduleManifest} {now maxMissed : ℕ} (hcron : m'.cron = m.cron)
    (hzone : m'.zone = m.zone) (hstart : m'.startMs = m.startMs) (h : m.lastCheckedMs < now)
    (h' : m'.lastCheckedMs < now) : dueFires lib now maxMissed m' = dueFires lib now maxMissed m := by
  unfold dueFires missedFireTimes
  simp only [hcron, hzone, hstart, h.not_ge, h'.not_ge]

/-- The fires that are due come after the cursor. -/
theorem after_cursor (hlib : lib.Lawful) {m : QueueScheduleManifest} {now maxMissed f : ℕ}
    (hcursor : m.lastFireMs.getD m.lastCheckedMs < now) (hnow : now < 2 ^ 64)
    (hf : f ∈ dueFires lib now maxMissed m) :
    m.lastFireMs.getD m.lastCheckedMs < f ∧ f ≤ now := by
  obtain ⟨cron, zone, z, -, hz, rfl⟩ := mem_dueFires hf
  obtain ⟨hlow, hhigh, -⟩ := mem_firesAfter_bounds hlib hz
  have hstart : m.startMs = m.lastFireMs.getD m.lastCheckedMs + 1 := by
    unfold QueueScheduleManifest.startMs saturatingAdd u64Max
    omega
  rw [hstart] at hlow
  have hbetween := between_of_asI64 hcursor hnow hlow hhigh
  omega

end Due

/-! ### Settled schedules -/

/-- A schedule that has been checked between two times, and has no fires left up to the first. -/
structure Settled (lib : CronLibrary) (m : QueueScheduleManifest) (now t : ℕ)
    (r : QueueScheduleManifest) : Prop where
  cron : r.cron = m.cron
  zone : r.zone = m.zone
  low : now ≤ r.lastCheckedMs
  high : r.lastCheckedMs ≤ t
  ahead : ∀ now' maxMissed, r.lastCheckedMs < now' → now' < 2 ^ 64 →
    ∀ f ∈ dueFires lib now' maxMissed r, now < f ∧ f ≤ now'

/-- The last fire that a recovery writes. -/
def markedFire (x : QueueScheduleManifest) (due : List ℕ) : Option ℕ :=
  if due.isEmpty then x.lastFireMs else due.getLast?

section Settling

variable {lib : CronLibrary} {m r x : QueueScheduleManifest} {now t : ℕ}

theorem Settled.mono {t' : ℕ} (h : Settled lib m now t r) (ht : t ≤ t') : Settled lib m now t' r :=
  { h with high := h.high.trans ht }

/-- What a mark does to the row of its schedule. -/
theorem markRow_self (r : QueueScheduleManifest) (t : ℕ) (lastFire : Option ℕ) :
    ∃ r', markRow r.id t lastFire r = r' ∧ r'.cron = r.cron ∧ r'.zone = r.zone ∧
      r'.lastCheckedMs = t ∧ r'.lastFireMs = lastFire.or r.lastFireMs :=
  ⟨_, if_pos rfl, rfl, rfl, rfl, rfl⟩

theorem startMs_eq {m m' : QueueScheduleManifest} (h : m'.lastFireMs = m.lastFireMs)
    (hsome : m.lastFireMs ≠ none) : m'.startMs = m.startMs := by
  obtain ⟨fire, hfire⟩ := Option.ne_none_iff_exists'.mp hsome
  simp only [QueueScheduleManifest.startMs, h, hfire, Option.getD_some]

/-- A schedule with the cursor of a settled one is settled. -/
theorem Settled.ahead_of_eq {t' : ℕ} (h : Settled lib m now t x) (hcron : r.cron = x.cron)
    (hzone : r.zone = x.zone) (hfire : r.lastFireMs = x.lastFireMs) (hsome : x.lastFireMs ≠ none)
    (hchecked : r.lastCheckedMs = t') (ht : t ≤ t') {now' maxMissed : ℕ} (hlt : t' < now')
    (hnow' : now' < 2 ^ 64) : ∀ f ∈ dueFires lib now' maxMissed r, now < f ∧ f ≤ now' := by
  have hltx : x.lastCheckedMs < now' := (h.high.trans ht).trans_lt hlt
  rw [dueFires_congr hcron hzone (startMs_eq hfire hsome) hltx (hchecked.trans_lt hlt)]
  exact h.ahead now' maxMissed hltx hnow'

/-- A later recovery keeps a schedule settled. -/
theorem Settled.mark (hlib : lib.Lawful) {t' maxMissed : ℕ} {due : List ℕ}
    (hr : Settled lib m now t r) (hx : Settled lib m now t x) (ht : t ≤ t')
    (hdue : missedFireTimes lib x t' maxMissed = .ok due) :
    Settled lib m now t' (markRow r.id t' (markedFire x due) r) := by
  obtain ⟨r', hmark, hcron, hzone, hchecked, hfire⟩ := markRow_self r t' (markedFire x due)
  have hlow : now ≤ t' := hr.low.trans (hr.high.trans ht)
  rw [hmark]
  refine ⟨hcron.trans hr.cron, hzone.trans hr.zone, hchecked ▸ hlow, hchecked.le, ?_⟩
  intro now' maxMissed' hlt hnow'
  rw [hchecked] at hlt
  by_cases hempty : due = []
  · rw [markedFire, hempty, List.isEmpty_nil, if_pos rfl] at hfire
    -- the cursor is that of the row that was read, else that of the row itself
    by_cases hfirex : x.lastFireMs = none
    · rw [hfirex, Option.none_or] at hfire
      by_cases hfirer : r.lastFireMs = none
      · intro f hf
        have hcursor : r'.lastFireMs.getD r'.lastCheckedMs = t' := by
          rw [hfire, hfirer, hchecked, Option.getD_none]
        have hafter := after_cursor hlib (hcursor.trans_lt hlt) hnow' hf
        omega
      · exact hr.ahead_of_eq hcron hzone hfire hfirer hchecked ht hlt hnow'
    · refine hx.ahead_of_eq (hcron.trans (hr.cron.trans hx.cron.symm))
        (hzone.trans (hr.zone.trans hx.zone.symm)) ?_ hfirex hchecked ht hlt hnow'
      obtain ⟨fire, hsome⟩ := Option.ne_none_iff_exists'.mp hfirex
      rw [hfire, hsome, Option.some_or]
  · obtain ⟨last, hlast⟩ := Option.ne_none_iff_exists'.mp (mt List.getLast?_eq_none_iff.mp hempty)
    rw [markedFire, if_neg (by simpa using hempty), hlast, Option.some_or] at hfire
    have hltx : x.lastCheckedMs < t' := by
      obtain ⟨hnil, -⟩ | ⟨_, _, hfound, -⟩ := missedFireTimes_cases hdue
      · exact absurd hnil hempty
      · exact hfound.checked
    have hmem : last ∈ dueFires lib t' maxMissed x := by
      rw [dueFires, hdue]
      exact List.mem_of_getLast? hlast
    have hbounds := hx.ahead t' maxMissed hltx (by omega) last hmem
    have hcursor : r'.lastFireMs.getD r'.lastCheckedMs = last := by rw [hfire, Option.getD_some]
    intro f hf
    have hafter := after_cursor hlib (hcursor.trans_lt (hbounds.2.trans_lt hlt)) hnow' hf
    omega

/-- After the last of its due fires a schedule has none left up to the recovery. -/
theorem lt_of_start (hlib : lib.Lawful) {cron : lib.Schedule} {zone : lib.Zone} {n g : ℕ}
    {start last z : ℤ} (hlow : -2 ^ 62 ≤ start) (hhigh : last ≤ 2 ^ 62)
    (hg : ((firesAfter (lib.next cron zone) last n start).map ofI64).getLast? = some g)
    (hvalid : -2 ^ 62 ≤ asI64 (saturatingAdd g 1)) (hz : asI64 (saturatingAdd g 1) < z) :
    start < z ∧ z ∉ firesAfter (lib.next cron zone) last n start := by
  rw [List.getLast?_map, Option.map_eq_some_iff] at hg
  obtain ⟨y, hy, rfl⟩ := hg
  have hpairwise := firesAfter_pairwise hlib cron zone last n start
  obtain ⟨hylow, hyhigh, -⟩ := mem_firesAfter_bounds hlib (List.mem_of_getLast? hy)
  have hyz : y < z := by
    unfold saturatingAdd u64Max asI64 ofI64 at hz hvalid
    split at hz <;> omega
  refine ⟨hylow.trans hyz, fun hmem => ?_⟩
  have hle := le_getLast hpairwise hmem hy
  omega

/-- A recovery that cuts nothing off settles a schedule. -/
theorem settled_of_caughtUp (hlib : lib.Lawful) {maxMissed : ℕ} {due : List ℕ}
    (hcaught : CaughtUp lib now maxMissed m)
    (hdue : missedFireTimes lib m now maxMissed = .ok due) :
    Settled lib m now now (markRow m.id now (markedFire m due) m) := by
  obtain ⟨r', hmark, hcron, hzone, hchecked, hfire⟩ := markRow_self m now (markedFire m due)
  rw [hmark]
  refine ⟨hcron, hzone, hchecked.ge, hchecked.le, ?_⟩
  intro now' maxMissed' hlt hnow' f hf
  rw [hchecked] at hlt
  by_cases hnone : r'.lastFireMs = none
  · have hcursor : r'.lastFireMs.getD r'.lastCheckedMs = now := by
      rw [hnone, hchecked, Option.getD_none]
    have hafter := after_cursor hlib (hcursor.trans_lt hlt) hnow' hf
    omega
  · obtain ⟨cron, zone, z, hfound, hz, rfl⟩ := mem_dueFires hf
    obtain ⟨hstart, hlast, t', hnext⟩ := mem_firesAfter_bounds hlib hz
    -- a fire up to the recovery would have been found by it
    suffices hafter : asI64 now < z from between_of_asI64 hlt.le hnow' hafter hlast
    by_contra hle
    have hmem : asI64 m.startMs < z → z ∈ firesAfter (lib.next cron zone) (asI64 now)
        (if now ≤ m.lastCheckedMs then 0 else maxMissed) (asI64 m.startMs) := fun hlow =>
      mem_firesAfter hlib hnext (by omega) hlow
        (hcaught cron zone (hcron ▸ hfound.cron_eq) (hzone ▸ hfound.zone_eq))
    obtain ⟨rfl, hskip⟩ | ⟨cron', zone', hfound', rfl⟩ := missedFireTimes_cases hdue
    · rw [markedFire, List.isEmpty_nil, if_pos rfl, Option.or_self] at hfire
      have hz' := hmem (startMs_eq hfire (hfire ▸ hnone) ▸ hstart)
      rcases hskip with hchecked | rfl
      · rw [if_pos hchecked] at hz'
        cases hz'
      · rw [ite_self] at hz'
        cases hz'
    · obtain rfl : cron = cron' :=
        Except.ok.inj ((hcron ▸ hfound.cron_eq).symm.trans hfound'.cron_eq)
      obtain rfl : zone = zone' :=
        Except.ok.inj ((hzone ▸ hfound.zone_eq).symm.trans hfound'.zone_eq)
      rw [if_neg hfound'.checked.not_ge] at hmem
      by_cases hempty : firesAfter (lib.next cron zone) (asI64 now) maxMissed (asI64 m.startMs) = []
      · rw [markedFire, hempty, List.map_nil, List.isEmpty_nil, if_pos rfl, Option.or_self] at hfire
        have hz' := hmem (startMs_eq hfire (hfire ▸ hnone) ▸ hstart)
        rw [hempty] at hz'
        cases hz'
      · obtain ⟨g, hg⟩ := Option.ne_none_iff_exists'.mp
          (mt (fun h => List.map_eq_nil_iff.mp (List.getLast?_eq_none_iff.mp h)) hempty)
        rw [markedFire, if_neg (by simpa using hempty), hg, Option.some_or] at hfire
        have hstart' : r'.startMs = saturatingAdd g 1 := by
          rw [QueueScheduleManifest.startMs, hfire, Option.getD_some]
        rw [hstart'] at hstart
        obtain ⟨hlow, hnot⟩ := lt_of_start hlib hfound'.low hfound'.last hg
          (hstart' ▸ hfound.low) hstart
        exact hnot (hmem hlow)

end Settling

/-! ### Runs -/

section Runs

variable {lib : CronLibrary} {m : QueueScheduleManifest} {now t : ℕ} {s s' : QueueState}

/-- The row of a schedule, as far as there is one. -/
def Row (id : String) (P : QueueScheduleManifest → Prop) (s : QueueState) : Prop :=
  ∀ r ∈ s.db.schedules, r.id = id → P r

theorem Row.congr {id : String} {P : QueueScheduleManifest → Prop} (h : Row id P s)
    (hs : s'.db.schedules = s.db.schedules) : Row id P s' :=
  fun r hr => h r (hs ▸ hr)

theorem Row.mono {id : String} {P Q : QueueScheduleManifest → Prop} (h : Row id P s)
    (hPQ : ∀ r, P r → Q r) : Row id Q s :=
  fun r hr hid => hPQ r (h r hr hid)

theorem Row.map_mark {id id' : String} {P Q : QueueScheduleManifest → Prop} (h : Row id P s)
    {lastFire : Option ℕ} (hs : s'.db.schedules = s.db.schedules.map (markRow id' t lastFire))
    (hother : id ≠ id' → ∀ r, P r → Q r)
    (hown : ∀ r, r.id = id → id = id' → P r → Q (markRow r.id t lastFire r)) : Row id Q s' := by
  intro r hr hid
  rw [hs] at hr
  obtain ⟨y, hy, rfl⟩ := List.mem_map.mp hr
  rw [markRow_id] at hid
  by_cases hid' : id = id'
  · have hmarked := hown y hid hid' (h y hy hid)
    rwa [hid, hid'] at hmarked
  · have hkeep : markRow id' t lastFire y = y := if_neg (hid ▸ hid')
    rw [hkeep]
    exact hother hid' y (h y hy hid)

/-- An operation that neither creates schedules nor recovers them leaves them alone. -/
theorem schedules_of_canIssue {α : Type} {op : Op} {p : QueueM α} (hp : p.All op.CanIssue)
    (hupsert : ∀ manifest budgetUsd now, op ≠ .upsertSchedule manifest budgetUsd now)
    (hrecover : ∀ now maxMissed, op ≠ .recoverSchedulesAt now maxMissed) (s : QueueState) :
    (p.run Access.exec s).2.db.schedules = s.db.schedules := by
  have halong : p.Along Access.exec (fun _ q => op.CanIssue q) s :=
    Prog.along_of_all (fun _ _ hq => hq) hp s
  apply Prog.run_inv (I := fun s' => s'.db.schedules = s.db.schedules) ?_ halong rfl
  intro s' q hs' hq
  rw [exec_db, exec_schedules, hs']
  · rintro manifest rfl
    obtain ⟨_, _, _, hop, -⟩ := hq
    exact hupsert _ _ _ hop
  · rintro id now lastFire rfl
    obtain ⟨_, hop⟩ := hq
    exact hrecover _ _ hop

theorem schedules_enqueueFires {x : QueueScheduleManifest} {fires : List ℕ}
    {r : Except RuntimeError (List ScheduleRecovery)}
    (h : (enqueueFires x t fires).run Access.exec s = (r, s')) :
    s'.db.schedules = s.db.schedules := by
  have hkept := schedules_of_canIssue (all_enqueueFires (.setPaused true) x t fires) (by simp)
    (by simp) s
  rwa [h] at hkept

/-- A recovery that completes has marked the schedule. -/
theorem recoverSchedule_ok {x : QueueScheduleManifest} {maxMissed : ℕ}
    {report report' : SchedulerRecoveryReport}
    (h : (recoverSchedule lib t maxMissed x report).run Access.exec s = (.ok report', s')) :
    ∃ due, missedFireTimes lib x t maxMissed = .ok due ∧
      s'.db.schedules = s.db.schedules.map (markRow x.id t (markedFire x due)) := by
  unfold recoverSchedule at h
  cases hdue : missedFireTimes lib x t maxMissed with
  | error err =>
    rw [hdue] at h
    cases h
  | ok due =>
    rw [hdue] at h
    refine ⟨due, rfl, ?_⟩
    dsimp only at h
    unfold markedFire
    split at h
    next hempty =>
      rw [if_pos hempty]
      cases h
      rfl
    next hne =>
      rw [if_neg hne]
      split at h
      next =>
        cases h
        rfl
      all_goals
        obtain ⟨recoveries, s₁, hfires, h⟩ := Prog.run_bind_eq_ok.mp h
        cases h
        show s₁.db.schedules.map _ = _
        rw [schedules_enqueueFires hfires]
        rfl

/-- A recovery that completes has settled the schedules of which it cut nothing off. -/
theorem settled_recoverAll (hlib : lib.Lawful) {maxMissed : ℕ} (hcaught : CaughtUp lib now maxMissed m)
    {xs : List QueueScheduleManifest} (hids : (xs.map QueueScheduleManifest.id).Nodup)
    {report report' : SchedulerRecoveryReport} (hm : m ∈ xs) (hrow : Row m.id (· = m) s)
    (h : (recoverAll lib now maxMissed xs report).run Access.exec s = (.ok report', s')) :
    Row m.id (Settled lib m now now) s' := by
  -- the other schedules of the list are marked before and after it
  have hothers : ∀ (P : QueueScheduleManifest → Prop) (xs : List QueueScheduleManifest)
      (report : SchedulerRecoveryReport) (s : QueueState), m.id ∉ xs.map QueueScheduleManifest.id →
      (recoverAll lib now maxMissed xs report).run Access.exec s = (.ok report', s') →
      Row m.id P s → Row m.id P s' := by
    intro P xs
    induction xs with
    | nil =>
      intro report s _ h hs
      cases h
      exact hs
    | cons x xs ih =>
      intro report s hnot h hs
      rw [List.map_cons, List.mem_cons, not_or] at hnot
      obtain ⟨report₁, s₁, hx, hrest⟩ := Prog.run_bind_eq_ok.mp h
      obtain ⟨due, -, hmarked⟩ := recoverSchedule_ok hx
      exact ih report₁ s₁ hnot.2 hrest
        (hs.map_mark hmarked (fun _ _ hr => hr) fun _ _ hid => absurd hid hnot.1)
  induction xs generalizing s report with
  | nil => cases hm
  | cons x xs ih =>
    rw [List.map_cons, List.nodup_cons] at hids
    obtain ⟨report₁, s₁, hx, hrest⟩ := Prog.run_bind_eq_ok.mp h
    obtain ⟨due, hdue, hmarked⟩ := recoverSchedule_ok hx
    rcases List.mem_cons.mp hm with rfl | hm
    · refine hothers _ xs report₁ s₁ hids.1 hrest (hrow.map_mark hmarked (absurd rfl) ?_)
      rintro r - - rfl
      exact settled_of_caughtUp hlib hcaught hdue
    · refine ih hids.2 hm (hrow.map_mark hmarked (fun _ _ hr => hr) fun r _ hid _ => ?_) hrest
      exact absurd (hid ▸ List.mem_map_of_mem hm) hids.1

/-- What a recovery does once the schedule is settled: it enqueues the fires after the first recovery,
and it marks the schedule with the last of them. -/
def Access.Recovers (lib : CronLibrary) (m : QueueScheduleManifest) (now t : ℕ) : Access → Prop
  | .insertJob job => ∀ f, isFireJob m.id f job → now < f ∧ f ≤ t
  | .markScheduleChecked id checkedMs lastFire => id = m.id →
      ∃ x maxMissed due, Settled lib m now t x ∧ missedFireTimes lib x t maxMissed = .ok due ∧
        checkedMs = t ∧ lastFire = markedFire x due
  | .freshId | .recordFire .. | .linkFire .. | .listSchedules => True
  | _ => False

theorem recovers_enqueueFires {x : QueueScheduleManifest} {fires : List ℕ}
    (h : x.id = m.id → ∀ f ∈ fires, now < f ∧ f ≤ t) :
    (enqueueFires x t fires).All (Access.Recovers lib m now t) := by
  induction fires with
  | nil => trivial
  | cons f fires ih =>
    have hjob : ∀ id, Access.Recovers lib m now t (.insertJob ((x.fireSpec f).job id none t)) := by
      intro id f' hf'
      obtain ⟨hid, rfl⟩ := isFireJob_fireSpec.mp hf'
      exact h hid f List.mem_cons_self
    have hfire : (enqueueScheduleFire x f t).All (Access.Recovers lib m now t) := by
      refine Prog.all_query_bind trivial fun inserted => ?_
      split
      · refine Prog.all_bind ?_ fun job => ⟨trivial, fun _ => trivial⟩
        unfold enqueueTypedAt
        split
        · trivial
        · refine Prog.all_query_bind trivial fun id => Prog.all_query_bind (hjob id) fun r => ?_
          cases r <;> trivial
      · trivial
    refine Prog.all_bind hfire fun job? =>
      Prog.all_bind (ih fun hid f' hf' => h hid f' (List.mem_cons_of_mem _ hf')) fun _ => ?_
    cases job? <;> trivial

theorem recovers_recoverSchedule {x : QueueScheduleManifest} {maxMissed : ℕ} (ht : t < 2 ^ 64)
    (hx : x.id = m.id → Settled lib m now t x) (report : SchedulerRecoveryReport) :
    (recoverSchedule lib t maxMissed x report).All (Access.Recovers lib m now t) := by
  unfold recoverSchedule
  cases hdue : missedFireTimes lib x t maxMissed with
  | error err => trivial
  | ok due =>
    have hmark : ∀ (lastFire : Option ℕ) (report : SchedulerRecoveryReport),
        lastFire = markedFire x due → Prog.All (Access.Recovers lib m now t)
          (access (.markScheduleChecked x.id t lastFire) >>= fun _ => pure report) :=
      fun lastFire report hlast => Prog.all_query_bind
        (fun hid => ⟨x, maxMissed, due, hx hid, hdue, rfl, hlast⟩) fun _ => trivial
    have hfires : x.id = m.id → ∀ f ∈ due, now < f ∧ f ≤ t := by
      intro hid f hf
      refine (hx hid).ahead t maxMissed ?_ ht f (by rwa [dueFires, hdue])
      obtain ⟨rfl, -⟩ | ⟨_, _, hfound, -⟩ := missedFireTimes_cases hdue
      · cases hf
      · exact hfound.checked
    dsimp only
    split
    next hempty => exact hmark _ _ (if_pos hempty).symm
    next hne =>
      have hlast : due.getLast? = markedFire x due := by rw [markedFire, if_neg hne]
      split
      next => exact hmark _ _ hlast
      next =>
        refine Prog.all_bind (recovers_enqueueFires fun hid f hf => hfires hid f ?_) fun _ =>
          hmark _ _ hlast
        exact List.mem_of_getLast? (Option.mem_toList.mp hf)
      next => exact Prog.all_bind (recovers_enqueueFires hfires) fun _ => hmark _ _ hlast

theorem recovers_recoverAll {maxMissed : ℕ} (ht : t < 2 ^ 64) {xs : List QueueScheduleManifest}
    (hxs : ∀ x ∈ xs, x.id = m.id → Settled lib m now t x) (report : SchedulerRecoveryReport) :
    (recoverAll lib t maxMissed xs report).All (Access.Recovers lib m now t) := by
  induction xs generalizing report with
  | nil => trivial
  | cons x xs ih =>
    refine Prog.all_bind (recovers_recoverSchedule ht (hxs x List.mem_cons_self) report) ?_
    exact ih fun y hy => hxs y (List.mem_cons_of_mem _ hy)

/-- A later recovery issues such accesses only. -/
theorem along_recoverSchedulesAt (ht : t < 2 ^ 64) (hs : Row m.id (Settled lib m now t) s)
    (maxMissed : ℕ) : ((Op.recoverSchedulesAt t maxMissed).prog lib).Along Access.exec
      (fun _ q => q.Recovers lib m now t) s := by
  refine ⟨trivial, Prog.along_of_all (fun _ _ hq => hq) (Prog.all_map ?_) _⟩
  refine recovers_recoverAll ht (fun x hx => hs x ?_) _
  exact (List.perm_insertionSort _ _).mem_iff.mp hx

theorem Row.exec_recovers (hlib : lib.Lawful) (hs : Row m.id (Settled lib m now t) s) {q : Access}
    (hq : q.Recovers lib m now t) : Row m.id (Settled lib m now t) (q.exec s).2 := by
  by_cases hmark : ∃ id checkedMs lastFire, q = .markScheduleChecked id checkedMs lastFire
  · obtain ⟨id, checkedMs, lastFire, rfl⟩ := hmark
    have hmarked : (Access.exec (.markScheduleChecked id checkedMs lastFire) s).2.db.schedules =
        s.db.schedules.map (markRow id checkedMs lastFire) := rfl
    refine hs.map_mark hmarked (fun _ _ hr => hr) ?_
    rintro r - hid hr
    obtain ⟨x, maxMissed, due, hx, hdue, rfl, rfl⟩ := hq hid.symm
    exact hr.mark hlib hx le_rfl hdue
  · refine hs.congr ?_
    rw [exec_db]
    refine exec_schedules s.db ?_ fun id now lastFire h => hmark ⟨id, now, lastFire, h⟩
    rintro manifest rfl
    exact hq

theorem Row.recover (hlib : lib.Lawful) (hs : Row m.id (Settled lib m now t) s) {t' : ℕ}
    (ht : t ≤ t') (ht' : t' < 2 ^ 64) (maxMissed : ℕ) :
    Row m.id (Settled lib m now t') ((Op.recoverSchedulesAt t' maxMissed).run lib s).2 := by
  have hs' := hs.mono fun r hr => hr.mono ht
  exact Prog.run_inv (fun _ _ hrow hq => hrow.exec_recovers hlib hq)
    (along_recoverSchedulesAt ht' hs' maxMissed) hs'

theorem Row.upsert {id : String} {P : QueueScheduleManifest → Prop} (h : Row id P s)
    {manifest : QueueScheduleManifest} (hid : manifest.id ≠ id)
    (hs : s'.db = s.db.upsertSchedule manifest) : Row id P s' := by
  intro r hr hr'
  rw [hs, QueueDb.upsertSchedule] at hr
  split at hr
  next =>
    obtain ⟨y, hy, rfl⟩ := List.mem_map.mp hr
    split at hr'
    next => exact absurd hr' hid
    next hne =>
      rw [if_neg hne]
      exact h y hy hr'
  next =>
    rcases List.mem_append.mp hr with hr | hr
    · exact h r hr hr'
    · rw [List.mem_singleton.mp hr] at hr'
      exact absurd hr' hid

/-- Other operations do not touch the row of a schedule. -/
theorem Row.run_op {id : String} {P : QueueScheduleManifest → Prop} (h : Row id P s) (op : Op)
    (hupsert : ∀ manifest budgetUsd now, op = .upsertSchedule manifest budgetUsd now → manifest.id ≠ id)
    (hrecover : ∀ now maxMissed, op ≠ .recoverSchedulesAt now maxMissed) :
    Row id P (op.run lib s).2 := by
  have halong : (op.prog lib).Along Access.exec (fun _ q => op.CanIssue q) s :=
    Prog.along_of_all (fun _ _ hq => hq) (op.all_canIssue lib) s
  apply Prog.run_inv ?_ halong h
  intro s' q hs' hq
  by_cases hcreate : ∃ manifest, q = .upsertSchedule manifest
  · obtain ⟨manifest, rfl⟩ := hcreate
    obtain ⟨manifest', budgetUsd, now, hop, hid⟩ := hq
    exact hs'.upsert (hid ▸ hupsert manifest' budgetUsd now hop) rfl
  · refine hs'.congr ?_
    rw [exec_db]
    refine exec_schedules s'.db (fun manifest hq' => hcreate ⟨manifest, hq'⟩) ?_
    rintro id now lastFire rfl
    obtain ⟨maxMissed, hop⟩ := hq
    exact hrecover now maxMissed hop

/-- A schedule stays settled. -/
theorem Row.later (hlib : lib.Lawful) {ops : List Op} {now' : ℕ}
    (hs : Row m.id (Settled lib m now t) s) (hops : Later m.id t ops now') (hnow' : now' < 2 ^ 64) :
    Row m.id (Settled lib m now now') (ops.foldl (fun s op => (op.run lib s).2) s) := by
  induction ops generalizing t s with
  | nil => exact hs.mono fun r hr => hr.mono hops
  | cons op ops ih =>
    have hlater_le : ∀ {t ops}, Later m.id t ops now' → t ≤ now' := by
      intro t ops h
      induction ops generalizing t with
      | nil => exact h
      | cons op ops ih =>
        cases op with
        | recoverSchedulesAt => exact h.1.trans (ih h.2)
        | upsertSchedule => exact ih h.2
        | _ => exact ih h
    rw [List.foldl_cons]
    cases op with
    | recoverSchedulesAt t' maxMissed =>
      obtain ⟨ht, hops⟩ := hops
      exact ih (hs.recover hlib ht ((hlater_le hops).trans_lt hnow') maxMissed) hops
    | upsertSchedule manifest budgetUsd now =>
      obtain ⟨hid, hops⟩ := hops
      refine ih (hs.run_op _ ?_ (by simp)) hops
      rintro _ _ _ ⟨⟩
      exact hid
    | _ => exact ih (hs.run_op _ (by simp) (by simp)) hops

theorem nodup_exec {q : Access} (h : (s.db.schedules.map QueueScheduleManifest.id).Nodup) :
    ((q.exec s).2.db.schedules.map QueueScheduleManifest.id).Nodup := by
  rw [exec_db]
  by_cases hcreate : ∃ manifest, q = .upsertSchedule manifest
  · obtain ⟨manifest, rfl⟩ := hcreate
    exact nodup_upsertSchedule h manifest
  · by_cases hmark : ∃ id now lastFire, q = .markScheduleChecked id now lastFire
    · obtain ⟨id, now, lastFire, rfl⟩ := hmark
      show ((s.db.schedules.map (markRow id now lastFire)).map QueueScheduleManifest.id).Nodup
      rw [List.map_map]
      exact (List.map_congr_left fun r _ => markRow_id id now lastFire r) ▸ h
    · rw [exec_schedules s.db (fun manifest hq => hcreate ⟨manifest, hq⟩) fun id now lastFire hq =>
        hmark ⟨id, now, lastFire, hq⟩]
      exact h

theorem runAll_append (ops ops' : List Op) :
    runAll lib (ops ++ ops') = ops'.foldl (fun s op => (op.run lib s).2) (runAll lib ops) :=
  List.foldl_append

theorem runAll_snoc (ops : List Op) (op : Op) :
    runAll lib (ops ++ [op]) = (op.run lib (runAll lib ops)).2 :=
  runAll_append ops [op]

theorem nodup_runAll (lib : CronLibrary) (ops : List Op) :
    ((runAll lib ops).db.schedules.map QueueScheduleManifest.id).Nodup := by
  induction ops using List.reverseRecOn with
  | nil => exact List.nodup_nil
  | append_singleton ops op ih =>
    rw [runAll_snoc]
    have halong : (op.prog lib).Along Access.exec (fun _ _ => True) (runAll lib ops) :=
      Prog.along_of_all (fun _ _ h => h) (Prog.all_true _) _
    exact Prog.run_inv (I := fun s => (s.db.schedules.map QueueScheduleManifest.id).Nodup)
      (fun _ _ hs _ => nodup_exec hs) halong ih

/-- Only the insertion of a job changes how many there are of a kind. -/
theorem countP_exec_recovers {q : Access} (hq : q.Recovers lib m now t) {f : ℕ}
    (hf : ¬ (now < f ∧ f ≤ t)) :
    (q.exec s).2.db.jobs.countP (isFireJob m.id f) = s.db.jobs.countP (isFireJob m.id f) := by
  rw [exec_db]
  cases q with
  | insertJob job =>
    have hnot : ¬ isFireJob m.id f job := fun h => hf (hq f h)
    rw [Access.execDb, QueueDb.insertJob]
    split
    · rfl
    · split
      · rfl
      · rw [List.countP_append, List.countP_singleton, if_neg hnot, Nat.add_zero]
  | recordFire scheduleId fireMs now =>
    show (s.db.recordFire scheduleId fireMs now).2.jobs.countP _ = _
    unfold QueueDb.recordFire
    dsimp only
    split <;> rfl
  | freshId | linkFire | listSchedules | markScheduleChecked => rfl
  | _ => exact hq.elim

end Runs

/-- After a recovery at which the backlog of a schedule is no longer than its bound, recoveries at
later times enqueue only fires after the first one, whatever its policy is and whatever else is done
in between. -/
theorem recovery_fires_once (lib : CronLibrary) (hlib : lib.Lawful) (ops : List Op)
    (now maxMissed : ℕ) (m : QueueScheduleManifest) (hm : m ∈ (runAll lib ops).db.schedules)
    (hcaught : CaughtUp lib now maxMissed m)
    (hok : ((Op.recoverSchedulesAt now maxMissed).run lib (runAll lib ops)).1 = .ok none)
    (later : List Op) (now' maxMissed' : ℕ) (hlater : Later m.id now later now')
    (hnow' : now' < 2 ^ 64) (f : ℕ) (hf : ¬ (now < f ∧ f ≤ now')) :
    (runAll lib (ops ++ .recoverSchedulesAt now maxMissed :: later ++
        [.recoverSchedulesAt now' maxMissed'])).db.jobs.countP (isFireJob m.id f) =
      (runAll lib (ops ++ .recoverSchedulesAt now maxMissed :: later)).db.jobs.countP
        (isFireJob m.id f) := by
  have hnodup := nodup_runAll lib ops
  have hperm := List.perm_insertionSort (fun a b : QueueScheduleManifest => a.id ≤ b.id)
    (runAll lib ops).db.schedules
  -- the first recovery settles the schedule
  have hfirst : Row m.id (Settled lib m now now)
      (runAll lib (ops ++ [.recoverSchedulesAt now maxMissed])) := by
    have hrow : Row m.id (· = m) (runAll lib ops) := fun r hr hid => nodup_unique hnodup hm hr hid
    obtain ⟨report, hrun, -⟩ := Prog.run_map_eq_ok.mp (Prod.ext hok rfl)
    rw [runAll_snoc]
    exact settled_recoverAll hlib hcaught ((hperm.map _).nodup_iff.mpr hnodup)
      (hperm.mem_iff.mpr hm) hrow hrun
  have hrow := hfirst.later hlib hlater hnow'
  rw [← runAll_append, List.append_assoc, List.singleton_append] at hrow
  rw [runAll_snoc]
  generalize runAll lib (ops ++ .recoverSchedulesAt now maxMissed :: later) = s at hrow ⊢
  exact Prog.run_inv
    (I := fun s' => s'.db.jobs.countP (isFireJob m.id f) = s.db.jobs.countP (isFireJob m.id f))
    (fun _ _ hs hq => (countP_exec_recovers hq hf).trans hs)
    (along_recoverSchedulesAt hnow' hrow maxMissed') rfl

/-- A schedule that fires once has missed two fires, the second of which a recovery with room for one
does not see. -/
def onceMinutely : QueueScheduleManifest :=
  { minutely 30000 with missedPolicy := .fireOnceOnRecovery }

/-- With room for both fires, the recovery enqueues the second one, and a later recovery only the
third. -/
theorem recovery_fires_once_minutely :
    let ops := [.upsertSchedule onceMinutely none 30000, .recoverSchedulesAt 150000 2]
    (runAll .everyMinute ops).db.jobs.map (isFireJob "minutely" 120000) = [true] ∧
      ∀ f, ¬ (150000 < f ∧ f ≤ 210000) →
        (runAll .everyMinute (ops ++ [.recoverSchedulesAt 210000 2])).db.jobs.countP
            (isFireJob "minutely" f) =
          (runAll .everyMinute ops).db.jobs.countP (isFireJob "minutely" f) := by
  refine ⟨by decide +kernel, fun f hf => ?_⟩
  refine recovery_fires_once .everyMinute lawful_everyMinute
    [.upsertSchedule onceMinutely none 30000] 150000 2 onceMinutely (by decide +kernel) ?_
    (by decide +kernel) [] 210000 2 (by decide : 150000 ≤ 210000) (by decide) f hf
  intro _ _ _ _ n
  refine (length_firesAfter_everyMinute _ n _).trans ?_
  decide +kernel

/-- With room for one, the recovery enqueues the first fire, and the next one the second, which is
before the first recovery. -/
theorem recovery_fires_again :
    let ops := [.upsertSchedule onceMinutely none 30000, .recoverSchedulesAt 150000 1]
    onceMinutely.missedPolicy = .fireOnceOnRecovery ∧
      (runAll .everyMinute ops).db.jobs.map (isFireJob "minutely" 60000) = [true] ∧
      (runAll .everyMinute ops).db.jobs.countP (isFireJob "minutely" 120000) = 0 ∧
      (runAll .everyMinute (ops ++ [.recoverSchedulesAt 150001 1])).db.jobs.countP
        (isFireJob "minutely" 120000) = 1 := by
  decide +kernel

end Corvid.Queue
