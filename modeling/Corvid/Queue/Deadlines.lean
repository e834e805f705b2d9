import Corvid.Queue.Rows

/-!
# Deadlines of leases

The deadline of a lease is compared in three places: as an unsigned number when candidates are
selected, and as the signed number of its column in the update and in the count of active leases.
They agree at times on the same side of `2 ^ 63` as the deadline.

## Main definitions

* `ViewsAgree`: the three places hold a lease at exactly the times before its deadline

## Main results

* `lease_views_agree`: when they do
* `lease_views_disagree`: a lease of the longest duration is already over for the database
-/

namespace Corvid.Queue

open Store

/-- At a time, a job counts as an active lease, is kept from being leased by the update, and is no
candidate, each exactly if the deadline is still to come. -/
structure ViewsAgree (j : QueueJob) (deadline t : ℕ) : Prop where
  counted : ∀ task : Option String, task.all (j.task = ·) →
    (countActiveLeases task t [j] = 1 ↔ t < deadline)
  guarded : ¬ leasable j.id t j ↔ t < deadline
  excluded : ¬ eligibleToLease t j ↔ t < deadline

section Views

variable {s s' : QueueState} {j : QueueJob}

/-- Signed and unsigned order agree on the same side of `2 ^ 63`. -/
theorem asI64_lt_iff {a b : ℕ} (ha : a < 2 ^ 64) (hb : b < 2 ^ 64) :
    (asI64 a < asI64 b ↔ a < b) ↔ (a < 2 ^ 63 ↔ b < 2 ^ 63) := by
  unfold asI64
  split <;> split <;> omega

theorem viewsAgree_iff {deadline t : ℕ} (hstatus : j.status = .leased)
    (hdeadline : j.leaseExpiresMs = some deadline) :
    ViewsAgree j deadline t ↔ (asI64 t < asI64 deadline ↔ t < deadline) := by
  have hactive : activeLease t j ↔ asI64 t < asI64 deadline := by
    simp [activeLease, hstatus, hdeadline]
  have hguard : ¬ leasable j.id t j ↔ asI64 t < asI64 deadline := by
    simp [leasable, hstatus, hdeadline]
  have hcandidate : ¬ eligibleToLease t j ↔ t < deadline := by
    simp [eligibleToLease, hstatus, hdeadline]
  constructor
  · intro h
    exact hguard.symm.trans h.guarded
  · intro h
    refine ⟨fun task htask => ?_, hguard.trans h, hcandidate⟩
    rw [← h, ← hactive]
    simp [countActiveLeases, List.countP_singleton, htask]

/-- The update stores the deadline in the row that `get` then reads. -/
theorem stored_of_leaseUpdate (hkeyed : s.db.Keyed) {id worker : String} {deadline now : ℕ}
    (hone : (Access.exec (.leaseUpdate id worker deadline now) s).1 = 1)
    (hj : findJob id (Access.exec (.leaseUpdate id worker deadline now) s).2.db.jobs = some j) :
    j.status = .leased ∧ j.leaseExpiresMs = some deadline := by
  have hcount : 0 < s.db.jobs.countP (leasable id now) := by
    have hreply : s.db.jobs.countP (leasable id now) = 1 := hone
    omega
  obtain ⟨r, hr, hleasable⟩ := List.countP_pos_iff.mp hcount
  have hid : r.id = id := by
    unfold leasable at hleasable
    exact (of_decide_eq_true hleasable).1
  obtain ⟨hmem, hjid⟩ := (findJob_eq_some (keyed_exec hkeyed (.leaseUpdate id worker deadline now))).mp hj
  obtain ⟨y, hy, rfl⟩ := List.mem_map.mp hmem
  have hyid : y.id = id := by
    split at hjid <;> exact hjid
  obtain rfl : y = r := List.inj_on_of_nodup_map hkeyed hy hr (hyid.trans hid.symm)
  rw [if_pos hleasable]
  exact ⟨rfl, rfl⟩

theorem stored_of_leaseFirst (hkeyed : s.db.Keyed) {worker : String} {deadline now : ℕ}
    {jobs : List QueueJob}
    (h : (leaseFirst worker deadline now jobs).run Access.exec s = (.ok (some j), s')) :
    j ∈ s'.db.jobs ∧ j.status = .leased ∧ j.leaseExpiresMs = some deadline := by
  induction jobs generalizing s with
  | nil => cases h
  | cons candidate rest ih =>
    rw [leaseFirst] at h
    obtain ⟨allowed, s₁, hallowed, h⟩ := Prog.run_bind_eq_ok.mp h
    cases hallowed
    split at h
    next =>
      obtain ⟨updated, s₂, hupdate, h⟩ := Prog.run_bind_eq_ok.mp h
      have hkeyed₂ : s₂.db.Keyed := by
        cases hupdate
        exact keyed_exec hkeyed (.leaseUpdate candidate.id worker deadline now)
      split at h
      next hone =>
        have hexec : Access.exec (.leaseUpdate candidate.id worker deadline now) s = (updated, s₂) := by
          cases hupdate
          rfl
        have hfound : findJob candidate.id s₂.db.jobs = some j := (Except.ok.inj (Prod.ext_iff.mp h).1)
        obtain rfl : s₂ = s' := (Prod.ext_iff.mp h).2
        refine ⟨((findJob_eq_some hkeyed₂).mp hfound).1, ?_⟩
        have hone' : (Access.exec (.leaseUpdate candidate.id worker deadline now) s).1 = 1 := by
          rw [hexec, hone]
        apply stored_of_leaseUpdate hkeyed hone'
        rw [hexec, hfound]
      next => exact ih hkeyed₂ h
    next => exact ih hkeyed h

/-- What a lease stores. -/
theorem stored_of_leaseNextAt (hkeyed : s.db.Keyed) {worker : String} {ttlMs now : ℕ}
    (h : (leaseNextAt worker ttlMs now).run Access.exec s = (.ok (some j), s')) :
    j ∈ s'.db.jobs ∧ j.status = .leased ∧
      j.leaseExpiresMs = some (saturatingAdd now (max ttlMs 1)) := by
  unfold leaseNextAt at h
  obtain ⟨paused, s₁, hpaused, h⟩ := Prog.run_bind_eq_ok.mp h
  cases hpaused
  split at h
  next => cases h
  next =>
    split at h
    next => cases h
    next =>
      obtain ⟨jobs, s₂, hjobs, h⟩ := Prog.run_bind_eq_ok.mp h
      cases hjobs
      exact stored_of_leaseFirst hkeyed h

end Views

/-- After a lease the three places agree at exactly the times on the side of its deadline. -/
theorem lease_views_agree (lib : CronLibrary) (s : QueueState) (hkeyed : s.db.Keyed)
    (worker : String) (ttlMs now : ℕ) (j : QueueJob) (s' : QueueState)
    (hlease : (Op.leaseNextAt worker ttlMs now).run lib s = (.ok (some j), s')) (t : ℕ)
    (ht : t < 2 ^ 64) :
    j ∈ s'.db.jobs ∧ (ViewsAgree j (saturatingAdd now (max ttlMs 1)) t ↔
      (t < 2 ^ 63 ↔ saturatingAdd now (max ttlMs 1) < 2 ^ 63)) := by
  obtain ⟨hmem, hstatus, hdeadline⟩ := stored_of_leaseNextAt hkeyed hlease
  refine ⟨hmem, ?_⟩
  rw [viewsAgree_iff hstatus hdeadline]
  apply asI64_lt_iff ht
  unfold saturatingAdd u64Max
  omega

/-- A lease of five seconds, looked at after two. -/
theorem lease_views_agree_five_seconds :
    ∃ j s', (Op.leaseNextAt "worker" 5000 1000).run .everyMinute
        (runAll .everyMinute [.enqueue (.plain "sync") 5]) = (.ok (some j), s') ∧
      ViewsAgree j 6000 3000 := by
  generalize hs : runAll .everyMinute [.enqueue (.plain "sync") 5] = s
  have hkeyed : s.db.Keyed := by
    rw [← hs, QueueDb.Keyed]
    decide +kernel
  have hleased : (((Op.leaseNextAt "worker" 5000 1000).run .everyMinute s).1.toOption.bind id).isSome := by
    rw [← hs]
    decide +kernel
  rcases hlease : (Op.leaseNextAt "worker" 5000 1000).run .everyMinute s with ⟨err | (_ | j), s'⟩
  · rw [hlease] at hleased
    cases hleased
  · rw [hlease] at hleased
    cases hleased
  · have hagree := lease_views_agree .everyMinute s hkeyed "worker" 5000 1000 j s' hlease 3000
      (by decide)
    exact ⟨j, s', rfl, hagree.2.mpr (by decide)⟩

/-- The deadline of a lease of the longest duration is the largest number, which is stored as a
negative one: no worker selects the job, but it is not counted, and the update would lease it again. -/
theorem lease_views_disagree :
    let s := runAll .everyMinute
      [.enqueue (.plain "sync") 5, .leaseNextAt "worker" u64Max 1000]
    s.db.jobs.length = 1 ∧ ∀ j ∈ s.db.jobs, j.leaseExpiresMs = some u64Max ∧ 2000 < u64Max ∧
      countActiveLeases none 2000 s.db.jobs = 0 ∧ leasable j.id 2000 j ∧ ¬ eligibleToLease 2000 j := by
  decide +kernel

end Corvid.Queue
