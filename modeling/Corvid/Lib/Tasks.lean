import Corvid.Lib.Comparison

/-!
# Tasks that start tasks

Tasks run side by side. A query of one of them may start another one, and the environment answers from
all that has been asked so far, and by whom.

## Main definitions

* `Tasks`, `Tasks.step`, `Tasks.run`: tasks, and a run along a schedule
* `Tasks.Beside`: two systems, task by task

## Main results

* `Tasks.run_beside`: two systems whose tasks do the same have the same log
* `Tasks.run_all`: what all queries of the tasks satisfy holds all along the log
-/

namespace Store

variable {Q : Type} {R : Q → Type} {ε α β : Type}

/-- What has been asked and answered, with the task that has asked. -/
abbrev Log (R : Q → Type) := List (ℕ × Σ q, R q)

structure Tasks (R : Q → Type) (ε α : Type) where
  programs : List (Prog R ε α)
  log : Log R

namespace Tasks

/-- One task goes on to its next query, if it has one. -/
def step (spawns : (q : Q) → R q → Option (Prog R ε α)) (answer : Log R → ℕ → (q : Q) → R q)
    (t : Tasks R ε α) (i : ℕ) : Tasks R ε α :=
  match t.programs[i]? with
  | some (.call q k) =>
    let r := answer t.log i q
    ⟨t.programs.set i (k r) ++ (spawns q r).toList, t.log ++ [(i, ⟨q, r⟩)]⟩
  | _ => t

/-- The tasks take steps as the schedule says. -/
def run (spawns : (q : Q) → R q → Option (Prog R ε α)) (answer : Log R → ℕ → (q : Q) → R q)
    (schedule : List ℕ) (t : Tasks R ε α) : Tasks R ε α :=
  schedule.foldl (step spawns answer) t

/-- What a task has come to, once it has. -/
def result (t : Tasks R ε α) (i : ℕ) : Option (Except ε α) :=
  match t.programs[i]? with
  | some (.ret a) => some (.ok a)
  | some (.fail e) => some (.error e)
  | _ => none

section Logs

variable {spawns : (q : Q) → R q → Option (Prog R ε α)} {answer : Log R → ℕ → (q : Q) → R q}

variable (spawns answer) in
/-- A step does nothing, or a task asks its next query. -/
theorem step_cases (t : Tasks R ε α) (i : ℕ) :
    step spawns answer t i = t ∨ ∃ q k, t.programs[i]? = some (.call q k) ∧
      step spawns answer t i = ⟨t.programs.set i (k (answer t.log i q)) ++
        (spawns q (answer t.log i q)).toList, t.log ++ [(i, ⟨q, answer t.log i q⟩)]⟩ := by
  unfold step
  split
  next q k h => exact .inr ⟨q, k, h, rfl⟩
  next => exact .inl rfl

theorem log_step_extends (t : Tasks R ε α) (i : ℕ) : t.log <+: (step spawns answer t i).log := by
  obtain hsame | ⟨q, k, -, hstep⟩ := step_cases spawns answer t i
  · simp [hsame]
  · rw [hstep]
    exact List.prefix_append _ _

theorem log_run_extends (schedule : List ℕ) (t : Tasks R ε α) :
    t.log <+: (run spawns answer schedule t).log := by
  induction schedule generalizing t with
  | nil => exact t.log.prefix_refl
  | cons i schedule ih => exact (log_step_extends t i).trans (ih _)

variable {P : Q → Prop}

/-- Every query that the tasks can ask satisfies `P`, and so does every query that they have asked. -/
structure All (P : Q → Prop) (t : Tasks R ε α) : Prop where
  programs : ∀ p ∈ t.programs, p.All P
  log : ∀ entry ∈ t.log, P entry.2.1

theorem All.step (hspawns : ∀ q r p, P q → spawns q r = some p → p.All P) {t : Tasks R ε α}
    (h : t.All P) (i : ℕ) : (step spawns answer t i).All P := by
  obtain hsame | ⟨q, k, hcall, hstep⟩ := step_cases spawns answer t i
  · rw [hsame]
    exact h
  · obtain ⟨hq, hk⟩ := h.programs _ (List.mem_of_getElem? hcall)
    rw [hstep]
    refine ⟨fun p hp => ?_, fun entry hentry => ?_⟩
    · rcases List.mem_append.mp hp with hp | hp
      · rcases List.mem_or_eq_of_mem_set hp with hp | rfl
        · exact h.programs p hp
        · exact hk _
      · exact hspawns q _ p hq (Option.mem_toList.mp hp)
    · rcases List.mem_append.mp hentry with hentry | hentry
      · exact h.log entry hentry
      · rw [List.mem_singleton.mp hentry]
        exact hq

theorem run_all (hspawns : ∀ q r p, P q → spawns q r = some p → p.All P) (schedule : List ℕ)
    {t : Tasks R ε α} (h : t.All P) : (run spawns answer schedule t).All P := by
  induction schedule generalizing t with
  | nil => exact h
  | cons i schedule ih => exact ih (h.step hspawns i)

end Logs

section Comparing

variable {spawns : (q : Q) → R q → Option (Prog R ε α)} {spawns' : (q : Q) → R q → Option (Prog R ε β)}
  {answer : Log R → ℕ → (q : Q) → R q} {c : ℕ → Comparison R} {rel : α → β → Prop}

/-- The same has been asked and answered, and each task follows the one of the other system. -/
structure Beside (c : ℕ → Comparison R) (rel : α → β → Prop) (t : Tasks R ε α) (t' : Tasks R ε β) :
    Prop where
  log : t'.log = t.log
  length : t'.programs.length = t.programs.length
  follows : ∀ i p p', t.programs[i]? = some p → t'.programs[i]? = some p' →
    Prog.Follows (c i) rel p p'

/-- Two systems that start with one task each. -/
theorem Beside.single {p : Prog R ε α} {p' : Prog R ε β} (h : Prog.Follows (c 0) rel p p') :
    Beside c rel ⟨[p], []⟩ ⟨[p'], []⟩ := by
  refine ⟨rfl, rfl, fun i q q' hq hq' => ?_⟩
  cases i with
  | zero =>
    rw [← Option.some.inj hq, ← Option.some.inj hq']
    exact h
  | succ i => simp at hq

theorem All.single {P : Q → Prop} {p : Prog R ε α} (h : p.All P) : All P ⟨[p], []⟩ := by
  refine ⟨fun q hq => ?_, by simp⟩
  rw [List.mem_singleton.mp hq]
  exact h

theorem Beside.lt {t : Tasks R ε α} {t' : Tasks R ε β} (h : Beside c rel t t') {i : ℕ}
    {p : Prog R ε α} (hp : t.programs[i]? = some p) : ∃ p', t'.programs[i]? = some p' := by
  have hi := (List.getElem?_eq_some_iff.mp hp).1
  rw [← h.length] at hi
  exact ⟨_, List.getElem?_eq_getElem hi⟩

/-- Programs that go on from the same answer, and tasks that the query has started. -/
theorem Beside.next {t : Tasks R ε α} {t' : Tasks R ε β} (h : Beside c rel t t') {i : ℕ}
    {p : Prog R ε α} {p' : Prog R ε β} (hp : Prog.Follows (c i) rel p p') {log : Log R}
    {new : Option (Prog R ε α)} {new' : Option (Prog R ε β)}
    (hnew : Option.Rel (Prog.Follows (c t.programs.length) rel) new new') :
    Beside c rel ⟨t.programs.set i p ++ new.toList, log⟩ ⟨t'.programs.set i p' ++ new'.toList, log⟩ := by
  refine ⟨rfl, ?_, fun j q q' hq hq' => ?_⟩
  · cases hnew with
    | none => simp [h.length]
    | some _ => simp [h.length]
  · simp only [List.getElem?_append, List.length_set, h.length] at hq hq'
    split at hq
    next hj =>
      rw [if_pos hj, List.getElem?_set] at hq'
      rw [List.getElem?_set] at hq
      split at hq
      next hij =>
        subst hij
        rw [if_pos rfl] at hq'
        simp only [hj, h.length, if_true, Option.some.injEq] at hq hq'
        subst hq
        subst hq'
        exact hp
      next hij =>
        rw [if_neg hij] at hq'
        exact h.follows j q q' hq hq'
    next hj =>
      rw [if_neg hj] at hq'
      cases hnew with
      | none => simp at hq
      | some hfollows =>
        -- the only task that has been started is the last one
        have hlast : j - t.programs.length = 0 := by
          by_contra hne
          simp [hne] at hq
        have hj' : j = t.programs.length := by omega
        simp only [Option.toList, hlast, List.getElem?_cons_zero, Option.some.injEq] at hq hq'
        subst hq
        subst hq'
        rw [hj']
        exact hfollows

/-- A step in which nothing is lost. -/
theorem Beside.step (hsilent : ∀ i q, ¬ (c i).silent q)
    (hspawns : ∀ i j q r, (c i).shared q → 0 < j →
      Option.Rel (Prog.Follows (c j) rel) (spawns q r) (spawns' q r))
    {t : Tasks R ε α} {t' : Tasks R ε β} (h : Beside c rel t t') (i : ℕ)
    (hlost : ∀ entry ∈ (step spawns answer t i).log, ¬ (c entry.1).lost entry.2.1) :
    Beside c rel (Tasks.step spawns answer t i) (Tasks.step spawns' answer t' i) := by
  cases hp : t.programs[i]? with
  | none =>
    have hp' : t'.programs[i]? = none := by
      rw [List.getElem?_eq_none_iff] at hp ⊢
      rw [h.length]
      exact hp
    simp only [Tasks.step, hp, hp']
    exact h
  | some p =>
    obtain ⟨p', hp'⟩ := h.lt hp
    have hpos : 0 < t.programs.length := Nat.zero_lt_of_lt (List.getElem?_eq_some_iff.mp hp).1
    cases h.follows i p p' hp hp' with
    | ret _ =>
      simp only [Tasks.step, hp, hp']
      exact h
    | fail e =>
      simp only [Tasks.step, hp, hp']
      exact h
    | @call q k k' hq hk =>
      simp only [Tasks.step, hp, hp', h.log]
      exact h.next (hk _) (hspawns i _ q _ hq hpos)
    | skip hq _ => exact (hsilent i _ hq).elim
    | @lost q k _ hq =>
      simp only [Tasks.step, hp] at hlost
      exact (hlost _ (List.mem_append_right _ (List.mem_singleton_self _)) hq).elim

/-- A run in which nothing is lost. -/
theorem run_beside (hsilent : ∀ i q, ¬ (c i).silent q)
    (hspawns : ∀ i j q r, (c i).shared q → 0 < j →
      Option.Rel (Prog.Follows (c j) rel) (spawns q r) (spawns' q r))
    {t : Tasks R ε α} {t' : Tasks R ε β} (h : Beside c rel t t') (schedule : List ℕ)
    (hlost : ∀ entry ∈ (run spawns answer schedule t).log, ¬ (c entry.1).lost entry.2.1) :
    Beside c rel (run spawns answer schedule t) (run spawns' answer schedule t') := by
  induction schedule generalizing t t' with
  | nil => exact h
  | cons i schedule ih =>
    refine ih (h.step hsilent hspawns i fun entry hentry => hlost entry ?_) hlost
    exact (log_run_extends schedule _).subset hentry

/-- A task that has come to its end has done so in the other system. -/
theorem Beside.result_eq {rel : α → α → Prop} (hrel : ∀ a a', rel a a' → a' = a)
    {t t' : Tasks R ε α} (h : Beside c rel t t') {i : ℕ} {r : Except ε α}
    (hr : t.result i = some r) : t'.result i = some r := by
  unfold result at hr
  split at hr
  next a hp =>
    obtain ⟨p', hp'⟩ := h.lt hp
    cases hr
    cases h.follows i _ p' hp hp' with
    | ret ha => simp [result, hp', hrel _ _ ha]
  next e hp =>
    obtain ⟨p', hp'⟩ := h.lt hp
    cases hr
    cases h.follows i _ p' hp hp' with
    | fail e => simp [result, hp']
  next => cases hr

end Comparing

end Tasks

end Store
