import Corvid.Lib.Loop
import Mathlib.Algebra.Order.BigOperators.Group.Finset

/-!
# Systems of equations

Each equation gives the value of one unknown in terms of the values of all. A loop starts with every
unknown at the bottom and queued. It takes an unknown off the queue and evaluates its equation; where
the value is a new one, it is kept, and the unknowns whose equations read it are queued again. If the
equations are monotone, the loop comes to its end, and there to the least solution.

## Main definitions

* `Equations`: the equations, with the unknowns to look at again when one changes
* `solve`: the values at the end of the loop

## Main results

* `solve_closed`: what the equations preserve holds of the values
* `eval_solve`: the values solve the equations
* `solve_le`: the values are below those of any solution
-/

/-- Equations for the unknowns `ι` with values in `L`. When an unknown changes, its readers are looked
at again. -/
structure Equations (ι L : Type*) where
  eval : ι → (ι → L) → L
  readers : ι → List ι

namespace Equations

/-- The values so far, and the unknowns still to look at. -/
@[ext] structure Pass (ι L : Type*) where
  value : ι → L
  queue : List ι

section Loop

variable {ι L : Type*} [DecidableEq ι] [DecidableEq L] (e : Equations ι L)

def step (p : Pass ι L) : Option (Pass ι L) :=
  match p.queue with
  | [] => none
  | b :: queue =>
    if e.eval b p.value ≠ p.value b then
      some ⟨Function.update p.value b (e.eval b p.value), queue ++ e.readers b⟩
    else some { p with queue }

variable [Fintype ι]

/-- How far the values are from those of `top`, weighed so that a rise outweighs the readers that it
queues. -/
def potential (rank : L → ℕ) (top : ι → L) (p : Pass ι L) : ℕ :=
  (∑ b, (rank (top b) - rank (p.value b))) * (∑ b, (e.readers b).length + 1) + p.queue.length

/-- The values that the loop comes to when the unknowns are queued in the given order. -/
def solve [Bot L] (rank : L → ℕ) (top : ι → L) (order : List ι) : ι → L :=
  (Loop.exhaust e.step (e.potential rank top) ⟨fun _ => ⊥, order⟩).value

end Loop

variable {ι L : Type*} {e : Equations ι L} {rank : L → ℕ} {top : ι → L} {p p' : Pass ι L}

section Step

variable [DecidableEq ι] [DecidableEq L]

theorem step_eq_none : e.step p = none ↔ p.queue = [] := by
  unfold step
  split
  · simp_all
  · split <;> simp_all

theorem step_eq_some (h : e.step p = some p') : ∃ b queue, p.queue = b :: queue ∧
    (e.eval b p.value = p.value b ∧ p' = { p with queue } ∨
      e.eval b p.value ≠ p.value b ∧
        p' = ⟨Function.update p.value b (e.eval b p.value), queue ++ e.readers b⟩) := by
  unfold step at h
  split at h
  · cases h
  · next b queue hqueue =>
    refine ⟨b, queue, hqueue, ?_⟩
    split at h
    · next hne => exact .inr ⟨hne, (Option.some.inj h).symm⟩
    · next heq => exact .inl ⟨not_not.mp heq, (Option.some.inj h).symm⟩

/-- What the equations preserve. -/
def Closed (e : Equations ι L) (P : ι → L → Prop) : Prop :=
  ∀ value : ι → L, (∀ b, P b (value b)) → ∀ b, P b (e.eval b value)

theorem Closed.step {P : ι → L → Prop} (hP : e.Closed P) (h : e.step p = some p')
    (hp : ∀ b, P b (p.value b)) (b : ι) : P b (p'.value b) := by
  obtain ⟨c, queue, -, ⟨-, rfl⟩ | ⟨-, rfl⟩⟩ := step_eq_some h
  · exact hp b
  · by_cases hbc : b = c
    · subst hbc
      simpa using hP p.value hp b
    · simpa [hbc] using hp b

end Step

section Lawful

variable [PartialOrder L]

/-- The values only rise, they stay below `top`, and only what is queued may have a new value. -/
structure Rising (e : Equations ι L) (top : ι → L) (p : Pass ι L) : Prop where
  rises : ∀ b, p.value b ≤ e.eval b p.value
  below : ∀ b, p.value b ≤ top b
  settled : ∀ b, b ∉ p.queue → e.eval b p.value = p.value b

theorem rising_start [OrderBot L] {order : List ι} (horder : ∀ b, b ∈ order) :
    e.Rising top ⟨fun _ => ⊥, order⟩ :=
  ⟨fun _ => bot_le, fun _ => bot_le, fun b hb => absurd (horder b) hb⟩

variable [DecidableEq ι]

/-- Monotone equations that read no more than they say, with a solution `top` that bounds the rank. -/
structure Lawful (e : Equations ι L) (rank : L → ℕ) (top : ι → L) : Prop where
  monotone : ∀ b, Monotone (e.eval b)
  reads : ∀ b c value x, c ∉ e.readers b → e.eval c (Function.update value b x) = e.eval c value
  rank : StrictMono rank
  top : ∀ b, e.eval b top ≤ top b

theorem Lawful.closed (he : e.Lawful rank top) : e.Closed fun b v => v ≤ top b := by
  intro value hvalue b
  exact (he.monotone b hvalue).trans (he.top b)

theorem le_update {value : ι → L} {b : ι} {x : L} (h : value b ≤ x) :
    value ≤ Function.update value b x := by
  intro c
  by_cases hcb : c = b
  · subst hcb
    simpa using h
  · simp [hcb]

variable [DecidableEq L]

theorem Rising.step (he : e.Lawful rank top) (hp : e.Rising top p) (h : e.step p = some p') :
    e.Rising top p' := by
  have hbelow := he.closed.step h hp.below
  obtain ⟨b, queue, hqueue, ⟨heq, rfl⟩ | ⟨-, rfl⟩⟩ := step_eq_some h
  · refine ⟨hp.rises, hbelow, fun c hc => ?_⟩
    by_cases hcb : c = b
    · subst hcb
      exact heq
    · exact hp.settled c (by simp [hqueue, hcb, hc])
  · have hle := le_update (hp.rises b)
    refine ⟨fun c => ?_, hbelow, fun c hc => ?_⟩
    · -- both sides are at least what they were, and the new value is what was evaluated
      by_cases hcb : c = b
      · subst hcb
        simpa using he.monotone c hle
      · simpa [hcb] using (hp.rises c).trans (he.monotone c hle)
    · rw [List.mem_append, not_or] at hc
      rw [he.reads b c _ _ hc.2]
      by_cases hcb : c = b
      · subst hcb
        simp
      · simpa [hcb] using hp.settled c (by simp [hqueue, hcb, hc.1])

variable [Fintype ι]

theorem potential_step (he : e.Lawful rank top) (hp : e.Rising top p) (h : e.step p = some p') :
    e.potential rank top p' < e.potential rank top p := by
  have hbelow := he.closed.step h hp.below
  obtain ⟨b, queue, hqueue, ⟨-, rfl⟩ | ⟨hne, rfl⟩⟩ := step_eq_some h
  · simp [potential, hqueue]
  · have hlt : p.value b < e.eval b p.value := lt_of_le_of_ne (hp.rises b) (Ne.symm hne)
    have hrise : ∑ c, (rank (top c) - rank (Function.update p.value b (e.eval b p.value) c)) <
        ∑ c, (rank (top c) - rank (p.value c)) := by
      refine Finset.sum_lt_sum (fun c _ => ?_) ⟨b, Finset.mem_univ b, ?_⟩
      · exact Nat.sub_le_sub_left (he.rank.monotone (le_update hlt.le c)) _
      · have htop := he.rank.monotone (hbelow b)
        have hrank := he.rank hlt
        simp only [Function.update_self] at htop ⊢
        omega
    have hwidth : (e.readers b).length ≤ ∑ c, (e.readers c).length :=
      Finset.single_le_sum (f := fun c => (e.readers c).length) (fun _ _ => Nat.zero_le _)
        (Finset.mem_univ b)
    have hmul := Nat.mul_le_mul_right (∑ c, (e.readers c).length + 1) (Nat.succ_le_of_lt hrise)
    simp only [potential, hqueue, List.length_append, List.length_cons]
    rw [Nat.succ_mul] at hmul
    omega

end Lawful

/-! ### The values at the end -/

section Solve

variable [PartialOrder L] [OrderBot L] [DecidableEq ι] [DecidableEq L] [Fintype ι] {order : List ι}

/-- What the equations preserve holds of the values at the end. -/
theorem solve_closed {P : ι → L → Prop} (hP : e.Closed P) (hbot : ∀ b, P b ⊥) (b : ι) :
    P b (e.solve rank top order b) :=
  Loop.exhaust_inv (I := fun p => ∀ b, P b (p.value b)) (fun _ _ hp h => hP.step h hp) hbot b

/-- The values are below those of any solution. -/
theorem solve_le (he : e.Lawful rank top) {value : ι → L} (h : ∀ b, e.eval b value ≤ value b) (b : ι) :
    e.solve rank top order b ≤ value b := by
  refine solve_closed (P := fun b v => v ≤ value b) (fun lower hlower b => ?_) (fun _ => bot_le) b
  exact (he.monotone b hlower).trans (h b)

theorem rising_exhaust (he : e.Lawful rank top) (horder : ∀ b, b ∈ order) :
    e.Rising top (Loop.exhaust e.step (e.potential rank top) ⟨fun _ => ⊥, order⟩) :=
  Loop.exhaust_inv (fun _ _ hp h => hp.step he h) (rising_start horder)

theorem queue_exhaust (he : e.Lawful rank top) (horder : ∀ b, b ∈ order) :
    (Loop.exhaust e.step (e.potential rank top) ⟨fun _ => ⊥, order⟩).queue = [] := by
  have hdone : e.step (Loop.exhaust e.step (e.potential rank top) ⟨fun _ => ⊥, order⟩) = none :=
    Loop.exhaust_done_of_inv (I := e.Rising top) (fun _ _ hp h => hp.step he h)
      (fun _ _ hp h => potential_step he hp h) (rising_start horder)
  exact step_eq_none.mp hdone

/-- The loop comes to its end, with these values. -/
theorem steps_solve (he : e.Lawful rank top) (horder : ∀ b, b ∈ order) :
    Loop.Steps e.step ⟨fun _ => ⊥, order⟩ ⟨e.solve rank top order, []⟩ := by
  rw [← queue_exhaust he horder]
  exact Loop.steps_exhaust _

/-- The values solve the equations. -/
theorem eval_solve (he : e.Lawful rank top) (horder : ∀ b, b ∈ order) (b : ι) :
    e.eval b (e.solve rank top order) = e.solve rank top order b := by
  refine (rising_exhaust he horder).settled b ?_
  rw [queue_exhaust he horder]
  exact List.not_mem_nil

end Solve

end Equations
