import Mathlib.Logic.Relation
import Mathlib.Tactic.Common

/-!
# Loops with a potential

A loop takes steps until there is none to take. A potential that every step decreases bounds the
number of steps, so running the loop with the initial potential as fuel runs it to its end.

## Main definitions

* `exhaust`: the loop run with its potential as fuel

## Main results

* `exhaust_inv`: an invariant of the steps holds at the end of the loop
* `exhaust_done`: at the end of the loop there is no step to take
* `exhaust_eq_of_steps`: the end of the loop is where its steps lead
* `eq_of_steps`: the steps lead to one end only
* `Steps.to_end`: whatever the loop steps to, it comes to its end from there
* `run_sim`: two loops that step together stay together
-/

namespace Loop

variable {σ : Type*}

/-- At most `n` steps. -/
def run (step : σ → Option σ) : ℕ → σ → σ
  | 0, s => s
  | n + 1, s =>
    match step s with
    | none => s
    | some s' => run step n s'

/-- The loop, run for as many steps as the potential allows. -/
def exhaust (step : σ → Option σ) (Φ : σ → ℕ) (s : σ) : σ :=
  run step (Φ s) s

variable {step : σ → Option σ} {Φ : σ → ℕ} {I : σ → Prop}

theorem run_inv (hstep : ∀ s s', I s → step s = some s' → I s') (n : ℕ) {s : σ} (h : I s) :
    I (run step n s) := by
  induction n generalizing s with
  | zero => exact h
  | succ n ih =>
    rw [run]
    split
    next => exact h
    next s' hs => exact ih (hstep s s' h hs)

theorem run_done (hstep : ∀ s s', I s → step s = some s' → I s')
    (hdec : ∀ s s', I s → step s = some s' → Φ s' < Φ s) (n : ℕ) {s : σ} (h : I s)
    (hn : Φ s ≤ n) : step (run step n s) = none := by
  induction n generalizing s with
  | zero =>
    -- a step would go below zero
    rw [run]
    cases hs : step s with
    | none => rfl
    | some s' =>
      have := hdec s s' h hs
      omega
  | succ n ih =>
    rw [run]
    split
    next hs => exact hs
    next s' hs =>
      refine ih (hstep s s' h hs) ?_
      have := hdec s s' h hs
      omega

theorem exhaust_inv (hstep : ∀ s s', I s → step s = some s' → I s') {s : σ} (h : I s) :
    I (exhaust step Φ s) :=
  run_inv hstep _ h

/-- The potential only has to decrease where the invariant holds. -/
theorem exhaust_done_of_inv (hstep : ∀ s s', I s → step s = some s' → I s')
    (hdec : ∀ s s', I s → step s = some s' → Φ s' < Φ s) {s : σ} (h : I s) :
    step (exhaust step Φ s) = none :=
  run_done hstep hdec _ h (Nat.le_refl _)

theorem exhaust_done (hdec : ∀ s s', step s = some s' → Φ s' < Φ s) (s : σ) :
    step (exhaust step Φ s) = none :=
  exhaust_done_of_inv (I := fun _ => True) (fun _ _ _ _ => trivial) (fun s s' _ => hdec s s') trivial

/-- The steps of the loop. -/
def Steps (step : σ → Option σ) : σ → σ → Prop :=
  Relation.ReflTransGen fun s t => step s = some t

theorem run_eq_of_steps (hdec : ∀ s s', step s = some s' → Φ s' < Φ s) {s t : σ}
    (h : Steps step s t) (ht : step t = none) (n : ℕ) (hn : Φ s ≤ n) : run step n s = t := by
  induction h using Relation.ReflTransGen.head_induction_on generalizing n with
  | refl =>
    cases n with
    | zero => rfl
    | succ n => rw [run, ht]
  | head hs _ ih =>
    have hlt := hdec _ _ hs
    cases n with
    | zero => omega
    | succ n =>
      rw [run, hs]
      exact ih n (by omega)

/-- The end of the loop is where its steps lead. -/
theorem exhaust_eq_of_steps (hdec : ∀ s s', step s = some s' → Φ s' < Φ s) {s t : σ}
    (h : Steps step s t) (ht : step t = none) : exhaust step Φ s = t :=
  run_eq_of_steps hdec h ht _ (Nat.le_refl _)

/-- The steps of a loop lead to one end only. -/
theorem eq_of_steps {s t t' : σ} (h : Steps step s t) (ht : step t = none) (h' : Steps step s t')
    (ht' : step t' = none) : t = t' := by
  induction h using Relation.ReflTransGen.head_induction_on with
  | refl =>
    rcases h'.cases_head with rfl | ⟨u, hu, -⟩
    · rfl
    · rw [ht] at hu
      cases hu
  | head hs _ ih =>
    rcases h'.cases_head with rfl | ⟨u, hu, hrest⟩
    · rw [ht'] at hs
      cases hs
    · rw [hs] at hu
      obtain rfl := Option.some.inj hu
      exact ih hrest

/-- A loop that has come to its end came past all it stepped to. -/
theorem Steps.to_end {s t u : σ} (h : Steps step s t) (ht : step t = none) (h' : Steps step s u) :
    Steps step u t := by
  induction h' with
  | refl => exact h
  | tail _ hstep ih =>
    rcases ih.cases_head with rfl | ⟨v, hv, hrest⟩
    · rw [ht] at hstep
      cases hstep
    · rw [hv] at hstep
      obtain rfl := Option.some.inj hstep
      exact hrest

theorem steps_run (n : ℕ) (s : σ) : Steps step s (run step n s) := by
  induction n generalizing s with
  | zero => exact .refl
  | succ n ih =>
    rw [run]
    split
    next => exact .refl
    next s' hs => exact .head hs (ih s')

theorem steps_exhaust (s : σ) : Steps step s (exhaust step Φ s) :=
  steps_run _ s

/-- Two loops that step together stay together. -/
theorem run_sim {τ : Type*} {step' : τ → Option τ} {R : σ → τ → Prop}
    (hstep : ∀ s t, R s t → Option.Rel R (step s) (step' t)) (n : ℕ) {s : σ} {t : τ} (h : R s t) :
    R (run step n s) (run step' n t) := by
  induction n generalizing s t with
  | zero => exact h
  | succ n ih =>
    have hrel := hstep s t h
    rw [run, run]
    cases hs : step s with
    | none =>
      rw [hs] at hrel
      cases ht : step' t with
      | none => exact h
      | some t' => rw [ht] at hrel; cases hrel
    | some s' =>
      rw [hs] at hrel
      cases ht : step' t with
      | none => rw [ht] at hrel; cases hrel
      | some t' =>
        rw [ht] at hrel
        cases hrel with
        | some hr => exact ih hr

end Loop
