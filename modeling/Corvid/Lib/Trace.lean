import Mathlib.Data.List.Induction
import Mathlib.Tactic.Common

/-!
# Logs of a transition system

A run of a transition system has a log of its steps, each with the state that it starts from. What a
step finds in the state, earlier steps have left there; the log says which.

## Main definitions

* `Run`: a run with its log
* `latest`: what the last step of a kind says

## Main results

* `Run.split`: what holds before a step of the log
-/

namespace Trace

variable {σ ε β : Type*}

/-- An event, and the state that it finds. -/
structure Entry (σ ε : Type*) where
  before : σ
  event : ε

inductive Run (step : σ → ε → σ → Prop) (s₀ : σ) : List (Entry σ ε) → σ → Prop
  | nil : Run step s₀ [] s₀
  | snoc {log : List (Entry σ ε)} {s s' : σ} {e : ε} : Run step s₀ log s → step s e s' →
      Run step s₀ (log ++ [⟨s, e⟩]) s'

variable {step : σ → ε → σ → Prop} {s₀ s : σ}

/-- The steps before an entry of the log lead to its state. -/
theorem Run.split {l₁ l₂ : List (Entry σ ε)} {l : Entry σ ε} (h : Run step s₀ (l₁ ++ l :: l₂) s) :
    ∃ s', Run step s₀ l₁ l.before ∧ step l.before l.event s' := by
  generalize hlog : l₁ ++ l :: l₂ = log at h
  induction h generalizing l₂ with
  | nil => simp at hlog
  | snoc hrun hstep ih =>
    rcases List.eq_nil_or_concat l₂ with rfl | ⟨l₂, x, rfl⟩
    · obtain ⟨rfl, heq⟩ := List.append_inj' hlog rfl
      obtain rfl := List.singleton_inj.mp heq
      exact ⟨_, hrun, hstep⟩
    · rw [List.concat_eq_append, ← List.cons_append, ← List.append_assoc] at hlog
      exact ih (List.append_inj' hlog rfl).1

/-- The last value that the entries of a log give. -/
def latest (f : Entry σ ε → Option β) (log : List (Entry σ ε)) : Option β :=
  (log.filterMap f).getLast?

@[simp] theorem latest_nil (f : Entry σ ε → Option β) : latest f [] = none := rfl

@[simp] theorem latest_snoc (f : Entry σ ε → Option β) (log : List (Entry σ ε)) (l : Entry σ ε) :
    latest f (log ++ [l]) = (f l).or (latest f log) := by
  rw [latest, List.filterMap_append]
  cases hl : f l with
  | none => simp [hl, latest]
  | some b => simp [hl]

end Trace
