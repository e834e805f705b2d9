import Mathlib.Tactic.Common

/-!
# Sequences of calls

Calls that are made one after the other, each in the state that the one before left. What a call does
is compared with a condition on it: where the two agree in the states of an invariant, and the
condition keeps the invariant, they agree along every sequence.

## Main definitions

* `Calls.Throughout`: a property of every call of a sequence

## Main results

* `Calls.throughout_iff_of_inv`: the comparison
-/

namespace Calls

variable {σ α : Type*} {step : σ → α → σ} {I : σ → Prop} {P Q : σ → α → Prop} {s : σ}

/-- The property holds of every call, in the state in which the call is made. -/
def Throughout (step : σ → α → σ) (P : σ → α → Prop) : List α → σ → Prop
  | [], _ => True
  | a :: l, s => P s a ∧ Throughout step P l (step s a)

@[simp] theorem throughout_nil : Throughout step P [] s := trivial

@[simp] theorem throughout_cons {a : α} {l : List α} :
    Throughout step P (a :: l) s ↔ P s a ∧ Throughout step P l (step s a) := Iff.rfl

theorem throughout_iff_of_inv {l : List α} (hiff : ∀ s, ∀ a ∈ l, I s → (P s a ↔ Q s a))
    (hstep : ∀ s, ∀ a ∈ l, I s → Q s a → I (step s a)) (h : I s) :
    Throughout step P l s ↔ Throughout step Q l s := by
  induction l generalizing s with
  | nil => simp
  | cons a l ih =>
    rw [throughout_cons, throughout_cons, hiff s a (.head _) h]
    exact and_congr_right fun hQ => ih (fun s b hb => hiff s b (.tail _ hb))
      (fun s b hb => hstep s b (.tail _ hb)) (hstep s a (.head _) h hQ)

end Calls
