import Corvid.Lib.Store

/-!
# Programs that may wait

A program runs alone against a store that may leave a query without an answer, and then waits for
ever.

## Main definitions

* `Prog.settle`: what a program comes to
* `Settled`: it returns, fails, or waits

## Main results

* `Prog.settle_bind`: what a sequence comes to
-/

namespace Store

variable {Q : Type} {R : Q → Type} {σ ε α β : Type}

inductive Settled (Q σ ε α : Type) where
  | returned (a : α) (s : σ)
  | failed (e : ε) (s : σ)
  | waiting (q : Q) (s : σ)

namespace Prog

variable (answer : (q : Q) → σ → Option (R q × σ))

def settle : Prog R ε α → σ → Settled Q σ ε α
  | ret a, s => .returned a s
  | fail e, s => .failed e s
  | call q k, s =>
    match answer q s with
    | some (r, s') => (k r).settle s'
    | none => .waiting q s

variable {answer} {s s' : σ}

@[simp] theorem settle_ret (a : α) : (ret a : Prog R ε α).settle answer s = .returned a s := rfl

@[simp] theorem settle_fail (e : ε) : (fail e : Prog R ε α).settle answer s = .failed e s := rfl

theorem settle_call_of_some {q : Q} {k : R q → Prog R ε α} {r : R q}
    (h : answer q s = some (r, s')) : (call q k).settle answer s = (k r).settle answer s' := by
  rw [settle, h]

theorem settle_call_of_none {q : Q} {k : R q → Prog R ε α} (h : answer q s = none) :
    (call q k).settle answer s = .waiting q s := by
  rw [settle, h]

theorem settle_bind (p : Prog R ε α) (f : α → Prog R ε β) (s : σ) :
    (p >>= f).settle answer s =
      match p.settle answer s with
      | .returned a s' => (f a).settle answer s'
      | .failed e s' => .failed e s'
      | .waiting q s' => .waiting q s' := by
  induction p generalizing s with
  | ret a => rfl
  | fail e => rfl
  | call q k ih =>
    rw [call_bind, settle, settle]
    split
    · exact ih _ _
    · rfl

end Prog

end Store
