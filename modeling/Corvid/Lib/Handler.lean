import Corvid.Lib.Store

/-!
# Programs with a handler

A program whose queries are answered by a function, which may refuse to answer. Two functions give
the same outcome where they agree on the queries that come up.

## Main definitions

* `Prog.outcome`, `Prog.asked`: the outcome, and the queries on the way

## Main results

* `Prog.outcome_bind`, `Prog.asked_bind`: the outcome of a sequence
* `Prog.outcome_congr`, `Prog.outcome_eq_error`: handlers that differ
* `Prog.outcome_error_iff`: what fails has asked a query that is refused
-/

namespace Store.Prog

variable {Q : Type} {R : Q → Type} {φ α β : Type}

/-- The outcome of a program that does not fail by itself. -/
def outcome (f : (q : Q) → Except φ (R q)) : Prog R Empty α → Except φ α
  | ret a => .ok a
  | call q k => match f q with
    | .ok r => (k r).outcome f
    | .error e => .error e

/-- The queries up to the first one that is refused. -/
def asked (f : (q : Q) → Except φ (R q)) : Prog R Empty α → List Q
  | ret _ => []
  | call q k => q :: match f q with
    | .ok r => (k r).asked f
    | .error _ => []

variable {f g : (q : Q) → Except φ (R q)} {p : Prog R Empty α} {e : φ}

@[simp] theorem outcome_ret (a : α) : (ret a : Prog R Empty α).outcome f = .ok a := rfl

@[simp] theorem asked_ret (a : α) : (ret a : Prog R Empty α).asked f = [] := rfl

theorem outcome_call (q : Q) (k : R q → Prog R Empty α) :
    (call q k).outcome f = match f q with
      | .ok r => (k r).outcome f
      | .error e => .error e := by
  rw [outcome]

theorem asked_call (q : Q) (k : R q → Prog R Empty α) :
    (call q k).asked f = q :: match f q with
      | .ok r => (k r).asked f
      | .error _ => [] := by
  rw [asked]

@[simp] theorem outcome_query (q : Q) : (query q : Prog R Empty (R q)).outcome f = f q := by
  rw [query, outcome_call]
  cases f q <;> rfl

@[simp] theorem asked_query (q : Q) : (query q : Prog R Empty (R q)).asked f = [q] := by
  rw [query, asked_call]
  cases f q <;> rfl

theorem outcome_bind (p : Prog R Empty α) (k : α → Prog R Empty β) :
    (p >>= k).outcome f = p.outcome f >>= fun a => (k a).outcome f := by
  induction p with
  | ret a => rfl
  | fail e => exact e.elim
  | call q next ih =>
    rw [call_bind, outcome_call, outcome_call]
    cases f q with
    | error e => rfl
    | ok r => exact ih r

/-- What is asked after the first program depends on its outcome. -/
theorem asked_bind (p : Prog R Empty α) (k : α → Prog R Empty β) :
    (p >>= k).asked f = p.asked f ++ match p.outcome f with
      | .ok a => (k a).asked f
      | .error _ => [] := by
  induction p with
  | ret a => rfl
  | fail e => exact e.elim
  | call q next ih =>
    rw [call_bind, asked_call, asked_call, outcome_call]
    cases f q with
    | error e => simp
    | ok r => simp [ih r]

theorem outcome_congr (h : ∀ q ∈ p.asked f, g q = f q) : p.outcome g = p.outcome f := by
  induction p with
  | ret a => rfl
  | fail e => exact e.elim
  | call q next ih =>
    rw [asked_call, List.forall_mem_cons] at h
    rw [outcome_call, outcome_call, h.1]
    cases hq : f q with
    | error e => rfl
    | ok r =>
      simp only [hq] at h
      exact ih r h.2

/-- Where the second handler differs only in that it refuses, for one reason, and does so on the
way. -/
theorem outcome_eq_error (h : ∀ q ∈ p.asked f, g q = f q ∨ g q = .error e)
    (hrefused : ∃ q ∈ p.asked f, g q = .error e) : p.outcome g = .error e := by
  induction p with
  | ret a => simp at hrefused
  | fail e => exact e.elim
  | call q next ih =>
    rw [asked_call, List.forall_mem_cons] at h
    obtain ⟨q', hq', hg⟩ := hrefused
    rw [outcome_call]
    rcases h.1 with hsame | hrefuse
    · cases hf : f q with
      | error e' =>
        simp only [asked_call, hf, List.mem_singleton] at hq'
        subst hq'
        rw [hg]
      | ok r =>
        simp only [asked_call, hf, List.mem_cons] at hq' h
        rcases hq' with rfl | hq'
        · rw [hsame, hf] at hg
          cases hg
        · rw [hsame, hf]
          exact ih r h.2 ⟨q', hq', hg⟩
    · rw [hrefuse]

theorem outcome_error_iff : p.outcome f = .error e ↔ ∃ q ∈ p.asked f, f q = .error e := by
  induction p with
  | ret a => simp
  | fail e => exact e.elim
  | call q next ih =>
    rw [outcome_call, asked_call]
    cases hq : f q with
    | error e' => simp [hq]
    | ok r => simp [hq, ih r]

end Store.Prog
