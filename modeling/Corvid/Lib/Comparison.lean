import Corvid.Lib.Store

/-!
# Comparing programs

Two programs are compared query by query. Most queries are shared: both programs ask them, in the same
order, and go on alike whatever is answered. Some are silent: only the first program asks them, and of
their answers only the admissible ones count. After a query that is lost nothing is compared.

## Main definitions

* `Comparison`: which queries are shared, silent or lost
* `Prog.Follows`: the first program does what the second one does
* `Prog.play`: a run against an environment that answers from what has been asked so far

## Main results

* `Prog.Follows.bind`: sequences of programs
* `Prog.Follows.all`: without silent queries only the shared ones are asked
* `Prog.Follows.play`: the histories and the results of two runs
-/

namespace Store

variable {Q : Type} {R : Q → Type} {ε α β α' β' : Type}

structure Comparison (R : Q → Type) where
  shared : Q → Prop
  silent : Q → Prop
  admissible : (q : Q) → R q → Prop
  lost : Q → Prop

/-- What has been asked and answered. -/
abbrev History (R : Q → Type) := List (Σ q, R q)

namespace Prog

/-- A run, with its result and its history. -/
def play (answer : History R → (q : Q) → R q) : Prog R ε α → History R → Except ε α × History R
  | ret a, h => (.ok a, h)
  | fail e, h => (.error e, h)
  | call q k, h => (k (answer h q)).play answer (h ++ [⟨q, answer h q⟩])

theorem play_map (answer : History R → (q : Q) → R q) (f : α → β) (p : Prog R ε α) (h : History R) :
    (f <$> p).play answer h = ((p.play answer h).1.map f, (p.play answer h).2) := by
  induction p generalizing h with
  | ret a => rfl
  | fail e => rfl
  | call q k ih => exact ih _ _

theorem play_extends (answer : History R → (q : Q) → R q) (p : Prog R ε α) (h : History R) :
    h <+: (p.play answer h).2 := by
  induction p generalizing h with
  | ret a => exact h.prefix_refl
  | fail e => exact h.prefix_refl
  | call q k ih => exact (List.prefix_append h _).trans (ih _ _)

inductive Follows (c : Comparison R) (rel : α → β → Prop) : Prog R ε α → Prog R ε β → Prop
  | ret {a : α} {b : β} : rel a b → Follows c rel (ret a) (ret b)
  | fail (e : ε) : Follows c rel (fail e) (fail e)
  | call {q : Q} {k : R q → Prog R ε α} {k' : R q → Prog R ε β} : c.shared q →
      (∀ r, Follows c rel (k r) (k' r)) → Follows c rel (call q k) (call q k')
  | skip {q : Q} {k : R q → Prog R ε α} {p : Prog R ε β} : c.silent q →
      (∀ r, c.admissible q r → Follows c rel (k r) p) → Follows c rel (call q k) p
  | lost {q : Q} {k : R q → Prog R ε α} {p : Prog R ε β} : c.lost q → Follows c rel (call q k) p

variable {c : Comparison R} {rel : α → β → Prop} {rel' : α' → β' → Prop}

/-- One after the other. -/
theorem Follows.bind {p : Prog R ε α} {p' : Prog R ε β} {f : α → Prog R ε α'} {f' : β → Prog R ε β'}
    (hp : Follows c rel p p') (hf : ∀ a b, rel a b → Follows c rel' (f a) (f' b)) :
    Follows c rel' (p >>= f) (p' >>= f') := by
  induction hp with
  | ret h => exact hf _ _ h
  | fail e => exact .fail e
  | call hq _ ih => exact .call hq ih
  | skip hq _ ih => exact .skip hq ih
  | lost hq => exact .lost hq

theorem Follows.map {p : Prog R ε α} {p' : Prog R ε β} {f : α → α'} {f' : β → β'}
    (hp : Follows c rel p p') (hf : ∀ a b, rel a b → rel' (f a) (f' b)) :
    Follows c rel' (f <$> p) (f' <$> p') :=
  hp.bind fun a b hab => .ret (hf a b hab)

/-- A program that follows another one, with no query of its own and none that is lost. -/
theorem Follows.all {p : Prog R ε α} {p' : Prog R ε β} (hp : Follows c rel p p')
    (hsilent : ∀ q, ¬ c.silent q) {P : Q → Prop} (hshared : ∀ q, c.shared q → P q)
    (hlost : ∀ q, ¬ c.lost q) : p.All P := by
  induction hp with
  | ret h => trivial
  | fail e => trivial
  | call hq _ ih => exact ⟨hshared _ hq, ih⟩
  | skip hq _ ih => exact (hsilent _ hq).elim
  | lost hq => exact (hlost _ hq).elim

/-- Both results are values that are related, or both are the same failure. -/
def Agree (rel : α → β → Prop) : Except ε α → Except ε β → Prop
  | .ok a, .ok b => rel a b
  | .error e, .error e' => e = e'
  | _, _ => False

theorem eq_of_agree {r r' : Except ε α} (h : Agree Eq r r') : r = r' := by
  cases r with
  | ok a =>
    cases r' with
    | ok a' => exact congrArg _ h
    | error e => exact h.elim
  | error e =>
    cases r' with
    | ok a' => exact h.elim
    | error e' => exact congrArg _ h

section Play

variable {silent : Q → Prop} [DecidablePred silent]

/-- What is left of a history without the silent queries. -/
def visible (silent : Q → Prop) [DecidablePred silent] (h : History R) : History R :=
  h.filter fun entry => ¬ silent entry.1

theorem visible_snoc_of_not {q : Q} (hq : ¬ silent q) (h : History R) (r : R q) :
    visible silent (h ++ [⟨q, r⟩]) = visible silent h ++ [⟨q, r⟩] := by
  simp [visible, List.filter_append, hq]

theorem visible_snoc {q : Q} (hq : silent q) (h : History R) (r : R q) :
    visible silent (h ++ [⟨q, r⟩]) = visible silent h := by
  simp [visible, List.filter_append, hq]

/-- Whoever answers the silent queries, both programs are asked the same by an environment that answers
the others from what is visible, as far as the run of the first program goes. -/
theorem Follows.play {answer answer' : History R → (q : Q) → R q}
    {p : Prog R ε α} {p' : Prog R ε β} (hp : Follows c rel p p') (hlost : ∀ q, ¬ c.lost q)
    (hshared : ∀ q, c.shared q → ¬ silent q)
    (hsilent : ∀ h q, c.silent q → silent q ∧ c.admissible q (answer h q)) (h : History R)
    (hvisible : ∀ h' q, ¬ silent q → h' ++ [⟨q, answer h' q⟩] <+: (p.play answer h).2 →
      answer h' q = answer' (visible silent h') q) :
    Agree rel (p.play answer h).1 (p'.play answer' (visible silent h)).1 ∧
      (p'.play answer' (visible silent h)).2 = visible silent (p.play answer h).2 := by
  induction hp generalizing h with
  | ret hrel => exact ⟨hrel, rfl⟩
  | fail e => exact ⟨rfl, rfl⟩
  | @call q k k' hq _ ih =>
    have hrest := ih (answer h q) (h ++ [(⟨q, answer h q⟩ : Σ q, R q)]) hvisible
    have hsame := hvisible h q (hshared q hq) ((k (answer h q)).play_extends answer _)
    rw [visible_snoc_of_not (hshared q hq)] at hrest
    simp only [Prog.play]
    rw [← hsame]
    exact hrest
  | @skip q k p hq _ ih =>
    have hrest := ih (answer h q) (hsilent h q hq).2 (h ++ [(⟨q, answer h q⟩ : Σ q, R q)]) hvisible
    rw [visible_snoc (hsilent h q hq).1] at hrest
    exact hrest
  | lost hq => exact (hlost _ hq).elim

end Play

end Prog

end Store
