import Mathlib.Data.List.Infix
import Mathlib.Logic.Function.Iterate

/-!
# Parsers that read on

A parser takes tokens off the front of a list and gives a value or an error. Two ways of parsing
again and again are given as functions of the length of the input: `repeated` for a loop, and `fix` for
a parser that calls itself. Neither of them is ever cut short where each round, and each inner call,
stands behind a token that was read; `repeated_eq` and `fix_eq` are the equations that a program with a
loop or a recursion satisfies.

The default error stands for a parser that is stuck: it reads on where no token is left, or does not
come to an end.

## Main definitions

* `Parser`: a parser leaves an end of its input
* `repeated`, `fix`: loops and recursion
* `RelAt`, `Rel`: on short inputs two parsers do the same, are not stuck, and what they read is as a
  relation says

## Main results

* `repeated_eq`, `fix_eq`: the equations of loops and of recursive parsers
* `RelAt.bind`, `RelAt.repeated`, `rel_fix`: the rules for what parsers read
-/

namespace Parsing

/-- What a parser leaves is an end of what was ahead of it. -/
structure Parser (τ ε α : Type) where
  run : List τ → Except ε α × List τ
  suffix : ∀ ts, (run ts).2 <:+ ts

namespace Parser

variable {τ ε α β σ : Type}

@[ext] theorem ext {p q : Parser τ ε α} (h : ∀ ts, p.run ts = q.run ts) : p = q := by
  obtain ⟨f, hf⟩ := p
  obtain ⟨g, hg⟩ := q
  obtain rfl : f = g := funext h
  rfl

/-! ## Parsers one after another -/

protected def pure (a : α) : Parser τ ε α where
  run ts := (.ok a, ts)
  suffix _ := List.suffix_rfl

protected def bind (p : Parser τ ε α) (f : α → Parser τ ε β) : Parser τ ε β where
  run ts :=
    match p.run ts with
    | (.ok a, rest) => (f a).run rest
    | (.error e, rest) => (.error e, rest)
  suffix ts := by
    have hp := p.suffix ts
    split
    next a rest h =>
      rw [h] at hp
      exact ((f a).suffix rest).trans hp
    next e rest h =>
      rw [h] at hp
      exact hp

instance : Monad (Parser τ ε) where
  pure := Parser.pure
  bind := Parser.bind

/-- The tokens ahead. -/
def ahead : Parser τ ε (List τ) where
  run ts := (.ok ts, ts)
  suffix _ := List.suffix_rfl

def fail (e : List τ → ε) : Parser τ ε α where
  run ts := (.error (e ts), ts)
  suffix _ := List.suffix_rfl

/-- The next token is read. -/
def bump [Inhabited ε] : Parser τ ε Unit where
  run ts :=
    match ts with
    | [] => (.error default, [])
    | _ :: rest => (.ok (), rest)
  suffix ts := by
    cases ts with
    | nil => exact List.suffix_rfl
    | cons t rest => exact List.suffix_cons t rest

section Run

variable {p : Parser τ ε α} {f : α → Parser τ ε β} {ts rest : List τ}

@[simp] theorem run_pure (a : α) : (pure a : Parser τ ε α).run ts = (.ok a, ts) := rfl

@[simp] theorem run_fail (e : List τ → ε) : (fail e : Parser τ ε α).run ts = (.error (e ts), ts) := rfl

@[simp] theorem run_ahead_bind (k : List τ → Parser τ ε β) : (ahead >>= k).run ts = (k ts).run ts := rfl

@[simp] theorem run_bump_bind [Inhabited ε] {t : τ} (k : Unit → Parser τ ε β) :
    (bump >>= k).run (t :: ts) = (k ()).run ts := rfl

theorem run_bind_ok {a : α} (h : p.run ts = (.ok a, rest)) : (p >>= f).run ts = (f a).run rest := by
  show (match p.run ts with
    | (.ok a, rest) => (f a).run rest
    | (.error e, rest) => (.error e, rest)) = _
  rw [h]

theorem run_bind_error {e : ε} (h : p.run ts = (.error e, rest)) :
    (p >>= f).run ts = (.error e, rest) := by
  show (match p.run ts with
    | (.ok a, rest) => (f a).run rest
    | (.error e, rest) => (.error e, rest)) = _
  rw [h]

theorem pure_bind (a : α) (f : α → Parser τ ε β) : (pure a >>= f : Parser τ ε β) = f a := rfl

theorem suffix_of_run {o : Except ε α} (h : p.run ts = (o, rest)) : rest <:+ ts := by
  have hp := p.suffix ts
  rwa [h] at hp

end Run

/-! ## Loops and recursion -/

variable [Inhabited ε]

/-- At most `n` rounds. -/
def rounds (step : σ → Parser τ ε (σ ⊕ α)) : ℕ → σ → Parser τ ε α
  | 0, _ => fail fun _ => default
  | n + 1, s => step s >>= fun r =>
    match r with
    | .inl s' => rounds step n s'
    | .inr a => pure a

/-- Rounds as long as the step goes on, from the state that it gives. -/
def repeated (step : σ → Parser τ ε (σ ⊕ α)) (s : σ) : Parser τ ε α where
  run ts := (rounds step (ts.length + 1) s).run ts
  suffix ts := (rounds step (ts.length + 1) s).suffix ts

/-- A round of a loop: the step, and the loop from there. -/
def goOn (step : σ → Parser τ ε (σ ⊕ α)) : σ ⊕ α → Parser τ ε α
  | .inl s => repeated step s
  | .inr a => pure a

/-- The parser that `f` gives for itself. -/
def fix (f : Parser τ ε α → Parser τ ε α) : Parser τ ε α where
  run ts := (f^[ts.length + 1] (fail fun _ => default)).run ts
  suffix ts := (f^[ts.length + 1] (fail fun _ => default)).suffix ts

/-- A step that goes on has read a token. -/
def Progress (step : σ → Parser τ ε (σ ⊕ α)) : Prop :=
  ∀ s ts s' rest, (step s).run ts = (.ok (.inl s'), rest) → rest.length < ts.length

section Equations

theorem rounds_run_eq {step : σ → Parser τ ε (σ ⊕ α)} (hstep : Progress step) {m n : ℕ} {s : σ}
    {ts : List τ} (hm : ts.length < m) (hn : ts.length < n) :
    (rounds step m s).run ts = (rounds step n s).run ts := by
  induction m generalizing n s ts with
  | zero => exact absurd hm (Nat.not_lt_zero _)
  | succ m ih =>
    obtain ⟨n, rfl⟩ : ∃ k, n = k + 1 := ⟨n - 1, by omega⟩
    rcases hrun : (step s).run ts with ⟨_ | (s' | a), rest⟩
    · rw [rounds, rounds, run_bind_error hrun, run_bind_error hrun]
    · have hlt := hstep s ts s' rest hrun
      rw [rounds, rounds, run_bind_ok hrun, run_bind_ok hrun]
      exact ih (by omega) (by omega)
    · rw [rounds, rounds, run_bind_ok hrun, run_bind_ok hrun]

/-- A loop is its step, and the loop again where the step goes on. -/
theorem repeated_eq {step : σ → Parser τ ε (σ ⊕ α)} (hstep : Progress step) (s : σ) :
    repeated step s = step s >>= goOn step := by
  ext1 ts
  show (rounds step (ts.length + 1) s).run ts = _
  rw [rounds]
  rcases hrun : (step s).run ts with ⟨_ | (s' | a), rest⟩
  · rw [run_bind_error hrun, run_bind_error hrun]
  · have hlt := hstep s ts s' rest hrun
    rw [run_bind_ok hrun, run_bind_ok hrun]
    exact rounds_run_eq hstep hlt (Nat.lt_succ_self _)
  · rw [run_bind_ok hrun, run_bind_ok hrun]
    rfl

end Equations

/-! ## What parsers read -/

variable {dead : List τ → Prop}

/-- What may come of a parser on `ts`. It is not stuck. On dead inputs it reads nothing. It reads a
token if its value is one of `S`, and where it stops before a token, the value, what it read and what it
left are as `R` says. -/
def Outcome (dead : List τ → Prop) (S : α → Prop) (R : α → List τ → List τ → Prop) (ts : List τ) :
    Except ε α × List τ → Prop
  | (.ok a, rest) => (S a → rest.length < ts.length) ∧ (dead ts → rest = ts) ∧
      (¬ dead rest → ∃ used, ts = used ++ rest ∧ R a used rest)
  | (.error e, _) => e ≠ default

/-- On `ts`, two parsers do the same, as `Outcome` says. -/
def RelAt (dead : List τ → Prop) (ts : List τ) (S : α → Prop) (R : α → List τ → List τ → Prop)
    (p q : Parser τ ε α) : Prop :=
  p.run ts = q.run ts ∧ Outcome dead S R ts (p.run ts)

/-- The same on all inputs of fewer than `n` tokens. -/
def Rel (dead : List τ → Prop) (n : ℕ) (S : α → Prop) (R : α → List τ → List τ → Prop) (p q : Parser τ ε α) :
    Prop :=
  ∀ ts, ts.length < n → RelAt dead ts S R p q

section Rules

variable {ts : List τ} {S : α → Prop} {T : β → Prop} {R : α → List τ → List τ → Prop} {Q : β → List τ → List τ → Prop}
  {p q : Parser τ ε α} {f g : α → Parser τ ε β} {n : ℕ}

theorem RelAt.pure {a : α} (hS : ¬ S a) (h : ¬ dead ts → R a [] ts) :
    RelAt dead ts S R (pure a : Parser τ ε α) (pure a) :=
  ⟨rfl, fun hs => absurd hs hS, fun _ => rfl, fun hlive => ⟨[], rfl, h hlive⟩⟩

theorem RelAt.fail {e : List τ → ε} (h : e ts ≠ default) : RelAt dead ts S R (fail e) (fail e) :=
  ⟨rfl, h⟩

theorem RelAt.mono {S' : α → Prop} {R' : α → List τ → List τ → Prop} (h : RelAt dead ts S R p q)
    (hS : ∀ a, S' a → S a) (hR : ∀ a used rest, ts = used ++ rest → R a used rest → R' a used rest) :
    RelAt dead ts S' R' p q := by
  refine ⟨h.1, ?_⟩
  have hout := h.2
  rcases hrun : p.run ts with ⟨e | a, rest⟩
  · rw [hrun] at hout
    exact hout
  · rw [hrun] at hout
    refine ⟨fun hs => hout.1 (hS a hs), hout.2.1, fun hlive => ?_⟩
    obtain ⟨used, heq, hr⟩ := hout.2.2 hlive
    exact ⟨used, heq, hR a used rest heq hr⟩

theorem RelAt.ahead {k k' : List τ → Parser τ ε α} (h : RelAt dead ts S R (k ts) (k' ts)) :
    RelAt dead ts S R (ahead >>= k) (ahead >>= k') := h

/-- A token is read, on an input that is not dead. -/
theorem RelAt.bump {t : τ} {k k' : Unit → Parser τ ε α} {S' : α → Prop} (hlive : ¬ dead (t :: ts))
    (h : RelAt dead ts S' (fun a used => R a (t :: used)) (k ()) (k' ())) :
    RelAt dead (t :: ts) S R (bump >>= k) (bump >>= k') := by
  refine ⟨h.1, ?_⟩
  rw [run_bump_bind]
  have hout := h.2
  rcases hrun : (k ()).run ts with ⟨e | a, rest⟩
  · rw [hrun] at hout
    exact hout
  · rw [hrun] at hout
    refine ⟨fun _ => ?_, fun hdead => absurd hdead hlive, fun hrest => ?_⟩
    · exact Nat.lt_succ_of_le (suffix_of_run hrun).length_le
    · obtain ⟨used, rfl, hr⟩ := hout.2.2 hrest
      exact ⟨t :: used, rfl, hr⟩

/-- One parser after another. Where the first stops on a dead input, the second does so too. -/
theorem RelAt.bind {S' : β → Prop} (hp : RelAt dead ts S R p q)
    (hf : ∀ a rest, rest.length ≤ ts.length → (S a → rest.length < ts.length) →
      RelAt dead rest T (fun b used left => ∀ u, R a u rest → Q b (u ++ used) left) (f a) (g a))
    (hS : ∀ a b, S' b → S a ∨ T b) :
    RelAt dead ts S' Q (p >>= f) (q >>= g) := by
  obtain ⟨heq, hout⟩ := hp
  rcases hrun : p.run ts with ⟨e | a, rest⟩
  · rw [hrun] at hout heq
    refine ⟨?_, ?_⟩
    · rw [run_bind_error hrun, run_bind_error heq.symm]
    · rw [run_bind_error hrun]
      exact hout
  · rw [hrun] at hout heq
    have hle := (suffix_of_run hrun).length_le
    obtain ⟨hnext, hout'⟩ := hf a rest hle hout.1
    refine ⟨?_, ?_⟩
    · rw [run_bind_ok hrun, run_bind_ok heq.symm, hnext]
    · rw [run_bind_ok hrun]
      rcases hrun' : (f a).run rest with ⟨e | b, rest'⟩
      · rw [hrun'] at hout'
        exact hout'
      · rw [hrun'] at hout'
        have hle' := (suffix_of_run hrun').length_le
        refine ⟨fun hs => ?_, fun hdead => ?_, fun hlive => ?_⟩
        · rcases hS a b hs with ha | hb
          · exact lt_of_le_of_lt hle' (hout.1 ha)
          · exact lt_of_lt_of_le (hout'.1 hb) hle
        · obtain rfl := hout.2.1 hdead
          exact hout'.2.1 hdead
        · have hmid : ¬ dead rest := fun hdead => hlive (by rwa [hout'.2.1 hdead])
          obtain ⟨u, rfl, hu⟩ := hout.2.2 hmid
          obtain ⟨v, rfl, hv⟩ := hout'.2.2 hlive
          exact ⟨u ++ v, (List.append_assoc u v rest').symm, hv u hu⟩

theorem Rel.mono {S' : α → Prop} {R' : α → List τ → List τ → Prop} {m : ℕ} (h : Rel dead n S R p q) (hm : m ≤ n)
    (hS : ∀ a, S' a → S a) (hR : ∀ a used rest, R a used rest → R' a used rest) : Rel dead m S' R' p q :=
  fun ts hts => (h ts (by omega)).mono hS fun a used rest _ => hR a used rest

theorem rel_iff_le : (∀ n, Rel dead n S R p p) ↔ ∀ ts, RelAt dead ts S R p p :=
  ⟨fun h ts => h (ts.length + 1) ts (Nat.lt_succ_self _), fun h _ ts _ => h ts⟩

theorem Progress.of_rel {step : σ → Parser τ ε (σ ⊕ α)} {R : σ → σ ⊕ α → List τ → List τ → Prop}
    (h : ∀ s n, Rel dead n (fun r => r.isLeft = true) (R s) (step s) (step s)) : Progress step := by
  intro s ts s' rest hrun
  have hout := (h s (ts.length + 1) ts (Nat.lt_succ_self _)).2
  rw [hrun] at hout
  exact hout.1 rfl

/-- A loop. `Q s a used rest` says that from the state `s`, the loop gives `a` for `used` and leaves
`rest`. -/
theorem rel_repeated {step step' : σ → Parser τ ε (σ ⊕ α)} {Q : σ → α → List τ → List τ → Prop}
    (hstep : ∀ s, Rel dead n (fun r => r.isLeft = true)
      (fun r used left =>
        match r with
        | .inl s' => ∀ a more rest, left = more ++ rest → Q s' a more rest → Q s a (used ++ more) rest
        | .inr a => Q s a used left)
      (step s) (step' s)) (s : σ) :
    Rel dead n (fun _ => False) (Q s) (repeated step s) (repeated step' s) := by
  suffices hrounds : ∀ m s ts, ts.length < m → ts.length < n →
      RelAt dead ts (fun _ => False) (Q s) (rounds step m s) (rounds step' m s) by
    intro ts hts
    exact hrounds (ts.length + 1) s ts (Nat.lt_succ_self _) hts
  intro m
  induction m with
  | zero => exact fun s ts hm => absurd hm (Nat.not_lt_zero _)
  | succ m ih =>
    intro s ts hm hn
    refine (hstep s ts hn).bind (T := fun _ => False) (fun r rest hle hlt => ?_) fun _ _ => False.elim
    rcases r with s' | a
    · refine (ih s' rest (by have := hlt rfl; omega) (by omega)).mono (fun _ => id) ?_
      exact fun a more rest heq hq u hu => hu a more rest heq hq
    · refine .pure id fun _ u hu => ?_
      rw [List.append_nil]
      exact hu

/-- What `f` makes of a parser, on inputs of up to `n` tokens, depends on what the parser does on
shorter ones. -/
theorem rel_fix {f g : Parser τ ε α → Parser τ ε α}
    (h : ∀ m < n, ∀ p q, Rel dead m S R p q → Rel dead (m + 1) S R (f p) (g q)) :
    Rel dead n S R (fix f) (fix g) := by
  have hiter : ∀ m ≤ n, Rel dead m S R (f^[m] (Parser.fail fun _ => default))
      (g^[m] (Parser.fail fun _ => default)) := by
    intro m
    induction m with
    | zero => exact fun _ ts hts => absurd hts (Nat.not_lt_zero _)
    | succ m ih =>
      intro hm
      rw [Function.iterate_succ_apply', Function.iterate_succ_apply']
      exact h m hm _ _ (ih (by omega))
  exact fun ts hts => hiter (ts.length + 1) hts ts (Nat.lt_succ_self _)

/-- The parser that `f` gives for itself is what `f` makes of it. -/
theorem fix_eq {f : Parser τ ε α → Parser τ ε α}
    (h : ∀ n p q, Rel dead n S R p q → Rel dead (n + 1) S R (f p) (f q)) : fix f = f (fix f) := by
  have hiter : ∀ m k, m ≤ k → Rel dead m S R (f^[m] (Parser.fail fun _ => default))
      (f^[k] (Parser.fail fun _ => default)) := by
    intro m
    induction m with
    | zero => exact fun k _ ts hts => absurd hts (Nat.not_lt_zero _)
    | succ m ih =>
      intro k hk
      obtain ⟨k, rfl⟩ : ∃ j, k = j + 1 := ⟨k - 1, by omega⟩
      rw [Function.iterate_succ_apply', Function.iterate_succ_apply']
      exact h m _ _ (ih k (by omega))
  ext1 ts
  have hbelow : Rel dead ts.length S R (f^[ts.length] (Parser.fail fun _ => default)) (fix f) := by
    intro us hus
    have hrel := hiter (us.length + 1) ts.length hus us (Nat.lt_succ_self _)
    refine ⟨hrel.1.symm, ?_⟩
    rw [← hrel.1]
    exact hrel.2
  have hrun := (h _ _ _ hbelow ts (Nat.lt_succ_self _)).1
  rw [← Function.iterate_succ_apply' f] at hrun
  exact hrun

end Rules

end Parser

end Parsing
