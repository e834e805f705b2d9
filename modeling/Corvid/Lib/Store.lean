import Mathlib.Logic.Function.Basic
import Mathlib.Tactic.Common

/-!
# Programs over a shared store

A store answers queries, each of them atomically. A program issues one query after another, each
depending on the answers so far, and returns or fails.

## Main definitions

* `Prog`: programs, with `Prog.run` for a run without interference
* `Prog.All`: all queries that a program can issue satisfy a predicate
* `Prog.Along`: all queries that a run issues satisfy a predicate of the store they run on

## Main results

* `Prog.run_inv`: what all queries preserve holds after a run
* `Prog.all_bind`: the queries of a sequence of programs
-/

namespace Store

variable {Q : Type} {R : Q → Type} {ε α β : Type}

/-- A program that returns, fails, or issues a query and continues with its reply. -/
inductive Prog (R : Q → Type) (ε α : Type) where
  | ret (a : α)
  | fail (e : ε)
  | call (q : Q) (k : R q → Prog R ε α)

namespace Prog

/-- A program that issues one query and returns its reply. -/
def query (q : Q) : Prog R ε (R q) := call q ret

def bind : Prog R ε α → (α → Prog R ε β) → Prog R ε β
  | ret a, f => f a
  | fail e, _ => fail e
  | call q k, f => call q fun r => (k r).bind f

/-- The value of a computation without queries, or its error. -/
def ofExcept : Except ε α → Prog R ε α
  | .ok a => ret a
  | .error e => fail e

instance : Monad (Prog R ε) where
  pure := ret
  bind := bind

instance : MonadExceptOf ε (Prog R ε) where
  throw := fail
  tryCatch p handler :=
    let rec go
      | ret a => ret a
      | fail e => handler e
      | call q k => call q fun r => go (k r)
    go p

@[simp] theorem pure_eq (a : α) : (pure a : Prog R ε α) = ret a := rfl

@[simp] theorem ret_bind (a : α) (f : α → Prog R ε β) : (ret a >>= f) = f a := rfl

@[simp] theorem fail_bind (e : ε) (f : α → Prog R ε β) : (fail e >>= f) = fail e := rfl

@[simp] theorem call_bind (q : Q) (k : R q → Prog R ε α) (f : α → Prog R ε β) :
    (call q k >>= f) = call q fun r => k r >>= f := rfl

@[simp] theorem query_bind (q : Q) (f : R q → Prog R ε β) : (query q >>= f) = call q f := rfl

theorem bind_assoc {γ : Type} (p : Prog R ε α) (f : α → Prog R ε β) (g : β → Prog R ε γ) :
    (p >>= f) >>= g = p >>= fun a => f a >>= g := by
  induction p with
  | ret a => rfl
  | fail e => rfl
  | call q k ih => exact congrArg (call q) (funext ih)

@[simp] theorem throw_eq (e : ε) : (throw e : Prog R ε α) = fail e := rfl

/-- Every query that the program can issue satisfies `P`, whatever the replies are. -/
def All (P : Q → Prop) : Prog R ε α → Prop
  | ret _ => True
  | fail _ => True
  | call q k => P q ∧ ∀ r, (k r).All P

variable {P : Q → Prop}

theorem all_bind {p : Prog R ε α} {f : α → Prog R ε β} (hp : p.All P) (hf : ∀ a, (f a).All P) :
    (p >>= f).All P := by
  induction p with
  | ret a => exact hf a
  | fail e => trivial
  | call q k ih => exact ⟨hp.1, fun r => ih r (hp.2 r)⟩

@[simp] theorem all_ret (a : α) : (ret a : Prog R ε α).All P := trivial

@[simp] theorem all_fail (e : ε) : (fail e : Prog R ε α).All P := trivial

@[simp] theorem all_call (q : Q) (k : R q → Prog R ε α) :
    (call q k).All P ↔ P q ∧ ∀ r, (k r).All P := Iff.rfl

theorem all_query_bind {q : Q} {f : R q → Prog R ε β} (hq : P q) (hf : ∀ r, (f r).All P) :
    (query q >>= f).All P :=
  ⟨hq, hf⟩

theorem all_ofExcept_bind {x : Except ε α} {f : α → Prog R ε β}
    (h : ∀ a, x = .ok a → (f a).All P) : (ofExcept x >>= f).All P := by
  cases x with
  | error e => trivial
  | ok a => exact h a rfl

theorem all_map {p : Prog R ε α} {f : α → β} (hp : p.All P) : (f <$> p).All P :=
  all_bind hp fun _ => trivial

theorem all_of_map {p : Prog R ε α} {f : α → β} (h : (f <$> p).All P) : p.All P := by
  induction p with
  | ret a => trivial
  | fail e => trivial
  | call q k ih => exact ⟨h.1, fun r => ih r (h.2 r)⟩

theorem all_true (p : Prog R ε α) : p.All fun _ => True := by
  induction p with
  | ret a => trivial
  | fail e => trivial
  | call q k ih => exact ⟨trivial, ih⟩

theorem All.mono {P' : Q → Prop} (h : ∀ q, P q → P' q) {p : Prog R ε α} (hp : p.All P) :
    p.All P' := by
  induction p with
  | ret a => trivial
  | fail e => trivial
  | call q k ih => exact ⟨h q hp.1, fun r => ih r (hp.2 r)⟩

section Runs

variable {σ : Type} (exec : (q : Q) → σ → R q × σ)

/-- A run without interference. -/
def run : Prog R ε α → σ → Except ε α × σ
  | ret a, s => (.ok a, s)
  | fail e, s => (.error e, s)
  | call q k, s => (k (exec q s).1).run (exec q s).2

/-- The first `n` queries of a run, after which the program is abandoned. -/
def crash : ℕ → Prog R ε α → σ → σ
  | 0, _, s => s
  | _ + 1, ret _, s => s
  | _ + 1, fail _, s => s
  | n + 1, call q k, s => (k (exec q s).1).crash n (exec q s).2

/-- The queries of a run, with the states in which they are issued. -/
def trace : Prog R ε α → σ → List (σ × Q)
  | ret _, _ => []
  | fail _, _ => []
  | call q k, s => (s, q) :: (k (exec q s).1).trace (exec q s).2

/-- Every query of the run satisfies `P` in the state in which it is issued. -/
def Along (P : σ → Q → Prop) : Prog R ε α → σ → Prop
  | ret _, _ => True
  | fail _, _ => True
  | call q k, s => P s q ∧ (k (exec q s).1).Along P (exec q s).2

variable {exec}

theorem run_bind (p : Prog R ε α) (f : α → Prog R ε β) (s : σ) :
    (p >>= f).run exec s =
      match p.run exec s with
      | (.ok a, s') => (f a).run exec s'
      | (.error e, s') => (.error e, s') := by
  induction p generalizing s with
  | ret a => rfl
  | fail e => rfl
  | call q k ih => exact ih _ _

/-- A sequence of programs that returns, returns from both parts. -/
theorem run_bind_eq_ok {p : Prog R ε α} {f : α → Prog R ε β} {s s'' : σ} {b : β} :
    (p >>= f).run exec s = (.ok b, s'') ↔
      ∃ a s', p.run exec s = (.ok a, s') ∧ (f a).run exec s' = (.ok b, s'') := by
  rw [run_bind]
  constructor
  · intro h
    split at h
    next a s' hp => exact ⟨a, s', hp, h⟩
    next => cases h
  · rintro ⟨a, s', hp, hf⟩
    rw [hp]
    exact hf

theorem run_ofExcept_bind_eq_ok {x : Except ε α} {f : α → Prog R ε β} {s s' : σ} {b : β} :
    (ofExcept x >>= f).run exec s = (.ok b, s') ↔
      ∃ a, x = .ok a ∧ (f a).run exec s = (.ok b, s') := by
  cases x with
  | error e =>
    constructor
    · intro h
      cases h
    · rintro ⟨_, h, -⟩
      cases h
  | ok a =>
    constructor
    · exact fun h => ⟨a, rfl, h⟩
    · rintro ⟨_, ⟨⟩, h⟩
      exact h

@[simp] theorem run_ofExcept_snd (x : Except ε α) (s : σ) : ((ofExcept x).run exec s).2 = s := by
  cases x with
  | ok a => rfl
  | error e => rfl

theorem run_map_eq_ok {p : Prog R ε α} {f : α → β} {s s' : σ} {b : β} :
    (f <$> p).run exec s = (.ok b, s') ↔ ∃ a, p.run exec s = (.ok a, s') ∧ f a = b := by
  constructor
  · intro h
    obtain ⟨a, s₁, hp, hf⟩ := run_bind_eq_ok.mp h
    cases hf
    exact ⟨a, hp, rfl⟩
  · rintro ⟨a, hp, rfl⟩
    exact run_bind_eq_ok.mpr ⟨a, s', hp, rfl⟩

theorem run_map_snd (f : α → β) (p : Prog R ε α) (s : σ) :
    ((f <$> p).run exec s).2 = (p.run exec s).2 := by
  induction p generalizing s with
  | ret a => rfl
  | fail e => rfl
  | call q k ih => exact ih _ _

theorem run_map (f : α → β) (p : Prog R ε α) (s : σ) :
    (f <$> p).run exec s = ((p.run exec s).1.map f, (p.run exec s).2) := by
  induction p generalizing s with
  | ret a => rfl
  | fail e => rfl
  | call q k ih => exact ih _ _

theorem run_map_query_bind {q : Q} (f : R q → Prog R ε α) (g : α → β) (s : σ) :
    (g <$> (query q >>= f)).run exec s = (g <$> f (exec q s).1).run exec (exec q s).2 := rfl

/-- A program whose queries all satisfy `P`, run in a state where these satisfy `P'`. -/
theorem along_of_all {P' : σ → Q → Prop} (h : ∀ s q, P q → P' s q) {p : Prog R ε α} (hp : p.All P)
    (s : σ) : p.Along exec P' s := by
  induction p generalizing s with
  | ret a => trivial
  | fail e => trivial
  | call q k ih => exact ⟨h s q hp.1, ih _ (hp.2 _) _⟩

theorem Along.and {P P' : σ → Q → Prop} {p : Prog R ε α} {s : σ} (h : p.Along exec P s)
    (h' : p.Along exec P' s) : p.Along exec (fun s q => P s q ∧ P' s q) s := by
  induction p generalizing s with
  | ret a => trivial
  | fail e => trivial
  | call q k ih => exact ⟨⟨h.1, h'.1⟩, ih _ h.2 h'.2⟩

/-- What every query of a run preserves holds at its end. -/
theorem run_inv {I : σ → Prop} {P' : σ → Q → Prop}
    (hstep : ∀ s q, I s → P' s q → I (exec q s).2) {p : Prog R ε α} {s : σ}
    (hp : p.Along exec P' s) (hs : I s) : I (p.run exec s).2 := by
  induction p generalizing s with
  | ret a => exact hs
  | fail e => exact hs
  | call q k ih => exact ih _ hp.2 (hstep s q hs hp.1)

theorem forall_trace_of_all {p : Prog R ε α} (hp : p.All P) (s : σ) :
    ∀ x ∈ p.trace exec s, P x.2 := by
  induction p generalizing s with
  | ret a => exact fun x hx => absurd hx List.not_mem_nil
  | fail e => exact fun x hx => absurd hx List.not_mem_nil
  | call q k ih =>
    intro x hx
    rcases List.mem_cons.mp hx with rfl | hx
    · exact hp.1
    · exact ih _ (hp.2 _) _ x hx

/-- What every query of a run preserves holds all along it. -/
theorem trace_inv {I : σ → Prop} {P' : σ → Q → Prop}
    (hstep : ∀ s q, I s → P' s q → I (exec q s).2) {p : Prog R ε α} {s : σ}
    (hp : p.Along exec P' s) (hs : I s) : ∀ x ∈ p.trace exec s, I x.1 := by
  induction p generalizing s with
  | ret a => exact fun x hx => absurd hx List.not_mem_nil
  | fail e => exact fun x hx => absurd hx List.not_mem_nil
  | call q k ih =>
    intro x hx
    rcases List.mem_cons.mp hx with rfl | hx
    · exact hs
    · exact ih _ hp.2 (hstep s q hs hp.1) x hx

/-- Two stores that answer alike and stay related give the same result. -/
theorem run_sim {τ : Type} {exec' : (q : Q) → τ → R q × τ} {rel : σ → τ → Prop}
    (hstep : ∀ q s t, P q → rel s t →
      (exec q s).1 = (exec' q t).1 ∧ rel (exec q s).2 (exec' q t).2)
    {p : Prog R ε α} (hp : p.All P) {s : σ} {t : τ} (h : rel s t) :
    (p.run exec s).1 = (p.run exec' t).1 ∧ rel (p.run exec s).2 (p.run exec' t).2 := by
  induction p generalizing s t with
  | ret a => exact ⟨rfl, h⟩
  | fail e => exact ⟨rfl, h⟩
  | call q k ih =>
    obtain ⟨hreply, hrel⟩ := hstep q s t hp.1 h
    have hrest := ih (exec q s).1 (hp.2 _) hrel
    rw [run, run, ← hreply]
    exact hrest

/-! ### Crashes -/

variable (exec)

/-- The program returns with `post`, and `J` holds after each of its queries but the ones that leave
something to be done. -/
def Meets (J : σ → Prop) (open? : σ → Q → Bool) (post : α → σ → Prop) : Prog R ε α → σ → Prop
  | ret a, s => post a s
  | fail _, _ => False
  | call q k, s =>
    (¬ open? s q → J (exec q s).2) ∧ (k (exec q s).1).Meets J open? post (exec q s).2

variable {exec} {J : σ → Prop} {open? : σ → Q → Bool}

theorem Meets.bind {post : α → σ → Prop} {post' : β → σ → Prop} {p : Prog R ε α}
    {f : α → Prog R ε β} {s : σ} (hp : p.Meets exec J open? post s)
    (hf : ∀ a s, post a s → (f a).Meets exec J open? post' s) :
    (p >>= f).Meets exec J open? post' s := by
  induction p generalizing s with
  | ret a => exact hf a s hp
  | fail e => exact hp.elim
  | call q k ih => exact ⟨hp.1, ih _ hp.2⟩

theorem Meets.imp {post post' : α → σ → Prop} (h : ∀ a s, post a s → post' a s) {p : Prog R ε α}
    {s : σ} (hp : p.Meets exec J open? post s) : p.Meets exec J open? post' s := by
  induction p generalizing s with
  | ret a => exact h a s hp
  | fail e => exact hp
  | call q k ih => exact ⟨hp.1, ih _ hp.2⟩

theorem meets_query_bind {post : β → σ → Prop} {q : Q} {f : R q → Prog R ε β} {s : σ}
    (hJ : ¬ open? s q → J (exec q s).2)
    (hf : (f (exec q s).1).Meets exec J open? post (exec q s).2) :
    (query q >>= f).Meets exec J open? post s :=
  ⟨hJ, hf⟩

theorem Meets.run {post : α → σ → Prop} {p : Prog R ε α} {s : σ}
    (hp : p.Meets exec J open? post s) :
    ∃ a s', p.run exec s = (.ok a, s') ∧ post a s' := by
  induction p generalizing s with
  | ret a => exact ⟨a, s, rfl, hp⟩
  | fail e => exact hp.elim
  | call q k ih => exact ih _ hp.2

/-- A program that crashes after a query with nothing left to be done leaves `J` behind. -/
theorem Meets.crash {post : α → σ → Prop} {p : Prog R ε α} {s : σ}
    (hp : p.Meets exec J open? post s) {n : ℕ}
    (hn : ((p.trace exec s).take n).getLast?.elim (J s) fun x => open? x.1 x.2 = false) :
    J (p.crash exec n s) := by
  induction p generalizing s n with
  | ret a =>
    rw [trace, List.take_nil] at hn
    cases n <;> exact hn
  | fail e => exact hp.elim
  | call q k ih =>
    cases n with
    | zero => exact hn
    | succ n =>
      refine ih _ hp.2 ?_
      rw [trace, List.take_succ_cons, List.getLast?_cons, Option.elim_some] at hn
      cases hlast : (((k (exec q s).1).trace exec (exec q s).2).take n).getLast? with
      | none =>
        rw [hlast] at hn
        exact hp.1 (by simpa using hn)
      | some x =>
        rw [hlast] at hn
        exact hn

end Runs

end Prog

/-- An entry of a list with one more element is that element, or comes before it. -/
theorem snoc_eq_append_cons {log pre post : List α} {l g : α}
    (h : log ++ [l] = pre ++ g :: post) :
    (log = pre ∧ l = g ∧ post = []) ∨ ∃ post', post = post' ++ [l] ∧ log = pre ++ g :: post' := by
  rcases List.eq_nil_or_concat post with rfl | ⟨post', x, rfl⟩
  · obtain ⟨rfl, hl⟩ := List.append_inj' h rfl
    exact .inl ⟨rfl, List.singleton_inj.mp hl, rfl⟩
  · rw [List.concat_eq_append, ← List.cons_append, ← List.append_assoc] at h
    obtain ⟨rfl, hl⟩ := List.append_inj' h rfl
    refine .inr ⟨post', ?_, rfl⟩
    rw [List.concat_eq_append, List.singleton_inj.mp hl]

end Store
