import Corvid.Lib.Store
import Mathlib.Data.List.Induction

/-!
# Programs side by side

Several programs run on one store and their queries interleave. Each of them belongs to a thread,
which calls an operation, issues the queries of its program, and returns. A run has a log of all that
happens in it.

## Main definitions

* `Prog.Reaches`: what is left of a program after some queries
* `Pool`, `Pool.Step`, `Pool.Run`: threads side by side, and their runs
* `Pool.play`: a run with a given schedule

## Main results

* `Pool.Run.reaches`: a thread is where the queries of its call have brought it
* `Pool.Run.since_start`: the queries of a call are in the log, since its start
* `Pool.Run.of_two_finishes`: the queries of two calls are different entries of the log
-/

namespace Store

variable {Q : Type} {R : Q → Type} {ε α β ι σ Ω : Type}

namespace Prog

variable (exec : (q : Q) → σ → R q × σ)

/-- `p'` is what is left of `p` after queries in given states. -/
def Reaches : Prog R ε α → List (σ × Q) → Prog R ε α → Prop
  | p, [], p' => p = p'
  | ret _, _ :: _, _ => False
  | fail _, _ :: _, _ => False
  | call q k, x :: done, p' => q = x.2 ∧ (k (exec q x.1).1).Reaches done p'

variable {exec}

theorem Reaches.snoc {p : Prog R ε α} {done : List (σ × Q)} {q : Q} {k : R q → Prog R ε α} (s : σ)
    (h : p.Reaches exec done (call q k)) :
    p.Reaches exec (done ++ [(s, q)]) (k (exec q s).1) := by
  induction done generalizing p with
  | nil =>
    obtain rfl : p = call q k := by cases p <;> exact h
    exact ⟨rfl, by cases k (exec q s).1 <;> rfl⟩
  | cons x done ih =>
    cases p with
    | ret a => exact h.elim
    | fail e => exact h.elim
    | call q' k' => exact ⟨h.1, ih h.2⟩

theorem reaches_refl (p : Prog R ε α) : p.Reaches exec [] p := by
  cases p <;> rfl

theorem reaches_nil {p p' : Prog R ε α} : p.Reaches exec [] p' ↔ p = p' := by
  cases p <;> rfl

theorem reaches_query_bind_nil {q : Q} {f : R q → Prog R ε α} {p' : Prog R ε α} :
    (query q >>= f).Reaches exec [] p' ↔ call q f = p' := Iff.rfl

theorem reaches_query_bind_cons {q : Q} {f : R q → Prog R ε α} {x : σ × Q} {done : List (σ × Q)}
    {p' : Prog R ε α} : (query q >>= f).Reaches exec (x :: done) p' ↔
      q = x.2 ∧ (f (exec q x.1).1).Reaches exec done p' := Iff.rfl

/-- What all queries of a program satisfy, the remaining ones satisfy too. -/
theorem Reaches.all {P : Q → Prop} {p p' : Prog R ε α} {done : List (σ × Q)} (hp : p.All P)
    (h : p.Reaches exec done p') : p'.All P := by
  induction done generalizing p with
  | nil => exact reaches_nil.mp h ▸ hp
  | cons x done ih =>
    cases p with
    | ret a => exact h.elim
    | fail e => exact h.elim
    | call q k => exact ih (hp.2 _) h.2

/-- What all queries of a program satisfy, those that it has issued satisfy. -/
theorem Reaches.forall_done {P : Q → Prop} {p p' : Prog R ε α} {done : List (σ × Q)} (hp : p.All P)
    (h : p.Reaches exec done p') : ∀ x ∈ done, P x.2 := by
  induction done generalizing p with
  | nil => exact fun x hx => absurd hx List.not_mem_nil
  | cons y done ih =>
    cases p with
    | ret a => exact h.elim
    | fail e => exact h.elim
    | call q k =>
      intro x hx
      rcases List.mem_cons.mp hx with rfl | hx
      · exact h.1 ▸ hp.1
      · exact ih (hp.2 _) h.2 x hx

/-- A sequence of programs is in its first part, or has completed it. -/
theorem reaches_bind {p : Prog R ε α} {f : α → Prog R ε β} {done : List (σ × Q)} {r : Prog R ε β}
    (h : (p >>= f).Reaches exec done r) :
    (∃ p', p.Reaches exec done p' ∧ r = p' >>= f) ∨
      ∃ d₁ d₂ a, done = d₁ ++ d₂ ∧ p.Reaches exec d₁ (ret a) ∧ (f a).Reaches exec d₂ r := by
  induction done generalizing p with
  | nil => exact .inl ⟨p, reaches_refl p, (reaches_nil.mp h).symm⟩
  | cons x done ih =>
    cases p with
    | ret a => exact .inr ⟨[], x :: done, a, rfl, rfl, h⟩
    | fail e => exact h.elim
    | call q k =>
      rcases ih h.2 with ⟨p', hp', hr⟩ | ⟨d₁, d₂, a, hdone, hp, hf⟩
      · exact .inl ⟨p', ⟨h.1, hp'⟩, hr⟩
      · exact .inr ⟨x :: d₁, d₂, a, by rw [hdone, List.cons_append], ⟨h.1, hp⟩, hf⟩

/-- A sequence of programs that returns has completed both parts. -/
theorem reaches_bind_ret {p : Prog R ε α} {f : α → Prog R ε β} {done : List (σ × Q)} {b : β}
    (h : (p >>= f).Reaches exec done (ret b)) :
    ∃ d₁ d₂ a, done = d₁ ++ d₂ ∧ p.Reaches exec d₁ (ret a) ∧ (f a).Reaches exec d₂ (ret b) := by
  rcases reaches_bind h with ⟨p', hp', hret⟩ | hboth
  · cases p' with
    | ret a => exact ⟨done, [], a, (List.append_nil done).symm, hp', reaches_nil.mpr hret.symm⟩
    | fail e => cases hret
    | call q k => cases hret
  · exact hboth

theorem reaches_map {p : Prog R ε α} {f : α → β} {done : List (σ × Q)} {r : Prog R ε β}
    (h : (f <$> p).Reaches exec done r) : ∃ p', p.Reaches exec done p' ∧ r = f <$> p' := by
  rcases reaches_bind h with ⟨p', hp', hr⟩ | ⟨d₁, d₂, a, rfl, hp, hret⟩
  · exact ⟨p', hp', hr⟩
  · cases d₂ with
    | nil =>
      rw [List.append_nil]
      exact ⟨ret a, hp, (reaches_nil.mp hret).symm⟩
    | cons x d₂ => exact hret.elim

theorem reaches_map_call {p : Prog R ε α} {f : α → β} {done : List (σ × Q)} {q : Q}
    {k : R q → Prog R ε β} (h : (f <$> p).Reaches exec done (call q k)) :
    ∃ k', p.Reaches exec done (call q k') ∧ k = fun r => f <$> k' r := by
  obtain ⟨p', hp', hcall⟩ := reaches_map h
  cases p' with
  | ret a => cases hcall
  | fail e => cases hcall
  | call q' k' =>
    cases hcall
    exact ⟨k', hp', rfl⟩

theorem not_reaches_ret_call {a : α} {done : List (σ × Q)} {q : Q} {k : R q → Prog R ε α} :
    ¬ (ret a : Prog R ε α).Reaches exec done (call q k) := by
  cases done <;> exact fun h => nomatch h

theorem not_reaches_fail_ret {done : List (σ × Q)} {e : ε} {a : α} :
    ¬ (fail e : Prog R ε α).Reaches exec done (ret a) := by
  cases done <;> exact fun h => nomatch h

end Prog

theorem Prog.reaches_query_bind_ret {exec : (q : Q) → σ → R q × σ} {q : Q} {f : R q → Prog R ε α}
    {done : List (σ × Q)} {a : α} :
    (Prog.query q >>= f).Reaches exec done (.ret a) ↔
      ∃ s rest, done = (s, q) :: rest ∧ (f (exec q s).1).Reaches exec rest (.ret a) := by
  cases done with
  | nil =>
    constructor
    · rintro ⟨⟩
    · rintro ⟨_, _, ⟨⟩, -⟩
  | cons x rest =>
    obtain ⟨s, q'⟩ := x
    constructor
    · rintro ⟨rfl, h⟩
      exact ⟨s, rest, rfl, h⟩
    · rintro ⟨_, _, ⟨⟩, h⟩
      exact ⟨rfl, h⟩

theorem Prog.reaches_query_ret {exec : (q : Q) → σ → R q × σ} {q : Q} {done : List (σ × Q)}
    {a : R q} : (Prog.query q : Prog R ε (R q)).Reaches exec done (.ret a) ↔
      ∃ s, done = [(s, q)] ∧ (exec q s).1 = a := by
  cases done with
  | nil =>
    constructor
    · rintro ⟨⟩
    · rintro ⟨_, ⟨⟩, -⟩
  | cons x rest =>
    obtain ⟨s, q'⟩ := x
    constructor
    · rintro ⟨rfl, h⟩
      cases rest with
      | nil =>
        cases Prog.reaches_nil.mp h
        exact ⟨s, rfl, rfl⟩
      | cons y rest => exact h.elim
    · rintro ⟨_, ⟨⟩, rfl⟩
      exact ⟨rfl, rfl⟩

theorem Prog.reaches_ret_ret {exec : (q : Q) → σ → R q × σ} {done : List (σ × Q)} {a b : α}
    (h : (Prog.ret a : Prog R ε α).Reaches exec done (.ret b)) : b = a := by
  cases done with
  | nil =>
    cases Prog.reaches_nil.mp h
    rfl
  | cons y done => exact h.elim

theorem Prog.reaches_ofExcept_bind_ret {exec : (q : Q) → σ → R q × σ} {x : Except ε α}
    {f : α → Prog R ε β} {done : List (σ × Q)} {b : β}
    (h : (Prog.ofExcept x >>= f).Reaches exec done (.ret b)) :
    ∃ a, x = .ok a ∧ (f a).Reaches exec done (.ret b) := by
  cases x with
  | error e => exact absurd h Prog.not_reaches_fail_ret
  | ok a => exact ⟨a, rfl, h⟩

theorem Prog.reaches_ofExcept_ret {exec : (q : Q) → σ → R q × σ} {x : Except ε α}
    {done : List (σ × Q)} {a : α}
    (h : (Prog.ofExcept x : Prog R ε α).Reaches exec done (.ret a)) : x = .ok a ∧ done = [] := by
  cases x with
  | error e => exact absurd h Prog.not_reaches_fail_ret
  | ok b =>
    cases done with
    | nil =>
      cases Prog.reaches_nil.mp h
      exact ⟨rfl, rfl⟩
    | cons y done => exact h.elim

theorem Prog.reaches_map_ret {exec : (q : Q) → σ → R q × σ} {p : Prog R ε α} {f : α → β}
    {done : List (σ × Q)} {b : β} (h : (f <$> p).Reaches exec done (.ret b)) :
    ∃ a, b = f a ∧ p.Reaches exec done (.ret a) := by
  obtain ⟨d₁, d₂, a, rfl, hp, hret⟩ := Prog.reaches_bind_ret h
  cases d₂ with
  | nil =>
    rw [List.append_nil]
    cases hret
    exact ⟨a, rfl, hp⟩
  | cons x d₂ => exact hret.elim

/-! ### The order of a log -/

/-- One entry comes before another. -/
def Before {α : Type} (log : List α) (x y : α) : Prop := ∃ u v w, log = u ++ x :: (v ++ y :: w)

theorem before_or_before {α : Type} {log : List α} {x y : α} (hne : x ≠ y) (hx : x ∈ log)
    (hy : y ∈ log) : Before log x y ∨ Before log y x := by
  obtain ⟨u, v, rfl⟩ := List.append_of_mem hx
  rcases List.mem_append.mp hy with hy | hy
  · obtain ⟨u', v', rfl⟩ := List.append_of_mem hy
    exact .inr ⟨u', v', v, by simp⟩
  · obtain ⟨u', v', rfl⟩ := List.append_of_mem ((List.mem_cons.mp hy).resolve_left hne.symm)
    exact .inl ⟨u, u', v', rfl⟩

theorem pairwise_of_before {α : Type} {log : List α} {r : α → α → Prop}
    (h : ∀ x y, Before log x y → r x y) : log.Pairwise r := by
  induction log with
  | nil => exact .nil
  | cons z log ih =>
    refine .cons (fun y hy => ?_) (ih fun x y ⟨u, v, w, hlog⟩ => ?_)
    · obtain ⟨v, w, rfl⟩ := List.append_of_mem hy
      exact h z y ⟨[], v, w, rfl⟩
    · exact h x y ⟨z :: u, v, w, by rw [hlog, List.cons_append]⟩

theorem before_append {α : Type} {l l' : List α} {x y : α} (hx : x ∈ l) (hy : y ∈ l') :
    Before (l ++ l') x y := by
  obtain ⟨u, v, rfl⟩ := List.append_of_mem hx
  obtain ⟨v', w, rfl⟩ := List.append_of_mem hy
  exact ⟨u, v ++ v', w, by simp⟩

theorem split_at {α : Type} (log : List α) (k : ℕ) (h : k < log.length) :
    log = log.take k ++ log.get ⟨k, h⟩ :: log.drop (k + 1) := by
  rw [List.get_eq_getElem, ← List.drop_eq_getElem_cons h, List.take_append_drop]

/-- What follows an entry of a suffix that does not contain an earlier entry. -/
theorem suffix_of_not_mem {α : Type} {pre mid p b : List α} {f s : α}
    (h : pre ++ f :: mid = p ++ s :: b) (hne : f ≠ s) (hf : f ∉ b) : ∀ y ∈ b, y ∈ mid := by
  intro y hy
  rcases List.append_eq_append_iff.mp h with ⟨m, hp, hm⟩ | ⟨m, hpre, hm⟩
  · cases m with
    | nil => exact absurd (List.cons.inj hm).1 hne
    | cons z m =>
      obtain ⟨rfl, rfl⟩ := List.cons.inj hm
      exact List.mem_append_right _ (List.mem_cons_of_mem _ hy)
  · cases m with
    | nil => exact absurd (List.cons.inj hm).1.symm hne
    | cons z m =>
      obtain ⟨rfl, rfl⟩ := List.cons.inj hm
      exact absurd (List.mem_append_right m List.mem_cons_self) hf

/-- What follows the last entry of a kind comes after any other such entry. -/
theorem mem_of_last {α : Type} {P : α → Prop} {pre u p m : List α} {a g : α}
    (h : pre ++ a :: u = p ++ g :: m) (hu : ∃ y ∈ u, P y) (hm : ∀ y ∈ m, ¬ P y) :
    ∀ z ∈ m, z ∈ u := by
  intro z hz
  rcases List.append_eq_append_iff.mp h with ⟨t, hp, ht⟩ | ⟨t, hpre, ht⟩
  · cases t with
    | nil => exact (List.cons.inj ht).2 ▸ hz
    | cons b t =>
      rw [(List.cons.inj ht).2]
      exact List.mem_append_right _ (List.mem_cons_of_mem _ hz)
  · cases t with
    | nil => exact (List.cons.inj ht).2 ▸ hz
    | cons b t =>
      obtain ⟨y, hy, hP⟩ := hu
      have hmem : y ∈ m := by
        rw [(List.cons.inj ht).2]
        exact List.mem_append_right _ (List.mem_cons_of_mem _ hy)
      exact absurd hP (hm y hmem)

/-- The last entry of a kind. -/
theorem exists_last {α β : Type} {f : α → Option β} {log : List α} {b : β}
    (h : (log.filterMap f).getLast? = some b) :
    ∃ p g m, log = p ++ g :: m ∧ f g = some b ∧ ∀ y ∈ m, f y = none := by
  induction log using List.reverseRecOn with
  | nil => cases h
  | append_singleton log x ih =>
    rw [List.filterMap_append] at h
    cases hx : f x with
    | some b' =>
      obtain rfl : b' = b := by simpa [hx] using h
      exact ⟨log, x, [], rfl, hx, by simp⟩
    | none =>
      obtain ⟨p, g, m, rfl, hg, hm⟩ := ih (by simpa [hx] using h)
      refine ⟨p, g, m ++ [x], by simp, hg, fun y hy => ?_⟩
      rcases List.mem_append.mp hy with hy | hy
      · exact hm y hy
      · rw [List.mem_singleton.mp hy]
        exact hx

/-! ### Threads -/

/-- A call in progress: what it has done so far, and what is left to do. -/
structure Call (σ : Type) (R : Q → Type) (ε α Ω : Type) where
  op : Ω
  done : List (σ × Q)
  rest : Prog R ε α

/-- Threads over a store. A thread is idle or in a call. -/
structure Pool (ι σ : Type) (R : Q → Type) (ε α Ω : Type) where
  state : σ
  calls : ι → Option (Call σ R ε α Ω)

namespace Pool

/-- What happens in a step: a thread starts a call, issues a query in a state, or returns. -/
inductive Label (ι σ Q ε α Ω : Type) where
  | start (i : ι) (op : Ω)
  | access (i : ι) (s : σ) (q : Q)
  | finish (i : ι) (op : Ω) (result : Except ε α)

variable [DecidableEq ι] (exec : (q : Q) → σ → R q × σ) (prog : Ω → Prog R ε α)

/-- One step of one thread. -/
inductive Step : Pool ι σ R ε α Ω → Label ι σ Q ε α Ω → Pool ι σ R ε α Ω → Prop
  | start {c : Pool ι σ R ε α Ω} {i : ι} (op : Ω) : c.calls i = none →
      Step c (.start i op) { c with calls := Function.update c.calls i (some ⟨op, [], prog op⟩) }
  | access {c : Pool ι σ R ε α Ω} {i : ι} {op : Ω} {done : List (σ × Q)} {q : Q}
      {k : R q → Prog R ε α} : c.calls i = some ⟨op, done, .call q k⟩ →
      Step c (.access i c.state q)
        { state := (exec q c.state).2
          calls := Function.update c.calls i
            (some ⟨op, done ++ [(c.state, q)], k (exec q c.state).1⟩) }
  | ret {c : Pool ι σ R ε α Ω} {i : ι} {op : Ω} {done : List (σ × Q)} {a : α} :
      c.calls i = some ⟨op, done, .ret a⟩ →
      Step c (.finish i op (.ok a)) { c with calls := Function.update c.calls i none }
  | fail {c : Pool ι σ R ε α Ω} {i : ι} {op : Ω} {done : List (σ × Q)} {e : ε} :
      c.calls i = some ⟨op, done, .fail e⟩ →
      Step c (.finish i op (.error e)) { c with calls := Function.update c.calls i none }

/-- Runs from a state in which all threads are idle, with their log. `C` says which steps are allowed
after which log. -/
inductive Run (s₀ : σ)
    (C : List (Label ι σ Q ε α Ω) → Pool ι σ R ε α Ω → Label ι σ Q ε α Ω → Prop) :
    List (Label ι σ Q ε α Ω) → Pool ι σ R ε α Ω → Prop
  | nil : Run s₀ C [] ⟨s₀, fun _ => none⟩
  | snoc {log : List (Label ι σ Q ε α Ω)} {c c' : Pool ι σ R ε α Ω} {l : Label ι σ Q ε α Ω} :
      Run s₀ C log c → Step exec prog c l c' → C log c l → Run s₀ C (log ++ [l]) c'

variable {exec prog} {s₀ : σ}
  {C : List (Label ι σ Q ε α Ω) → Pool ι σ R ε α Ω → Label ι σ Q ε α Ω → Prop}
  {log : List (Label ι σ Q ε α Ω)} {c : Pool ι σ R ε α Ω}

/-- The calls after a step: those of the other threads are the same. -/
theorem Step.calls {c' : Pool ι σ R ε α Ω} {l : Label ι σ Q ε α Ω} (h : Step exec prog c l c')
    {i : ι} {call : Call σ R ε α Ω} (hcall : c'.calls i = some call) :
    (c.calls i = some call ∧ ∀ op r, l ≠ .finish i op r) ∨
      (∃ op, call = ⟨op, [], prog op⟩ ∧ l = .start i op) ∨
      ∃ op done q, ∃ k : R q → Prog R ε α, c.calls i = some ⟨op, done, .call q k⟩ ∧
        call = ⟨op, done ++ [(c.state, q)], k (exec q c.state).1⟩ ∧ l = .access i c.state q := by
  have hupdate : ∀ {j : ι} {x : Option (Call σ R ε α Ω)},
      Function.update c.calls j x i = some call →
      (c.calls i = some call ∧ j ≠ i) ∨ j = i ∧ x = some call := by
    intro j x hx
    by_cases hij : i = j
    · subst hij
      rw [Function.update_self] at hx
      exact .inr ⟨rfl, hx⟩
    · rw [Function.update_of_ne hij] at hx
      exact .inl ⟨hx, Ne.symm hij⟩
  cases h with
  | start op hidle =>
    rcases hupdate hcall with ⟨hold, -⟩ | ⟨rfl, hnew⟩
    · exact .inl ⟨hold, by simp⟩
    · exact .inr (.inl ⟨op, (Option.some.inj hnew).symm, rfl⟩)
  | access hbusy =>
    rcases hupdate hcall with ⟨hold, -⟩ | ⟨rfl, hnew⟩
    · exact .inl ⟨hold, by simp⟩
    · exact .inr (.inr ⟨_, _, _, _, hbusy, (Option.some.inj hnew).symm, rfl⟩)
  | ret hbusy =>
    rcases hupdate hcall with ⟨hold, hne⟩ | ⟨-, hnew⟩
    · exact .inl ⟨hold, by simp [hne]⟩
    · cases hnew
  | fail hbusy =>
    rcases hupdate hcall with ⟨hold, hne⟩ | ⟨-, hnew⟩
    · exact .inl ⟨hold, by simp [hne]⟩
    · cases hnew

/-- A thread that is in a call has started it. -/
theorem Run.started (h : Run exec prog s₀ C log c) {i : ι} {call : Call σ R ε α Ω}
    (hcall : c.calls i = some call) : .start i call.op ∈ log := by
  induction h generalizing call with
  | nil => cases hcall
  | snoc _ hstep _ ih =>
    rcases hstep.calls hcall with ⟨hold, -⟩ | ⟨op, rfl, rfl⟩ | ⟨op, done, q, k, hold, rfl, -⟩
    · exact List.mem_append_left _ (ih hold)
    · exact List.mem_append_right _ (List.mem_singleton_self _)
    · have hmem := ih hold
      exact List.mem_append_left _ hmem

/-- A call that is about to issue a query issues it, or stays as it is. -/
theorem Step.of_call {c' : Pool ι σ R ε α Ω} {l : Label ι σ Q ε α Ω} (h : Step exec prog c l c')
    {i : ι} {call : Call σ R ε α Ω} {q : Q} {k : R q → Prog R ε α} (hcall : c.calls i = some call)
    (hrest : call.rest = .call q k) : c'.calls i = some call ∨ l = .access i c.state q := by
  have hne : ∀ {i' : ι} {x : Option (Call σ R ε α Ω)}, i ≠ i' →
      Function.update c.calls i' x i = some call := fun hi => (Function.update_of_ne hi _ _).trans hcall
  cases h with
  | @start i' op hidle =>
    refine .inl (hne ?_)
    rintro rfl
    rw [hcall] at hidle
    cases hidle
  | @access i' op done q' k' hbusy =>
    by_cases hi : i = i'
    · subst hi
      obtain rfl := Option.some.inj (hcall.symm.trans hbusy)
      cases hrest
      exact .inr rfl
    · exact .inl (hne hi)
  | @ret i' op done a hbusy =>
    refine .inl (hne ?_)
    rintro rfl
    obtain rfl := Option.some.inj (hcall.symm.trans hbusy)
    cases hrest
  | @fail i' op done e hbusy =>
    refine .inl (hne ?_)
    rintro rfl
    obtain rfl := Option.some.inj (hcall.symm.trans hbusy)
    cases hrest

theorem Run.reaches (h : Run exec prog s₀ C log c) {i : ι} {call : Call σ R ε α Ω}
    (hcall : c.calls i = some call) : (prog call.op).Reaches exec call.done call.rest := by
  induction h generalizing call with
  | nil => cases hcall
  | snoc _ hstep _ ih =>
    rcases hstep.calls hcall with ⟨hold, -⟩ | ⟨op, rfl, -⟩ | ⟨op, done, q, k, hold, rfl, -⟩
    · exact ih hold
    · exact Prog.reaches_refl _
    · exact (ih hold).snoc _

/-- The queries of a call are in the log, since the call has started. -/
theorem Run.since_start (h : Run exec prog s₀ C log c) {i : ι} {call : Call σ R ε α Ω}
    (hcall : c.calls i = some call) :
    ∃ pre post, log = pre ++ .start i call.op :: post ∧ (∀ op r, .finish i op r ∉ post) ∧
      ∀ x ∈ call.done, .access i x.1 x.2 ∈ post := by
  induction h generalizing call with
  | nil => cases hcall
  | snoc _ hstep _ ih =>
    rcases hstep.calls hcall with ⟨hold, hne⟩ | ⟨op, rfl, rfl⟩ | ⟨op, done, q, k, hold, rfl, rfl⟩
    · obtain ⟨pre, post, rfl, hfinish, hdone⟩ := ih hold
      refine ⟨pre, post ++ [_], List.append_assoc _ _ _, fun op r hmem => ?_, fun x hx => ?_⟩
      · rcases List.mem_append.mp hmem with hmem | hmem
        · exact hfinish op r hmem
        · exact hne op r (List.mem_singleton.mp hmem).symm
      · exact List.mem_append_left _ (hdone x hx)
    · exact ⟨_, [], rfl, by simp, by simp⟩
    · obtain ⟨pre, post, rfl, hfinish, hdone⟩ := ih hold
      refine ⟨pre, post ++ [_], List.append_assoc _ _ _, fun op r hmem => ?_, fun x hx => ?_⟩
      · rcases List.mem_append.mp hmem with hmem | hmem
        · exact hfinish op r hmem
        · cases List.mem_singleton.mp hmem
      · rcases List.mem_append.mp hx with hx | hx
        · exact List.mem_append_left _ (hdone x hx)
        · rw [List.mem_singleton.mp hx]
          exact List.mem_append_right _ (List.mem_singleton_self _)

theorem Run.mono {C' : List (Label ι σ Q ε α Ω) → Pool ι σ R ε α Ω → Label ι σ Q ε α Ω → Prop}
    (hC : ∀ log c l, C log c l → C' log c l) (h : Run exec prog s₀ C log c) :
    Run exec prog s₀ C' log c := by
  induction h with
  | nil => exact .nil
  | snoc _ hstep hallowed ih => exact .snoc ih hstep (hC _ _ _ hallowed)

/-- The call that a thread has started and not finished, with its queries. -/
theorem Run.call_of_start {pre b : List (Label ι σ Q ε α Ω)} {i : ι} {op : Ω}
    (h : Run exec prog s₀ C (pre ++ .start i op :: b) c) (hb : ∀ op r, .finish i op r ∉ b) :
    ∃ call, c.calls i = some call ∧ call.op = op ∧ ∀ x ∈ call.done, .access i x.1 x.2 ∈ b := by
  generalize hlog : pre ++ .start i op :: b = log at h
  induction h generalizing b with
  | nil => simp at hlog
  | @snoc log c c' l hrun hstep hC ih =>
    rcases snoc_eq_append_cons hlog.symm with ⟨rfl, rfl, rfl⟩ | ⟨b', rfl, rfl⟩
    · cases hstep
      exact ⟨_, Function.update_self .., rfl, by simp⟩
    · obtain ⟨call, hcall, rfl, hdone⟩ :=
        ih (fun op r hmem => hb op r (List.mem_append_left _ hmem)) rfl
      have hlast : ∀ op r, l ≠ .finish i op r := fun op r hl =>
        hb op r (hl ▸ List.mem_append_right _ (List.mem_singleton_self _))
      have hold : ∀ x ∈ call.done, .access i x.1 x.2 ∈ b' ++ [l] :=
        fun x hx => List.mem_append_left _ (hdone x hx)
      cases hstep with
      | @start i' op' hidle =>
        have hne : i ≠ i' := by
          rintro rfl
          rw [hcall] at hidle
          cases hidle
        exact ⟨call, (Function.update_of_ne hne _ _).trans hcall, rfl, hold⟩
      | @access i' op' done q k hbusy =>
        by_cases hi : i = i'
        · subst hi
          obtain rfl := Option.some.inj (hcall.symm.trans hbusy)
          refine ⟨_, Function.update_self .., rfl, fun x hx => ?_⟩
          rcases List.mem_append.mp hx with hx | hx
          · exact hold x hx
          · rw [List.mem_singleton.mp hx]
            exact List.mem_append_right _ (List.mem_singleton_self _)
        · exact ⟨call, (Function.update_of_ne hi _ _).trans hcall, rfl, hold⟩
      | @ret i' op' done a hbusy =>
        have hne : i ≠ i' := by
          rintro rfl
          exact hlast _ _ rfl
        exact ⟨call, (Function.update_of_ne hne _ _).trans hcall, rfl, hold⟩
      | @fail i' op' done e hbusy =>
        have hne : i ≠ i' := by
          rintro rfl
          exact hlast _ _ rfl
        exact ⟨call, (Function.update_of_ne hne _ _).trans hcall, rfl, hold⟩

/-- What holds before an entry of the log. -/
theorem Run.split {h₁ h₂ : List (Label ι σ Q ε α Ω)} {l : Label ι σ Q ε α Ω}
    (h : Run exec prog s₀ C (h₁ ++ l :: h₂) c) :
    ∃ c₁ c₂, Run exec prog s₀ C h₁ c₁ ∧ Step exec prog c₁ l c₂ ∧ C h₁ c₁ l := by
  generalize hlog : h₁ ++ l :: h₂ = log at h
  induction h generalizing h₂ with
  | nil => simp at hlog
  | snoc hrun hstep hC ih =>
    rcases List.eq_nil_or_concat h₂ with rfl | ⟨h₂, x, rfl⟩
    · obtain ⟨rfl, heq⟩ := List.append_inj' hlog rfl
      rw [List.singleton_inj.mp heq]
      exact ⟨_, _, hrun, hstep, hC⟩
    · rw [List.concat_eq_append, ← List.cons_append, ← List.append_assoc] at hlog
      exact ih (List.append_inj' hlog rfl).1

/-- A step is determined by its label. -/
theorem Step.unique {c₁ c₂ : Pool ι σ R ε α Ω} {l : Label ι σ Q ε α Ω} (h₁ : Step exec prog c l c₁)
    (h₂ : Step exec prog c l c₂) : c₁ = c₂ := by
  cases h₁ with
  | start => cases h₂; rfl
  | ret => cases h₂; rfl
  | fail => cases h₂; rfl
  | access hbusy =>
    cases h₂ with
    | access hbusy' =>
      cases hbusy.symm.trans hbusy'
      rfl

/-- A run is determined by its log. -/
theorem Run.unique {C' : List (Label ι σ Q ε α Ω) → Pool ι σ R ε α Ω → Label ι σ Q ε α Ω → Prop}
    {c' : Pool ι σ R ε α Ω} (h : Run exec prog s₀ C log c) (h' : Run exec prog s₀ C' log c') :
    c = c' := by
  induction h generalizing c' with
  | nil =>
    generalize hlog : ([] : List (Label ι σ Q ε α Ω)) = log at h'
    cases h' with
    | nil => rfl
    | snoc => simp at hlog
  | @snoc log c c₁ l hrun hstep hC ih =>
    generalize hlog : log ++ [l] = log' at h'
    cases h' with
    | nil => simp at hlog
    | snoc hrun' hstep' hC' =>
      obtain ⟨rfl, hl⟩ := List.append_inj' hlog rfl
      obtain rfl := List.singleton_inj.mp hl
      obtain rfl := ih hrun'
      exact hstep.unique hstep'

theorem Run.and {C' : List (Label ι σ Q ε α Ω) → Pool ι σ R ε α Ω → Label ι σ Q ε α Ω → Prop}
    (h : Run exec prog s₀ C log c) (h' : Run exec prog s₀ C' log c) :
    Run exec prog s₀ (fun log c l => C log c l ∧ C' log c l) log c := by
  induction h with
  | nil => exact .nil
  | @snoc log c c₁ l hrun hstep hC ih =>
    generalize hlog : log ++ [l] = log' at h'
    cases h' with
    | nil => simp at hlog
    | snoc hrun' hstep' hC' =>
      obtain ⟨rfl, hl⟩ := List.append_inj' hlog rfl
      obtain rfl := List.singleton_inj.mp hl
      obtain rfl := hrun.unique hrun'
      exact .snoc (ih hrun') hstep ⟨hC, hC'⟩

/-- A run up to a part of its log. -/
theorem Run.take {h₁ h₂ : List (Label ι σ Q ε α Ω)} (h : Run exec prog s₀ C (h₁ ++ h₂) c) :
    ∃ c₁, Run exec prog s₀ C h₁ c₁ := by
  cases h₂ with
  | nil => exact ⟨c, by rwa [List.append_nil] at h⟩
  | cons l h₂ =>
    obtain ⟨c₁, -, hrun, -⟩ := h.split
    exact ⟨c₁, hrun⟩

/-- A state in which a call has issued a query is one that the run has been in. -/
theorem Run.of_done (h : Run exec prog s₀ C log c) {i : ι} {call : Call σ R ε α Ω}
    (hcall : c.calls i = some call) {x : σ × Q} (hx : x ∈ call.done) :
    ∃ pre post c₁, log = pre ++ post ∧ Run exec prog s₀ C pre c₁ ∧ c₁.state = x.1 := by
  obtain ⟨s, q⟩ := x
  obtain ⟨pre, post, rfl, -, hdone⟩ := h.since_start hcall
  obtain ⟨u, v, rfl⟩ := List.append_of_mem (hdone _ hx)
  rw [← List.cons_append, ← List.append_assoc] at h
  obtain ⟨c₁, c₂, hrun, hstep, -⟩ := h.split
  refine ⟨_, _, c₁, by rw [← List.cons_append, ← List.append_assoc], hrun, ?_⟩
  cases hstep
  rfl

/-- The queries of a call that has returned are in the log before its end. -/
theorem Run.of_finish {pre post : List (Label ι σ Q ε α Ω)} {i : ι} {op : Ω} {a : α}
    (h : Run exec prog s₀ C (pre ++ .finish i op (.ok a) :: post) c) :
    ∃ done b p, (prog op).Reaches exec done (.ret a) ∧ pre = p ++ .start i op :: b ∧
      (∀ op' r, .finish i op' r ∉ b) ∧ ∀ x ∈ done, .access i x.1 x.2 ∈ b := by
  obtain ⟨c₁, c₂, hrun, hstep, -⟩ := h.split
  cases hstep with
  | ret hbusy =>
    obtain ⟨p, b, hpre, hfinish, hdone⟩ := hrun.since_start hbusy
    exact ⟨_, b, p, hrun.reaches hbusy, hpre, hfinish, hdone⟩

/-- The queries of two calls that have returned are different entries of the log. -/
theorem Run.of_two_finishes {pre mid post : List (Label ι σ Q ε α Ω)} {i₁ i₂ : ι} {op₁ op₂ : Ω}
    {a₁ a₂ : α} (h : Run exec prog s₀ C
      (pre ++ .finish i₁ op₁ (.ok a₁) :: (mid ++ .finish i₂ op₂ (.ok a₂) :: post)) c) :
    ∃ done₁ done₂, (prog op₁).Reaches exec done₁ (.ret a₁) ∧
      (prog op₂).Reaches exec done₂ (.ret a₂) ∧
      ∀ x ∈ done₁, ∀ y ∈ done₂,
        Before (pre ++ .finish i₁ op₁ (.ok a₁) :: mid) (.access i₁ x.1 x.2) (.access i₂ y.1 y.2) ∨
        Before (pre ++ .finish i₁ op₁ (.ok a₁) :: mid) (.access i₂ y.1 y.2) (.access i₁ x.1 x.2) := by
  obtain ⟨done₁, b₁, p₁, hreach₁, hpre, -, hdone₁⟩ := h.of_finish
  rw [← List.cons_append, ← List.append_assoc] at h
  obtain ⟨done₂, b₂, p₂, hreach₂, hlog, hfinish₂, hdone₂⟩ := h.of_finish
  refine ⟨done₁, done₂, hreach₁, hreach₂, fun x hx y hy => ?_⟩
  have hx' : .access i₁ x.1 x.2 ∈ pre := by
    rw [hpre]
    exact List.mem_append_right _ (List.mem_cons_of_mem _ (hdone₁ x hx))
  by_cases hi : i₁ = i₂
  · -- a thread starts its second call after the end of the first
    subst hi
    have hy' := suffix_of_not_mem hlog (by simp) (hfinish₂ _ _) _ (hdone₂ y hy)
    exact .inl (before_append hx' (List.mem_cons_of_mem _ hy'))
  · refine before_or_before (by simp [hi]) (List.mem_append_left _ hx') ?_
    rw [hlog]
    exact List.mem_append_right _ (List.mem_cons_of_mem _ (hdone₂ y hy))

/-! ### Schedules -/

variable (exec prog)

/-- The next step of a thread: it starts a call if it is idle, and goes on otherwise. -/
def next (c : Pool ι σ R ε α Ω) (i : ι) (op : Ω) : Label ι σ Q ε α Ω × Pool ι σ R ε α Ω :=
  match c.calls i with
  | none =>
    (.start i op, { c with calls := Function.update c.calls i (some ⟨op, [], prog op⟩) })
  | some ⟨op', done, .call q k⟩ =>
    (.access i c.state q,
      { state := (exec q c.state).2
        calls := Function.update c.calls i
          (some ⟨op', done ++ [(c.state, q)], k (exec q c.state).1⟩) })
  | some ⟨op', _, .ret a⟩ =>
    (.finish i op' (.ok a), { c with calls := Function.update c.calls i none })
  | some ⟨op', _, .fail e⟩ =>
    (.finish i op' (.error e), { c with calls := Function.update c.calls i none })

/-- The run in which the threads take steps in a given order. -/
def play (s₀ : σ) : List (ι × Ω) → List (Label ι σ Q ε α Ω) × Pool ι σ R ε α Ω :=
  List.foldl (fun x y => (x.1 ++ [(next exec prog x.2 y.1 y.2).1], (next exec prog x.2 y.1 y.2).2))
    ([], ⟨s₀, fun _ => none⟩)

/-- All steps of a schedule pass a test. -/
def passes (test : Pool ι σ R ε α Ω → Label ι σ Q ε α Ω → Bool) (s₀ : σ) (schedule : List (ι × Ω)) :
    Bool :=
  (schedule.foldl (fun x y => (x.1 && test x.2 (next exec prog x.2 y.1 y.2).1,
    (next exec prog x.2 y.1 y.2).2)) (true, ⟨s₀, fun _ => none⟩)).1

variable {exec prog}

theorem play_snoc (schedule : List (ι × Ω)) (x : ι × Ω) :
    (play exec prog s₀ (schedule ++ [x])).1 = (play exec prog s₀ schedule).1 ++
      [(next exec prog (play exec prog s₀ schedule).2 x.1 x.2).1] := by
  rw [play, List.foldl_append]
  rfl

theorem step_next (c : Pool ι σ R ε α Ω) (i : ι) (op : Ω) :
    Step exec prog c (next exec prog c i op).1 (next exec prog c i op).2 := by
  unfold next
  split
  next hidle => exact .start op hidle
  next hbusy => exact .access hbusy
  next hbusy => exact .ret hbusy
  next hbusy => exact .fail hbusy

theorem run_of_passes {test : Pool ι σ R ε α Ω → Label ι σ Q ε α Ω → Bool}
    (htest : ∀ log c l, test c l → C log c l) {schedule : List (ι × Ω)}
    (h : passes exec prog test s₀ schedule) :
    Run exec prog s₀ C (play exec prog s₀ schedule).1 (play exec prog s₀ schedule).2 := by
  -- the test follows the same pools
  have hpool : ∀ schedule : List (ι × Ω),
      (schedule.foldl (fun x y => (x.1 && test x.2 (next exec prog x.2 y.1 y.2).1,
        (next exec prog x.2 y.1 y.2).2)) (true, ⟨s₀, fun _ => none⟩)).2 =
      (play exec prog s₀ schedule).2 := by
    intro schedule
    induction schedule using List.reverseRecOn with
    | nil => rfl
    | append_singleton schedule x ih =>
      rw [play, List.foldl_append, List.foldl_append]
      simp only [List.foldl_cons, List.foldl_nil]
      rw [ih]
      rfl
  induction schedule using List.reverseRecOn with
  | nil => exact .nil
  | append_singleton schedule x ih =>
    rw [passes, List.foldl_append] at h
    simp only [List.foldl_cons, List.foldl_nil, Bool.and_eq_true, hpool] at h
    rw [play, List.foldl_append]
    exact .snoc (ih h.1) (step_next _ _ _) (htest _ _ _ h.2)

theorem run_play (schedule : List (ι × Ω)) :
    Run exec prog s₀ (fun _ _ _ => True) (play exec prog s₀ schedule).1
      (play exec prog s₀ schedule).2 := by
  induction schedule using List.reverseRecOn with
  | nil => exact .nil
  | append_singleton schedule x ih =>
    rw [play, List.foldl_append]
    exact .snoc ih (step_next _ _ _) trivial

/-- A run whose steps satisfy a condition on the log before them. -/
theorem Run.of_forall {D : List (Label ι σ Q ε α Ω) → Label ι σ Q ε α Ω → Prop}
    (h : Run exec prog s₀ C log c) (hD : ∀ n l, log[n]? = some l → D (log.take n) l) :
    Run exec prog s₀ (fun log _ l => D log l) log c := by
  induction h with
  | nil => exact .nil
  | @snoc log c c' l _ hstep _ ih =>
    refine .snoc (ih fun n l' hn => ?_) hstep ?_
    · have hlt : n < log.length := (List.getElem?_eq_some_iff.mp hn).1
      have hD' := hD n l' ((List.getElem?_append_left hlt).trans hn)
      rwa [List.take_append_of_le_length (Nat.le_of_lt hlt)] at hD'
    · have hD' := hD log.length l (by simp)
      rwa [List.take_left] at hD'

/-- Every entry of a log passes a test on the log before it. -/
def passesAt {α : Type} (test : List α → α → Bool) (log : List α) : Bool :=
  (List.range log.length).all fun n => (log[n]?).all (test (log.take n))

theorem Run.of_passesAt {test : List (Label ι σ Q ε α Ω) → Label ι σ Q ε α Ω → Bool}
    (h : Run exec prog s₀ C log c) (hpasses : passesAt test log) :
    Run exec prog s₀ (fun log _ l => test log l) log c := by
  refine h.of_forall fun n l hn => ?_
  have hlt : n < log.length := (List.getElem?_eq_some_iff.mp hn).1
  have htest := List.all_eq_true.mp hpasses n (List.mem_range.mpr hlt)
  rwa [hn, Option.all_some] at htest

end Pool

end Store
