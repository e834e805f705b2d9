import Mathlib.Tactic.Common

/-!
# Inversion of fallible computations

From a sequence of fallible steps that returned normally, the values of its steps.

## Main results

* `bind_eq_ok`, `mapM_eq_ok`: the steps of a computation that succeeded
* `run_bind_eq_ok`: the same with a state
-/

namespace Result

universe u v

variable {ε : Type u} {α β : Type v}

theorem bind_eq_ok {x : Except ε α} {f : α → Except ε β} {b : β} :
    (x >>= f) = .ok b ↔ ∃ a, x = .ok a ∧ f a = .ok b := by
  cases x with
  | error e =>
    constructor
    · intro h
      cases h
    · rintro ⟨_, h, -⟩
      cases h
  | ok a =>
    constructor
    · exact fun h => ⟨a, rfl, h⟩
    · rintro ⟨_, h, h'⟩
      cases h
      exact h'

theorem map_eq_ok_iff {x : Except ε α} {f : α → β} (hf : f.Injective) {a : α} :
    f <$> x = .ok (f a) ↔ x = .ok a := by
  cases x with
  | error e => simp [Functor.map, Except.map]
  | ok b => simp [Functor.map, Except.map, hf.eq_iff]

theorem pure_eq_ok {a b : α} : (pure a : Except ε α) = .ok b ↔ a = b :=
  Except.ok.injEq a b ▸ Iff.rfl

/-- Every result of a traversal that succeeded comes from an entry. -/
theorem mapM_eq_ok {f : α → Except ε β} {l : List α} {r : List β} (h : l.mapM f = .ok r) :
    ∀ b ∈ r, ∃ a ∈ l, f a = .ok b := by
  induction l generalizing r with
  | nil =>
    rw [List.mapM_nil, pure_eq_ok] at h
    simp [← h]
  | cons a l ih =>
    rw [List.mapM_cons, bind_eq_ok] at h
    obtain ⟨b, hb, h⟩ := h
    obtain ⟨bs, hbs, h⟩ := bind_eq_ok.mp h
    rw [pure_eq_ok] at h
    subst h
    intro c hc
    rcases List.mem_cons.mp hc with rfl | hc
    · exact ⟨a, List.mem_cons_self, hb⟩
    · obtain ⟨a', ha', h'⟩ := ih hbs c hc
      exact ⟨a', List.mem_cons_of_mem _ ha', h'⟩

section Stateful

variable {σ ε : Type u} {α β : Type u}

/-- The steps of a stateful computation that returned normally. A failing step keeps its state. -/
theorem run_bind_eq_ok {x : EStateM ε σ α} {f : α → EStateM ε σ β} {s s' : σ} {b : β} :
    (x >>= f).run s = .ok b s' ↔ ∃ a t, x.run s = .ok a t ∧ (f a).run t = .ok b s' := by
  rw [EStateM.run_bind]
  cases x.run s with
  | error e t =>
    constructor
    · intro h
      cases h
    · rintro ⟨_, _, h, -⟩
      cases h
  | ok a t =>
    constructor
    · exact fun h => ⟨a, t, rfl, h⟩
    · rintro ⟨_, _, h, h'⟩
      cases h
      exact h'

theorem run_bind_of_ok {x : EStateM ε σ α} {f : α → EStateM ε σ β} {s t : σ} {a : α}
    (h : x.run s = .ok a t) : (x >>= f).run s = (f a).run t := by
  rw [EStateM.run_bind, h]

theorem run_pure_eq_ok {a b : α} {s s' : σ} :
    (pure a : EStateM ε σ α).run s = .ok b s' ↔ a = b ∧ s = s' := by
  rw [EStateM.run_pure, EStateM.Result.ok.injEq]

theorem run_ofExcept_eq_ok {x : Except ε α} {a : α} {s s' : σ} :
    (ofExcept x : EStateM ε σ α).run s = .ok a s' ↔ x = .ok a ∧ s = s' := by
  cases x with
  | error e =>
    constructor
    · intro h
      cases h
    · rintro ⟨h, -⟩
      cases h
  | ok b =>
    show EStateM.Result.ok b s = .ok a s' ↔ _
    rw [EStateM.Result.ok.injEq, Except.ok.injEq]

theorem run_adaptExcept_eq_ok {ε' : Type u} {f : ε → ε'} {x : EStateM ε σ α} {a : α} {s s' : σ} :
    (x.adaptExcept f).run s = .ok a s' ↔ x.run s = .ok a s' := by
  rw [EStateM.run_adaptExcept]
  cases x.run s with
  | error e t => simp
  | ok b t => simp

/-- The answer of a stateful computation, beside the state it left. -/
def settle : EStateM.Result ε σ α → Except ε α × σ
  | .ok a s => (.ok a, s)
  | .error e s => (.error e, s)

end Stateful

end Result
