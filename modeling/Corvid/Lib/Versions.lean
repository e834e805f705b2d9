import Corvid.Lib.Pool
import Mathlib.Algebra.Order.Group.Nat

/-!
# Versioned cells

A cell holds a record, or nothing, and records carry revision numbers. As long as every record that
is put into the cell has a higher revision than all before it, a revision number tells the records of
the cell apart, whoever has read them and when.

## Main definitions

* `Climbs`: the contents of a cell over time
* `Pool.states`: the states that a run goes through

## Main results

* `Climbs.unique`: no two records have the same revision
* `Pool.Run.climbs`: the contents of a cell over a run
-/

namespace Store

/-! ### Contents of a cell -/

section Climbs

variable {ρ : Type} {revision : ρ → ℕ} {l : List (Option ρ)} {o : Option ρ} {r r' : ρ}

/-- Each entry is the one before, or nothing, or a record with a revision above those of all records
before it. -/
inductive Climbs (revision : ρ → ℕ) : List (Option ρ) → Prop
  | single (o : Option ρ) : Climbs revision [o]
  | keep {l : List (Option ρ)} {o : Option ρ} : Climbs revision (l ++ [o]) →
      Climbs revision (l ++ [o] ++ [o])
  | remove {l : List (Option ρ)} : Climbs revision l → Climbs revision (l ++ [none])
  | put {l : List (Option ρ)} (r : ρ) : Climbs revision l →
      (∀ r', some r' ∈ l → revision r' < revision r) → Climbs revision (l ++ [some r])

theorem Climbs.ne_nil (h : Climbs revision l) : l ≠ [] := by
  cases h <;> simp

/-- The record in the cell has the highest revision. -/
theorem Climbs.le (h : Climbs revision (l ++ [some r])) (hr' : some r' ∈ l ++ [some r]) :
    revision r' ≤ revision r := by
  generalize hm : l ++ [some r] = m at h hr'
  induction h generalizing l with
  | single o =>
    obtain ⟨-, heq⟩ := List.append_inj' (hm.trans (List.nil_append [o]).symm) rfl
    obtain rfl := List.singleton_inj.mp heq
    obtain rfl := Option.some.inj (List.mem_singleton.mp hr')
    exact le_rfl
  | @keep l' o h ih =>
    obtain ⟨rfl, heq⟩ := List.append_inj' hm rfl
    obtain rfl := List.singleton_inj.mp heq
    exact ih rfl (by simpa using hr')
  | remove h ih =>
    obtain ⟨-, heq⟩ := List.append_inj' hm rfl
    cases heq
  | put r₁ h hlt ih =>
    obtain ⟨rfl, heq⟩ := List.append_inj' hm rfl
    cases heq
    rcases List.mem_append.mp hr' with hr' | hr'
    · exact (hlt r' hr').le
    · obtain rfl := Option.some.inj (List.mem_singleton.mp hr')
      exact le_rfl

/-- A revision number stands for one record. -/
theorem Climbs.unique (h : Climbs revision l) (hr : some r ∈ l) (hr' : some r' ∈ l)
    (heq : revision r = revision r') : r = r' := by
  induction h generalizing r r' with
  | single o =>
    rw [List.mem_singleton] at hr hr'
    exact Option.some.inj (hr.trans hr'.symm)
  | keep h ih => exact ih (by simpa using hr) (by simpa using hr') heq
  | remove h ih => exact ih (by simpa using hr) (by simpa using hr') heq
  | put r₁ h hlt ih =>
    simp only [List.mem_append, List.mem_singleton, Option.some.injEq] at hr hr'
    rcases hr with hr | rfl <;> rcases hr' with hr' | rfl
    · exact ih hr hr' heq
    · exact absurd heq (hlt r hr).ne
    · exact absurd heq.symm (hlt r' hr').ne
    · rfl

end Climbs

/-! ### Cells of a store -/

namespace Pool

variable {Q : Type} {R : Q → Type} {ε α ι σ Ω : Type}

def Label.accessed? : Label ι σ Q ε α Ω → Option σ
  | access _ s _ => some s
  | _ => none

/-- The states in which queries have been issued. -/
def accessed (log : List (Label ι σ Q ε α Ω)) : List σ := log.filterMap Label.accessed?

/-- The states that a run has gone through. -/
def states (log : List (Label ι σ Q ε α Ω)) (c : Pool ι σ R ε α Ω) : List σ :=
  accessed log ++ [c.state]

variable {exec : (q : Q) → σ → R q × σ} {prog : Ω → Prog R ε α} {s₀ : σ}
  {C : List (Label ι σ Q ε α Ω) → Pool ι σ R ε α Ω → Label ι σ Q ε α Ω → Prop}
  {log : List (Label ι σ Q ε α Ω)} {c c' : Pool ι σ R ε α Ω} {l : Label ι σ Q ε α Ω}

theorem accessed_snoc (log : List (Label ι σ Q ε α Ω)) (l : Label ι σ Q ε α Ω) :
    accessed (log ++ [l]) = accessed log ++ l.accessed?.toList := by
  rw [accessed, List.filterMap_append]
  cases l <;> rfl

variable [DecidableEq ι]

/-- A step that is no query does not change the states. -/
theorem Step.states (log : List (Label ι σ Q ε α Ω)) (h : Step exec prog c l c') :
    (∃ i q, l = .access i c.state q ∧
        states (log ++ [l]) c' = states log c ++ [(exec q c.state).2]) ∨
      states (log ++ [l]) c' = states log c := by
  unfold Pool.states
  rw [accessed_snoc]
  cases h with
  | access hbusy => exact .inl ⟨_, _, rfl, rfl⟩
  | start op hidle => exact .inr (by simp [Label.accessed?])
  | ret hbusy => exact .inr (by simp [Label.accessed?])
  | fail hbusy => exact .inr (by simp [Label.accessed?])

/-- The states before and after a query are states of the run. -/
theorem Run.mem_states (h : Run exec prog s₀ C log c) {i : ι} {s : σ} {q : Q}
    (hmem : .access i s q ∈ log) : s ∈ states log c ∧ (exec q s).2 ∈ states log c := by
  induction h with
  | nil => cases hmem
  | @snoc log c c' l _ hstep _ ih =>
    have hlast : c.state ∈ states log c := List.mem_append_right _ (List.mem_singleton_self _)
    rcases hstep.states log with ⟨j, q', rfl, hstates⟩ | hstates
    · rw [hstates]
      rcases List.mem_append.mp hmem with hmem | hmem
      · exact ⟨List.mem_append_left _ (ih hmem).1, List.mem_append_left _ (ih hmem).2⟩
      · obtain ⟨rfl, rfl, rfl⟩ : i = j ∧ s = c.state ∧ q = q' := by simpa using hmem
        exact ⟨List.mem_append_left _ hlast,
          List.mem_append_right _ (List.mem_singleton_self _)⟩
    · rw [hstates]
      rcases List.mem_append.mp hmem with hmem | hmem
      · exact ih hmem
      · obtain rfl := List.mem_singleton.mp hmem
        -- a query adds a state
        cases hstep
        have := congrArg List.length hstates
        simp [states, accessed_snoc, Label.accessed?] at this

/-- When every query that a program can issue keeps the order of revisions, the contents of a cell
over a run keep it. -/
theorem Run.climbs {ρ : Type} {revision : ρ → ℕ} {cell : σ → Option ρ} {P : Q → Prop}
    (hP : ∀ op, (prog op).All P)
    (hC : ∀ log c i s q, C log c (.access i s q) → P q →
      Climbs revision ((accessed log ++ [s]).map cell) →
      Climbs revision ((accessed log ++ [s] ++ [(exec q s).2]).map cell))
    (h : Run exec prog s₀ C log c) : Climbs revision ((states log c).map cell) := by
  induction h with
  | nil => exact .single _
  | @snoc log c c' l hrun hstep hallowed ih =>
    rcases hstep.states log with ⟨i, q, rfl, hstates⟩ | hstates
    · rw [hstates]
      refine hC _ _ _ _ _ hallowed ?_ ih
      cases hstep with
      | access hbusy => exact ((hrun.reaches hbusy).all (hP _)).1
    · rw [hstates]
      exact ih

end Pool

end Store
