import Mathlib.Data.Set.Finite.Basic
import Mathlib.Order.WellFounded
import Mathlib.Data.Fintype.Order
import Mathlib.Logic.Relation
import Mathlib.Tactic.Common

/-!
# Chains of steps

A chain of steps inside a finite set comes back to an element it has left, or comes to an end. Where
an element has one successor at most, it cannot do both.

## Main definitions

* `OnCycle`: an element to which its own steps come back

## Main results

* `induction_of_acyclic`: induction along the steps of a finite set without cycles
* `OnCycle.of_reaches`: the steps from a cycle stay on cycles
* `exists_end`: without a cycle, a chain in a finite set comes to an end
* `reflTransGen_iff_avoiding`: a chain leaves its start for the last time at once or not at all
-/

namespace Chains

open Relation

variable {α : Type*} {r : α → α → Prop} {a b : α}

/-- The steps from an element come back to it. -/
def OnCycle (r : α → α → Prop) (a : α) : Prop :=
  TransGen r a a

theorem OnCycle.exists_step (h : OnCycle r a) : ∃ b, r a b := by
  obtain ⟨b, hab, -⟩ := TransGen.head'_iff.mp h
  exact ⟨b, hab⟩

theorem OnCycle.step (hr : Relator.RightUnique r) (h : OnCycle r a) (hab : r a b) : OnCycle r b := by
  obtain ⟨c, hac, hca⟩ := TransGen.head'_iff.mp h
  obtain rfl := hr hac hab
  exact TransGen.tail' hca hab

theorem OnCycle.of_reaches (hr : Relator.RightUnique r) (h : OnCycle r a) (hab : ReflTransGen r a b) :
    OnCycle r b := by
  induction hab with
  | refl => exact h
  | tail _ hstep ih => exact ih.step hr hstep

/-- On a finite set without cycles, what passes from all successors of an element to it holds
everywhere. -/
theorem induction_of_acyclic {s : Set α} (hs : s.Finite) (hclosed : ∀ a ∈ s, ∀ b, r a b → b ∈ s)
    (hacyclic : ∀ a ∈ s, ¬ OnCycle r a) {P : α → Prop} (hstep : ∀ a ∈ s, (∀ b, r a b → P b) → P a)
    (ha : a ∈ s) : P a := by
  have : Finite s := hs
  let later : s → s → Prop := fun x y => TransGen r y.1 x.1
  have : IsTrans s later := ⟨fun _ _ _ hxy hyz => hyz.trans hxy⟩
  have : Std.Irrefl later := ⟨fun x hx => hacyclic x.1 x.2 hx⟩
  have hwf : WellFounded later := Finite.wellFounded_of_trans_of_irrefl later
  have hall : ∀ x : s, P x := fun x =>
    hwf.induction x fun y ih => hstep y y.2 fun b hb => ih ⟨b, hclosed y y.2 b hb⟩ (.single hb)
  exact hall ⟨a, ha⟩

/-- The chains from an element in a finite set without cycles come to an end. -/
theorem exists_end {s : Set α} (hs : s.Finite) (hclosed : ∀ a ∈ s, ∀ b, r a b → b ∈ s)
    (hacyclic : ∀ a ∈ s, ¬ OnCycle r a) (ha : a ∈ s) :
    ∃ b ∈ s, ReflTransGen r a b ∧ ∀ c, ¬ r b c := by
  have : Finite s := hs
  let later : s → s → Prop := fun x y => TransGen r y.1 x.1
  have : IsTrans s later := ⟨fun _ _ _ hxy hyz => hyz.trans hxy⟩
  have : Std.Irrefl later := ⟨fun x hx => hacyclic x.1 x.2 hx⟩
  have hwf : WellFounded later := Finite.wellFounded_of_trans_of_irrefl later
  obtain ⟨x, hx⟩ : ∃ x : s, x.1 = a := ⟨⟨a, ha⟩, rfl⟩
  induction x using hwf.induction generalizing a with
  | _ x ih =>
    subst hx
    by_cases hend : ∀ c, ¬ r x.1 c
    · exact ⟨x.1, x.2, .refl, hend⟩
    · obtain ⟨c, hc⟩ := not_forall_not.mp hend
      have hcs := hclosed x.1 x.2 c hc
      obtain ⟨b, hb, hreach, hstop⟩ := ih ⟨c, hcs⟩ (.single hc) hcs rfl
      exact ⟨b, hb, .head hc hreach, hstop⟩

/-! ### Chains that do not come back to their start -/

/-- What comes after the last time that a chain is at its start. -/
theorem reflTransGen_iff_avoiding :
    ReflTransGen r a b ↔
      a = b ∨ ∃ c, r a c ∧ c ≠ a ∧ ReflTransGen (fun x y => r x y ∧ y ≠ a) c b := by
  constructor
  · intro h
    induction h with
    | refl => exact .inl rfl
    | tail _ hstep ih =>
      rename_i x y _
      by_cases hy : y = a
      · exact .inl hy.symm
      · rcases ih with rfl | ⟨c, hac, hc, hcx⟩
        · exact .inr ⟨y, hstep, hy, .refl⟩
        · exact .inr ⟨c, hac, hc, hcx.tail ⟨hstep, hy⟩⟩
  · rintro (rfl | ⟨c, hac, -, hcb⟩)
    · exact .refl
    · exact .head hac (hcb.lift id fun _ _ h => h.1)

end Chains
