import Corvid.Interp.Eval
import Corvid.Lib.Comparison

/-!
# Two interpreters side by side

A run of the interpreter is compared with a run that does not step and that may have other mocks. The
comparison is made once for all of the evaluator, whatever a pairing says about the mocks of the two, the
queries they share and those that end the comparison.

## Main definitions

* `Passive`: the answers of the hook that only pace a run
* `Pairing`: what is compared
* `Beside`: states of the two runs
* `Paired`: computations that do the same in both

## Main results

* `Paired.bind`: sequences
* `paired_yieldBoundary`: a boundary, where only one of the two stops
-/

namespace Corvid.Interp

open Store (Prog Comparison)
open Interp
open Keyed (Map)

/-- Answers that pace a run and do nothing else. -/
def Passive : StepAction → Prop
  | .continue | .stepOver | .resume => True
  | .override _ | .approve | .deny | .abort => False

/-- The events for the hook. -/
def Query.IsStep : Query → Prop
  | .step _ => True
  | _ => False

instance : DecidablePred Query.IsStep := fun q => by
  cases q <;> unfold Query.IsStep <;> infer_instance

/-- Queries that have nothing to do with stepping or with mocks. -/
def Query.Ordinary : Query → Prop
  | .step _ | .callTool .. | .mocked _ | .fixture _ => False
  | _ => True

structure Pairing where
  /-- The first run may step. -/
  steps : Prop
  shared : Query → Prop
  lost : Query → Prop
  mocks : (DefId → Option IrMock) → (DefId → Option IrMock) → Prop
  shared_of_ordinary : ∀ q, q.Ordinary → shared q

def Pairing.comparison (ρ : Pairing) : Comparison Reply where
  shared := ρ.shared
  silent q := ρ.steps ∧ q.IsStep
  admissible
    | .step _, action => Passive action
    | _, _ => True
  lost := ρ.lost

/-- The states are the same but for the mocks, and the second one does not step. -/
structure Beside (ρ : Pairing) (s s' : Interpreter) : Prop where
  rest : s' = { s with stepper := none, mockTools := s'.mockTools }
  mocks : ρ.mocks s.mockTools s'.mockTools
  steps : s.stepper ≠ none → ρ.steps

def Alongside (ρ : Pairing) {α : Type} (r r' : Except InterpError α × Interpreter) : Prop :=
  r.1 = r'.1 ∧ Beside ρ r.2 r'.2

/-- The first computation does in the first run what the second one does in the second run. -/
structure Paired (ρ : Pairing) {α : Type} (m m' : Interp α) : Prop where
  follows : ∀ s s', Beside ρ s s' → Prog.Follows ρ.comparison (Alongside ρ) (m s) (m' s')

/-- A function of the state that depends neither on the stepper nor on the mocks. -/
def Unaware {α : Type} (f : Interpreter → α) : Prop := ∀ s stepper mocks,
  f { s with stepper := stepper, mockTools := mocks } = f s

/-- A change of the state that leaves the stepper and the mocks alone. -/
def Local (f : Interpreter → Interpreter) : Prop := ∀ s stepper mocks,
  f { s with stepper := stepper, mockTools := mocks } =
    { f s with stepper := stepper, mockTools := mocks }

section Rules

variable {ρ : Pairing} {α β : Type} {m m' : Interp α} {s s' : Interpreter}

theorem Local.eq {f : Interpreter → Interpreter} (hf : Local f) (s : Interpreter) :
    f s = { f s with stepper := s.stepper, mockTools := s.mockTools } :=
  hf s s.stepper s.mockTools

theorem Local.stepper {f : Interpreter → Interpreter} (hf : Local f) (s : Interpreter) :
    (f s).stepper = s.stepper := by
  rw [hf.eq s]

theorem Local.mockTools {f : Interpreter → Interpreter} (hf : Local f) (s : Interpreter) :
    (f s).mockTools = s.mockTools := by
  rw [hf.eq s]

theorem Beside.eq_of_unaware {f : Interpreter → α} (h : Beside ρ s s') (hf : Unaware f) :
    f s' = f s := by
  rw [h.rest]
  exact hf s none s'.mockTools

theorem Beside.change {f : Interpreter → Interpreter} (h : Beside ρ s s') (hf : Local f) :
    Beside ρ (f s) (f s') := by
  have hafter : f s' = { f s with stepper := none, mockTools := s'.mockTools } := by
    conv_lhs => rw [h.rest]
    exact hf s none s'.mockTools
  refine ⟨?_, ?_, ?_⟩
  · rw [hafter]
  · rw [hafter, hf.mockTools]
    exact h.mocks
  · rw [hf.stepper]
    exact h.steps

theorem Paired.bind {f f' : α → Interp β} (hm : Paired ρ m m') (hf : ∀ a, Paired ρ (f a) (f' a)) :
    Paired ρ (m >>= f) (m' >>= f') := by
  constructor
  intro s s' hs
  apply (hm.follows s s' hs).bind
  rintro ⟨r, t⟩ ⟨_, t'⟩ ⟨rfl, ht⟩
  cases r with
  | ok a => exact (hf a).follows t t' ht
  | error e => exact .ret ⟨rfl, ht⟩

theorem paired_pure (a : α) : Paired ρ (pure a) (pure a) := ⟨fun _ _ hs => .ret ⟨rfl, hs⟩⟩

theorem paired_fail (e : InterpError) : Paired ρ (fail e : Interp α) (fail e) :=
  ⟨fun _ _ hs => .ret ⟨rfl, hs⟩⟩

theorem paired_failWith (kind : InterpErrorKind) (span : Span) :
    Paired ρ (failWith kind span : Interp α) (failWith kind span) :=
  paired_fail _

theorem paired_halt (h : Halt) : Paired ρ (halt h : Interp α) (halt h) := ⟨fun _ _ _ => .fail h⟩

theorem paired_ask_of_shared {q : Query} (hq : ρ.shared q) : Paired ρ (ask q) (ask q) :=
  ⟨fun _ _ hs => .call hq fun _ => .ret ⟨rfl, hs⟩⟩

theorem paired_ask {q : Query} (hq : q.Ordinary) :
    Paired ρ (ask q) (ask q) :=
  paired_ask_of_shared (ρ.shared_of_ordinary q hq)

theorem paired_read {f : Interpreter → α} (hf : Unaware f) : Paired ρ (read f) (read f) :=
  ⟨fun _ _ hs => .ret ⟨congrArg Except.ok (hs.eq_of_unaware hf).symm, hs⟩⟩

theorem paired_readMocks {k k' : (DefId → Option IrMock) → Interp β}
    (hk : ∀ tools tools', ρ.mocks tools tools' → Paired ρ (k tools) (k' tools')) :
    Paired ρ (read (·.mockTools) >>= k) (read (·.mockTools) >>= k') :=
  ⟨fun s s' hs => (hk _ _ hs.mocks).follows s s' hs⟩

theorem paired_change {f : Interpreter → Interpreter} (hf : Local f) :
    Paired ρ (change f) (change f) :=
  ⟨fun _ _ hs => .ret ⟨rfl, hs.change hf⟩⟩

theorem Paired.map {f : α → β} (hm : Paired ρ m m') : Paired ρ (f <$> m) (f <$> m') :=
  hm.bind fun a => paired_pure (f a)

theorem Paired.ite {p : Prop} [Decidable p] {m₂ m₂' : Interp α} (hm : Paired ρ m m')
    (hm₂ : Paired ρ m₂ m₂') : Paired ρ (if p then m else m₂) (if p then m' else m₂') := by
  split
  · exact hm
  · exact hm₂

theorem Paired.attempt (hm : Paired ρ m m') : Paired ρ (attempt m) (attempt m') := by
  constructor
  intro s s' hs
  apply (hm.follows s s' hs).bind
  rintro ⟨r, t⟩ ⟨_, t'⟩ ⟨rfl, ht⟩
  exact .ret ⟨rfl, ht⟩

theorem Paired.within {sub sub' : Interpreter → Interpreter} (hm : Paired ρ m m')
    (hsub : ∀ s s', Beside ρ s s' → Beside ρ (sub s) (sub' s')) :
    Paired ρ (within sub m) (within sub' m') := by
  constructor
  intro s s' hs
  apply (hm.follows _ _ (hsub s s' hs)).bind
  rintro ⟨r, t⟩ ⟨_, t'⟩ ⟨rfl, _⟩
  exact .ret ⟨rfl, hs⟩

theorem paired_ofExcept (r : Except InterpError α) : Paired ρ (ofExcept r) (ofExcept r) := by
  cases r with
  | ok a => exact paired_pure a
  | error e => exact paired_fail e

theorem paired_ofRuntime (span : Span) (r : Except RuntimeError α) :
    Paired ρ (ofRuntime span r) (ofRuntime span r) :=
  paired_ofExcept _

theorem paired_ofOp (span : Span) (r : Except OpError α) : Paired ρ (ofOp span r) (ofOp span r) :=
  paired_ofExcept _

theorem Paired.restoringLocals (saved : Map LocalId Value × Map LocalId String)
    (hm : Paired ρ m m') : Paired ρ (restoringLocals saved m) (restoringLocals saved m') := by
  constructor
  intro s s' hs
  apply (hm.follows s s' hs).bind
  rintro ⟨r, t⟩ ⟨_, t'⟩ ⟨rfl, ht⟩
  have hlocal : Local fun t => { t with env := saved.1, localNames := saved.2 } := fun _ _ _ => rfl
  exact .ret ⟨rfl, ht.change hlocal⟩

theorem Paired.withBudget (budget : Option ℚ) (hm : Paired ρ m m') :
    Paired ρ (withBudget budget m) (withBudget budget m') := by
  constructor
  intro s s' hs
  have hbefore : Local fun t => { t with costBudget := budget, costUsed := 0 } := fun _ _ _ => rfl
  apply (hm.follows _ _ (hs.change hbefore)).bind
  rintro ⟨r, t⟩ ⟨_, t'⟩ ⟨rfl, ht⟩
  have hbudget : s'.costBudget = s.costBudget := hs.eq_of_unaware fun _ _ _ => rfl
  have hused : s'.costUsed = s.costUsed := hs.eq_of_unaware fun _ _ _ => rfl
  have hafter : Local fun t => { t with costBudget := s.costBudget, costUsed := s.costUsed } :=
    fun _ _ _ => rfl
  rw [hbudget, hused]
  exact .ret ⟨rfl, ht.change hafter⟩

theorem paired_savedLocals : Paired ρ savedLocals savedLocals := paired_read fun _ _ _ => rfl

theorem paired_lookupLocal (id : LocalId) : Paired ρ (lookupLocal id) (lookupLocal id) :=
  paired_read fun _ _ _ => rfl

theorem paired_bindLocal (id : LocalId) (v : Value) : Paired ρ (bindLocal id v) (bindLocal id v) :=
  paired_change fun _ _ _ => rfl

theorem paired_nameLocal (id : LocalId) (name : String) :
    Paired ρ (nameLocal id name) (nameLocal id name) :=
  paired_change fun _ _ _ => rfl

theorem paired_forgetChunk (id : LocalId) : Paired ρ (forgetChunk id) (forgetChunk id) :=
  paired_change fun _ _ _ => rfl

theorem Paired.onlyIf {m m' : Interp Unit} (p : Prop) [Decidable p] (hm : Paired ρ m m') :
    Paired ρ (onlyIf p m) (onlyIf p m') :=
  hm.ite (paired_pure ())

theorem paired_chargeCost (cost : ℚ) (span : Span) :
    Paired ρ (chargeCost cost span) (chargeCost cost span) := by
  apply (paired_read fun _ _ _ => rfl).bind
  intro violation
  cases violation with
  | some e => exact paired_fail e
  | none => exact Paired.bind (paired_ask trivial) fun _ => paired_change fun _ _ _ => rfl

end Rules

section Stops

variable {ρ : Pairing} {β : Type} {s s' : Interpreter}

theorem Beside.setStepper (h : Beside ρ s s') (hsteps : ρ.steps) (stepper : Option StepMode) :
    Beside ρ { s with stepper := stepper } s' :=
  ⟨h.rest, h.mocks, fun _ => hsteps⟩

/-- The first run shows an event to the hook, which paces it. The second one does nothing. -/
theorem follows_maybeYield (event : Interpreter → StepEvent) (h : Beside ρ s s') :
    Prog.Follows ρ.comparison
      (fun r t => ∃ action s₁, Passive action ∧ r = (.ok action, s₁) ∧ t = s' ∧ Beside ρ s₁ s')
      (maybeYield event s) (.ret s') := by
  unfold maybeYield
  split
  next mode hmode =>
    have hsteps : ρ.steps := h.steps (by simp [hmode])
    refine .skip ⟨hsteps, trivial⟩ fun action hpassive => ?_
    have hnext := h.setStepper hsteps (some (mode.after action))
    cases action with
    | «continue» => exact .ret ⟨.continue, _, trivial, rfl, rfl, hnext⟩
    | stepOver => exact .ret ⟨.stepOver, _, trivial, rfl, rfl, hnext⟩
    | resume => exact .ret ⟨.resume, _, trivial, rfl, rfl, hnext⟩
    | override _ | approve | deny | abort => exact hpassive.elim
  next => exact .ret ⟨.resume, s, trivial, rfl, rfl, h⟩

/-- An event in the first run only. What follows is the same for all answers that pace the run. -/
theorem paired_maybeYield {event : Interpreter → StepEvent} {k : StepAction → Interp β}
    {m' : Interp β} (hk : ∀ action, Passive action → Paired ρ (k action) m') :
    Paired ρ (maybeYield event >>= k) m' := by
  constructor
  intro s s' hs
  have hm' : m' s' = (Prog.ret s' >>= m') := rfl
  rw [hm']
  apply (follows_maybeYield event hs).bind
  rintro _ _ ⟨action, s₁, hpassive, rfl, rfl, hs₁⟩
  exact (hk action hpassive).follows s₁ _ hs₁

/-- An event in the first run only, whose answer is ignored. -/
theorem paired_shown {event : Interpreter → StepEvent} {m m' : Interp β} (hm : Paired ρ m m') :
    Paired ρ (attempt (maybeYield event) >>= fun _ => m) m' := by
  constructor
  intro s s' hs
  have hattempt : (attempt (maybeYield event) >>= fun _ => m) s =
      (maybeYield event s >>= fun r => m r.2) :=
    Prog.bind_assoc _ _ _
  have hm' : m' s' = (Prog.ret s' >>= m') := rfl
  rw [hattempt, hm']
  apply (follows_maybeYield event hs).bind
  rintro _ _ ⟨action, s₁, _, rfl, rfl, hs₁⟩
  exact hm.follows s₁ _ hs₁

theorem follows_yieldBoundary (event : Interpreter → StepEvent) (h : Beside ρ s s') :
    Prog.Follows ρ.comparison
      (fun r t => ∃ answer s₁, (∀ action, answer = some action → Passive action) ∧
        r = (.ok answer, s₁) ∧ t = s' ∧ Beside ρ s₁ s')
      (yieldBoundary event s) (.ret s') := by
  unfold yieldBoundary
  split
  · have hret : (Prog.ret s' : Prog Reply Halt Interpreter) = (Prog.ret s' >>= .ret) := rfl
    rw [hret]
    apply (follows_maybeYield event h).bind
    rintro _ _ ⟨action, s₁, hpassive, rfl, rfl, hs₁⟩
    exact .ret ⟨some action, s₁, fun _ h => Option.some.inj h ▸ hpassive, rfl, rfl, hs₁⟩
  · exact .ret ⟨none, s, by simp, rfl, rfl, h⟩

/-- A run that does not step does not stop at a boundary. -/
theorem Beside.yieldBoundary_eq (h : Beside ρ s s') (event : Interpreter → StepEvent) :
    yieldBoundary event s' = .ret (.ok none, s') := by
  have hstepper : s'.stepper = none := by
    rw [h.rest]
  simp [yieldBoundary, Interpreter.yieldsBoundary, hstepper]

theorem paired_yieldBoundary {event event' : Interpreter → StepEvent}
    {k k' : Option StepAction → Interp β} (hnone : Paired ρ (k none) (k' none))
    (hk : ∀ action, Passive action → Paired ρ (k (some action)) (k' none)) :
    Paired ρ (yieldBoundary event >>= k) (yieldBoundary event' >>= k') := by
  constructor
  intro s s' hs
  have hskip : (yieldBoundary event' >>= k') s' = (Prog.ret s' >>= k' none) := by
    change Prog.bind (yieldBoundary event' s') _ = _
    rw [hs.yieldBoundary_eq event']
    rfl
  rw [hskip]
  apply (follows_yieldBoundary event hs).bind
  rintro _ _ ⟨answer, s₁, hpassive, rfl, rfl, hs₁⟩
  cases answer with
  | none => exact hnone.follows s₁ _ hs₁
  | some action => exact (hk action (hpassive action rfl)).follows s₁ _ hs₁

/-- Only the first run announces a statement. -/
theorem paired_yieldStatement {event event' : Interpreter → StepEvent} :
    Paired ρ (yieldStatement event) (yieldStatement event') := by
  constructor
  intro s s' hs
  have hstepper : s'.stepper = none := by
    rw [hs.rest]
  have hskip : yieldStatement event' s' = .ret (.ok (), s') := by
    simp [yieldStatement, Interpreter.yieldsStatement, hstepper]
  rw [hskip]
  unfold yieldStatement
  split
  · exact (paired_maybeYield fun _ _ => paired_pure ()).follows s s' hs
  · exact .ret ⟨rfl, hs⟩

/-- A boundary where the hook may override the result. -/
theorem paired_unlessOverridden {event event' : Interpreter → StepEvent} {m m' : Interp β}
    {overridden overridden' : Json → Interp β} (hm : Paired ρ m m') :
    Paired ρ
      (yieldBoundary event >>= fun answer => match answer with
        | some (.override json) => overridden json
        | _ => m)
      (yieldBoundary event' >>= fun answer => match answer with
        | some (.override json) => overridden' json
        | _ => m') := by
  refine paired_yieldBoundary hm fun action hpassive => ?_
  cases action with
  | «continue» | stepOver | resume => exact hm
  | override _ | approve | deny | abort => exact hpassive.elim

/-- A boundary where the answer does not matter. -/
theorem paired_notice {event event' : Interpreter → StepEvent} {m m' : Interp β}
    (hm : Paired ρ m m') :
    Paired ρ (yieldBoundary event >>= fun _ => m) (yieldBoundary event' >>= fun _ => m') :=
  paired_yieldBoundary hm fun _ _ => hm

end Stops

end Corvid.Interp
