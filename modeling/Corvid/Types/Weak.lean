import Mathlib.Logic.Function.Basic
import Mathlib.Order.Basic
import Mathlib.Tactic.Common

/-!
# Checking weak upgrades

The type checker counts the effects that it walks over, kind by kind, and remembers for each weak
local the counts at its last refresh. An upgrade is accepted if the counts of the kinds in the row of
the local have not moved since. Both branches of an `if` are walked from the same counts, and the body
of a loop is walked once.

Expressions carry the types that the checker records for them, and of the errors of the checker only
those about weak references are kept.

## Main definitions

* `WeakEffect`, `WeakEffectRow`, `EffectFrontier`: kinds of effects, and their counts
* `Expr`, `Stmt`, `Block`: bodies of agents
* `Checker`, `checkExpr`, `checkBlock`, `checkAgent`: the walk of the checker
-/

namespace Corvid.Types

inductive WeakEffect where
  | toolCall
  | llm
  | approve
  | human
deriving DecidableEq, Repr

structure WeakEffectRow where
  toolCall : Bool
  llm : Bool
  approve : Bool
  human : Bool
deriving DecidableEq, Repr

namespace WeakEffectRow

def any : WeakEffectRow := ⟨true, true, true, true⟩

/-- The row names the kind. -/
def has (row : WeakEffectRow) : WeakEffect → Bool
  | .toolCall => row.toolCall
  | .llm => row.llm
  | .approve => row.approve
  | .human => row.human

end WeakEffectRow

structure EffectFrontier where
  toolCall : ℕ
  llm : ℕ
  approve : ℕ
  human : ℕ
deriving DecidableEq, Repr

namespace EffectFrontier

def default : EffectFrontier := ⟨0, 0, 0, 0⟩

def get (frontier : EffectFrontier) : WeakEffect → ℕ
  | .toolCall => frontier.toolCall
  | .llm => frontier.llm
  | .approve => frontier.approve
  | .human => frontier.human

def bumped (frontier : EffectFrontier) : WeakEffect → EffectFrontier
  | .toolCall => { frontier with toolCall := frontier.toolCall + 1 }
  | .llm => { frontier with llm := frontier.llm + 1 }
  | .approve => { frontier with approve := frontier.approve + 1 }
  | .human => { frontier with human := frontier.human + 1 }

def mergeMax (a b : EffectFrontier) : EffectFrontier :=
  ⟨max a.toolCall b.toolCall, max a.llm b.llm, max a.approve b.approve, max a.human b.human⟩

def meetMin (a b : EffectFrontier) : EffectFrontier :=
  ⟨min a.toolCall b.toolCall, min a.llm b.llm, min a.approve b.approve, min a.human b.human⟩

def invalidatingEffectsSince (frontier refreshedAt : EffectFrontier) (row : WeakEffectRow) :
    List String :=
  (if row.toolCall ∧ frontier.toolCall ≠ refreshedAt.toolCall then ["tool_call"] else []) ++
  (if row.llm ∧ frontier.llm ≠ refreshedAt.llm then ["llm"] else []) ++
  (if row.approve ∧ frontier.approve ≠ refreshedAt.approve then ["approve"] else []) ++
  (if row.human ∧ frontier.human ≠ refreshedAt.human then ["human"] else [])

@[simp] theorem get_default (k : WeakEffect) : default.get k = 0 := by
  cases k <;> rfl

@[simp] theorem get_bumped (frontier : EffectFrontier) (k k' : WeakEffect) :
    (frontier.bumped k).get k' = if k' = k then frontier.get k' + 1 else frontier.get k' := by
  cases k <;> cases k' <;> rfl

@[simp] theorem get_mergeMax (a b : EffectFrontier) (k : WeakEffect) :
    (a.mergeMax b).get k = max (a.get k) (b.get k) := by
  cases k <;> rfl

@[simp] theorem get_meetMin (a b : EffectFrontier) (k : WeakEffect) :
    (a.meetMin b).get k = min (a.get k) (b.get k) := by
  cases k <;> rfl

theorem invalidatingEffectsSince_eq_nil {frontier refreshedAt : EffectFrontier}
    {row : WeakEffectRow} : frontier.invalidatingEffectsSince refreshedAt row = [] ↔
      ∀ k, row.has k → frontier.get k = refreshedAt.get k := by
  constructor
  · intro h k hk
    simp only [invalidatingEffectsSince, List.append_eq_nil_iff] at h
    cases k <;> simp_all [WeakEffectRow.has, get]
  · intro h
    have h₁ := h .toolCall
    have h₂ := h .llm
    have h₃ := h .approve
    have h₄ := h .human
    simp_all [invalidatingEffectsSince, WeakEffectRow.has, get]

end EffectFrontier

/-! ### Bodies of agents -/

abbrev LocalId := ℕ

/-- The types that the walk tells apart. -/
inductive Ty where
  | weak (inner : Ty) (row : WeakEffectRow)
  | list (elem : Ty)
  | stream (elem : Ty)
  | option (inner : Ty)
  | string
  | unknown
  | other (name : String)
deriving DecidableEq, Repr

/-- What is called. Methods, imported declarations and the plain ones are checked alike. -/
inductive Callee where
  | tool
  | prompt
  | agent
  | ask
  | resume
  /-- A constructor, `Weak::new`, or an operation on streams. -/
  | construct
deriving DecidableEq, Repr

mutual

inductive Expr where
  | literal (ty : Ty)
  | ident (id : LocalId) (ty : Ty)
  | call (callee : Callee) (args : Args) (ty : Ty)
  | methodCall (callee : Callee) (target : Expr) (args : Args) (ty : Ty)
  | choose (options : Expr) (ty : Ty)
  | weakUpgrade (weak : Expr) (ty : Ty)
  /-- A field access, an index, a list, or an operator other than `and` and `or`. -/
  | operands (parts : Args) (ty : Ty)
  | logical (left right : Expr) (ty : Ty)
  | tryPropagate (inner : Expr) (ty : Ty)
  | tryRetry (body : Expr) (attempts : ℕ) (ty : Ty)
  | replay (trace : Expr) (arms : Args) (elseBody : Expr) (ty : Ty)

inductive Args where
  | nil
  | cons (head : Expr) (tail : Args)

end

/-- The type that is recorded for an expression. -/
def Expr.ty : Expr → Ty
  | literal ty => ty
  | ident _ ty => ty
  | call _ _ ty => ty
  | methodCall _ _ _ ty => ty
  | choose _ ty => ty
  | weakUpgrade _ ty => ty
  | operands _ ty => ty
  | logical _ _ ty => ty
  | tryPropagate _ ty => ty
  | tryRetry _ _ ty => ty
  | replay _ _ _ ty => ty

mutual

inductive Stmt where
  | letStmt (id : LocalId) (ty : Option Ty) (value : Expr)
  | returnStmt (value : Option Expr)
  | yieldStmt (value : Expr)
  | ifThen (cond : Expr) (thenBlock : Block)
  | ifElse (cond : Expr) (thenBlock elseBlock : Block)
  | forStmt (var : LocalId) (iter : Expr) (body : Block)
  | approve (args : Args)
  | expr (e : Expr)
  | breakStmt
  | continueStmt
  | pass

inductive Block where
  | nil
  | cons (head : Stmt) (tail : Block)

end

structure Agent where
  params : List (LocalId × Ty)
  body : Block

/-! ### The walk -/

inductive TypeError where
  | weakUpgradeAcrossEffects (effects : List String)
  | invalidWeakUpgradeTarget
  /-- The tree has not been typed by this walk. -/
  | notRecorded (id : LocalId)
deriving DecidableEq, Repr

structure Checker where
  localTypes : LocalId → Option Ty
  effectFrontier : EffectFrontier
  weakRefresh : LocalId → Option EffectFrontier
  errors : List TypeError

namespace Checker

def bumpEffect (c : Checker) (effect : WeakEffect) : Checker :=
  { c with effectFrontier := c.effectFrontier.bumped effect }

def error (c : Checker) (e : TypeError) : Checker := { c with errors := c.errors ++ [e] }

def refreshFrontierForExpr (c : Checker) (e : Expr) (ty : Ty) : EffectFrontier :=
  match e, ty with
  | .ident id _, .weak _ _ => (c.weakRefresh id).getD c.effectFrontier
  | _, _ => c.effectFrontier

def refreshAfterUpgrade (c : Checker) (e : Expr) : Checker :=
  match e with
  | .ident id _ => { c with weakRefresh := Function.update c.weakRefresh id (some c.effectFrontier) }
  | _ => c

def updateWeakLocalOnAssignment (c : Checker) (id : LocalId) (value : Expr) (localTy : Ty) :
    Checker :=
  match localTy with
  | .weak _ _ => { c with
      weakRefresh := Function.update c.weakRefresh id (some (c.refreshFrontierForExpr value localTy)) }
  | _ => { c with weakRefresh := Function.update c.weakRefresh id none }

def bindLocal (c : Checker) (id : LocalId) (ty : Ty) : Checker :=
  { c with localTypes := Function.update c.localTypes id (some ty) }

def mergeWeakRefresh (c : Checker) (entry left right : LocalId → Option EffectFrontier) :
    LocalId → Option EffectFrontier := fun id =>
  match c.localTypes id with
  | some (.weak _ _) =>
    let entryState := (entry id).getD .default
    some (((left id).getD entryState).meetMin ((right id).getD entryState))
  | _ => none

end Checker

/-- The kinds that the walk counts for a call, in the order in which it counts them. -/
def Callee.counts : Callee → List WeakEffect
  | tool => [.toolCall]
  | prompt => [.llm]
  | agent => [.toolCall, .llm, .approve]
  | ask => [.human]
  | resume => []
  | construct => []

mutual

def checkExpr (c : Checker) : Expr → Checker
  | .literal _ => c
  | .ident id ty => if (c.localTypes id).getD .unknown = ty then c else c.error (.notRecorded id)
  | .call callee args _ => callee.counts.foldl Checker.bumpEffect (checkArgs c args)
  | .methodCall callee target args _ =>
    -- the receiver is walked once on its own and once as an argument
    callee.counts.foldl Checker.bumpEffect
      (checkArgs (checkExpr (checkExpr c target) target) args)
  | .choose options _ => checkExpr (c.bumpEffect .human) options
  | .weakUpgrade weak _ =>
    let c := checkExpr c weak
    let refreshedAt := c.refreshFrontierForExpr weak weak.ty
    match weak.ty with
    | .weak _ row =>
      let invalidating := c.effectFrontier.invalidatingEffectsSince refreshedAt row
      if invalidating ≠ [] then c.error (.weakUpgradeAcrossEffects invalidating)
      else c.refreshAfterUpgrade weak
    | .unknown => c
    | _ => c.error .invalidWeakUpgradeTarget
  | .operands parts _ => checkArgs c parts
  | .logical left right _ => checkExpr (checkExpr c left) right
  | .tryPropagate inner _ => checkExpr c inner
  | .tryRetry body _ _ => checkExpr c body
  | .replay trace arms elseBody _ => checkExpr (checkArgs (checkExpr c trace) arms) elseBody

def checkArgs (c : Checker) : Args → Checker
  | .nil => c
  | .cons e es => checkArgs (checkExpr c e) es

end

/-- The type of the loop variable. -/
def elementTy : Ty → Ty
  | .list elem => elem
  | .stream elem => elem
  | .string => .string
  | _ => .unknown

mutual

def checkStmt (c : Checker) : Stmt → Checker
  | .letStmt id ty value =>
    let localTy := ty.getD value.ty
    ((checkExpr c value).updateWeakLocalOnAssignment id value localTy).bindLocal id localTy
  | .returnStmt (some value) => checkExpr c value
  | .returnStmt none => c
  | .yieldStmt value => checkExpr c value
  | .ifThen cond thenBlock =>
    let entry := checkExpr c cond
    let afterThen := checkBlock entry thenBlock
    { afterThen with
      effectFrontier := afterThen.effectFrontier.mergeMax entry.effectFrontier
      weakRefresh :=
        afterThen.mergeWeakRefresh entry.weakRefresh afterThen.weakRefresh entry.weakRefresh }
  | .ifElse cond thenBlock elseBlock =>
    let entry := checkExpr c cond
    let afterThen := checkBlock entry thenBlock
    let afterElse := checkBlock { afterThen with
      effectFrontier := entry.effectFrontier
      weakRefresh := entry.weakRefresh } elseBlock
    { afterElse with
      effectFrontier := afterThen.effectFrontier.mergeMax afterElse.effectFrontier
      weakRefresh :=
        afterElse.mergeWeakRefresh entry.weakRefresh afterThen.weakRefresh afterElse.weakRefresh }
  | .forStmt var iter body =>
    let entry := (checkExpr c iter).bindLocal var (elementTy iter.ty)
    let afterBody := checkBlock entry body
    { afterBody with
      effectFrontier := entry.effectFrontier.mergeMax afterBody.effectFrontier
      weakRefresh :=
        afterBody.mergeWeakRefresh entry.weakRefresh entry.weakRefresh afterBody.weakRefresh }
  | .approve args => (checkArgs c args).bumpEffect .approve
  | .expr e => checkExpr c e
  | .breakStmt => c
  | .continueStmt => c
  | .pass => c

def checkBlock (c : Checker) : Block → Checker
  | .nil => c
  | .cons s b => checkBlock (checkStmt c s) b

end

def bindParams (c : Checker) (params : List (LocalId × Ty)) : Checker :=
  params.foldl (fun c (id, ty) =>
    (match ty with
      | .weak _ _ => { c with weakRefresh := Function.update c.weakRefresh id (some c.effectFrontier) }
      | _ => { c with weakRefresh := Function.update c.weakRefresh id none }).bindLocal id ty) c

/-- The agent is checked after other declarations, which leave their counts behind. -/
def checkAgent (frontier : EffectFrontier) (agent : Agent) : Checker :=
  checkBlock (bindParams ⟨fun _ => none, frontier, fun _ => none, []⟩ agent.params) agent.body

end Corvid.Types
