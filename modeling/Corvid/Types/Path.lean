import Corvid.Types.Weak

/-!
# Paths through an agent

A path through the body of an agent takes either branch of each `if`, goes through each loop any
number of times, and may end early anywhere. A weak local is refreshed when it is assigned from a fresh
expression or upgraded with success, and it becomes stale in a kind when an effect of this kind occurs.

The walk of the checker comes across most of what makes a local stale, but it does not come back to
the start of a loop. A path also says what the walk has seen of it.

## Main definitions

* `Path`: how stale the weak locals are, what the walk has seen of it, and the upgrades so far
* `evalExpr`, `execBlock`: the paths through expressions and blocks
* `Path.Fresh`: no upgrade is of a stale local
* `Path.NothingMissed`: whatever has made an upgraded local stale, the walk has seen
-/

namespace Corvid.Types

/-- An upgrade of a weak local with a row, and what the local is stale in. -/
structure Upgrade where
  id : LocalId
  row : WeakEffectRow
  stale : WeakEffect → Bool
  seen : WeakEffect → Bool

structure Path where
  /-- An effect of this kind has occurred since the local was refreshed. -/
  stale : LocalId → WeakEffect → Bool
  /-- The walk has come across such an effect since it took the local to be refreshed. -/
  seen : LocalId → WeakEffect → Bool
  /-- The walk compares the counts of this kind for the local. -/
  follows : LocalId → WeakEffect → Bool
  /-- How many effects of this kind the walk has come across. -/
  counted : WeakEffect → ℕ
  upgrades : List Upgrade

/-- The type of a local that has the same type in all its bindings. -/
def oneType (binds : List (LocalId × Ty)) (id : LocalId) : Option Ty :=
  match binds.find? (·.1 = id) with
  | some (_, ty) => if ∀ b ∈ binds, b.1 = id → b.2 = ty then some ty else none
  | none => none

/-- The kinds in the row of a local. A local with several types has none. -/
def rowOf (types : LocalId → Option Ty) (id : LocalId) (k : WeakEffect) : Bool :=
  match types id with
  | some (.weak _ row) => row.has k
  | _ => false

namespace Path

/-- An effect of kind `k` occurs, inside a call for which the walk counts the kinds `counts`. -/
def perform (counts : List WeakEffect) (σ : Path) (k : WeakEffect) : Path :=
  { σ with
    stale := fun id k' => k' = k || σ.stale id k'
    seen := fun id k' => (k' = k && k ∈ counts && σ.follows id k') || σ.seen id k'
    counted := fun k' => if k' = k ∧ k ∈ counts then σ.counted k' + 1 else σ.counted k' }

/-- The walk counts an effect ahead of its time. -/
def foresee (k : WeakEffect) (σ : Path) : Path :=
  { σ with seen := fun id k' => (k' = k && σ.follows id k') || σ.seen id k' }

/-- A local is assigned from a fresh expression, or it is not weak. -/
def bindFresh (types : LocalId → Option Ty) (id : LocalId) (σ : Path) : Path :=
  { σ with
    stale := Function.update σ.stale id fun _ => false
    seen := Function.update σ.seen id fun _ => false
    follows := Function.update σ.follows id (rowOf types id) }

/-- A weak local is assigned from another one and is as stale. -/
def bindAlias (types : LocalId → Option Ty) (id source : LocalId) (σ : Path) : Path :=
  { σ with
    stale := Function.update σ.stale id (σ.stale source)
    seen := Function.update σ.seen id fun k => σ.seen source k && rowOf types id k
    follows := Function.update σ.follows id (rowOf types id) }

/-- A local is bound to the next element by a loop. The walk does not know when that is. -/
def bindElement (id : LocalId) (σ : Path) : Path :=
  { σ with
    stale := Function.update σ.stale id fun _ => false
    seen := Function.update σ.seen id fun _ => false
    follows := Function.update σ.follows id fun _ => false }

/-- A weak local is upgraded. The walk takes it to be refreshed in any case. -/
def upgrade (types : LocalId → Option Ty) (id : LocalId) (row : WeakEffectRow) (success : Bool)
    (σ : Path) : Path :=
  { σ with
    stale := if success then Function.update σ.stale id fun _ => false else σ.stale
    seen := Function.update σ.seen id fun _ => false
    follows := Function.update σ.follows id (rowOf types id)
    upgrades := ⟨id, row, σ.stale id, σ.seen id⟩ :: σ.upgrades }

/-- The path is back at the start of a loop, which it has entered in `entry`. The walk is not: it has
seen what it had seen then. -/
def again (σ entry : Path) : Path :=
  { σ with
    seen := fun id k => σ.seen id k && entry.seen id k
    follows := fun id k => σ.follows id k && entry.follows id k }

/-- The path leaves a loop, at the end of its body or in the middle. The walk has seen the body. -/
def leave (σ entry : Path) (atEnd : Bool) : Path :=
  { σ with
    seen := fun id k => (entry.counted k < σ.counted k && σ.follows id k) || entry.seen id k ||
      (atEnd && σ.seen id k) }

/-- The path goes on although an attempt has failed in the middle. -/
def abandon (σ : Path) : Path := { σ with seen := fun _ _ => false }

/-- At no upgrade is the local stale in a kind of its row. -/
def Fresh (σ : Path) : Prop := ∀ u ∈ σ.upgrades, ∀ k, u.row.has k → ¬ u.stale k

/-- At each upgrade the walk has seen what the local is stale in. -/
def NothingMissed (σ : Path) : Prop :=
  ∀ u ∈ σ.upgrades, ∀ k, u.row.has k → u.stale k → u.seen k

end Path

/-! ### Expressions -/

/-- How the evaluation of an expression ends. -/
inductive Result where
  | value
  | propagate
  | error
deriving DecidableEq, Repr

/-- The paths through an expression. -/
abbrev ExprPaths := Path → Path → Result → Prop

namespace ExprPaths

/-- Nothing happens. -/
def skip : ExprPaths := fun σ σ' r => σ' = σ ∧ r = .value

/-- The path ends here. -/
def stop : ExprPaths := fun σ σ' r => σ' = σ ∧ r = .error

/-- One after the other. -/
def seq (first second : ExprPaths) : ExprPaths := fun σ σ' r =>
  (∃ σ₁, first σ σ₁ .value ∧ second σ₁ σ' r) ∨ (first σ σ' r ∧ r ≠ .value)

/-- Up to `n` attempts, the first of them from `entry`. After a failed attempt either the next one
follows, or the outcome of an earlier one is returned. -/
inductive Attempts (body : ExprPaths) (entry : Path) : ℕ → ExprPaths
  | last {n : ℕ} {σ σ' : Path} {r : Result} : body σ σ' r → Attempts body entry (n + 1) σ σ' r
  | retry {n : ℕ} {σ σ₁ σ' : Path} {r r' : Result} : body σ σ₁ r → r ≠ .propagate →
      Attempts body entry n (σ₁.again entry) σ' r' → Attempts body entry (n + 1) σ σ' r'
  | abandon {n : ℕ} {σ σ₁ : Path} : body σ σ₁ .error →
      Attempts body entry (n + 1) σ σ₁.abandon .value

end ExprPaths

open ExprPaths

/-- The kinds of effects that a call may perform. The confidence gate of a tool asks for an approval,
and the route of a prompt is chosen by arbitrary expressions. -/
def Callee.kinds : Callee → List WeakEffect
  | tool => [.approve, .toolCall]
  | prompt => [.toolCall, .llm, .approve, .human]
  | agent => [.toolCall, .llm, .approve, .human]
  | ask => [.human]
  | resume => [.toolCall, .llm, .approve, .human]
  | construct => []

/-- A call performs effects of its kinds, and it may fail after any of them. -/
def performs (callee : Callee) : ExprPaths := fun σ σ' r =>
  ∃ ks : List WeakEffect, (∀ k ∈ ks, k ∈ callee.kinds) ∧ σ' = ks.foldl (Path.perform callee.counts) σ ∧ r ≠ .propagate

section Paths

variable (types : LocalId → Option Ty)

mutual

def evalExpr (e : Expr) : ExprPaths := fun σ σ' r => stop σ σ' r ∨
  match e with
  | .literal _ => skip σ σ' r
  | .ident _ _ => skip σ σ' r
  | .call callee args _ => seq (evalArgs args) (performs callee) σ σ' r
  | .methodCall callee target args _ =>
    seq (evalExpr target) (seq (evalArgs args) (performs callee)) σ σ' r
  | .choose options _ =>
    seq (evalExpr options) (fun σ σ' r => σ' = σ.perform [] .human ∧ r ≠ .propagate)
      (σ.foresee .human) σ' r
  | .weakUpgrade weak _ => seq (evalExpr weak) (fun σ σ' r =>
      match weak with
      | .ident id (.weak _ row) =>
        ∃ success, σ' = σ.upgrade types id row success ∧ r = .value
      | _ => skip σ σ' r) σ σ' r
  | .operands parts _ => evalArgs parts σ σ' r
  | .logical left right _ =>
    seq (evalExpr left) (fun σ σ' r => skip σ σ' r ∨ evalExpr right σ σ' r) σ σ' r
  | .tryPropagate inner _ =>
    evalExpr inner σ σ' r ∨ (evalExpr inner σ σ' .value ∧ r = .propagate)
  | .tryRetry body attempts _ => Attempts (evalExpr body) σ (max attempts 1) σ σ' r
  | .replay trace arms elseBody _ => seq (evalExpr trace)
      (fun σ σ' r => evalOne arms σ σ' r ∨ evalExpr elseBody σ σ' r) σ σ' r

/-- All of them, from left to right. -/
def evalArgs (es : Args) : ExprPaths :=
  match es with
  | .nil => skip
  | .cons e es => seq (evalExpr e) (evalArgs es)

/-- One of them. -/
def evalOne (es : Args) : ExprPaths := fun σ σ' r =>
  match es with
  | .nil => False
  | .cons e es => evalExpr e σ σ' r ∨ evalOne es σ σ' r

end

/-! ### Statements -/

inductive Outcome where
  | normal
  | break
  | continue
  | stop
deriving DecidableEq, Repr

abbrev StmtPaths := Path → Path → Outcome → Prop

/-- An expression, and what is done with its value. -/
def StmtPaths.ofExpr (e : ExprPaths) (next : StmtPaths) : StmtPaths := fun σ σ' o =>
  (∃ σ₁, e σ σ₁ .value ∧ next σ₁ σ' o) ∨ (o = .stop ∧ ∃ r, r ≠ .value ∧ e σ σ' r)

/-- The iterations of a loop that the path has entered in `entry`, from the end of one of them.
While a stream is consumed, its producer performs effects. -/
inductive Iterations (var : LocalId) (streams : Bool) (body : StmtPaths) (entry : Path) :
    Bool → StmtPaths
  | done {atEnd : Bool} {σ : Path} :
      Iterations var streams body entry atEnd σ (σ.leave entry atEnd) .normal
  | next {atEnd : Bool} {σ σ₁ σ' : Path} {o o' : Outcome} {ks : List WeakEffect} :
      (ks ≠ [] → streams) →
      body ((ks.foldl (Path.perform []) (σ.again entry)).bindElement var) σ₁ o →
      o = .normal ∨ o = .continue →
      Iterations var streams body entry (o = .normal) σ₁ σ' o' →
      Iterations var streams body entry atEnd σ σ' o'
  | leave {atEnd : Bool} {σ σ₁ : Path} {ks : List WeakEffect} : (ks ≠ [] → streams) →
      body ((ks.foldl (Path.perform []) (σ.again entry)).bindElement var) σ₁ .break →
      Iterations var streams body entry atEnd σ (σ₁.leave entry false) .normal
  | stop {atEnd : Bool} {σ σ₁ : Path} {ks : List WeakEffect} : (ks ≠ [] → streams) →
      body ((ks.foldl (Path.perform []) (σ.again entry)).bindElement var) σ₁ .stop →
      Iterations var streams body entry atEnd σ σ₁ .stop

def Ty.isStream : Ty → Bool
  | stream _ => true
  | _ => false

/-- What an assignment does to a local. -/
def Path.assign (id : LocalId) (ty : Option Ty) (value : Expr) (σ : Path) : Path :=
  match ty.getD value.ty, value with
  | .weak _ _, .ident source (.weak _ _) => σ.bindAlias types id source
  | _, _ => σ.bindFresh types id

mutual

def execStmt (s : Stmt) : StmtPaths := fun σ σ' o =>
  match s with
  | .letStmt id ty value => StmtPaths.ofExpr (evalExpr types value)
      (fun σ σ' o => σ' = σ.assign types id ty value ∧ o = .normal) σ σ' o
  | .returnStmt (some value) => StmtPaths.ofExpr (evalExpr types value)
      (fun σ σ' o => σ' = σ ∧ o = .stop) σ σ' o
  | .returnStmt none => σ' = σ ∧ o = .stop
  | .yieldStmt value => StmtPaths.ofExpr (evalExpr types value)
      (fun σ σ' o => σ' = σ ∧ (o = .normal ∨ o = .stop)) σ σ' o
  | .ifThen cond thenBlock => StmtPaths.ofExpr (evalExpr types cond)
      (fun σ σ' o => execBlock thenBlock σ σ' o ∨ (σ' = σ ∧ o = .normal)) σ σ' o
  | .ifElse cond thenBlock elseBlock => StmtPaths.ofExpr (evalExpr types cond)
      (fun σ σ' o => execBlock thenBlock σ σ' o ∨ execBlock elseBlock σ σ' o) σ σ' o
  | .forStmt var iter body => StmtPaths.ofExpr (evalExpr types iter)
      (fun σ σ' o => Iterations var iter.ty.isStream (execBlock body) σ true σ σ' o) σ σ' o
  | .approve args => StmtPaths.ofExpr (evalArgs types args)
      (fun σ σ' o => σ' = σ.perform [.approve] .approve ∧ (o = .normal ∨ o = .stop)) σ σ' o
  | .expr e => StmtPaths.ofExpr (evalExpr types e) (fun σ σ' o => σ' = σ ∧ o = .normal) σ σ' o
  | .breakStmt => σ' = σ ∧ o = .break
  | .continueStmt => σ' = σ ∧ o = .continue
  | .pass => σ' = σ ∧ o = .normal

def execBlock (b : Block) : StmtPaths := fun σ σ' o =>
  match b with
  | .nil => σ' = σ ∧ o = .normal
  | .cons s b => (∃ σ₁, execStmt s σ σ₁ .normal ∧ execBlock b σ₁ σ' o) ∨
      (execStmt s σ σ' o ∧ o ≠ .normal)

end

end Paths

/-! ### Agents -/

mutual

/-- The types that the bindings in a statement give to locals. -/
def Stmt.bindings : Stmt → List (LocalId × Ty)
  | .letStmt id ty value => [(id, ty.getD value.ty)]
  | .ifThen _ thenBlock => thenBlock.bindings
  | .ifElse _ thenBlock elseBlock => thenBlock.bindings ++ elseBlock.bindings
  | .forStmt var iter body => (var, elementTy iter.ty) :: body.bindings
  | _ => []

def Block.bindings : Block → List (LocalId × Ty)
  | .nil => []
  | .cons s b => s.bindings ++ b.bindings

end

def Agent.types (agent : Agent) : LocalId → Option Ty :=
  oneType (agent.params ++ agent.body.bindings)

/-- The parameters are fresh. -/
def Agent.start (agent : Agent) : Path where
  stale _ _ := false
  seen _ _ := false
  follows id k := id ∈ agent.params.map Prod.fst && rowOf agent.types id k
  counted _ := 0
  upgrades := []

/-- The paths through the body of an agent. -/
def Agent.paths (agent : Agent) (σ : Path) (o : Outcome) : Prop :=
  execBlock agent.types agent.body agent.start σ o

end Corvid.Types
