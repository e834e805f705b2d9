import Corvid.Ast.Syntax
import Corvid.Effects.Registry
import Corvid.Resolve.Resolver

/-!
# Worst-case cost analysis

The analyzer walks the body of an agent and builds a tree whose leaves are the costs that tools and
prompts declare. Statements add up, branches count with the greater side, a loop over a list literal
counts once for each item, and a loop over anything else is left out with a warning. The estimates of
agents are remembered, and an agent that is met inside of itself counts nothing. The type checker rejects
an agent whose estimate is above one of its budgets.

## Main definitions

* `CostTreeNode`, `CostEstimate`: what the analysis builds
* `analyzeExpr`, `analyzeBlock`, `analyzeAgent`: the analysis, with its memory
* `computeWorstCaseCost`: the estimate of one agent
* `checkBudgets`: the estimate against the budgets of the agent
-/

namespace Corvid.Effects

open Corvid.Ast
open Corvid.Resolve

/-- The dimensions of a cost, the keys of its map. -/
inductive CostDimension where
  | cost
  | tokens
  | latencyMs
deriving DecidableEq, Repr

def CostDimension.name : CostDimension → String
  | cost => "cost"
  | tokens => "tokens"
  | latencyMs => "latency_ms"

def costDimensions : List CostDimension := [.cost, .tokens, .latencyMs]

abbrev Costs := CostDimension → Num

inductive CostNodeKind where
  | agent
  | tool
  | prompt
  | sequence
  | branch
  | loop (iterations : Option ℕ)
  | condition
deriving DecidableEq, Repr

inductive CostTreeNode where
  | mk (name : String) (kind : CostNodeKind) (costs : Costs) (children : List CostTreeNode)

namespace CostTreeNode

def name : CostTreeNode → String
  | mk name _ _ _ => name

def kind : CostTreeNode → CostNodeKind
  | mk _ kind _ _ => kind

def costs : CostTreeNode → Costs
  | mk _ _ costs _ => costs

def children : CostTreeNode → List CostTreeNode
  | mk _ _ _ children => children

end CostTreeNode

/-- A loop without a static bound in the body of the agent. -/
inductive CostWarning where
  | unboundedLoop (agent : String)
deriving DecidableEq, Repr

structure CostEstimate where
  dimensions : Costs
  tree : CostTreeNode
  warnings : List CostWarning
  bounded : Bool

/-! ### Trees -/

/-- `f64::EPSILON` -/
def epsilon : Num := ((1 / 2 ^ 52 : ℚ) : Num)

def treeIsZero (tree : CostTreeNode) : Bool :=
  costDimensions.all (fun d => tree.costs d ≤ epsilon) && tree.children.isEmpty

def pruneChildren (children : List CostTreeNode) : List CostTreeNode :=
  children.filter fun child => !treeIsZero child

def zeroEstimate (name : String) (kind : CostNodeKind) : CostEstimate :=
  ⟨0, .mk name kind 0 [], [], true⟩

def sequenceTree (name : String) (kind : CostNodeKind) (children : List CostTreeNode) :
    CostTreeNode :=
  let children := pruneChildren children
  .mk name kind (children.foldl (fun costs child => costs + child.costs) 0) children

def branchTree (name : String) (thenTree elseTree : CostTreeNode) : CostTreeNode :=
  .mk name .branch (fun d => max (thenTree.costs d) (elseTree.costs d))
    (pruneChildren [thenTree, elseTree])

def wrapIfNeeded (name : String) (tree : CostTreeNode) : CostTreeNode :=
  if tree.name = name ∧ tree.kind = .sequence then tree else sequenceTree name .sequence [tree]

/-- A number times the count of its iterations. -/
def scaleTree (tree : CostTreeNode) (iterations : ℕ) : CostTreeNode :=
  .mk tree.name (.loop (some iterations)) (fun d => iterations • tree.costs d) [tree]

def renameTree (tree : CostTreeNode) (name : String) : CostTreeNode :=
  .mk name tree.kind tree.costs tree.children

def sequenceEstimate (tree : CostTreeNode) (warnings : List CostWarning) (bounded : Bool) :
    CostEstimate :=
  ⟨tree.costs, tree, warnings, bounded⟩

/-! ### Declared costs -/

def findTool (file : File) (name : String) : Option ToolDecl :=
  file.decls.findSome? fun
    | .tool t => if t.name.name = name then some t else none
    | _ => none

def findPrompt (file : File) (name : String) : Option PromptDecl :=
  file.decls.findSome? fun
    | .prompt p => if p.name.name = name then some p else none
    | _ => none

def findAgent (file : File) (name : String) : Option AgentDecl :=
  file.decls.findSome? fun
    | .agent a => if a.name.name = name then some a else none
    | _ => none

def numericDimensionsFromProfile (profile : ComposedProfile) : Costs := fun d =>
  match profile.dimensions.lookup d.name with
  | some (.cost value) => value
  | some (.number value) => value
  | _ => 0

/-- The file with its names, and the registry of its effects. `dangerous` says which tools are declared
with the keyword. -/
structure CostContext where
  file : File
  resolved : Resolved
  registry : EffectRegistry
  dangerous : ToolDecl → Bool

namespace CostContext

variable (ctx : CostContext)

def effectNodeForDecl (name : String) (kind : CostNodeKind) (effectRow : EffectRow)
    (dangerous : Bool) : CostTreeNode :=
  let effectNames := effectRow.effects.map (·.name.name)
  let effectNames := if dangerous then effectNames ++ ["dangerous"] else effectNames
  .mk name kind (numericDimensionsFromProfile (ctx.registry.compose effectNames)) []

def effectNodeForPrompt (prompt : PromptDecl) : CostTreeNode :=
  .mk prompt.name.name .prompt (numericDimensionsFromProfile
    (ctx.registry.compose (prompt.effectRow.effects.map (·.name.name)))) []

/-- The declaration that the name of a call is bound to. -/
def calledEntry : Expr → Option DeclEntry
  | .ident name =>
    match ctx.resolved.bindings.lookup name.span with
    | some (.decl id) => ctx.resolved.symbols.entries[id]?
    | _ => none
  | _ => none

end CostContext

/-! ### The analysis -/

/-- What an analyzer remembers, and the agents it is inside of. -/
structure CostAnalyzer where
  memo : Keyed.Map String CostEstimate
  visiting : Finset String

abbrev CostM := StateM CostAnalyzer

def staticLoopBound : Expr → Option ℕ
  | .list items => some items.length
  | _ => none

section Walk

variable (ctx : CostContext) (enter : String → CostM (Option CostEstimate))

/-- The costs of the call itself. `enter` analyzes an agent. -/
def callCostTree (callee : Expr) : CostM (Option CostTreeNode) :=
  match ctx.calledEntry callee with
  | none => return none
  | some entry =>
    match entry.kind with
    | .tool => return (findTool ctx.file entry.name).map fun tool =>
        ctx.effectNodeForDecl tool.name.name .tool tool.effectRow (ctx.dangerous tool)
    | .prompt => return (findPrompt ctx.file entry.name).map ctx.effectNodeForPrompt
    | .agent => do
      let estimate ← enter entry.name
      return estimate.map fun e => renameTree e.tree entry.name
    | _ => return none

/-- The trees that count, the warnings and the bounds of several expressions. -/
abbrev Parts := List CostTreeNode × List CostWarning × Bool

def Parts.cons (e : CostEstimate) (parts : Parts) : Parts :=
  (if treeIsZero e.tree then parts.1 else e.tree :: parts.1, e.warnings ++ parts.2.1,
    e.bounded && parts.2.2)

mutual

def analyzeExpr : Expr → CostM CostEstimate
  | .call callee args => do
    let calleeEst ← analyzeExpr callee
    let argParts ← analyzeExprs args
    let (children, warnings, bounded) := Parts.cons calleeEst argParts
    let callTree ← callCostTree ctx enter callee
    return sequenceEstimate (sequenceTree "call" .sequence (children ++ callTree.toList)) warnings
      bounded
  | .fieldAccess target _ => analyzeExpr target
  | .index target index => do
    let targetEst ← analyzeExpr target
    let indexEst ← analyzeExpr index
    return sequenceEstimate (sequenceTree "index" .sequence [targetEst.tree, indexEst.tree])
      (targetEst.warnings ++ indexEst.warnings) (targetEst.bounded && indexEst.bounded)
  | .binOp left right => do
    let leftEst ← analyzeExpr left
    let rightEst ← analyzeExpr right
    return sequenceEstimate (sequenceTree "binop" .sequence [leftEst.tree, rightEst.tree])
      (leftEst.warnings ++ rightEst.warnings) (leftEst.bounded && rightEst.bounded)
  | .unOp operand => do
    let estimate ← analyzeExpr operand
    return sequenceEstimate (wrapIfNeeded "unop" estimate.tree) estimate.warnings estimate.bounded
  | .list items => do
    let (children, warnings, bounded) ← analyzeExprs items
    return sequenceEstimate (sequenceTree "list" .sequence children) warnings bounded
  | .tryPropagate inner => analyzeExpr inner
  | .tryRetry body => do
    let estimate ← analyzeExpr body
    return sequenceEstimate (wrapIfNeeded "retry" estimate.tree) estimate.warnings estimate.bounded
  | .replay trace arms elseBody => do
    let traceEst ← analyzeExpr trace
    let armParts ← analyzeArms arms
    let elseEst ← analyzeExpr elseBody
    let (elseChildren, elseWarnings, elseBounded) := Parts.cons elseEst ([], [], true)
    let (children, warnings, bounded) := Parts.cons traceEst
      (armParts.1 ++ elseChildren, armParts.2.1 ++ elseWarnings, armParts.2.2 && elseBounded)
    return sequenceEstimate (sequenceTree "replay" .sequence children) warnings bounded
  | .literal | .ident _ => return zeroEstimate "expr" .sequence

def analyzeExprs : List Expr → CostM Parts
  | [] => return ([], [], true)
  | e :: es => do
    let estimate ← analyzeExpr e
    let parts ← analyzeExprs es
    return Parts.cons estimate parts

def analyzeArms : List ReplayArm → CostM Parts
  | [] => return ([], [], true)
  | .mk _ _ body :: arms => do
    let estimate ← analyzeExpr body
    let parts ← analyzeArms arms
    return Parts.cons estimate parts

end

variable (agentName : String)

/-- The estimate of a statement that evaluates one expression and goes on. -/
def stmtEstimate (estimate : CostEstimate) : CostEstimate :=
  let tree := .mk "stmt" .sequence estimate.dimensions (pruneChildren estimate.tree.children)
  { estimate with tree := wrapIfNeeded "stmt" tree }

def blockEstimate (parts : Parts) : CostEstimate :=
  sequenceEstimate (sequenceTree "block" .sequence parts.1) parts.2.1 parts.2.2

mutual

def analyzeStmt : Stmt → CostM CostEstimate
  | .letStmt _ _ value | .yieldStmt value | .expr value | .approve value => do
    return stmtEstimate (← analyzeExpr ctx enter value)
  | .returnStmt (some value) => do
    let estimate ← analyzeExpr ctx enter value
    return { estimate with tree := wrapIfNeeded "return" estimate.tree }
  | .returnStmt none => return zeroEstimate "return" .sequence
  | .ifStmt cond thenBlock elseBlock => do
    let condEst ← analyzeExpr ctx enter cond
    let thenEst := blockEstimate (← analyzeStmts thenBlock)
    let elseEst ← analyzeElse elseBlock
    let branch := branchTree "if" thenEst.tree elseEst.tree
    return sequenceEstimate
      (sequenceTree "if" .sequence [wrapIfNeeded "condition" condEst.tree, branch])
      (condEst.warnings ++ thenEst.warnings ++ elseEst.warnings)
      (condEst.bounded && thenEst.bounded && elseEst.bounded)
  | .forStmt _ iter body => do
    let iterEst ← analyzeExpr ctx enter iter
    match staticLoopBound iter with
    | some iterations =>
      let bodyEst := blockEstimate (← analyzeStmts body)
      return sequenceEstimate (sequenceTree "for" .sequence
          [wrapIfNeeded "iter" iterEst.tree, scaleTree bodyEst.tree iterations])
        (iterEst.warnings ++ bodyEst.warnings) (iterEst.bounded && bodyEst.bounded)
    | none =>
      return sequenceEstimate (sequenceTree "for" .sequence [wrapIfNeeded "iter" iterEst.tree])
        (iterEst.warnings ++ [.unboundedLoop agentName]) false

def analyzeStmts : Block → CostM Parts
  | [] => return ([], [], true)
  | s :: ss => do
    let estimate ← analyzeStmt s
    let parts ← analyzeStmts ss
    return Parts.cons estimate parts

def analyzeElse : Option Block → CostM CostEstimate
  | some block => do
    return blockEstimate (← analyzeStmts block)
  | none => return zeroEstimate "else" .sequence

end

def analyzeBlock (block : Block) : CostM CostEstimate := do
  return blockEstimate (← analyzeStmts ctx enter agentName block)

end Walk

/-- The estimate of an agent, from that of its body. -/
def agentEstimate (agentName : String) (bodyEstimate : CostEstimate) : CostEstimate :=
  { bodyEstimate with
    tree := .mk agentName .agent bodyEstimate.dimensions bodyEstimate.tree.children }

/-- The estimate of an agent, entering at most `fuel` agents below one another. -/
def analyzeAgent (ctx : CostContext) : ℕ → String → CostM (Option CostEstimate)
  | 0, _ => return none
  | fuel + 1, agentName => do
    match (← get).memo.lookup agentName with
    | some cached => return some cached
    | none =>
      match findAgent ctx.file agentName with
      | none => return none
      | some agent =>
        if agentName ∈ (← get).visiting then
          return some (zeroEstimate agentName .agent)
        else
          modify fun s => { s with visiting := insert agentName s.visiting }
          let bodyEstimate ← analyzeBlock ctx (analyzeAgent ctx fuel) agentName agent.body
          let result := agentEstimate agentName bodyEstimate
          modify fun s =>
            { memo := s.memo.insert agentName result, visiting := s.visiting.erase agentName }
          return some result

/-- The agents of the file, and one more. -/
def agentNames (file : File) : List String :=
  file.decls.filterMap fun
    | .agent a => some a.name.name
    | _ => none

/-- An agent is entered inside of every other one at most, so that the fuel is never used up. -/
def computeWorstCaseCost (ctx : CostContext) (agentName : String) : Option CostEstimate :=
  (analyzeAgent ctx ((agentNames ctx.file).length + 1) agentName ⟨∅, ∅⟩).1

/-! ### Budgets -/

def numericConstraintValue (constraint : EffectConstraint) : Option Num :=
  match constraint.value with
  | some (.cost value) => some value
  | some (.number value) => some value
  | _ => none

/-- The dimension that a budget is about. -/
def budgetDimension (constraint : EffectConstraint) : Option CostDimension :=
  costDimensions.find? fun d => d.name = canonicalDimensionName constraint.dimension.name

/-- An agent whose estimate is above a budget. -/
structure BudgetError where
  agent : String
  dimension : CostDimension
  actual : Num
  limit : Num
  span : Span

def budgetError (agentName : String) (estimate : CostEstimate) (constraint : EffectConstraint) :
    Option BudgetError :=
  (budgetDimension constraint).bind fun d =>
    (numericConstraintValue constraint).bind fun limit =>
      if limit < estimate.dimensions d then
        some ⟨agentName, d, estimate.dimensions d, limit, constraint.span⟩
      else none

/-- The type checker compares the estimate of an agent with its budgets, unless a loop in its body has no
static bound. -/
def checkBudgets (ctx : CostContext) (agentName : String) (constraints : List EffectConstraint) :
    List CostWarning × List BudgetError :=
  let budgetConstraints := constraints.filter fun constraint => (budgetDimension constraint).isSome
  if budgetConstraints.isEmpty then ([], [])
  else
    match computeWorstCaseCost ctx agentName with
    | none => ([], [])
    | some estimate =>
      (estimate.warnings,
        if estimate.bounded then budgetConstraints.filterMap (budgetError agentName estimate) else [])

end Corvid.Effects
