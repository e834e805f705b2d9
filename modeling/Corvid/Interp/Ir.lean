import Corvid.Interp.Value

/-!
# Programs of the interpreter

The lowered form of a program. References are resolved to ids; of the types only those that the
interpreter reads are kept.

## Main definitions

* `Expr`, `Stmt`, `Block`: bodies
* `IrTool`, `IrPrompt`, `IrAgent`, `IrFixture`, `IrMock`, `IrFile`: declarations
-/

namespace Corvid.Interp

inductive StreamMergePolicy where
  | fifo
  | fairRoundRobin
  | sorted
deriving DecidableEq, Repr

inductive CallKind where
  | tool (id : DefId)
  | prompt (id : DefId)
  | agent (id : DefId)
  | fixture (id : DefId)
  | structConstructor (id : DefId)
  | unknown
deriving DecidableEq, Repr

structure ReplayCapture where
  id : LocalId
  name : String
  span : Span
deriving DecidableEq, Repr

inductive ReplayToolArgPattern where
  | wildcard
  | stringLit (value : String)
  | capture (capture : ReplayCapture)
deriving DecidableEq, Repr

inductive ReplayPattern where
  | llm (prompt : String) (span : Span)
  | tool (tool : String) (arg : ReplayToolArgPattern) (span : Span)
  | approve (label : String) (span : Span)
deriving DecidableEq, Repr

mutual

inductive Expr where
  | mk (kind : ExprKind) (span : Span)

inductive ExprKind where
  | literal (lit : Literal)
  | localVar (id : LocalId)
  | decl
  | call (kind : CallKind) (calleeName : String) (args : List Expr)
  | fieldAccess (target : Expr) (field : String)
  | index (target index : Expr)
  | binOp (op : BinaryOp) (left right : Expr)
  | wrappingBinOp (op : BinaryOp) (left right : Expr)
  | unOp (op : UnaryOp) (operand : Expr)
  | wrappingUnOp (op : UnaryOp) (operand : Expr)
  | list (items : List Expr)
  | unwrapGrounded (value : Expr)
  | weakNew (strong : Expr)
  | weakUpgrade (weak : Expr)
  | streamSplitBy (stream : Expr) (key : String)
  | streamMerge (groups : Expr) (policy : StreamMergePolicy)
  | streamOrderedBy (stream : Expr) (policy : StreamMergePolicy)
  | streamResumeToken (stream : Expr)
  | resumeStream (promptId : DefId) (promptName : String) (token : Expr)
  | resultOk (inner : Expr)
  | resultErr (inner : Expr)
  | optionSome (inner : Expr)
  | optionNone
  | ask (prompt : Expr) (targetTy : Ty)
  | choose (options : Expr)
  | tryPropagate (inner : Expr)
  | tryRetry (body : Expr) (attempts : ℕ)
  | replay (trace : Expr) (arms : List ReplayArm) (elseBody : Expr)

inductive ReplayArm where
  | mk (pattern : ReplayPattern) (capture : Option ReplayCapture) (body : Expr)

end

def Expr.span : Expr → Span
  | mk _ span => span

def Expr.kind : Expr → ExprKind
  | mk kind _ => kind

def ReplayArm.pattern : ReplayArm → ReplayPattern
  | mk pattern _ _ => pattern

inductive Stmt where
  | letStmt (id : LocalId) (name : String) (value : Expr)
  | returnStmt (value : Option Expr)
  | yieldStmt (value : Expr) (span : Span)
  | ifStmt (cond : Expr) (thenBlock : List Stmt) (elseBlock : Option (List Stmt))
  | forStmt (var : LocalId) (iter : Expr) (body : List Stmt) (span : Span)
  | approve (label : String) (args : List Expr) (span : Span)
  | expr (e : Expr)
  | breakStmt
  | continueStmt
  | pass
  /-- The counts of references are those of the values themselves. -/
  | dup (id : LocalId)
  | drop (id : LocalId)

abbrev Block := List Stmt

/-! ### Declarations -/

structure IrField where
  name : String
  ty : Ty

structure IrType where
  id : DefId
  name : String
  fields : List IrField

structure IrParam where
  name : String
  id : LocalId
  ty : Ty

structure IrTool where
  id : DefId
  name : String
  params : List IrParam
  returnTy : Ty
  effectNames : List String
  confidenceGate : Option ℚ

inductive IrRoutePattern where
  | wildcard
  | guard (expr : Expr)

structure IrRouteArm where
  pattern : IrRoutePattern
  modelName : String

structure IrProgressiveStage where
  modelName : String
  threshold : Option ℚ

structure IrRolloutSpec where
  variantPercent : ℚ
  variantName : String
  baselineName : String

/-- The votes of the members may be weighted by how accurate they have been. -/
structure IrEnsembleSpec where
  models : List String
  weightedByAccuracyHistory : Bool
  disagreementEscalation : Option String

structure IrAdversarialSpec where
  proposerId : DefId
  proposerName : String
  challengerId : DefId
  challengerName : String
  adjudicatorId : DefId
  adjudicatorName : String

structure IrPrompt where
  id : DefId
  name : String
  params : List IrParam
  returnTy : Ty
  template : String
  effectCost : ℚ
  effectConfidence : ℚ
  citesStrictlyParam : Option ℕ
  minConfidence : Option ℚ
  maxTokens : Option ℕ
  backpressure : Option BackpressurePolicy
  escalateTo : Option String
  calibrated : Bool
  cacheable : Bool
  capabilityRequired : Option String
  outputFormatRequired : Option String
  route : List IrRouteArm
  progressive : List IrProgressiveStage
  rollout : Option IrRolloutSpec
  ensemble : Option IrEnsembleSpec
  adversarial : Option IrAdversarialSpec

structure IrAgent where
  id : DefId
  name : String
  params : List IrParam
  returnTy : Ty
  costBudget : Option ℚ
  body : Block
  span : Span

structure IrFixture where
  id : DefId
  params : List IrParam
  body : Block
  span : Span

structure IrMock where
  targetId : DefId
  params : List IrParam
  body : Block
  span : Span

inductive IrEvalAssert where
  | value (expr : Expr) (confidence : Option ℚ) (runs : Option ℕ)
  | snapshot (expr : Expr)
  | called (name : String)
  | approved (label : String)
  | cost (op : BinaryOp) (bound : ℚ)
  | ordering (beforeName afterName : String)

structure IrTest where
  name : String
  traceFixture : Option String
  body : Block
  assertions : List IrEvalAssert
  span : Span

structure IrFile where
  types : List IrType
  tools : List IrTool
  prompts : List IrPrompt
  agents : List IrAgent
  tests : List IrTest
  fixtures : List IrFixture
  mocks : List IrMock

/-- A table from ids. Of several entries with one id the last one counts. -/
def byId {α : Type} (key : α → DefId) (entries : List α) (id : DefId) : Option α :=
  entries.reverse.find? (key · = id)

namespace IrFile

variable (ir : IrFile)

def typesById : DefId → Option IrType := byId IrType.id ir.types

def toolsById : DefId → Option IrTool := byId IrTool.id ir.tools

def promptsById : DefId → Option IrPrompt := byId IrPrompt.id ir.prompts

def agentsById : DefId → Option IrAgent := byId IrAgent.id ir.agents

def fixturesById : DefId → Option IrFixture := byId IrFixture.id ir.fixtures

def mocksById : DefId → Option IrMock := byId IrMock.targetId ir.mocks

/-- The same program with other mocks. -/
def remock (mocks : List IrMock) : IrFile := { ir with mocks := mocks }

end IrFile

end Corvid.Interp
