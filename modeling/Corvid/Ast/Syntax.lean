import Corvid.Ast.Effect

/-!
# Syntax trees

The declarations of a file with their statements, expressions and type references. Of each node
those fields are kept that name resolution reads. An identifier in an expression has the span of
its name.

## Main definitions

* `TypeRef`, `Expr`, `Stmt`, `Decl`, `File`
-/

namespace Corvid.Ast

/-! ### Types -/

/-- A type as it is written. -/
inductive TypeRef where
  | named (name : Ident)
  | qualified (aliasName name : Ident)
  | generic (name : Ident) (args : List TypeRef)
  | weak (inner : TypeRef)
  | function (params : List TypeRef) (ret : TypeRef)

structure Param where
  name : Ident
  ty : TypeRef

structure Field where
  name : Ident
  ty : TypeRef
  span : Span

/-! ### Expressions -/

inductive ToolArgPattern where
  | wildcard
  | stringLit (value : String)
  | capture (name : Ident) (span : Span)

inductive ReplayPattern where
  | llm (prompt : String) (span : Span)
  | tool (tool : String) (arg : ToolArgPattern) (span : Span)
  | approve (label : String) (span : Span)

def ReplayPattern.span : ReplayPattern → Span
  | llm _ span => span
  | tool _ _ span => span
  | approve _ span => span

mutual

inductive Expr where
  | literal
  | ident (name : Ident)
  | call (callee : Expr) (args : List Expr)
  | fieldAccess (target : Expr) (field : Ident)
  | index (target index : Expr)
  | binOp (left right : Expr)
  | unOp (operand : Expr)
  | list (items : List Expr)
  | tryPropagate (inner : Expr)
  | tryRetry (body : Expr)
  | replay (trace : Expr) (arms : List ReplayArm) (elseBody : Expr)

inductive ReplayArm where
  | mk (pattern : ReplayPattern) (capture : Option Ident) (body : Expr)

end

/-! ### Statements -/

inductive Stmt where
  | letStmt (name : Ident) (ty : Option TypeRef) (value : Expr)
  | returnStmt (value : Option Expr)
  | yieldStmt (value : Expr)
  | ifStmt (cond : Expr) (thenBlock : List Stmt) (elseBlock : Option (List Stmt))
  | forStmt (var : Ident) (iter : Expr) (body : List Stmt)
  | approve (action : Expr)
  | expr (expr : Expr)

abbrev Block := List Stmt

/-! ### Declarations -/

structure EffectRef where
  name : Ident
  span : Span

structure EffectRow where
  effects : List EffectRef

structure ImportUseItem where
  name : Ident
  aliasName : Option Ident
  span : Span

structure ImportDecl where
  module : String
  effectRow : EffectRow
  aliasName : Option Ident
  useItems : List ImportUseItem
  span : Span

structure TypeDecl where
  name : Ident
  fields : List Field
  span : Span

structure StoreDecl where
  name : Ident
  fields : List Field
  span : Span

structure ToolDecl where
  name : Ident
  params : List Param
  returnTy : TypeRef
  effectRow : EffectRow
  span : Span

inductive RoutePattern where
  | wildcard
  | guard (expr : Expr)

structure RouteArm where
  pattern : RoutePattern
  model : Ident

structure RouteTable where
  arms : List RouteArm

structure ProgressiveStage where
  model : Ident

structure ProgressiveChain where
  stages : List ProgressiveStage

structure RolloutSpec where
  variantModel : Ident
  baseline : Ident

structure EnsembleSpec where
  models : List Ident
  disagreementEscalation : Option Ident

structure AdversarialSpec where
  proposer : Ident
  challenger : Ident
  adjudicator : Ident

structure PromptStreamSettings where
  escalateTo : Option Ident

structure PromptDecl where
  name : Ident
  params : List Param
  returnTy : TypeRef
  effectRow : EffectRow
  stream : PromptStreamSettings
  route : Option RouteTable
  progressive : Option ProgressiveChain
  rollout : Option RolloutSpec
  ensemble : Option EnsembleSpec
  adversarial : Option AdversarialSpec
  span : Span

structure AgentDecl where
  name : Ident
  params : List Param
  returnTy : TypeRef
  body : Block
  effectRow : EffectRow
  span : Span

inductive EvalAssert where
  | value (expr : Expr)
  | snapshot (expr : Expr)
  | called (tool : Ident)
  | approved (label : Ident)
  | cost
  | ordering (before after : Ident)

structure EvalDecl where
  name : Ident
  body : Block
  assertions : List EvalAssert
  span : Span

structure TestDecl where
  name : Ident
  body : Block
  assertions : List EvalAssert
  span : Span

structure FixtureDecl where
  name : Ident
  params : List Param
  returnTy : TypeRef
  body : Block
  span : Span

structure MockDecl where
  target : Ident
  params : List Param
  returnTy : TypeRef
  body : Block
  effectRow : EffectRow

inductive ExtendMethodKind where
  | tool (decl : ToolDecl)
  | prompt (decl : PromptDecl)
  | agent (decl : AgentDecl)

namespace ExtendMethodKind

def name : ExtendMethodKind → Ident
  | tool d => d.name
  | prompt d => d.name
  | agent d => d.name

def span : ExtendMethodKind → Span
  | tool d => d.span
  | prompt d => d.span
  | agent d => d.span

end ExtendMethodKind

structure ExtendDecl where
  typeName : Ident
  methods : List ExtendMethodKind

structure ModelDecl where
  name : Ident
  span : Span

structure RoutePathParam where
  ty : TypeRef

structure HttpRouteDecl where
  pathParams : List RoutePathParam
  queryTy : Option TypeRef
  bodyTy : Option TypeRef
  responseTy : TypeRef
  effectRow : EffectRow
  body : Block

structure ServerDecl where
  name : Ident
  routes : List HttpRouteDecl
  span : Span

structure ScheduleDecl where
  target : Ident
  args : List Expr
  effectRow : EffectRow

inductive Decl where
  | importDecl (decl : ImportDecl)
  | type (decl : TypeDecl)
  | store (decl : StoreDecl)
  | tool (decl : ToolDecl)
  | prompt (decl : PromptDecl)
  | agent (decl : AgentDecl)
  | eval (decl : EvalDecl)
  | test (decl : TestDecl)
  | fixture (decl : FixtureDecl)
  | mock (decl : MockDecl)
  | extend (decl : ExtendDecl)
  | effect (decl : EffectDecl)
  | model (decl : ModelDecl)
  | server (decl : ServerDecl)
  | schedule (decl : ScheduleDecl)

structure File where
  decls : List Decl

end Corvid.Ast
