import Corvid.Resolve.Scope
import Mathlib.Data.Finset.Insert

/-!
# Name resolution

The two passes over a file: the first enters its declarations into the symbol table, the methods
of its `extend` blocks into a table of their own, and its approval labels into a set; the second
records what every identifier is bound to.

## Main definitions

* `Resolved`: the tables that the resolver leaves
* `resolve`: the resolver
-/

namespace Corvid.Resolve

open Corvid.Ast

/-! ### Tables -/

inductive ResolveErrorKind where
  | undefinedName (name : String)
  | duplicateDecl (name : String) (firstSpan : Span)
  | extendTargetNotAType (name : String)
  | duplicateMethod (typeName methodName : String) (firstSpan : Span)
  | methodFieldCollision (typeName methodName : String) (fieldSpan : Span)
  | unknownReplayPrompt (name : String)
  | unknownReplayTool (name : String)
  | unknownReplayApproval (label : String)
  | replayPatternKindMismatch (name expectedKind actualKind : String)
deriving DecidableEq

structure ResolveError where
  kind : ResolveErrorKind
  span : Span
deriving DecidableEq

inductive ReplayPatternBinding where
  | llm (id : DefId)
  | tool (id : DefId)
  | approve
deriving DecidableEq

inductive MethodKind where
  | tool
  | prompt
  | agent
deriving DecidableEq

def MethodKind.declKind : MethodKind → DeclKind
  | tool => .tool
  | prompt => .prompt
  | agent => .agent

def MethodKind.of : ExtendMethodKind → MethodKind
  | .tool _ => tool
  | .prompt _ => prompt
  | .agent _ => agent

structure MethodEntry where
  defId : DefId
  kind : MethodKind
  span : Span
deriving DecidableEq

/-- The tables that the resolver leaves. -/
structure Resolved where
  symbols : SymbolTable
  bindings : Keyed.Map Span Binding
  errors : List ResolveError
  methods : Keyed.Map DefId (Keyed.Map String MethodEntry)
  replayPatternBindings : Keyed.Map Span ReplayPatternBinding

/-- The innermost scope is the first. -/
structure Resolver extends Resolved where
  scopes : List LocalScope
  nextLocalId : LocalId
  knownApprovalLabels : Finset String

namespace Resolver

def new : Resolver where
  symbols := .empty
  bindings := ∅
  errors := []
  methods := ∅
  replayPatternBindings := ∅
  scopes := []
  nextLocalId := 0
  knownApprovalLabels := ∅

variable (r : Resolver)

def report (kind : ResolveErrorKind) (span : Span) : Resolver :=
  { r with errors := r.errors ++ [⟨kind, span⟩] }

def bind (span : Span) (binding : Binding) : Resolver :=
  { r with bindings := r.bindings.insert span binding }

def bindPattern (span : Span) (binding : ReplayPatternBinding) : Resolver :=
  { r with replayPatternBindings := r.replayPatternBindings.insert span binding }

/-! ### Declarations -/

def declare (name : String) (kind : DeclKind) (span : Span) : Resolver :=
  match r.symbols.declare name kind span with
  | (.ok _, symbols) => { r with symbols }
  | (.error firstSpan, symbols) =>
    Resolver.report { r with symbols } (.duplicateDecl name firstSpan) span

def declareUseItem (item : ImportUseItem) : Resolver :=
  r.declare ((item.aliasName.getD item.name).name) .importedUse item.span

/-- An import binds its alias, or the name of its module, and the names that it lifts. -/
def collectDecl : Decl → Resolver
  | .importDecl i =>
    i.useItems.foldl declareUseItem
      (r.declare ((i.aliasName.map Ident.name).getD i.module) .importDecl i.span)
  | .type d => r.declare d.name.name .type d.span
  | .store d => r.declare d.name.name .store d.span
  | .tool d => r.declare d.name.name .tool d.span
  | .prompt d => r.declare d.name.name .prompt d.span
  | .agent d => r.declare d.name.name .agent d.span
  | .eval d => r.declare d.name.name .eval d.span
  | .test d => r.declare d.name.name .test d.span
  | .fixture d => r.declare d.name.name .fixture d.span
  | .effect d => r.declare d.name.name .effect d.span
  | .model d => r.declare d.name.name .model d.span
  | .server d => r.declare d.name.name .server d.span
  | .mock _ => r
  | .schedule _ => r
  | .extend _ => r

def collectDecls (file : File) : Resolver :=
  file.decls.foldl collectDecl r

/-! ### Methods -/

/-- The spans of the fields of a type, by their names; a later field overwrites an earlier one. -/
def fieldSpans (file : File) (name : String) : Keyed.Map String Span :=
  match file.decls.findSome? fun
    | .type d => if d.name.name = name then some d else none
    | _ => none with
  | some d => d.fields.foldl (fun spans field => spans.insert field.name.name field.span) ∅
  | none => ∅

/-- A method is entered into the table of its type, unless a field or a method has its name. -/
def collectMethod (typeName : String) (typeId : DefId) (spans : Keyed.Map String Span)
    (method : ExtendMethodKind) : Resolver :=
  let table := (r.methods.lookup typeId).getD ∅
  let name := method.name.name
  match spans.lookup name, table.lookup name with
  | some fieldSpan, _ => r.report (.methodFieldCollision typeName name fieldSpan) method.span
  | none, some existing => r.report (.duplicateMethod typeName name existing.span) method.span
  | none, none =>
    let kind := MethodKind.of method
    let (defId, symbols) := r.symbols.allocateDef name kind.declKind method.span
    { r with
      symbols
      methods := r.methods.insert typeId (table.insert name ⟨defId, kind, method.span⟩) }

def collectOneExtend (file : File) (ext : ExtendDecl) : Resolver :=
  let name := ext.typeName.name
  match r.symbols.find name with
  | some (typeId, entry) =>
    if entry.kind = .type then
      ext.methods.foldl (fun r => r.collectMethod name typeId (fieldSpans file name))
        { r with methods := r.methods.insert typeId ((r.methods.lookup typeId).getD ∅) }
    else r.report (.extendTargetNotAType name) ext.typeName.span
  | none => r.report (.extendTargetNotAType name) ext.typeName.span

def collectMethods (file : File) : Resolver :=
  file.decls.foldl (fun r decl =>
    match decl with
    | .extend ext => r.collectOneExtend file ext
    | _ => r) r

/-! ### Approval labels -/

mutual

/-- The labels of the `approve` statements in a statement. -/
def approvalLabelsInStmt : Stmt → Finset String → Finset String
  | .approve (.call (.ident name) _), out => insert name.name out
  | .ifStmt _ thenBlock elseBlock, out =>
    approvalLabelsInElse elseBlock (approvalLabelsInBlock thenBlock out)
  | .forStmt _ _ body, out => approvalLabelsInBlock body out
  | _, out => out

def approvalLabelsInBlock : Block → Finset String → Finset String
  | [], out => out
  | stmt :: stmts, out => approvalLabelsInBlock stmts (approvalLabelsInStmt stmt out)

def approvalLabelsInElse : Option Block → Finset String → Finset String
  | none, out => out
  | some block, out => approvalLabelsInBlock block out

end

def approvalLabelsInMethod (out : Finset String) : ExtendMethodKind → Finset String
  | .agent d => approvalLabelsInBlock d.body out
  | _ => out

def approvalLabelsInDecl (out : Finset String) : Decl → Finset String
  | .agent d => approvalLabelsInBlock d.body out
  | .extend ext => ext.methods.foldl approvalLabelsInMethod out
  | .server d => d.routes.foldl (fun out route => approvalLabelsInBlock route.body out) out
  | _ => out

def collectApprovalLabels (file : File) : Resolver :=
  { r with knownApprovalLabels := file.decls.foldl approvalLabelsInDecl r.knownApprovalLabels }

/-! ### Scopes -/

def pushScope : Resolver :=
  { r with scopes := ∅ :: r.scopes }

def popScope : Resolver :=
  { r with scopes := r.scopes.tail }

/-- A fresh local under a name of the current scope. Names are only entered inside of a scope. -/
def insertLocal (name : String) : LocalId × Resolver :=
  (r.nextLocalId,
    { r with
      nextLocalId := r.nextLocalId + 1
      scopes := r.scopes.modifyHead fun scope => scope.insert name r.nextLocalId })

/-- A fresh local for an identifier. -/
def bindLocal (ident : Ident) : Resolver :=
  let (id, r) := r.insertLocal ident.name
  r.bind ident.span (.localVar id)

/-! ### References -/

/-- The scopes are searched from the innermost one, and then the table of the file. -/
def resolveIdent (ident : Ident) : Resolver :=
  match r.scopes.findSome? fun scope => scope.lookup ident.name with
  | some id => r.bind ident.span (.localVar id)
  | none =>
    match r.symbols.lookup ident.name with
    | some binding => r.bind ident.span binding
    | none => r.report (.undefinedName ident.name) ident.span

/-- A reference to a declaration by its name, whatever the scopes hold. -/
def resolveDecl (ident : Ident) : Resolver :=
  match r.symbols.lookupDef ident.name with
  | some id => r.bind ident.span (.decl id)
  | none => r.report (.undefinedName ident.name) ident.span

def resolveEffectRef (effectRef : EffectRef) : Resolver :=
  match r.symbols.find effectRef.name.name with
  | some (id, entry) =>
    if entry.kind = .effect then r.bind effectRef.name.span (.decl id)
    else r.report (.undefinedName effectRef.name.name) effectRef.span
  | none => r.report (.undefinedName effectRef.name.name) effectRef.span

def resolveEffectRow (row : EffectRow) : Resolver :=
  row.effects.foldl resolveEffectRef r

mutual

def resolveTypeRef : TypeRef → Resolver → Resolver
  | .named name, r => r.resolveIdent name
  | .qualified aliasName _, r => r.resolveIdent aliasName
  | .generic name args, r => resolveTypeRefs args (r.resolveIdent name)
  | .weak inner, r => resolveTypeRef inner r
  | .function params ret, r => resolveTypeRef ret (resolveTypeRefs params r)

def resolveTypeRefs : List TypeRef → Resolver → Resolver
  | [], r => r
  | ty :: tys, r => resolveTypeRefs tys (resolveTypeRef ty r)

end

/-! ### Expressions -/

/-- A pattern names a declaration of the kind that its events come from. -/
def resolveNamedPattern (name : String) (span : Span) (kind : DeclKind)
    (binding : DefId → ReplayPatternBinding) (unknown : ResolveErrorKind) : Resolver :=
  match r.symbols.find name with
  | some (id, entry) =>
    if entry.kind = kind then r.bindPattern span (binding id)
    else
      r.report (.replayPatternKindMismatch name (declKindLabel kind) (declKindLabel entry.kind)) span
  | none => r.report unknown span

def resolveReplayPattern : ReplayPattern → Resolver
  | .llm prompt span =>
    r.resolveNamedPattern prompt span .prompt .llm (.unknownReplayPrompt prompt)
  | .tool tool _ span =>
    r.resolveNamedPattern tool span .tool .tool (.unknownReplayTool tool)
  | .approve label span =>
    if label ∈ r.knownApprovalLabels then r.bindPattern span .approve
    else r.report (.unknownReplayApproval label) span

/-- The capture of the whole event and the one of the argument of a tool. -/
def bindCaptures (pattern : ReplayPattern) (capture : Option Ident) : Resolver :=
  let r := match capture with
    | some capture => r.bindLocal capture
    | none => r
  match pattern with
  | .tool _ (.capture name span) _ =>
    let (id, r) := r.insertLocal name.name
    r.bind span (.localVar id)
  | _ => r

mutual

def resolveExpr : Expr → Resolver → Resolver
  | .literal, r => r
  | .ident name, r => r.resolveIdent name
  | .call callee args, r => resolveExprs args (resolveExpr callee r)
  | .fieldAccess target _, r => resolveExpr target r
  | .index target index, r => resolveExpr index (resolveExpr target r)
  | .binOp left right, r => resolveExpr right (resolveExpr left r)
  | .unOp operand, r => resolveExpr operand r
  | .list items, r => resolveExprs items r
  | .tryPropagate inner, r => resolveExpr inner r
  | .tryRetry body, r => resolveExpr body r
  | .replay trace arms elseBody, r =>
    resolveExpr elseBody (resolveReplayArms arms (resolveExpr trace r))

def resolveExprs : List Expr → Resolver → Resolver
  | [], r => r
  | expr :: exprs, r => resolveExprs exprs (resolveExpr expr r)

def resolveReplayArm : ReplayArm → Resolver → Resolver
  | .mk pattern capture body, r =>
    (resolveExpr body ((r.resolveReplayPattern pattern).pushScope.bindCaptures pattern
      capture)).popScope

def resolveReplayArms : List ReplayArm → Resolver → Resolver
  | [], r => r
  | arm :: arms, r => resolveReplayArms arms (resolveReplayArm arm r)

end

/-! ### Statements -/

/-- The callee of an action is a label and no reference. -/
def resolveApproveAction : Expr → Resolver
  | .call _ args => resolveExprs args r
  | action => resolveExpr action r

/-- An assignment reuses the local that the current scope has under its name. -/
def resolveTarget (name : Ident) : Resolver :=
  match r.scopes.head?.bind fun scope => scope.lookup name.name with
  | some existing => r.bind name.span (.localVar existing)
  | none => r.bindLocal name

mutual

def resolveStmt : Stmt → Resolver → Resolver
  | .letStmt name ty value, r =>
    let r := match ty with
      | some ty => resolveTypeRef ty r
      | none => r
    (resolveExpr value r).resolveTarget name
  | .returnStmt value, r =>
    match value with
    | some value => resolveExpr value r
    | none => r
  | .yieldStmt value, r => resolveExpr value r
  | .ifStmt cond thenBlock elseBlock, r =>
    resolveElse elseBlock (resolveBlock thenBlock (resolveExpr cond r))
  | .forStmt var iter body, r => resolveBlock body ((resolveExpr iter r).bindLocal var)
  | .approve action, r => r.resolveApproveAction action
  | .expr expr, r => resolveExpr expr r

def resolveBlock : Block → Resolver → Resolver
  | [], r => r
  | stmt :: stmts, r => resolveBlock stmts (resolveStmt stmt r)

def resolveElse : Option Block → Resolver → Resolver
  | none, r => r
  | some block, r => resolveBlock block r

end

/-! ### The second pass -/

def resolveField (field : Field) : Resolver :=
  resolveTypeRef field.ty r

/-- A parameter whose name is entered into the scope. -/
def resolveParam (param : Param) : Resolver :=
  (resolveTypeRef param.ty r).bindLocal param.name

def resolveOptionalTypeRef (ty : Option TypeRef) : Resolver :=
  match ty with
  | some ty => resolveTypeRef ty r
  | none => r

def resolveToolDecl (d : ToolDecl) : Resolver :=
  let r := d.params.foldl (fun r param => resolveTypeRef param.ty r) r
  (resolveTypeRef d.returnTy r).resolveEffectRow d.effectRow

def resolveOptionalDecl (model : Option Ident) : Resolver :=
  match model with
  | some model => r.resolveDecl model
  | none => r

def resolveRouteArm (arm : RouteArm) : Resolver :=
  let r := match arm.pattern with
    | .guard expr => resolveExpr expr r
    | .wildcard => r
  r.resolveDecl arm.model

/-- The models that a prompt is dispatched to, with the guards of its routes. -/
def resolveStages (d : PromptDecl) : Resolver :=
  let r := r.resolveOptionalDecl d.stream.escalateTo
  let r := match d.route with
    | some route => route.arms.foldl resolveRouteArm r
    | none => r
  let r := match d.progressive with
    | some chain => chain.stages.foldl (fun r stage => r.resolveDecl stage.model) r
    | none => r
  let r := match d.rollout with
    | some spec => (r.resolveDecl spec.variantModel).resolveDecl spec.baseline
    | none => r
  let r := match d.ensemble with
    | some spec => (spec.models.foldl resolveDecl r).resolveOptionalDecl spec.disagreementEscalation
    | none => r
  match d.adversarial with
  | some spec =>
    ((r.resolveDecl spec.proposer).resolveDecl spec.challenger).resolveDecl spec.adjudicator
  | none => r

def resolvePromptDecl (d : PromptDecl) : Resolver :=
  let r := d.params.foldl resolveParam r.pushScope
  let r := (resolveTypeRef d.returnTy r).resolveEffectRow d.effectRow
  (r.resolveStages d).popScope

def resolveAgentDecl (d : AgentDecl) : Resolver :=
  let r := d.params.foldl resolveParam r.pushScope
  let r := (resolveTypeRef d.returnTy r).resolveEffectRow d.effectRow
  (resolveBlock d.body r).popScope

def resolveHttpRouteDecl (route : HttpRouteDecl) : Resolver :=
  let r := route.pathParams.foldl (fun r param => resolveTypeRef param.ty r) r
  let r := (r.resolveOptionalTypeRef route.queryTy).resolveOptionalTypeRef route.bodyTy
  let r := (resolveTypeRef route.responseTy r).resolveEffectRow route.effectRow
  let r := (r.pushScope.insertLocal "path").2
  let r := if route.queryTy.isSome then (r.insertLocal "query").2 else r
  let r := if route.bodyTy.isSome then (r.insertLocal "body").2 else r
  (resolveBlock route.body r).popScope

def resolveEvalAssert : EvalAssert → Resolver
  | .value expr => resolveExpr expr r
  | .snapshot expr => resolveExpr expr r
  | .called tool => r.resolveIdent tool
  | .approved _ => r
  | .cost => r
  | .ordering before after => (r.resolveIdent before).resolveIdent after

def resolveAsserted (body : Block) (assertions : List EvalAssert) : Resolver :=
  (assertions.foldl resolveEvalAssert (resolveBlock body r.pushScope)).popScope

def resolveFixtureDecl (d : FixtureDecl) : Resolver :=
  let r := d.params.foldl resolveParam r.pushScope
  (resolveBlock d.body (resolveTypeRef d.returnTy r)).popScope

def resolveMockDecl (d : MockDecl) : Resolver :=
  let r := d.params.foldl resolveParam (r.resolveIdent d.target).pushScope
  let r := (resolveTypeRef d.returnTy r).resolveEffectRow d.effectRow
  (resolveBlock d.body r).popScope

def resolveMethod : ExtendMethodKind → Resolver
  | .agent d => r.resolveAgentDecl d
  | .prompt d => r.resolvePromptDecl d
  | .tool d => r.resolveToolDecl d

def resolveDeclaration : Decl → Resolver
  | .importDecl _ => r
  | .type d => d.fields.foldl resolveField r
  | .store d => d.fields.foldl resolveField r
  | .tool d => r.resolveToolDecl d
  | .prompt d => r.resolvePromptDecl d
  | .agent d => r.resolveAgentDecl d
  | .eval d => r.resolveAsserted d.body d.assertions
  | .test d => r.resolveAsserted d.body d.assertions
  | .fixture d => r.resolveFixtureDecl d
  | .mock d => r.resolveMockDecl d
  | .effect _ => r
  | .model _ => r
  | .server d => d.routes.foldl resolveHttpRouteDecl r
  | .schedule d => (resolveExprs d.args r).resolveEffectRow d.effectRow
  | .extend ext => ext.methods.foldl resolveMethod r

def resolveFile (file : File) : Resolver :=
  file.decls.foldl resolveDeclaration r

end Resolver

def resolve (file : File) : Resolved :=
  ((((Resolver.new.collectDecls file).collectMethods file).collectApprovalLabels
    file).resolveFile file).toResolved

end Corvid.Resolve
