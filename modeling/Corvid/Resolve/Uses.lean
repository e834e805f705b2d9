import Corvid.Resolve.DepGraph

/-!
# What a declaration refers to

The uses of a declaration are all the places where it can name another one: its types, the
identifiers and patterns of its expressions, its assertions, the stages of a prompt, its effects.
The walk of the dependency graph comes to some of these places only, and it collects just the
declarations that are named there.

## Main definitions

* `uses`: the uses of a declaration
* `Refers`: a declaration refers to another one somewhere

## Main results

* `mem_collectDeclDeps`: what the walk collects
-/

namespace Corvid.Resolve

open Corvid.Ast

/-! ### Places -/

/-- The places at which a declaration is named. -/
inductive Position where
  /-- The type of a parameter, a field or a result. -/
  | type
  /-- The type of an annotated binding. -/
  | letType
  | identifier
  /-- The pattern of a replay arm. -/
  | pattern
  | assertion
  /-- A model that a prompt is dispatched to. -/
  | stage
  /-- The condition of a route. -/
  | guard
  | effect
  /-- What is mocked, extended or scheduled. -/
  | target
  | method
deriving DecidableEq

/-- The walk comes to the place. -/
def Position.visited : Position → Bool
  | type => true
  | identifier => true
  | assertion => true
  | letType => false
  | pattern => false
  | stage => false
  | guard => false
  | effect => false
  | target => false
  | method => false

/-- A type is looked up by its name; identifiers and patterns are looked up by where they stand. -/
inductive Reference where
  | name (name : String)
  | ident (span : Span)
  | pattern (span : Span)
deriving DecidableEq

/-- The declaration that is referred to. -/
def Reference.target (resolved : Resolved) : Reference → Option DefId
  | name n => resolved.symbols.lookupDef n
  | ident span =>
    match resolved.bindings.lookup span with
    | some (.decl id) => some id
    | _ => none
  | pattern span =>
    match resolved.replayPatternBindings.lookup span with
    | some (.llm id) => some id
    | some (.tool id) => some id
    | _ => none

structure Use where
  position : Position
  reference : Reference
deriving DecidableEq

namespace Use

def type (name : Ident) : Use := ⟨.type, .name name.name⟩

/-- An identifier at a given place. -/
def ident (position : Position) (name : Ident) : Use := ⟨position, .ident name.span⟩

/-- The use as part of another place. -/
def within (position : Position) (use : Use) : Use := { use with position }

end Use

/-! ### The uses of a declaration -/

mutual

def typeUses : TypeRef → List Use
  | .named name => [.type name]
  | .qualified aliasName _ => [.type aliasName]
  | .generic name args => .type name :: typesUses args
  | .weak inner => typeUses inner
  | .function params ret => typesUses params ++ typeUses ret

def typesUses : List TypeRef → List Use
  | [] => []
  | ty :: tys => typeUses ty ++ typesUses tys

end

mutual

def exprUses : Expr → List Use
  | .literal => []
  | .ident name => [.ident .identifier name]
  | .call callee args => exprUses callee ++ exprsUses args
  | .fieldAccess target _ => exprUses target
  | .index target index => exprUses target ++ exprUses index
  | .binOp left right => exprUses left ++ exprUses right
  | .unOp operand => exprUses operand
  | .list items => exprsUses items
  | .tryPropagate inner => exprUses inner
  | .tryRetry body => exprUses body
  | .replay trace arms elseBody => exprUses trace ++ armsUses arms ++ exprUses elseBody

def exprsUses : List Expr → List Use
  | [] => []
  | expr :: exprs => exprUses expr ++ exprsUses exprs

def armUses : ReplayArm → List Use
  | .mk pattern _ body => ⟨.pattern, .pattern pattern.span⟩ :: exprUses body

def armsUses : List ReplayArm → List Use
  | [] => []
  | arm :: arms => armUses arm ++ armsUses arms

end

def annotationUses (ty : Option TypeRef) : List Use :=
  (ty.elim [] typeUses).map (Use.within .letType)

mutual

def stmtUses : Stmt → List Use
  | .letStmt _ ty value => annotationUses ty ++ exprUses value
  | .returnStmt value => value.elim [] exprUses
  | .yieldStmt value => exprUses value
  | .ifStmt cond thenBlock elseBlock => exprUses cond ++ blockUses thenBlock ++ elseUses elseBlock
  | .forStmt _ iter body => exprUses iter ++ blockUses body
  | .approve action => exprUses action
  | .expr expr => exprUses expr

def blockUses : Block → List Use
  | [] => []
  | stmt :: stmts => stmtUses stmt ++ blockUses stmts

def elseUses : Option Block → List Use
  | none => []
  | some block => blockUses block

end

def paramsUses (params : List Param) : List Use :=
  params.flatMap fun param => typeUses param.ty

def fieldsUses (fields : List Field) : List Use :=
  fields.flatMap fun field => typeUses field.ty

def effectUses (row : EffectRow) : List Use :=
  row.effects.map fun effectRef => .ident .effect effectRef.name

def assertUses : EvalAssert → List Use
  | .value expr => exprUses expr
  | .snapshot expr => exprUses expr
  | .called tool => [.ident .assertion tool]
  | .approved _ => []
  | .cost => []
  | .ordering before after => [.ident .assertion before, .ident .assertion after]

def routeArmUses (arm : RouteArm) : List Use :=
  let guard := match arm.pattern with
    | .guard expr => exprUses expr
    | .wildcard => []
  guard.map (Use.within .guard) ++ [.ident .stage arm.model]

/-- The models that a prompt is dispatched to. -/
def stageModels (d : PromptDecl) : List Ident :=
  d.stream.escalateTo.toList ++
  (d.progressive.elim [] fun chain => chain.stages.map ProgressiveStage.model) ++
  (d.rollout.elim [] fun spec => [spec.variantModel, spec.baseline]) ++
  (d.ensemble.elim [] fun spec => spec.models ++ spec.disagreementEscalation.toList) ++
  (d.adversarial.elim [] fun spec => [spec.proposer, spec.challenger, spec.adjudicator])

def stageUses (d : PromptDecl) : List Use :=
  (d.route.elim [] fun route => route.arms.flatMap routeArmUses) ++
  (stageModels d).map (Use.ident .stage)

def signatureUses (params : List Param) (returnTy : TypeRef) : List Use :=
  paramsUses params ++ typeUses returnTy

def toolUses (d : ToolDecl) : List Use :=
  signatureUses d.params d.returnTy ++ effectUses d.effectRow

def promptUses (d : PromptDecl) : List Use :=
  signatureUses d.params d.returnTy ++ effectUses d.effectRow ++ stageUses d

def agentUses (d : AgentDecl) : List Use :=
  signatureUses d.params d.returnTy ++ effectUses d.effectRow ++ blockUses d.body

def assertedUses (body : Block) (assertions : List EvalAssert) : List Use :=
  blockUses body ++ assertions.flatMap assertUses

def httpRouteUses (route : HttpRouteDecl) : List Use :=
  (route.pathParams.flatMap fun param => typeUses param.ty) ++
  route.queryTy.elim [] typeUses ++ route.bodyTy.elim [] typeUses ++ typeUses route.responseTy ++
  effectUses route.effectRow ++ blockUses route.body

def methodUses : ExtendMethodKind → List Use
  | .tool d => toolUses d
  | .prompt d => promptUses d
  | .agent d => agentUses d

/-- All uses inside of a declaration. -/
def uses : Decl → List Use
  | .importDecl d => effectUses d.effectRow
  | .type d => fieldsUses d.fields
  | .store d => fieldsUses d.fields
  | .tool d => toolUses d
  | .prompt d => promptUses d
  | .agent d => agentUses d
  | .eval d => assertedUses d.body d.assertions
  | .test d => assertedUses d.body d.assertions
  | .fixture d => signatureUses d.params d.returnTy ++ blockUses d.body
  | .mock d =>
    .ident .target d.target ::
      (signatureUses d.params d.returnTy ++ effectUses d.effectRow ++ blockUses d.body)
  | .extend d =>
    ⟨.target, .name d.typeName.name⟩ :: (d.methods.flatMap methodUses).map (Use.within .method)
  | .effect _ => []
  | .model _ => []
  | .server d => d.routes.flatMap httpRouteUses
  | .schedule d => .ident .target d.target :: (exprsUses d.args ++ effectUses d.effectRow)

/-- The declaration refers to another one somewhere. -/
def Refers (resolved : Resolved) (decl : Decl) (id : DefId) : Prop :=
  ∃ use ∈ uses decl, use.reference.target resolved = some id

/-! ### What the walk collects -/

/-- One of the uses refers to the declaration, and the walk comes to it. -/
def Finds (resolved : Resolved) (us : List Use) (id : DefId) : Prop :=
  ∃ use ∈ us, use.position.visited ∧ use.reference.target resolved = some id

variable {resolved : Resolved} {us vs : List Use} {id : DefId} {deps : Finset DefId}

@[simp] theorem not_finds_nil : ¬ Finds resolved [] id := by
  simp [Finds]

@[simp] theorem finds_cons {use : Use} : Finds resolved (use :: us) id ↔
    use.position.visited ∧ use.reference.target resolved = some id ∨ Finds resolved us id := by
  simp [Finds]

@[simp] theorem finds_append :
    Finds resolved (us ++ vs) id ↔ Finds resolved us id ∨ Finds resolved vs id := by
  simp [Finds, or_and_right, exists_or]

theorem finds_flatMap {α : Type*} {l : List α} {f : α → List Use} :
    Finds resolved (l.flatMap f) id ↔ ∃ a ∈ l, Finds resolved (f a) id := by
  simp only [Finds, List.mem_flatMap]
  constructor
  · rintro ⟨use, ⟨a, ha, huse⟩, h⟩
    exact ⟨a, ha, use, huse, h⟩
  · rintro ⟨a, ha, use, huse, h⟩
    exact ⟨use, ⟨a, ha, huse⟩, h⟩

/-- Within a place that the walk does not come to, it finds nothing. -/
theorem not_finds_map_within {position : Position} (h : position.visited = false) :
    ¬ Finds resolved (us.map (Use.within position)) id := by
  rintro ⟨use, huse, hvisited, -⟩
  obtain ⟨inner, -, rfl⟩ := List.mem_map.mp huse
  simp [Use.within, h] at hvisited

theorem not_finds_map_ident {position : Position} (h : position.visited = false)
    {idents : List Ident} : ¬ Finds resolved (idents.map (Use.ident position)) id := by
  rintro ⟨use, huse, hvisited, -⟩
  obtain ⟨inner, -, rfl⟩ := List.mem_map.mp huse
  simp [Use.ident, h] at hvisited

@[simp] theorem not_finds_annotationUses {ty : Option TypeRef} :
    ¬ Finds resolved (annotationUses ty) id :=
  not_finds_map_within rfl

@[simp] theorem not_finds_effectUses {row : EffectRow} : ¬ Finds resolved (effectUses row) id := by
  rintro ⟨use, huse, hvisited, -⟩
  obtain ⟨effectRef, -, rfl⟩ := List.mem_map.mp huse
  cases hvisited

@[simp] theorem not_finds_routeArmUses {arm : RouteArm} :
    ¬ Finds resolved (routeArmUses arm) id := by
  rw [routeArmUses, finds_append]
  rintro (h | h)
  · exact not_finds_map_within rfl h
  · simp [Position.visited, Use.ident] at h

@[simp] theorem not_finds_stageUses {d : PromptDecl} : ¬ Finds resolved (stageUses d) id := by
  rw [stageUses, finds_append]
  rintro (h | h)
  · cases hroute : d.route with
    | none => simp [hroute] at h
    | some route =>
      rw [hroute, Option.elim_some, finds_flatMap] at h
      obtain ⟨arm, -, harm⟩ := h
      exact not_finds_routeArmUses harm
  · exact not_finds_map_ident rfl h

/-- A fold finds what its steps find. -/
theorem mem_foldl_deps {α : Type*} {f : Finset DefId → α → Finset DefId} {g : α → List Use}
    (h : ∀ deps a, id ∈ f deps a ↔ id ∈ deps ∨ Finds resolved (g a) id) (l : List α)
    (deps : Finset DefId) :
    id ∈ l.foldl f deps ↔ id ∈ deps ∨ Finds resolved (l.flatMap g) id := by
  induction l generalizing deps with
  | nil => simp
  | cons a l ih => simp [ih, h, or_assoc]

theorem mem_collectIdentDep {span : Span} : id ∈ collectIdentDep resolved span deps ↔
    id ∈ deps ∨ (Reference.ident span).target resolved = some id := by
  rw [collectIdentDep, Reference.target]
  generalize resolved.bindings.lookup span = found
  cases found with
  | none => simp
  | some binding => cases binding <;> simp [or_comm, eq_comm]

theorem mem_collectNameDep {name : String} : id ∈ collectNameDep resolved name deps ↔
    id ∈ deps ∨ (Reference.name name).target resolved = some id := by
  rw [collectNameDep, Reference.target]
  generalize resolved.symbols.lookupDef name = found
  cases found <;> simp [or_comm, eq_comm]

mutual

theorem mem_collectTypeRefDep : ∀ (ty : TypeRef) (deps : Finset DefId),
    id ∈ collectTypeRefDep resolved ty deps ↔ id ∈ deps ∨ Finds resolved (typeUses ty) id
  | .named name, deps => by
    simp [collectTypeRefDep, typeUses, Use.type, Position.visited, mem_collectNameDep]
  | .qualified aliasName name, deps => by
    simp [collectTypeRefDep, typeUses, Use.type, Position.visited, mem_collectNameDep]
  | .generic name args, deps => by
    simp [collectTypeRefDep, typeUses, Use.type, Position.visited, mem_collectNameDep,
      mem_collectTypeRefDeps args, or_assoc]
  | .weak inner, deps => by
    simp [collectTypeRefDep, typeUses, mem_collectTypeRefDep inner]
  | .function params ret, deps => by
    simp [collectTypeRefDep, typeUses, mem_collectTypeRefDep ret, mem_collectTypeRefDeps params,
      or_assoc]

theorem mem_collectTypeRefDeps : ∀ (tys : List TypeRef) (deps : Finset DefId),
    id ∈ collectTypeRefDeps resolved tys deps ↔ id ∈ deps ∨ Finds resolved (typesUses tys) id
  | [], deps => by simp [collectTypeRefDeps, typesUses]
  | ty :: tys, deps => by
    simp [collectTypeRefDeps, typesUses, mem_collectTypeRefDep ty, mem_collectTypeRefDeps tys,
      or_assoc]

end

mutual

theorem mem_collectExprDeps : ∀ (expr : Expr) (deps : Finset DefId),
    id ∈ collectExprDeps resolved expr deps ↔ id ∈ deps ∨ Finds resolved (exprUses expr) id
  | .literal, deps => by simp [collectExprDeps, exprUses]
  | .ident name, deps => by
    simp [collectExprDeps, exprUses, Use.ident, Position.visited, mem_collectIdentDep]
  | .call callee args, deps => by
    simp [collectExprDeps, exprUses, mem_collectExprDeps callee, mem_collectExprsDeps args, or_assoc]
  | .fieldAccess target field, deps => by
    simp [collectExprDeps, exprUses, mem_collectExprDeps target]
  | .index target index, deps => by
    simp [collectExprDeps, exprUses, mem_collectExprDeps target, mem_collectExprDeps index, or_assoc]
  | .binOp left right, deps => by
    simp [collectExprDeps, exprUses, mem_collectExprDeps left, mem_collectExprDeps right, or_assoc]
  | .unOp operand, deps => by
    simp [collectExprDeps, exprUses, mem_collectExprDeps operand]
  | .list items, deps => by
    simp [collectExprDeps, exprUses, mem_collectExprsDeps items]
  | .tryPropagate inner, deps => by
    simp [collectExprDeps, exprUses, mem_collectExprDeps inner]
  | .tryRetry body, deps => by
    simp [collectExprDeps, exprUses, mem_collectExprDeps body]
  | .replay trace arms elseBody, deps => by
    simp [collectExprDeps, exprUses, mem_collectExprDeps trace, mem_collectArmsDeps arms,
      mem_collectExprDeps elseBody, or_assoc]

theorem mem_collectExprsDeps : ∀ (exprs : List Expr) (deps : Finset DefId),
    id ∈ collectExprsDeps resolved exprs deps ↔ id ∈ deps ∨ Finds resolved (exprsUses exprs) id
  | [], deps => by simp [collectExprsDeps, exprsUses]
  | expr :: exprs, deps => by
    simp [collectExprsDeps, exprsUses, mem_collectExprDeps expr, mem_collectExprsDeps exprs, or_assoc]

theorem mem_collectArmDeps : ∀ (arm : ReplayArm) (deps : Finset DefId),
    id ∈ collectArmDeps resolved arm deps ↔ id ∈ deps ∨ Finds resolved (armUses arm) id
  | .mk pattern capture body, deps => by
    -- the pattern is a use that the walk does not come to
    simp [collectArmDeps, armUses, Position.visited, mem_collectExprDeps body]

theorem mem_collectArmsDeps : ∀ (arms : List ReplayArm) (deps : Finset DefId),
    id ∈ collectArmsDeps resolved arms deps ↔ id ∈ deps ∨ Finds resolved (armsUses arms) id
  | [], deps => by simp [collectArmsDeps, armsUses]
  | arm :: arms, deps => by
    simp [collectArmsDeps, armsUses, mem_collectArmDeps arm, mem_collectArmsDeps arms, or_assoc]

end

mutual

theorem mem_collectStmtDeps : ∀ (stmt : Stmt) (deps : Finset DefId),
    id ∈ collectStmtDeps resolved stmt deps ↔ id ∈ deps ∨ Finds resolved (stmtUses stmt) id
  | .letStmt name ty value, deps => by
    simp [collectStmtDeps, stmtUses, mem_collectExprDeps]
  | .returnStmt (some value), deps => by
    simp [collectStmtDeps, stmtUses, mem_collectExprDeps]
  | .returnStmt none, deps => by simp [collectStmtDeps, stmtUses]
  | .yieldStmt value, deps => by
    simp [collectStmtDeps, stmtUses, mem_collectExprDeps]
  | .ifStmt cond thenBlock elseBlock, deps => by
    simp [collectStmtDeps, stmtUses, mem_collectExprDeps, mem_collectBlockDeps thenBlock,
      mem_collectElseDeps elseBlock, or_assoc]
  | .forStmt var iter body, deps => by
    simp [collectStmtDeps, stmtUses, mem_collectExprDeps, mem_collectBlockDeps body, or_assoc]
  | .approve action, deps => by
    simp [collectStmtDeps, stmtUses, mem_collectExprDeps]
  | .expr expr, deps => by
    simp [collectStmtDeps, stmtUses, mem_collectExprDeps]

theorem mem_collectBlockDeps : ∀ (block : Block) (deps : Finset DefId),
    id ∈ collectBlockDeps resolved block deps ↔ id ∈ deps ∨ Finds resolved (blockUses block) id
  | [], deps => by simp [collectBlockDeps, blockUses]
  | stmt :: stmts, deps => by
    simp [collectBlockDeps, blockUses, mem_collectStmtDeps stmt, mem_collectBlockDeps stmts, or_assoc]

theorem mem_collectElseDeps : ∀ (block : Option Block) (deps : Finset DefId),
    id ∈ collectElseDeps resolved block deps ↔ id ∈ deps ∨ Finds resolved (elseUses block) id
  | none, deps => by simp [collectElseDeps, elseUses]
  | some block, deps => by simp [collectElseDeps, elseUses, mem_collectBlockDeps block]

end

theorem mem_collectParamsDeps {params : List Param} :
    id ∈ collectParamsDeps resolved params deps ↔
      id ∈ deps ∨ Finds resolved (paramsUses params) id :=
  mem_foldl_deps (fun deps param => mem_collectTypeRefDep param.ty deps) params deps

theorem mem_collectFieldsDeps {fields : List Field} :
    id ∈ collectFieldsDeps resolved fields deps ↔
      id ∈ deps ∨ Finds resolved (fieldsUses fields) id :=
  mem_foldl_deps (fun deps field => mem_collectTypeRefDep field.ty deps) fields deps

theorem mem_collectAssertDeps (deps : Finset DefId) (assertion : EvalAssert) :
    id ∈ collectAssertDeps resolved deps assertion ↔
      id ∈ deps ∨ Finds resolved (assertUses assertion) id := by
  cases assertion <;>
    simp [collectAssertDeps, assertUses, mem_collectExprDeps, mem_collectIdentDep, Use.ident,
      Position.visited, or_assoc]

theorem mem_collectOptionalDep {ty : Option TypeRef} :
    id ∈ collectOptionalDep resolved ty deps ↔
      id ∈ deps ∨ Finds resolved (ty.elim [] typeUses) id := by
  cases ty <;> simp [collectOptionalDep, mem_collectTypeRefDep]

theorem mem_collectRouteDeps (deps : Finset DefId) (route : HttpRouteDecl) :
    id ∈ collectRouteDeps resolved deps route ↔
      id ∈ deps ∨ Finds resolved (httpRouteUses route) id := by
  have hparams : id ∈ route.pathParams.foldl
      (fun deps param => collectTypeRefDep resolved param.ty deps) deps ↔
      id ∈ deps ∨ Finds resolved (route.pathParams.flatMap fun param => typeUses param.ty) id :=
    mem_foldl_deps (fun deps param => mem_collectTypeRefDep param.ty deps) route.pathParams deps
  simp [collectRouteDeps, httpRouteUses, mem_collectBlockDeps, mem_collectTypeRefDep,
    mem_collectOptionalDep, hparams, or_assoc]

theorem mem_collectCallableDeps {params : List Param} {returnTy : TypeRef} {body : Block} :
    id ∈ collectCallableDeps resolved params returnTy body deps ↔
      id ∈ deps ∨ Finds resolved (signatureUses params returnTy ++ blockUses body) id := by
  simp [collectCallableDeps, signatureUses, mem_collectBlockDeps, mem_collectTypeRefDep,
    mem_collectParamsDeps, or_assoc]

/-- The walk collects the declarations that are referred to where it comes to. -/
theorem mem_collectDeclDeps (deps : Finset DefId) (decl : Decl) :
    id ∈ collectDeclDeps resolved deps decl ↔ id ∈ deps ∨ Finds resolved (uses decl) id := by
  cases decl with
  | importDecl d => simp [collectDeclDeps, uses]
  | type d => simp [collectDeclDeps, uses, mem_collectFieldsDeps]
  | store d => simp [collectDeclDeps, uses, mem_collectFieldsDeps]
  | tool d =>
    simp [collectDeclDeps, uses, toolUses, signatureUses, mem_collectTypeRefDep,
      mem_collectParamsDeps, or_assoc]
  | prompt d =>
    simp [collectDeclDeps, uses, promptUses, signatureUses, mem_collectTypeRefDep,
      mem_collectParamsDeps, or_assoc]
  | agent d => simp [collectDeclDeps, uses, agentUses, mem_collectCallableDeps]
  | eval d =>
    rw [collectDeclDeps, mem_foldl_deps mem_collectAssertDeps, mem_collectBlockDeps, uses,
      assertedUses, finds_append, or_assoc]
  | test d =>
    rw [collectDeclDeps, mem_foldl_deps mem_collectAssertDeps, mem_collectBlockDeps, uses,
      assertedUses, finds_append, or_assoc]
  | fixture d => rw [collectDeclDeps, mem_collectCallableDeps, uses]
  | mock d => simp [collectDeclDeps, uses, Use.ident, Position.visited, mem_collectCallableDeps]
  | extend d =>
    have hmethods : ¬ Finds resolved ((d.methods.flatMap methodUses).map (Use.within .method)) id :=
      not_finds_map_within rfl
    simp [collectDeclDeps, uses, Position.visited, hmethods]
  | effect d => simp [collectDeclDeps, uses]
  | model d => simp [collectDeclDeps, uses]
  | server d => exact mem_foldl_deps mem_collectRouteDeps d.routes deps
  | schedule d =>
    simp [collectDeclDeps, uses, Use.ident, Position.visited, mem_collectExprsDeps]

end Corvid.Resolve
