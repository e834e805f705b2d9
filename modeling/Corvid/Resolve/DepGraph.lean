import Corvid.Lib.Worklist
import Corvid.Resolve.Resolver
import Mathlib.Data.Finset.Union

/-!
# The dependency graph of a file

Which declarations reference which others. A walk over each declaration collects the declarations
that its type references, identifiers and assertions are bound to; the redefinition of a
declaration affects all from which it is reached.

## Main definitions

* `buildDepGraph`: the graph of a resolved file
* `DepGraph.transitiveDependents`: the declarations that a redefinition affects
-/

namespace Corvid.Resolve

open Corvid.Ast

/-! ### The walk -/

section Collect

variable (resolved : Resolved)

/-- The declaration that an identifier is bound to, if it is bound to one. -/
def collectIdentDep (span : Span) (deps : Finset DefId) : Finset DefId :=
  match resolved.bindings.lookup span with
  | some (.decl id) => insert id deps
  | _ => deps

def collectNameDep (name : String) (deps : Finset DefId) : Finset DefId :=
  match resolved.symbols.lookupDef name with
  | some id => insert id deps
  | none => deps

mutual

def collectTypeRefDep : TypeRef → Finset DefId → Finset DefId
  | .named name, deps => collectNameDep resolved name.name deps
  | .qualified aliasName _, deps => collectNameDep resolved aliasName.name deps
  | .generic name args, deps => collectTypeRefDeps args (collectNameDep resolved name.name deps)
  | .weak inner, deps => collectTypeRefDep inner deps
  | .function params ret, deps => collectTypeRefDep ret (collectTypeRefDeps params deps)

def collectTypeRefDeps : List TypeRef → Finset DefId → Finset DefId
  | [], deps => deps
  | ty :: tys, deps => collectTypeRefDeps tys (collectTypeRefDep ty deps)

end

mutual

/-- The patterns of a replay block are not looked at. -/
def collectExprDeps : Expr → Finset DefId → Finset DefId
  | .ident name, deps => collectIdentDep resolved name.span deps
  | .call callee args, deps => collectExprsDeps args (collectExprDeps callee deps)
  | .fieldAccess target _, deps => collectExprDeps target deps
  | .index target index, deps => collectExprDeps index (collectExprDeps target deps)
  | .binOp left right, deps => collectExprDeps right (collectExprDeps left deps)
  | .unOp operand, deps => collectExprDeps operand deps
  | .list items, deps => collectExprsDeps items deps
  | .tryPropagate inner, deps => collectExprDeps inner deps
  | .tryRetry body, deps => collectExprDeps body deps
  | .replay trace arms elseBody, deps =>
    collectExprDeps elseBody (collectArmsDeps arms (collectExprDeps trace deps))
  | .literal, deps => deps

def collectExprsDeps : List Expr → Finset DefId → Finset DefId
  | [], deps => deps
  | expr :: exprs, deps => collectExprsDeps exprs (collectExprDeps expr deps)

def collectArmDeps : ReplayArm → Finset DefId → Finset DefId
  | .mk _ _ body, deps => collectExprDeps body deps

def collectArmsDeps : List ReplayArm → Finset DefId → Finset DefId
  | [], deps => deps
  | arm :: arms, deps => collectArmsDeps arms (collectArmDeps arm deps)

end

mutual

/-- The annotation of a binding is not looked at. -/
def collectStmtDeps : Stmt → Finset DefId → Finset DefId
  | .letStmt _ _ value, deps => collectExprDeps resolved value deps
  | .returnStmt (some value), deps => collectExprDeps resolved value deps
  | .returnStmt none, deps => deps
  | .yieldStmt value, deps => collectExprDeps resolved value deps
  | .ifStmt cond thenBlock elseBlock, deps =>
    collectElseDeps elseBlock (collectBlockDeps thenBlock (collectExprDeps resolved cond deps))
  | .forStmt _ iter body, deps => collectBlockDeps body (collectExprDeps resolved iter deps)
  | .approve action, deps => collectExprDeps resolved action deps
  | .expr expr, deps => collectExprDeps resolved expr deps

def collectBlockDeps : Block → Finset DefId → Finset DefId
  | [], deps => deps
  | stmt :: stmts, deps => collectBlockDeps stmts (collectStmtDeps stmt deps)

def collectElseDeps : Option Block → Finset DefId → Finset DefId
  | none, deps => deps
  | some block, deps => collectBlockDeps block deps

end

def collectParamsDeps (params : List Param) (deps : Finset DefId) : Finset DefId :=
  params.foldl (fun deps param => collectTypeRefDep resolved param.ty deps) deps

def collectFieldsDeps (fields : List Field) (deps : Finset DefId) : Finset DefId :=
  fields.foldl (fun deps field => collectTypeRefDep resolved field.ty deps) deps

def collectAssertDeps (deps : Finset DefId) : EvalAssert → Finset DefId
  | .value expr => collectExprDeps resolved expr deps
  | .snapshot expr => collectExprDeps resolved expr deps
  | .called tool => collectIdentDep resolved tool.span deps
  | .approved _ => deps
  | .cost => deps
  | .ordering before after =>
    collectIdentDep resolved after.span (collectIdentDep resolved before.span deps)

def collectOptionalDep (ty : Option TypeRef) (deps : Finset DefId) : Finset DefId :=
  match ty with
  | some ty => collectTypeRefDep resolved ty deps
  | none => deps

def collectRouteDeps (deps : Finset DefId) (route : HttpRouteDecl) : Finset DefId :=
  let deps := route.pathParams.foldl (fun deps param => collectTypeRefDep resolved param.ty deps) deps
  let deps := collectOptionalDep resolved route.queryTy deps
  let deps := collectOptionalDep resolved route.bodyTy deps
  collectBlockDeps resolved route.body (collectTypeRefDep resolved route.responseTy deps)

/-- Parameters, return type and body. -/
def collectCallableDeps (params : List Param) (returnTy : TypeRef) (body : Block)
    (deps : Finset DefId) : Finset DefId :=
  collectBlockDeps resolved body
    (collectTypeRefDep resolved returnTy (collectParamsDeps resolved params deps))

/-- Of a prompt the stages are not looked at, and of no declaration the effects. -/
def collectDeclDeps (deps : Finset DefId) : Decl → Finset DefId
  | .agent d => collectCallableDeps resolved d.params d.returnTy d.body deps
  | .eval d => d.assertions.foldl (collectAssertDeps resolved) (collectBlockDeps resolved d.body deps)
  | .test d => d.assertions.foldl (collectAssertDeps resolved) (collectBlockDeps resolved d.body deps)
  | .fixture d => collectCallableDeps resolved d.params d.returnTy d.body deps
  | .mock d => collectCallableDeps resolved d.params d.returnTy d.body deps
  | .tool d => collectTypeRefDep resolved d.returnTy (collectParamsDeps resolved d.params deps)
  | .prompt d => collectTypeRefDep resolved d.returnTy (collectParamsDeps resolved d.params deps)
  | .type d => collectFieldsDeps resolved d.fields deps
  | .store d => collectFieldsDeps resolved d.fields deps
  | .server d => d.routes.foldl (collectRouteDeps resolved) deps
  | .schedule d => collectExprsDeps resolved d.args deps
  | .importDecl _ => deps
  | .extend _ => deps
  | .effect _ => deps
  | .model _ => deps

end Collect

/-! ### The graph -/

def declName : Decl → Option String
  | .importDecl d => d.aliasName.map Ident.name
  | .type d => some d.name.name
  | .store d => some d.name.name
  | .tool d => some d.name.name
  | .prompt d => some d.name.name
  | .agent d => some d.name.name
  | .eval d => some d.name.name
  | .test d => some d.name.name
  | .fixture d => some d.name.name
  | .server d => some d.name.name
  | .mock _ => none
  | .extend _ => none
  | .effect _ => none
  | .model _ => none
  | .schedule _ => none

def declDefId (resolved : Resolved) (decl : Decl) : Option DefId :=
  (declName decl).bind resolved.symbols.lookupDef

/-- What a declaration references, and what references it. -/
structure DepGraph where
  forward : Keyed.Map DefId (Finset DefId)
  reverse : Keyed.Map DefId (Finset DefId)

/-- The order in which the elements of a hash set come. -/
structure Iteration where
  order : Finset DefId → List DefId
  mem_order : ∀ {s id}, id ∈ order s ↔ id ∈ s

namespace DepGraph

def empty : DepGraph where
  forward := ∅
  reverse := ∅

variable (graph : DepGraph) (it : Iteration)

def dependentsOf (id : DefId) : Finset DefId :=
  (graph.reverse.lookup id).getD ∅

def dependenciesOf (id : DefId) : Finset DefId :=
  (graph.forward.lookup id).getD ∅

/-- What the loop over the dependents of a declaration goes through. -/
def successors (current : DefId) : List DefId :=
  match graph.reverse.lookup current with
  | some deps => it.order deps
  | none => []

/-- All dependents of the graph: the search comes to no others. -/
def nodes : Finset DefId :=
  graph.reverse.keys.toFinset.biUnion graph.dependentsOf

def transitiveDependents (id : DefId) : Finset DefId :=
  Worklist.closure (graph.successors it) graph.nodes id

def addReverse (owner : DefId) (reverse : Keyed.Map DefId (Finset DefId)) (dep : DefId) :
    Keyed.Map DefId (Finset DefId) :=
  reverse.insert dep (insert owner ((reverse.lookup dep).getD ∅))

/-- The dependencies of a later declaration with the same owner replace those of an earlier one. -/
def addDecl (resolved : Resolved) (decl : Decl) : DepGraph :=
  match declDefId resolved decl with
  | none => graph
  | some owner =>
    let deps := (collectDeclDeps resolved ∅ decl).erase owner
    { forward := graph.forward.insert owner deps
      reverse := (it.order deps).foldl (addReverse owner) graph.reverse }

end DepGraph

def buildDepGraph (it : Iteration) (file : File) (resolved : Resolved) : DepGraph :=
  file.decls.foldl (fun graph decl => graph.addDecl it resolved decl) .empty

end Corvid.Resolve
