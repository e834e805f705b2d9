import Corvid.Resolve.Resolver
import Corvid.Types.Case
import Mathlib.Data.Finset.Card
import Mathlib.Data.Finset.SDiff

/-!
# Labels of approvals

A call of a dangerous tool needs an approval before it, whose label is the name of the tool in Pascal
case and which has as many arguments. The checker looks for one at every call of a tool that it comes to;
the reachability pass does so from the entry points of a program on, through the bodies of the agents
that are called. An error names the label to write.

## Main definitions

* `Walk`: one of the two passes over statements, as far as approvals are concerned
* `checkerWalk`, `reachabilityWalk`, `checkAgentBody`: the passes
* `SuggestedLabelWorks`: the label of the error is accepted for the tool

## Main results

* `suggestedLabelWorks_iff`: the labels that work are those of names in snake case
-/

namespace Corvid.Labels

open Corvid.Ast
open Corvid.Resolve
open Corvid.Types (CaseTable Identifier IsSnakeCase pascalCase pascalCaseReachability snakeCase)

structure Approval where
  label : String
  arity : ℕ
deriving DecidableEq, Repr

inductive Effect where
  | safe
  | dangerous
deriving DecidableEq, Repr

/-- A call of a tool, with the number of arguments under which it is checked. -/
structure ToolCall where
  tool : String
  effect : Effect
  arity : ℕ
deriving DecidableEq, Repr

/-- The error of either pass. -/
structure UnapprovedCall where
  tool : String
  expectedApproveLabel : String
  arity : ℕ
deriving DecidableEq, Repr

variable (table : CaseTable)

def checkToolCall (suggest : String → String) (approvals : List Approval) (call : ToolCall) :
    List UnapprovedCall :=
  let authorized := approvals.any fun a =>
    snakeCase table a.label == call.tool && a.arity == call.arity
  if call.effect = .dangerous ∧ ¬ authorized then [⟨call.tool, suggest call.tool, call.arity⟩] else []

/-! ### Statements -/

structure Pass where
  approvals : List Approval
  errors : List UnapprovedCall

/-- What the passes do differently: the errors in an expression, and how the approvals are restored at
the end of a block. -/
structure Walk where
  exprErrors : List Approval → Expr → List UnapprovedCall
  leave : List Approval → List Approval → List Approval

namespace Walk

variable (w : Walk)

def checkExpr (e : Expr) (p : Pass) : Pass :=
  { p with errors := p.errors ++ w.exprErrors p.approvals e }

def checkExprs (es : List Expr) (p : Pass) : Pass :=
  es.foldl (fun p e => w.checkExpr e p) p

/-- The label and the number of arguments are noted, before the arguments are checked. -/
def checkApprove : Expr → Pass → Pass
  | .call (.ident name) args, p =>
    w.checkExprs args { p with approvals := p.approvals ++ [⟨name.name, args.length⟩] }
  | .call _ args, p => w.checkExprs args p
  | action, p => w.checkExpr action p

/-- The end of a block that was entered with `p`. -/
def restore (p after : Pass) : Pass :=
  { after with approvals := w.leave p.approvals after.approvals }

mutual

def checkStmt : Stmt → Pass → Pass
  | .letStmt _ _ value, p => w.checkExpr value p
  | .returnStmt (some value), p => w.checkExpr value p
  | .returnStmt none, p => p
  | .yieldStmt value, p => w.checkExpr value p
  | .ifStmt cond thenBlock elseBlock, p =>
    let p := w.checkExpr cond p
    let p := w.restore p (checkStmts thenBlock p)
    checkElse elseBlock p
  | .forStmt _ iter body, p =>
    let p := w.checkExpr iter p
    w.restore p (checkStmts body p)
  | .approve action, p => w.checkApprove action p
  | .expr e, p => w.checkExpr e p

def checkStmts : Block → Pass → Pass
  | [], p => p
  | s :: ss, p => checkStmts ss (checkStmt s p)

def checkElse : Option Block → Pass → Pass
  | none, p => p
  | some block, p => w.restore p (checkStmts block p)

end

def checkBlock (block : Block) (p : Pass) : Pass :=
  w.restore p (w.checkStmts block p)

end Walk

/-! ### The checker -/

/-- The checker comes to the calls of tools in an expression as its types have it; a method is called
with its receiver as the first argument, and a call of an imported tool has the name it is exported
under. -/
def checkerWalk (visited : Expr → List ToolCall) : Walk where
  exprErrors approvals e :=
    (visited e).flatMap (checkToolCall table (pascalCase table) approvals)
  leave before after := after.take before.length

/-! ### The reachability pass -/

/-- The tools and the agents of a file, with their effects and bodies. -/
structure ReachabilityIndex where
  tools : DefId → Option Effect
  agents : Keyed.Map DefId Block

section Reachability

variable (resolved : Resolved) (index : ReachabilityIndex) (enter : DefId → List UnapprovedCall)

/-- A call of a name: the errors of a tool, or those in the body of an agent. -/
def checkCall (approvals : List Approval) (callee : Expr) (arity : ℕ) : List UnapprovedCall :=
  match callee with
  | .ident name =>
    match resolved.bindings.lookup name.span with
    | some (.decl id) =>
      match (resolved.symbols.entries[id]?).map DeclEntry.kind with
      | some .tool =>
        match index.tools id with
        | some effect =>
          checkToolCall table (pascalCaseReachability table) approvals ⟨name.name, effect, arity⟩
        | none => []
      | some .agent => enter id
      | _ => []
    | _ => []
  | _ => []

mutual

def reachExpr (approvals : List Approval) : Expr → List UnapprovedCall
  | .call callee args =>
    checkCall table resolved index enter approvals callee args.length ++ reachExpr approvals callee ++
      reachExprs approvals args
  | .fieldAccess target _ => reachExpr approvals target
  | .tryPropagate inner => reachExpr approvals inner
  | .index target i => reachExpr approvals target ++ reachExpr approvals i
  | .binOp left right => reachExpr approvals left ++ reachExpr approvals right
  | .unOp operand => reachExpr approvals operand
  | .list items => reachExprs approvals items
  | .tryRetry body => reachExpr approvals body
  | .replay trace arms elseBody =>
    reachExpr approvals trace ++ reachArms approvals arms ++ reachExpr approvals elseBody
  | .literal => []
  | .ident _ => []

def reachExprs (approvals : List Approval) : List Expr → List UnapprovedCall
  | [] => []
  | e :: es => reachExpr approvals e ++ reachExprs approvals es

def reachArms (approvals : List Approval) : List ReplayArm → List UnapprovedCall
  | [] => []
  | .mk _ _ body :: arms => reachExpr approvals body ++ reachArms approvals arms

end

def reachabilityWalk : Walk where
  exprErrors := reachExpr table resolved index enter
  leave before _ := before

/-- The errors in the body of an agent, unless it is being visited. -/
def checkAgentBody (resolved : Resolved) (index : ReachabilityIndex) :
    ℕ → Finset DefId → DefId → List UnapprovedCall
  | 0, _, _ => []
  | fuel + 1, visiting, id =>
    if id ∈ visiting then []
    else match index.agents.lookup id with
      | some body =>
        let enter := checkAgentBody resolved index fuel (insert id visiting)
        ((reachabilityWalk table resolved index enter).checkBlock body ⟨[], []⟩).errors
      | none => []

/-- One more level for every agent that is not being visited is enough. -/
theorem checkAgentBody_succ (fuel : ℕ) (visiting : Finset DefId)
    (h : (index.agents.keys.toFinset \ visiting).card < fuel) :
    checkAgentBody table resolved index (fuel + 1) visiting =
      checkAgentBody table resolved index fuel visiting := by
  induction fuel generalizing visiting with
  | zero => omega
  | succ fuel ih =>
    funext id
    by_cases hid : id ∈ visiting
    · simp [checkAgentBody, hid]
    · cases hbody : index.agents.lookup id with
      | none => simp [checkAgentBody, hid, hbody]
      | some body =>
        have hmem : id ∈ index.agents.keys.toFinset \ visiting := by
          have hlookup : (index.agents.lookup id).isSome := by simp [hbody]
          have hkey : id ∈ index.agents.keys := AList.mem_keys.mpr (AList.lookup_isSome.mp hlookup)
          simp [hid, hkey]
        have hcard := Finset.card_erase_of_mem hmem
        have hpos := Finset.card_pos.mpr ⟨id, hmem⟩
        have hnext := ih (insert id visiting) (by rw [Finset.sdiff_insert, hcard]; omega)
        rw [checkAgentBody, checkAgentBody, if_neg hid, if_neg hid, hbody, hnext]

end Reachability

/-! ### Approvals in scope -/

/-- Every error that the walk finds is of this kind under the approvals it is found with, of which more
rule no error in, and a block leaves the approvals as they were. -/
structure Walk.Respects (w : Walk) (Q : List Approval → UnapprovedCall → Prop) : Prop where
  finds : ∀ approvals e, ∀ err ∈ w.exprErrors approvals e, Q approvals err
  antitone : ∀ approvals more err, Q (approvals ++ more) err → Q approvals err
  restores : ∀ before more, w.leave before (before ++ more) = before

/-- A pass that has gone on: it has the approvals it had, perhaps with more, and more errors. -/
structure Continues (Q : List Approval → UnapprovedCall → Prop) (p p' : Pass) : Prop where
  approvals : ∃ more, p'.approvals = p.approvals ++ more
  errors : ∃ more, p'.errors = p.errors ++ more ∧ ∀ err ∈ more, Q p.approvals err

variable {table} {w : Walk} {Q : List Approval → UnapprovedCall → Prop} {p p' p'' : Pass}

theorem Continues.refl (p : Pass) : Continues Q p p :=
  ⟨⟨[], by simp⟩, ⟨[], by simp, by simp⟩⟩

namespace Walk.Respects

theorem trans (hw : w.Respects Q) (h : Continues Q p p') (h' : Continues Q p' p'') :
    Continues Q p p'' := by
  obtain ⟨⟨more, ha⟩, errs, he, hq⟩ := h
  obtain ⟨⟨more', ha'⟩, errs', he', hq'⟩ := h'
  refine ⟨⟨more ++ more', by rw [ha', ha, List.append_assoc]⟩, errs ++ errs', ?_, fun err herr => ?_⟩
  · rw [he', he, List.append_assoc]
  · rcases List.mem_append.mp herr with herr | herr
    · exact hq err herr
    · exact hw.antitone p.approvals more err (ha ▸ hq' err herr)

theorem restore (hw : w.Respects Q) (h : Continues Q p p') : Continues Q p (w.restore p p') := by
  obtain ⟨⟨more, ha⟩, herrors⟩ := h
  refine ⟨⟨[], ?_⟩, herrors⟩
  rw [Walk.restore, ha, hw.restores, List.append_nil]

theorem approve (hw : w.Respects Q) (a : Approval)
    (h : Continues Q { p with approvals := p.approvals ++ [a] } p') : Continues Q p p' := by
  obtain ⟨⟨more, ha⟩, errs, he, hq⟩ := h
  refine ⟨⟨a :: more, by rw [ha]; simp⟩, errs, he, fun err herr => ?_⟩
  exact hw.antitone _ _ err (hq err herr)

theorem checkExpr (hw : w.Respects Q) (e : Expr) (p : Pass) : Continues Q p (w.checkExpr e p) :=
  ⟨⟨[], (List.append_nil _).symm⟩, _, rfl, hw.finds p.approvals e⟩

theorem checkExprs (hw : w.Respects Q) (es : List Expr) (p : Pass) :
    Continues Q p (w.checkExprs es p) := by
  induction es generalizing p with
  | nil => exact .refl p
  | cons e es ih => exact hw.trans (hw.checkExpr e p) (ih _)

theorem checkApprove (hw : w.Respects Q) (action : Expr) (p : Pass) :
    Continues Q p (w.checkApprove action p) := by
  unfold Walk.checkApprove
  split
  · exact hw.approve _ (hw.checkExprs _ _)
  · exact hw.checkExprs _ _
  · exact hw.checkExpr _ _

mutual

theorem checkStmt (hw : w.Respects Q) : (s : Stmt) → (p : Pass) → Continues Q p (w.checkStmt s p)
  | .letStmt _ _ value, p => hw.checkExpr value p
  | .returnStmt (some value), p => hw.checkExpr value p
  | .returnStmt none, p => .refl p
  | .yieldStmt value, p => hw.checkExpr value p
  | .ifStmt cond thenBlock elseBlock, p =>
    hw.trans (hw.trans (hw.checkExpr cond p) (hw.restore (checkStmts hw thenBlock _)))
      (checkElse hw elseBlock _)
  | .forStmt _ iter body, p =>
    hw.trans (hw.checkExpr iter p) (hw.restore (checkStmts hw body _))
  | .approve action, p => hw.checkApprove action p
  | .expr e, p => hw.checkExpr e p

theorem checkStmts (hw : w.Respects Q) : (ss : Block) → (p : Pass) →
    Continues Q p (w.checkStmts ss p)
  | [], p => .refl p
  | s :: ss, p => hw.trans (checkStmt hw s p) (checkStmts hw ss _)

theorem checkElse (hw : w.Respects Q) : (block : Option Block) → (p : Pass) →
    Continues Q p (w.checkElse block p)
  | none, p => .refl p
  | some block, p => hw.restore (checkStmts hw block p)

end

end Walk.Respects

/-! ### Calls that are approved -/

/-- An error that an approval would have cleared, if it is not one of those excepted. -/
def Uncleared (table : CaseTable) (other : UnapprovedCall → Prop) (approvals : List Approval)
    (err : UnapprovedCall) : Prop :=
  other err ∨ ∀ a ∈ approvals, snakeCase table a.label = err.tool → a.arity ≠ err.arity

theorem uncleared_antitone (other : UnapprovedCall → Prop) (approvals more : List Approval)
    (err : UnapprovedCall) (h : Uncleared table other (approvals ++ more) err) :
    Uncleared table other approvals err := by
  rcases h with h | h
  · exact .inl h
  · exact .inr fun a ha => h a (List.mem_append_left more ha)

theorem uncleared_of_mem_checkToolCall {suggest : String → String} {approvals : List Approval}
    {call : ToolCall} {err : UnapprovedCall} (other : UnapprovedCall → Prop)
    (h : err ∈ checkToolCall table suggest approvals call) : Uncleared table other approvals err := by
  unfold checkToolCall at h
  dsimp only at h
  split_ifs at h with hcall
  · rw [List.mem_singleton] at h
    subst h
    refine .inr fun a ha hlabel harity => hcall.2 ?_
    simp only [List.any_eq_true, Bool.and_eq_true, beq_iff_eq]
    exact ⟨a, ha, hlabel, harity⟩
  · cases h

variable {resolved : Resolved} {index : ReachabilityIndex} {enter : DefId → List UnapprovedCall}

/-- The errors in the bodies of the agents that are called. -/
def Entered (enter : DefId → List UnapprovedCall) (err : UnapprovedCall) : Prop :=
  ∃ id, err ∈ enter id

theorem uncleared_of_mem_checkCall {approvals : List Approval} {callee : Expr} {arity : ℕ}
    {err : UnapprovedCall}
    (h : err ∈ checkCall table resolved index enter approvals callee arity) :
    Uncleared table (Entered enter) approvals err := by
  unfold checkCall at h
  split at h
  · split at h
    · split at h
      · split at h
        · exact uncleared_of_mem_checkToolCall _ h
        · cases h
      · exact .inl ⟨_, h⟩
      · cases h
    · cases h
  · cases h

mutual

theorem uncleared_of_mem_reachExpr {approvals : List Approval} {err : UnapprovedCall} : (e : Expr) →
    err ∈ reachExpr table resolved index enter approvals e →
    Uncleared table (Entered enter) approvals err
  | .call callee args, h => by
    rw [reachExpr, List.mem_append, List.mem_append] at h
    rcases h with (h | h) | h
    · exact uncleared_of_mem_checkCall h
    · exact uncleared_of_mem_reachExpr callee h
    · exact uncleared_of_mem_reachExprs args h
  | .fieldAccess target _, h => uncleared_of_mem_reachExpr target (by rwa [reachExpr] at h)
  | .tryPropagate inner, h => uncleared_of_mem_reachExpr inner (by rwa [reachExpr] at h)
  | .index target i, h => by
    rw [reachExpr, List.mem_append] at h
    rcases h with h | h
    · exact uncleared_of_mem_reachExpr target h
    · exact uncleared_of_mem_reachExpr i h
  | .binOp left right, h => by
    rw [reachExpr, List.mem_append] at h
    rcases h with h | h
    · exact uncleared_of_mem_reachExpr left h
    · exact uncleared_of_mem_reachExpr right h
  | .unOp operand, h => uncleared_of_mem_reachExpr operand (by rwa [reachExpr] at h)
  | .list items, h => uncleared_of_mem_reachExprs items (by rwa [reachExpr] at h)
  | .tryRetry body, h => uncleared_of_mem_reachExpr body (by rwa [reachExpr] at h)
  | .replay trace arms elseBody, h => by
    rw [reachExpr, List.mem_append, List.mem_append] at h
    rcases h with (h | h) | h
    · exact uncleared_of_mem_reachExpr trace h
    · exact uncleared_of_mem_reachArms arms h
    · exact uncleared_of_mem_reachExpr elseBody h
  | .literal, h => by simp [reachExpr] at h
  | .ident _, h => by simp [reachExpr] at h

theorem uncleared_of_mem_reachExprs {approvals : List Approval} {err : UnapprovedCall} :
    (es : List Expr) → err ∈ reachExprs table resolved index enter approvals es →
    Uncleared table (Entered enter) approvals err
  | [], h => by simp [reachExprs] at h
  | e :: es, h => by
    rw [reachExprs, List.mem_append] at h
    rcases h with h | h
    · exact uncleared_of_mem_reachExpr e h
    · exact uncleared_of_mem_reachExprs es h

theorem uncleared_of_mem_reachArms {approvals : List Approval} {err : UnapprovedCall} :
    (arms : List ReplayArm) → err ∈ reachArms table resolved index enter approvals arms →
    Uncleared table (Entered enter) approvals err
  | [], h => by simp [reachArms] at h
  | .mk _ _ body :: arms, h => by
    rw [reachArms, List.mem_append] at h
    rcases h with h | h
    · exact uncleared_of_mem_reachExpr body h
    · exact uncleared_of_mem_reachArms arms h

end

theorem checkerWalk_respects (visited : Expr → List ToolCall) :
    (checkerWalk table visited).Respects (Uncleared table fun _ => False) where
  finds approvals e err h := by
    obtain ⟨call, -, h⟩ := List.mem_flatMap.mp h
    exact uncleared_of_mem_checkToolCall _ h
  antitone := uncleared_antitone _
  restores before more := List.take_left

theorem reachabilityWalk_respects :
    (reachabilityWalk table resolved index enter).Respects (Uncleared table (Entered enter)) where
  finds _ e _ h := uncleared_of_mem_reachExpr e h
  antitone := uncleared_antitone _
  restores _ _ := rfl

/-- From an approval on, to the end of its block, what is reported of calls that it would clear is
reported elsewhere. -/
theorem cleared_after_approve {other : UnapprovedCall → Prop} (hw : w.Respects (Uncleared table other))
    (label : Ident) (args : List Expr) (rest : Block) (p : Pass) :
    ∃ more, (w.checkStmts (.approve (.call (.ident label) args) :: rest) p).errors = p.errors ++ more ∧
      ∀ err ∈ more, snakeCase table label.name = err.tool → err.arity = args.length → other err := by
  let approved : Pass := { p with approvals := p.approvals ++ [⟨label.name, args.length⟩] }
  have hargs : Continues (Uncleared table other) approved (w.checkExprs args approved) :=
    hw.checkExprs args approved
  obtain ⟨-, more, herrors, hmore⟩ := hw.trans hargs (hw.checkStmts rest _)
  refine ⟨more, herrors, fun err herr htool harity => ?_⟩
  rcases hmore err herr with hother | hnone
  · exact hother
  · refine absurd harity.symm (hnone ⟨label.name, args.length⟩ ?_ htool)
    exact List.mem_append_right _ (List.mem_singleton_self _)

/-! ### Suggested labels -/

/-- The label that an error names for a tool is brought back to the name of the tool. Written with the
number of arguments of a call, it clears the error of the call in both passes, in all that comes after it
in its block; and no other tool is approved under it. -/
structure SuggestedLabelWorks (table : CaseTable) (t : Identifier) : Prop where
  comesBack : snakeCase table (pascalCase table t.text) = t.text
  checker : ∀ visited span args rest p,
    ∃ more, ((checkerWalk table visited).checkStmts
        (.approve (.call (.ident ⟨pascalCase table t.text, span⟩) args) :: rest) p).errors =
        p.errors ++ more ∧
      ∀ err ∈ more, ¬ (err.tool = t.text ∧ err.arity = args.length)
  reachability : ∀ resolved index fuel visiting span args rest p,
    ∃ more, ((reachabilityWalk table resolved index
        (checkAgentBody table resolved index fuel visiting)).checkStmts
        (.approve (.call (.ident ⟨pascalCaseReachability table t.text, span⟩) args) :: rest) p).errors =
        p.errors ++ more ∧
      ∀ err ∈ more, err.tool = t.text → err.arity = args.length →
        ∃ id, err ∈ checkAgentBody table resolved index fuel visiting id
  distinct : ∀ t' : Identifier, pascalCase table t'.text = pascalCase table t.text →
    snakeCase table (pascalCase table t'.text) = t'.text → t'.text = t.text

/-- The suggested label works just for the tools whose names are in snake case. -/
theorem suggestedLabelWorks_iff (table : CaseTable) (t : Identifier) :
    SuggestedLabelWorks table t ↔ IsSnakeCase t.text := by
  constructor
  · intro h
    exact (Types.snakeCase_pascalCase_iff t).mp h.comesBack
  · intro h
    have hback := (@Types.snakeCase_pascalCase_iff table t).mpr h
    refine ⟨hback, fun visited span args rest p => ?_,
      fun resolved index fuel visiting span args rest p => ?_, fun t' hlabel hback' => ?_⟩
    · obtain ⟨more, herrors, hmore⟩ := cleared_after_approve (checkerWalk_respects visited)
        ⟨pascalCase table t.text, span⟩ args rest p
      exact ⟨more, herrors, fun err herr ⟨htool, harity⟩ =>
        hmore err herr (hback.trans htool.symm) harity⟩
    · obtain ⟨more, herrors, hmore⟩ := cleared_after_approve reachabilityWalk_respects
        ⟨pascalCaseReachability table t.text, span⟩ args rest p
      refine ⟨more, herrors, fun err herr htool harity => hmore err herr ?_ harity⟩
      rw [Types.pascalCaseReachability_eq]
      exact hback.trans htool.symm
    · rw [← hback', hlabel, hback]

/-- A digit after an underscore: the label of the tool loses the underscore. -/
def get2fa : Identifier where
  text := "get_2fa"
  start := by decide
  continues := by decide

theorem not_suggestedLabelWorks_get2fa : ¬ SuggestedLabelWorks CaseTable.ascii get2fa := by
  intro h
  exact absurd h.comesBack (by decide +kernel)

end Corvid.Labels
