import Corvid.Lib.Chains
import Corvid.Types.Labels

/-!
# The reachability of dangerous tools

The entry points of a file are the routes of its servers, its schedules and the agents that others may
call. The pass goes from each of them through the bodies of the agents that are called, into no body that
it is inside of. A call that it comes to is judged by the approvals in scope there, those of the body
alone; so what it reports does not depend on the way it has taken, and it misses nothing.

## Main definitions

* `BlockAt`: the expressions of a block, with the approvals in scope
* `CallIn`: the calls in an expression
* `Unapproved`, `Enters`: what a body does by itself
* `checkApprovalReachability`: the pass over a file

## Main results

* `Walk.mem_checkBlock_iff`: a walk over a block finds the errors of its expressions, each under the
  approvals in scope
* `mem_checkAgentBody_iff`: from an agent, the pass finds what is unapproved along chains of calls
* `mem_checkApprovalReachability_iff`: the same from the entry points of a file
-/

namespace Corvid.Labels

open Corvid.Ast
open Corvid.Resolve
open Corvid.Types (CaseTable pascalCase pascalCaseReachability snakeCase)
open Relation (ReflTransGen)

/-! ### Approvals in scope

An approval is in scope from its own arguments on to the end of its block. -/

/-- The approvals that a statement leaves to the statements after it. -/
def approvedBy : Stmt → List Approval
  | .approve (.call (.ident name) args) => [⟨name.name, args.length⟩]
  | _ => []

mutual

/-- An expression of the statement, with the approvals in scope there. -/
inductive StmtAt : List Approval → Stmt → List Approval → Expr → Prop where
  | letValue {approvals name ty value} : StmtAt approvals (.letStmt name ty value) approvals value
  | returned {approvals value} : StmtAt approvals (.returnStmt (some value)) approvals value
  | yielded {approvals value} : StmtAt approvals (.yieldStmt value) approvals value
  | cond {approvals cond thenBlock elseBlock} :
      StmtAt approvals (.ifStmt cond thenBlock elseBlock) approvals cond
  | inThen {approvals cond thenBlock elseBlock scope e} (h : BlockAt approvals thenBlock scope e) :
      StmtAt approvals (.ifStmt cond thenBlock elseBlock) scope e
  | inElse {approvals cond thenBlock block scope e} (h : BlockAt approvals block scope e) :
      StmtAt approvals (.ifStmt cond thenBlock (some block)) scope e
  | iter {approvals var iter body} : StmtAt approvals (.forStmt var iter body) approvals iter
  | inFor {approvals var iter body scope e} (h : BlockAt approvals body scope e) :
      StmtAt approvals (.forStmt var iter body) scope e
  | approveArg {approvals callee args arg} (h : arg ∈ args) :
      StmtAt approvals (.approve (.call callee args))
        (approvals ++ approvedBy (.approve (.call callee args))) arg
  | approved {approvals action} (h : ∀ callee args, action ≠ .call callee args) :
      StmtAt approvals (.approve action) approvals action
  | expr {approvals e} : StmtAt approvals (.expr e) approvals e

/-- An expression of the block, with the approvals in scope there. -/
inductive BlockAt : List Approval → Block → List Approval → Expr → Prop where
  | head {approvals s ss scope e} (h : StmtAt approvals s scope e) : BlockAt approvals (s :: ss) scope e
  | tail {approvals s ss scope e} (h : BlockAt (approvals ++ approvedBy s) ss scope e) :
      BlockAt approvals (s :: ss) scope e

end

namespace Walk

variable {w : Walk} {p p' p'' : Pass} {added added' : List Approval}
  {At At' : List Approval → Expr → Prop}

/-- A pass that has gone over some expressions, each under its approvals. -/
structure Finds (w : Walk) (p p' : Pass) (added : List Approval) (At : List Approval → Expr → Prop) :
    Prop where
  approvals : p'.approvals = p.approvals ++ added
  errors : ∀ err, err ∈ p'.errors ↔ err ∈ p.errors ∨ ∃ scope e, At scope e ∧ err ∈ w.exprErrors scope e

/-- At the end of a block the approvals are those at its start. -/
def Restores (w : Walk) : Prop :=
  ∀ before more, w.leave before (before ++ more) = before

namespace Finds

theorem refl (h : ∀ scope e, ¬ At scope e) : Finds w p p [] At where
  approvals := by simp
  errors err := by simp [h]

theorem trans (h : Finds w p p' added At) (h' : Finds w p' p'' added' At') :
    Finds w p p'' (added ++ added') fun scope e => At scope e ∨ At' scope e where
  approvals := by rw [h'.approvals, h.approvals, List.append_assoc]
  errors err := by
    rw [h'.errors, h.errors, or_assoc]
    simp only [or_and_right, exists_or]

theorem congr (h : Finds w p p' added At) (heq : ∀ scope e, At scope e ↔ At' scope e) :
    Finds w p p' added At' where
  approvals := h.approvals
  errors err := by simpa only [heq] using h.errors err

theorem restore (hw : w.Restores) (h : Finds w p p' added At) : Finds w p (w.restore p p') [] At where
  approvals := by
    rw [Walk.restore, h.approvals, List.append_nil]
    exact hw _ _
  errors := h.errors

theorem checkExpr (e : Expr) (p : Pass) :
    Finds w p (w.checkExpr e p) [] fun scope e' => scope = p.approvals ∧ e' = e where
  approvals := by simp [Walk.checkExpr]
  errors err := by simp [Walk.checkExpr]

theorem checkExprs (es : List Expr) (p : Pass) :
    Finds w p (w.checkExprs es p) [] fun scope e => scope = p.approvals ∧ e ∈ es := by
  induction es generalizing p with
  | nil => exact refl (by simp)
  | cons e es ih =>
    have hhead := checkExpr (w := w) e p
    have happrovals := hhead.approvals
    rw [List.append_nil] at happrovals
    refine (hhead.trans (ih (w.checkExpr e p))).congr fun scope e' => ?_
    rw [happrovals, List.mem_cons]
    tauto

end Finds

theorem checkApprove_finds (action : Expr) (p : Pass) :
    Finds w p (w.checkApprove action p) (approvedBy (.approve action))
      (StmtAt p.approvals (.approve action)) := by
  -- The approval is noted first, so the arguments are found under it.
  have hcall (callee : Expr) (args : List Expr) (hadded : List Approval)
      (heq : approvedBy (.approve (.call callee args)) = hadded) :
      Finds w p (w.checkExprs args { p with approvals := p.approvals ++ hadded }) hadded
        (StmtAt p.approvals (.approve (.call callee args))) := by
    subst heq
    have h := Finds.checkExprs (w := w) args
      { p with approvals := p.approvals ++ approvedBy (.approve (.call callee args)) }
    refine ⟨by rw [h.approvals, List.append_nil], fun err => ?_⟩
    rw [h.errors err]
    refine or_congr_right (exists_congr fun scope => exists_congr fun e => and_congr_left' ?_)
    constructor
    · rintro ⟨rfl, he⟩
      exact .approveArg he
    · rintro (_ | _)
      · exact ⟨rfl, ‹_›⟩
      · rename_i h
        exact absurd rfl (h callee args)
  have hother (h : ∀ callee args, action ≠ .call callee args) (hnone : approvedBy (.approve action) = []) :
      Finds w p (w.checkExpr action p) (approvedBy (.approve action))
        (StmtAt p.approvals (.approve action)) := by
    rw [hnone]
    refine (Finds.checkExpr action p).congr fun scope e => ?_
    constructor
    · rintro ⟨rfl, rfl⟩
      exact .approved h
    · rintro (_ | _)
      · exact absurd rfl (h _ _)
      · exact ⟨rfl, rfl⟩
  have hplain (callee : Expr) (args : List Expr) (hnone : approvedBy (.approve (.call callee args)) = []) :
      Finds w p (w.checkExprs args p) (approvedBy (.approve (.call callee args)))
        (StmtAt p.approvals (.approve (.call callee args))) := by
    simpa only [hnone, List.append_nil] using hcall callee args [] hnone
  cases action with
  | call callee args =>
    cases callee with
    | ident name => exact hcall (.ident name) args _ rfl
    | _ => exact hplain _ _ rfl
  | _ => exact hother (by simp) rfl

mutual

theorem checkStmt_finds (hw : w.Restores) : (s : Stmt) → (p : Pass) →
    Finds w p (w.checkStmt s p) (approvedBy s) (StmtAt p.approvals s)
  | .letStmt name ty value, p =>
    (Finds.checkExpr value p).congr fun scope e =>
      ⟨by rintro ⟨rfl, rfl⟩; exact .letValue, by rintro ⟨⟩; exact ⟨rfl, rfl⟩⟩
  | .returnStmt (some value), p =>
    (Finds.checkExpr value p).congr fun scope e =>
      ⟨by rintro ⟨rfl, rfl⟩; exact .returned, by rintro ⟨⟩; exact ⟨rfl, rfl⟩⟩
  | .returnStmt none, p => .refl (by rintro scope e ⟨⟩)
  | .yieldStmt value, p =>
    (Finds.checkExpr value p).congr fun scope e =>
      ⟨by rintro ⟨rfl, rfl⟩; exact .yielded, by rintro ⟨⟩; exact ⟨rfl, rfl⟩⟩
  | .ifStmt cond thenBlock elseBlock, p => by
    have hcond := Finds.checkExpr (w := w) cond p
    obtain ⟨added, hthen⟩ := checkStmts_finds hw thenBlock (w.checkExpr cond p)
    have hthen := hthen.restore hw
    have helse := checkElse_finds hw elseBlock
      (w.restore (w.checkExpr cond p) (w.checkStmts thenBlock (w.checkExpr cond p)))
    have hp : (w.checkExpr cond p).approvals = p.approvals := rfl
    have hp' := hthen.approvals
    rw [List.append_nil] at hp'
    refine ((hcond.trans hthen).trans helse).congr fun scope e => ?_
    rw [hp', hp]
    constructor
    · rintro ((⟨rfl, rfl⟩ | h) | ⟨block, rfl, h⟩)
      · exact .cond
      · exact .inThen h
      · exact .inElse h
    · rintro (_ | _)
      · exact .inl (.inl ⟨rfl, rfl⟩)
      · exact .inl (.inr ‹_›)
      · exact .inr ⟨_, rfl, ‹_›⟩
  | .forStmt var iter body, p => by
    obtain ⟨added, hbody⟩ := checkStmts_finds hw body (w.checkExpr iter p)
    refine ((Finds.checkExpr iter p).trans (hbody.restore hw)).congr fun scope e => ?_
    constructor
    · rintro (⟨rfl, rfl⟩ | h)
      · exact .iter
      · exact .inFor h
    · rintro (_ | _)
      · exact .inl ⟨rfl, rfl⟩
      · exact .inr ‹_›
  | .approve action, p => checkApprove_finds action p
  | .expr e, p =>
    (Finds.checkExpr e p).congr fun scope e =>
      ⟨by rintro ⟨rfl, rfl⟩; exact .expr, by rintro ⟨⟩; exact ⟨rfl, rfl⟩⟩

theorem checkStmts_finds (hw : w.Restores) : (ss : Block) → (p : Pass) →
    ∃ added, Finds w p (w.checkStmts ss p) added (BlockAt p.approvals ss)
  | [], p => ⟨[], .refl (by rintro scope e ⟨⟩)⟩
  | s :: ss, p => by
    have hs := checkStmt_finds hw s p
    obtain ⟨added, hss⟩ := checkStmts_finds hw ss (w.checkStmt s p)
    refine ⟨_, (hs.trans hss).congr fun scope e => ?_⟩
    rw [hs.approvals]
    constructor
    · rintro (h | h)
      · exact .head h
      · exact .tail h
    · rintro (h | h)
      · exact .inl h
      · exact .inr h

theorem checkElse_finds (hw : w.Restores) : (block : Option Block) → (p : Pass) →
    Finds w p (w.checkElse block p) [] fun scope e =>
      ∃ b, block = some b ∧ BlockAt p.approvals b scope e
  | none, p => .refl (by simp)
  | some b, p => by
    obtain ⟨added, h⟩ := checkStmts_finds hw b p
    exact (h.restore hw).congr (by simp)

end

/-- A walk over a block finds the errors of its expressions, each under the approvals in scope there. -/
theorem mem_checkBlock_iff (hw : w.Restores) (block : Block) (approvals : List Approval)
    (err : UnapprovedCall) :
    err ∈ (w.checkBlock block ⟨approvals, []⟩).errors ↔
      ∃ scope e, BlockAt approvals block scope e ∧ err ∈ w.exprErrors scope e := by
  obtain ⟨added, h⟩ := checkStmts_finds hw block ⟨approvals, []⟩
  refine (h.errors err).trans ?_
  simp

end Walk

/-! ### Calls -/

/-- A call in an expression, in whatever part of it. -/
inductive CallIn : Expr → Expr → List Expr → Prop where
  | here {callee args} : CallIn (.call callee args) callee args
  | callee {f as callee args} (h : CallIn f callee args) : CallIn (.call f as) callee args
  | arg {f as a callee args} (ha : a ∈ as) (h : CallIn a callee args) : CallIn (.call f as) callee args
  | target {target field callee args} (h : CallIn target callee args) :
      CallIn (.fieldAccess target field) callee args
  | inner {inner callee args} (h : CallIn inner callee args) : CallIn (.tryPropagate inner) callee args
  | indexed {target i callee args} (h : CallIn target callee args) :
      CallIn (.index target i) callee args
  | index {target i callee args} (h : CallIn i callee args) : CallIn (.index target i) callee args
  | left {left right callee args} (h : CallIn left callee args) : CallIn (.binOp left right) callee args
  | right {left right callee args} (h : CallIn right callee args) :
      CallIn (.binOp left right) callee args
  | operand {operand callee args} (h : CallIn operand callee args) : CallIn (.unOp operand) callee args
  | item {items e callee args} (he : e ∈ items) (h : CallIn e callee args) :
      CallIn (.list items) callee args
  | retried {body callee args} (h : CallIn body callee args) : CallIn (.tryRetry body) callee args
  | trace {trace arms elseBody callee args} (h : CallIn trace callee args) :
      CallIn (.replay trace arms elseBody) callee args
  | arm {trace arms elseBody pattern capture body callee args}
      (harm : .mk pattern capture body ∈ arms) (h : CallIn body callee args) :
      CallIn (.replay trace arms elseBody) callee args
  | elseBody {trace arms elseBody callee args} (h : CallIn elseBody callee args) :
      CallIn (.replay trace arms elseBody) callee args

section Calls

variable (table : CaseTable) (resolved : Resolved) (index : ReachabilityIndex)

/-- A name that is bound to a declaration of the kind. -/
def Names (kind : DeclKind) (callee : Expr) (name : Ident) (id : DefId) : Prop :=
  callee = .ident name ∧ resolved.bindings.lookup name.span = some (.decl id) ∧
    (resolved.symbols.entries[id]?).map DeclEntry.kind = some kind

/-- The call is of a dangerous tool, and no approval in scope has the name and the number of arguments.
The error says what to write. -/
structure Unapproved (scope : List Approval) (callee : Expr) (args : List Expr) (err : UnapprovedCall) :
    Prop where
  names : ∃ name id, Names resolved .tool callee name id ∧ index.tools id = some .dangerous ∧
    err = ⟨name.name, pascalCaseReachability table name.name, args.length⟩
  uncleared : ∀ a ∈ scope, snakeCase table a.label = err.tool → a.arity ≠ err.arity

/-- An unapproved call in the body itself. -/
def BodyReports (body : Block) (err : UnapprovedCall) : Prop :=
  ∃ scope e callee args, BlockAt [] body scope e ∧ CallIn e callee args ∧
    Unapproved table resolved index scope callee args err

/-- The body calls the agent by name; what is approved is not called, its arguments are. -/
def BodyCalls (body : Block) (id : DefId) : Prop :=
  ∃ scope e callee args name, BlockAt [] body scope e ∧ CallIn e callee args ∧
    Names resolved .agent callee name id

variable {table resolved index} {enter : DefId → List UnapprovedCall} {scope : List Approval}
  {err : UnapprovedCall}

theorem mem_checkToolCall_iff {suggest : String → String} {call : ToolCall} :
    err ∈ checkToolCall table suggest scope call ↔
      call.effect = .dangerous ∧ err = ⟨call.tool, suggest call.tool, call.arity⟩ ∧
        ∀ a ∈ scope, snakeCase table a.label = err.tool → a.arity ≠ err.arity := by
  unfold checkToolCall
  dsimp only
  split_ifs with h
  · rw [List.mem_singleton]
    constructor
    · rintro rfl
      refine ⟨h.1, rfl, fun a ha htool harity => h.2 ?_⟩
      simp only [List.any_eq_true, Bool.and_eq_true, beq_iff_eq]
      exact ⟨a, ha, htool, harity⟩
    · exact fun h => h.2.1
  · simp only [List.not_mem_nil, false_iff, not_and]
    rintro heffect rfl hnone
    refine h ⟨heffect, fun hany => ?_⟩
    simp only [List.any_eq_true, Bool.and_eq_true, beq_iff_eq] at hany
    obtain ⟨a, ha, htool, harity⟩ := hany
    exact hnone a ha htool harity

/-- A call is reported itself, or it enters the body of an agent. -/
theorem mem_checkCall_iff {callee : Expr} {args : List Expr} :
    err ∈ checkCall table resolved index enter scope callee args.length ↔
      Unapproved table resolved index scope callee args err ∨
        ∃ name id, Names resolved .agent callee name id ∧ err ∈ enter id := by
  constructor
  · intro h
    unfold checkCall at h
    split at h
    · rename_i name
      split at h
      · rename_i id hbound
        split at h
        · rename_i hkind
          split at h
          · rename_i effect heffect
            obtain ⟨hdangerous, herr, hnone⟩ := mem_checkToolCall_iff.mp h
            dsimp only at hdangerous
            subst hdangerous
            exact .inl ⟨⟨name, id, ⟨rfl, hbound, hkind⟩, heffect, herr⟩, hnone⟩
          · cases h
        · rename_i hkind
          exact .inr ⟨name, id, ⟨rfl, hbound, hkind⟩, h⟩
        · cases h
      · cases h
    · cases h
  · rintro (⟨⟨name, id, ⟨rfl, hbound, hkind⟩, heffect, herr⟩, hnone⟩ |
      ⟨name, id, ⟨rfl, hbound, hkind⟩, h⟩)
    · simp only [checkCall, hbound, hkind, heffect]
      exact mem_checkToolCall_iff.mpr ⟨rfl, herr, hnone⟩
    · simpa only [checkCall, hbound, hkind] using h

mutual

/-- The errors of an expression are those of its calls. -/
theorem mem_reachExpr_iff : (e : Expr) →
    (err ∈ reachExpr table resolved index enter scope e ↔
      ∃ callee args, CallIn e callee args ∧
        err ∈ checkCall table resolved index enter scope callee args.length)
  | .call f as => by
    rw [reachExpr, List.mem_append, List.mem_append, mem_reachExpr_iff f, mem_reachExprs_iff as]
    constructor
    · rintro ((h | ⟨callee, args, hin, h⟩) | ⟨a, ha, callee, args, hin, h⟩)
      · exact ⟨f, as, .here, h⟩
      · exact ⟨callee, args, .callee hin, h⟩
      · exact ⟨callee, args, .arg ha hin, h⟩
    · rintro ⟨callee, args, hin, h⟩
      cases hin with
      | here => exact .inl (.inl h)
      | callee hin => exact .inl (.inr ⟨callee, args, hin, h⟩)
      | arg ha hin => exact .inr ⟨_, ha, callee, args, hin, h⟩
  | .fieldAccess target field => by
    rw [reachExpr, mem_reachExpr_iff target]
    constructor
    · rintro ⟨callee, args, hin, h⟩
      exact ⟨callee, args, .target hin, h⟩
    · rintro ⟨callee, args, hin, h⟩
      cases hin with
      | target hin => exact ⟨callee, args, hin, h⟩
  | .tryPropagate inner => by
    rw [reachExpr, mem_reachExpr_iff inner]
    constructor
    · rintro ⟨callee, args, hin, h⟩
      exact ⟨callee, args, .inner hin, h⟩
    · rintro ⟨callee, args, hin, h⟩
      cases hin with
      | inner hin => exact ⟨callee, args, hin, h⟩
  | .index target i => by
    rw [reachExpr, List.mem_append, mem_reachExpr_iff target, mem_reachExpr_iff i]
    constructor
    · rintro (⟨callee, args, hin, h⟩ | ⟨callee, args, hin, h⟩)
      · exact ⟨callee, args, .indexed hin, h⟩
      · exact ⟨callee, args, .index hin, h⟩
    · rintro ⟨callee, args, hin, h⟩
      cases hin with
      | indexed hin => exact .inl ⟨callee, args, hin, h⟩
      | index hin => exact .inr ⟨callee, args, hin, h⟩
  | .binOp left right => by
    rw [reachExpr, List.mem_append, mem_reachExpr_iff left, mem_reachExpr_iff right]
    constructor
    · rintro (⟨callee, args, hin, h⟩ | ⟨callee, args, hin, h⟩)
      · exact ⟨callee, args, .left hin, h⟩
      · exact ⟨callee, args, .right hin, h⟩
    · rintro ⟨callee, args, hin, h⟩
      cases hin with
      | left hin => exact .inl ⟨callee, args, hin, h⟩
      | right hin => exact .inr ⟨callee, args, hin, h⟩
  | .unOp operand => by
    rw [reachExpr, mem_reachExpr_iff operand]
    constructor
    · rintro ⟨callee, args, hin, h⟩
      exact ⟨callee, args, .operand hin, h⟩
    · rintro ⟨callee, args, hin, h⟩
      cases hin with
      | operand hin => exact ⟨callee, args, hin, h⟩
  | .list items => by
    rw [reachExpr, mem_reachExprs_iff items]
    constructor
    · rintro ⟨e, he, callee, args, hin, h⟩
      exact ⟨callee, args, .item he hin, h⟩
    · rintro ⟨callee, args, hin, h⟩
      cases hin with
      | item he hin => exact ⟨_, he, callee, args, hin, h⟩
  | .tryRetry body => by
    rw [reachExpr, mem_reachExpr_iff body]
    constructor
    · rintro ⟨callee, args, hin, h⟩
      exact ⟨callee, args, .retried hin, h⟩
    · rintro ⟨callee, args, hin, h⟩
      cases hin with
      | retried hin => exact ⟨callee, args, hin, h⟩
  | .replay trace arms elseBody => by
    rw [reachExpr, List.mem_append, List.mem_append, mem_reachExpr_iff trace, mem_reachArms_iff arms,
      mem_reachExpr_iff elseBody]
    constructor
    · rintro ((⟨callee, args, hin, h⟩ | ⟨pattern, capture, body, harm, callee, args, hin, h⟩) |
        ⟨callee, args, hin, h⟩)
      · exact ⟨callee, args, .trace hin, h⟩
      · exact ⟨callee, args, .arm harm hin, h⟩
      · exact ⟨callee, args, .elseBody hin, h⟩
    · rintro ⟨callee, args, hin, h⟩
      cases hin with
      | trace hin => exact .inl (.inl ⟨callee, args, hin, h⟩)
      | arm harm hin => exact .inl (.inr ⟨_, _, _, harm, callee, args, hin, h⟩)
      | elseBody hin => exact .inr ⟨callee, args, hin, h⟩
  | .literal => by
    rw [reachExpr]
    exact ⟨by simp, by rintro ⟨callee, args, ⟨⟩, h⟩⟩
  | .ident name => by
    rw [reachExpr]
    exact ⟨by simp, by rintro ⟨callee, args, ⟨⟩, h⟩⟩

theorem mem_reachExprs_iff : (es : List Expr) →
    (err ∈ reachExprs table resolved index enter scope es ↔
      ∃ e ∈ es, ∃ callee args, CallIn e callee args ∧
        err ∈ checkCall table resolved index enter scope callee args.length)
  | [] => by simp [reachExprs]
  | e :: es => by
    rw [reachExprs, List.mem_append, mem_reachExpr_iff e, mem_reachExprs_iff es]
    simp only [List.mem_cons, exists_eq_or_imp]

theorem mem_reachArms_iff : (arms : List ReplayArm) →
    (err ∈ reachArms table resolved index enter scope arms ↔
      ∃ pattern capture body, .mk pattern capture body ∈ arms ∧ ∃ callee args,
        CallIn body callee args ∧ err ∈ checkCall table resolved index enter scope callee args.length)
  | [] => by simp [reachArms]
  | .mk pattern capture body :: arms => by
    rw [reachArms, List.mem_append, mem_reachExpr_iff body, mem_reachArms_iff arms]
    constructor
    · rintro (h | ⟨pattern', capture', body', hmem, h⟩)
      · exact ⟨pattern, capture, body, List.mem_cons_self, h⟩
      · exact ⟨pattern', capture', body', List.mem_cons_of_mem _ hmem, h⟩
    · rintro ⟨pattern', capture', body', hmem, h⟩
      rcases List.mem_cons.mp hmem with heq | hmem
      · obtain ⟨rfl, rfl, rfl⟩ := ReplayArm.mk.inj heq
        exact .inl h
      · exact .inr ⟨pattern', capture', body', hmem, h⟩

end

theorem reachabilityWalk_restores : (reachabilityWalk table resolved index enter).Restores :=
  fun _ _ => rfl

/-- What a body reports with the bodies of the agents that it calls. -/
theorem mem_checkBlock_reachabilityWalk_iff (body : Block) :
    err ∈ ((reachabilityWalk table resolved index enter).checkBlock body ⟨[], []⟩).errors ↔
      BodyReports table resolved index body err ∨ ∃ id, BodyCalls resolved body id ∧ err ∈ enter id := by
  rw [Walk.mem_checkBlock_iff reachabilityWalk_restores]
  have hexpr (scope e) : err ∈ (reachabilityWalk table resolved index enter).exprErrors scope e ↔
      ∃ callee args, CallIn e callee args ∧ (Unapproved table resolved index scope callee args err ∨
        ∃ name id, Names resolved .agent callee name id ∧ err ∈ enter id) := by
    refine (mem_reachExpr_iff e).trans ?_
    simp only [mem_checkCall_iff]
  simp only [hexpr]
  constructor
  · rintro ⟨scope, e, hat, callee, args, hin, h | ⟨name, id, hnames, h⟩⟩
    · exact .inl ⟨scope, e, callee, args, hat, hin, h⟩
    · exact .inr ⟨id, ⟨scope, e, callee, args, name, hat, hin, hnames⟩, h⟩
  · rintro (⟨scope, e, callee, args, hat, hin, h⟩ |
      ⟨id, ⟨scope, e, callee, args, name, hat, hin, hnames⟩, h⟩)
    · exact ⟨scope, e, hat, callee, args, hin, .inl h⟩
    · exact ⟨scope, e, hat, callee, args, hin, .inr ⟨name, id, hnames, h⟩⟩

end Calls

/-! ### Bodies of agents -/

section Agents

variable (table : CaseTable) (resolved : Resolved) (index : ReachabilityIndex)

/-- The body of the agent reports the call itself. -/
def AgentReports (id : DefId) (err : UnapprovedCall) : Prop :=
  ∃ body, index.agents.lookup id = some body ∧ BodyReports table resolved index body err

/-- The body of the first agent calls the second. -/
def AgentCalls (id id' : DefId) : Prop :=
  ∃ body, index.agents.lookup id = some body ∧ BodyCalls resolved body id'

variable {table resolved index} {err : UnapprovedCall}

/-- While some agents are being visited, the pass finds what is unapproved along chains of calls that do
not come to them. -/
theorem mem_checkAgentBody_iff_of_visiting (fuel : ℕ) (visiting : Finset DefId) (id : DefId)
    (hfuel : (index.agents.keys.toFinset \ visiting).card < fuel) :
    err ∈ checkAgentBody table resolved index fuel visiting id ↔
      id ∉ visiting ∧ ∃ id',
        ReflTransGen (fun a b => AgentCalls resolved index a b ∧ b ∉ visiting) id id' ∧
          AgentReports table resolved index id' err := by
  induction fuel generalizing visiting id with
  | zero => omega
  | succ fuel ih =>
    by_cases hid : id ∈ visiting
    · simp [checkAgentBody, hid]
    cases hbody : index.agents.lookup id with
    | none =>
      simp only [checkAgentBody, if_neg hid, hbody, List.not_mem_nil, false_iff]
      rintro ⟨-, id', hchain, body, hbody', -⟩
      rcases hchain.cases_head with rfl | ⟨c, ⟨⟨body, hbody'', -⟩, -⟩, -⟩
      · simp [hbody] at hbody'
      · simp [hbody] at hbody''
    | some body =>
      have hnext : (index.agents.keys.toFinset \ insert id visiting).card < fuel := by
        have hkey : id ∈ index.agents.keys.toFinset \ visiting := by
          have hlookup : (index.agents.lookup id).isSome := by simp [hbody]
          have hmem : id ∈ index.agents.keys := AList.mem_keys.mpr (AList.lookup_isSome.mp hlookup)
          simp [hid, hmem]
        have hcard := Finset.card_erase_of_mem hkey
        have hpos := Finset.card_pos.mpr ⟨id, hkey⟩
        rw [Finset.sdiff_insert, hcard]
        omega
      have havoid (a b) : AgentCalls resolved index a b ∧ b ∉ insert id visiting ↔
          (AgentCalls resolved index a b ∧ b ∉ visiting) ∧ b ≠ id := by
        rw [Finset.mem_insert]
        tauto
      have hcalls (c) : AgentCalls resolved index id c ↔ BodyCalls resolved body c := by
        simp [AgentCalls, hbody]
      have hreports : AgentReports table resolved index id err ↔
          BodyReports table resolved index body err := by
        simp [AgentReports, hbody]
      simp only [checkAgentBody, if_neg hid, hbody, mem_checkBlock_reachabilityWalk_iff, ih _ _ hnext,
        havoid, ← hcalls, ← hreports]
      constructor
      · rintro (h | ⟨c, hc, hnot, id', hchain, h⟩)
        · exact ⟨hid, id, .refl, h⟩
        · rw [Finset.mem_insert, not_or] at hnot
          exact ⟨hid, id', Chains.reflTransGen_iff_avoiding.mpr (.inr ⟨c, ⟨hc, hnot.2⟩, hnot.1, hchain⟩), h⟩
      · rintro ⟨-, id', hchain, h⟩
        rcases Chains.reflTransGen_iff_avoiding.mp hchain with rfl | ⟨c, ⟨hc, hc'⟩, hne, hchain⟩
        · exact .inl h
        · refine .inr ⟨c, hc, ?_, id', hchain, h⟩
          rw [Finset.mem_insert, not_or]
          exact ⟨hne, hc'⟩

/-- As many levels as there are agents, and one more. -/
def depth (index : ReachabilityIndex) : ℕ :=
  index.agents.keys.length + 1

/-- From an agent, the pass finds what is unapproved along chains of calls, in whatever order the bodies
are entered. -/
theorem mem_checkAgentBody_iff (id : DefId) :
    err ∈ checkAgentBody table resolved index (depth index) ∅ id ↔
      ∃ id', ReflTransGen (AgentCalls resolved index) id id' ∧ AgentReports table resolved index id' err := by
  have hfuel : (index.agents.keys.toFinset \ ∅).card < depth index := by
    rw [Finset.sdiff_empty, depth]
    have := List.toFinset_card_le index.agents.keys
    omega
  have hmem : err ∈ checkAgentBody table resolved index (depth index) ∅ id ↔ _ :=
    mem_checkAgentBody_iff_of_visiting (depth index) ∅ id hfuel
  simpa using hmem

end Agents

/-! ### Entry points -/

inductive EntryPoint where
  | route (server : String) (route : HttpRouteDecl)
  | schedule (schedule : ScheduleDecl)
  | agent (agent : AgentDecl)

section Files

variable (table : CaseTable) (resolved : Resolved) (effectOf : ToolDecl → Effect)
  (exported : AgentDecl → Bool)

/-- The tables of the pass, and the agents that are declared at the top level by their names. -/
structure FileIndex where
  tools : Keyed.Map DefId Effect
  agents : Keyed.Map DefId Block
  agentsByName : Keyed.Map String DefId

namespace FileIndex

/-- A method of a type that the resolver has entered. -/
def addMethod (methodTable : Keyed.Map String MethodEntry) (index : FileIndex) (method : ExtendMethodKind) :
    FileIndex :=
  match methodTable.lookup method.name.name with
  | none => index
  | some entry =>
    match method with
    | .tool tool => { index with tools := index.tools.insert entry.defId (effectOf tool) }
    | .agent agent => { index with agents := index.agents.insert entry.defId agent.body }
    | .prompt _ => index

def addDecl (index : FileIndex) : Decl → FileIndex
  | .tool tool =>
    match resolved.symbols.lookupDef tool.name.name with
    | some id => { index with tools := index.tools.insert id (effectOf tool) }
    | none => index
  | .agent agent =>
    match resolved.symbols.lookupDef agent.name.name with
    | some id =>
      { index with
        agents := index.agents.insert id agent.body
        agentsByName := index.agentsByName.insert agent.name.name id }
    | none => index
  | .extend ext =>
    match (resolved.symbols.lookupDef ext.typeName.name).bind resolved.methods.lookup with
    | some methodTable => ext.methods.foldl (addMethod effectOf methodTable) index
    | none => index
  | _ => index

def new (file : File) : FileIndex :=
  file.decls.foldl (addDecl resolved effectOf) ⟨∅, ∅, ∅⟩

def reachability (index : FileIndex) : ReachabilityIndex :=
  ⟨index.tools.lookup, index.agents⟩

end FileIndex

/-- The entry points, in the order of the file. -/
def entryPoints (file : File) : List EntryPoint :=
  file.decls.flatMap fun
    | .server server => server.routes.map (.route server.name.name)
    | .schedule schedule => [.schedule schedule]
    | .agent agent => if exported agent then [.agent agent] else []
    | _ => []

/-- Nothing is being visited when an entry point is come to. -/
def checkEntry (index : FileIndex) : EntryPoint → List UnapprovedCall
  | .route _ route =>
    let enter := checkAgentBody table resolved index.reachability (depth index.reachability) ∅
    ((reachabilityWalk table resolved index.reachability enter).checkBlock route.body ⟨[], []⟩).errors
  | .schedule schedule =>
    let enter := checkAgentBody table resolved index.reachability (depth index.reachability) ∅
    schedule.args.flatMap (reachExpr table resolved index.reachability enter []) ++
      ((index.agentsByName.lookup schedule.target.name).map enter).getD []
  | .agent agent =>
    let enter := checkAgentBody table resolved index.reachability (depth index.reachability) ∅
    ((index.agentsByName.lookup agent.name.name).map enter).getD []

/-- The errors of a file, each with its entry point. -/
def checkApprovalReachability (file : File) : List (EntryPoint × UnapprovedCall) :=
  (entryPoints exported file).flatMap fun entry =>
    (checkEntry table resolved (.new resolved effectOf file) entry).map fun err => (entry, err)

/-- An unapproved call of the entry point itself. -/
def EntryReports (index : FileIndex) (err : UnapprovedCall) : EntryPoint → Prop
  | .route _ route => BodyReports table resolved index.reachability route.body err
  | .schedule schedule => ∃ arg ∈ schedule.args, ∃ callee args, CallIn arg callee args ∧
      Unapproved table resolved index.reachability [] callee args err
  | .agent _ => False

/-- An agent that the entry point calls, or is. -/
def EntryCalls (index : FileIndex) (id : DefId) : EntryPoint → Prop
  | .route _ route => BodyCalls resolved route.body id
  | .schedule schedule => index.agentsByName.lookup schedule.target.name = some id ∨
      ∃ arg ∈ schedule.args, ∃ callee args name, CallIn arg callee args ∧
        Names resolved .agent callee name id
  | .agent agent => index.agentsByName.lookup agent.name.name = some id

variable {table resolved effectOf exported} {err : UnapprovedCall}

theorem mem_checkEntry_iff {index : FileIndex} {entry : EntryPoint} :
    err ∈ checkEntry table resolved index entry ↔
      EntryReports table resolved index err entry ∨
        ∃ id id', EntryCalls resolved index id entry ∧
          ReflTransGen (AgentCalls resolved index.reachability) id id' ∧
            AgentReports table resolved index.reachability id' err := by
  have henter (target : Option DefId) :
      err ∈ (target.map (checkAgentBody table resolved index.reachability
        (depth index.reachability) ∅)).getD [] ↔
      ∃ id id', target = some id ∧ ReflTransGen (AgentCalls resolved index.reachability) id id' ∧
        AgentReports table resolved index.reachability id' err := by
    cases target with
    | none => simp
    | some id => simp [mem_checkAgentBody_iff]
  cases entry with
  | route server route =>
    simp only [checkEntry, EntryReports, EntryCalls, mem_checkBlock_reachabilityWalk_iff,
      mem_checkAgentBody_iff, exists_and_left]
  | agent agent =>
    simp only [checkEntry, EntryReports, EntryCalls, henter, false_or]
  | schedule schedule =>
    simp only [checkEntry, EntryReports, EntryCalls, List.mem_append, List.mem_flatMap, henter,
      mem_reachExpr_iff, mem_checkCall_iff, mem_checkAgentBody_iff]
    constructor
    · rintro (⟨arg, harg, callee, args, hin, h | ⟨name, id, hnames, id', hchain, h⟩⟩ |
        ⟨id, id', htarget, hchain, h⟩)
      · exact .inl ⟨arg, harg, callee, args, hin, h⟩
      · exact .inr ⟨id, id', .inr ⟨arg, harg, callee, args, name, hin, hnames⟩, hchain, h⟩
      · exact .inr ⟨id, id', .inl htarget, hchain, h⟩
    · rintro (⟨arg, harg, callee, args, hin, h⟩ |
        ⟨id, id', htarget | ⟨arg, harg, callee, args, name, hin, hnames⟩, hchain, h⟩)
      · exact .inl ⟨arg, harg, callee, args, hin, .inl h⟩
      · exact .inr ⟨id, id', htarget, hchain, h⟩
      · exact .inl ⟨arg, harg, callee, args, hin, .inr ⟨name, id, hnames, id', hchain, h⟩⟩

end Files

end Corvid.Labels
