import Corvid.Effects.WorstCase

/-!
# Spending within a budget

What the cost analysis is for: an agent whose estimate stands within its budget does not spend more than
the budget, whatever it does. `Spends` gives the executions of a part of an agent with what they cost,
without values: branches go either way, a part may be left at any time, and a loop over a list literal
takes at most one round for each item. Each call of a tool or a prompt pays what it declares.

## What the bound needs

* The estimates of *all* agents that are reached are bounded: the analysis drops what it found in a
  called agent, and the type checker asks for the flag of the agent itself only.
* No agent calls itself. The analysis counts nothing for the inner call.
* The body of a retry is evaluated once. The analysis does not multiply by the attempts.
* No price is below the precision in all of its dimensions, since such leaves are pruned (`Priced`).

Replays are counted with all of their arms, though one arm is evaluated at most. Without them every
dimension of the estimate is reached by some execution, so that the type checker rejects no agent that
keeps its budget.

## Main definitions

* `Piece`, `CostContext.Unfolds`, `CostContext.Spends`: executions and their costs
* `CostContext.Priced`, `CostContext.Acyclic`

## Main results

* `CostContext.Spends.le_dimensions`: executions stay within the estimate
* `CostContext.exists_spends_eq_dimensions`: the estimate is reached
* `spends_le_of_checkBudgets`, `exists_spends_of_mem_checkBudgets`: budgets
-/

namespace Corvid.Effects

open Corvid.Ast
open Relation (ReflTransGen TransGen)

/-! ### Executions -/

/-- A part of an execution. -/
inductive Piece where
  | expr (e : Expr)
  | call (callee : Expr)
  | stmt (s : Stmt)
  | block (ss : Block)
  | seq (ps : List Piece)

namespace CostContext

/-- What a part consists of. A loop over a list literal takes at most one round for each item, any other
loop takes any number of rounds; the body of a retry is evaluated `attempts` times at most. -/
inductive Unfolds (ctx : CostContext) (attempts : Expr → ℕ) : Piece → Piece → Prop
  | call {callee args} : Unfolds ctx attempts (.expr (.call callee args))
      (.seq (.expr callee :: args.map .expr ++ [.call callee]))
  | agent {callee name agent} (hcallee : ctx.calledAgent callee = some name)
      (hagent : findAgent ctx.file name = some agent) :
      Unfolds ctx attempts (.call callee) (.block agent.body)
  | fieldAccess {target field} : Unfolds ctx attempts (.expr (.fieldAccess target field)) (.expr target)
  | index {target index} : Unfolds ctx attempts (.expr (.index target index))
      (.seq [.expr target, .expr index])
  | binOp {left right} : Unfolds ctx attempts (.expr (.binOp left right)) (.seq [.expr left, .expr right])
  | unOp {operand} : Unfolds ctx attempts (.expr (.unOp operand)) (.expr operand)
  | list {items} : Unfolds ctx attempts (.expr (.list items)) (.seq (items.map .expr))
  | tryPropagate {inner} : Unfolds ctx attempts (.expr (.tryPropagate inner)) (.expr inner)
  | tryRetry {body n} (hn : n ≤ attempts body) :
      Unfolds ctx attempts (.expr (.tryRetry body)) (.seq (List.replicate n (.expr body)))
  | replayArm {trace arms elseBody pattern capture body} (harm : .mk pattern capture body ∈ arms) :
      Unfolds ctx attempts (.expr (.replay trace arms elseBody)) (.seq [.expr trace, .expr body])
  | replayElse {trace arms elseBody} :
      Unfolds ctx attempts (.expr (.replay trace arms elseBody)) (.seq [.expr trace, .expr elseBody])
  | letStmt {name ty value} : Unfolds ctx attempts (.stmt (.letStmt name ty value)) (.expr value)
  | returnStmt {value} : Unfolds ctx attempts (.stmt (.returnStmt (some value))) (.expr value)
  | yieldStmt {value} : Unfolds ctx attempts (.stmt (.yieldStmt value)) (.expr value)
  | ifThen {cond thenBlock elseBlock} : Unfolds ctx attempts (.stmt (.ifStmt cond thenBlock elseBlock))
      (.seq [.expr cond, .block thenBlock])
  | ifElse {cond thenBlock elseBlock} :
      Unfolds ctx attempts (.stmt (.ifStmt cond thenBlock (some elseBlock)))
        (.seq [.expr cond, .block elseBlock])
  | forStmt {var iter body n} (hn : ∀ k, staticLoopBound iter = some k → n ≤ k) :
      Unfolds ctx attempts (.stmt (.forStmt var iter body))
        (.seq (.expr iter :: List.replicate n (.block body)))
  | approve {action} : Unfolds ctx attempts (.stmt (.approve action)) (.expr action)
  | exprStmt {e} : Unfolds ctx attempts (.stmt (.expr e)) (.expr e)
  | block {ss} : Unfolds ctx attempts (.block ss) (.seq (ss.map .stmt))

/-- The costs of an execution. Every part may be left before its end, by a return, a failure or an
operand that is not needed. -/
inductive Spends (ctx : CostContext) (attempts : Expr → ℕ) : Piece → Costs → Prop
  | leave (p : Piece) : Spends ctx attempts p 0
  | pay (callee : Expr) : Spends ctx attempts (.call callee) (ctx.declaredCosts callee)
  | unfold {p q c} (h : Unfolds ctx attempts p q) (hq : Spends ctx attempts q c) :
      Spends ctx attempts p c
  | next {p ps c c'} (hp : Spends ctx attempts p c) (hps : Spends ctx attempts (.seq ps) c') :
      Spends ctx attempts (.seq (p :: ps)) (c + c')

end CostContext

mutual

/-- What a part calls. -/
def pieceCallees : Piece → List Expr
  | .expr e => exprCallees e
  | .call callee => [callee]
  | .stmt s => stmtCallees s
  | .block ss => blockCallees ss
  | .seq ps => piecesCallees ps

def piecesCallees : List Piece → List Expr
  | [] => []
  | p :: ps => pieceCallees p ++ piecesCallees ps

end

mutual

def staticPiece : Piece → Bool
  | .expr _ | .call _ => true
  | .stmt s => staticStmt s
  | .block ss => staticBlock ss
  | .seq ps => staticPieces ps

def staticPieces : List Piece → Bool
  | [] => true
  | p :: ps => staticPiece p && staticPieces ps

end

mutual

def worstPiece (cost : Expr → Costs) : Piece → Costs
  | .expr e => worstExpr cost e
  | .call callee => cost callee
  | .stmt s => worstStmt cost s
  | .block ss => worstBlock cost ss
  | .seq ps => worstPieces cost ps

def worstPieces (cost : Expr → Costs) : List Piece → Costs
  | [] => 0
  | p :: ps => worstPiece cost p + worstPieces cost ps

end

section Lists

variable (cost : Expr → Costs)

theorem piecesCallees_eq (ps : List Piece) : piecesCallees ps = ps.flatMap pieceCallees := by
  induction ps with
  | nil => rfl
  | cons p ps ih => rw [piecesCallees, ih, List.flatMap_cons]

theorem exprsCallees_eq (es : List Expr) : exprsCallees es = es.flatMap exprCallees := by
  induction es with
  | nil => rfl
  | cons e es ih => rw [exprsCallees, ih, List.flatMap_cons]

theorem blockCallees_eq (ss : Block) : blockCallees ss = ss.flatMap stmtCallees := by
  induction ss with
  | nil => rfl
  | cons s ss ih => rw [blockCallees, ih, List.flatMap_cons]

theorem staticPieces_eq (ps : List Piece) : staticPieces ps = ps.all staticPiece := by
  induction ps with
  | nil => rfl
  | cons p ps ih => rw [staticPieces, ih, List.all_cons]

theorem staticBlock_eq (ss : Block) : staticBlock ss = ss.all staticStmt := by
  induction ss with
  | nil => rfl
  | cons s ss ih => rw [staticBlock, ih, List.all_cons]

theorem worstPieces_eq (ps : List Piece) : worstPieces cost ps = (ps.map (worstPiece cost)).sum := by
  induction ps with
  | nil => rfl
  | cons p ps ih => rw [worstPieces, ih, List.map_cons, List.sum_cons]

theorem worstExprs_eq (es : List Expr) : worstExprs cost es = (es.map (worstExpr cost)).sum := by
  induction es with
  | nil => rfl
  | cons e es ih => rw [worstExprs, ih, List.map_cons, List.sum_cons]

theorem worstBlock_eq (ss : Block) : worstBlock cost ss = (ss.map (worstStmt cost)).sum := by
  induction ss with
  | nil => rfl
  | cons s ss ih => rw [worstBlock, ih, List.map_cons, List.sum_cons]

theorem exprCallees_subset_arms {arms : List ReplayArm} {pattern : ReplayPattern}
    {capture : Option Ident} {body : Expr} (h : .mk pattern capture body ∈ arms) :
    exprCallees body ⊆ armsCallees arms := by
  induction arms with
  | nil => cases h
  | cons arm arms ih =>
    obtain ⟨pattern', capture', body'⟩ := arm
    rw [armsCallees]
    rcases List.mem_cons.mp h with heq | h
    · cases heq
      exact List.subset_append_left _ _
    · exact List.Subset.trans (ih h) (List.subset_append_right _ _)

end Lists

section Nonnegative

variable {cost : Expr → Costs}

mutual

theorem worstExpr_nonneg : (e : Expr) → (∀ callee ∈ exprCallees e, 0 ≤ cost callee) → 0 ≤ worstExpr cost e
  | .literal, _ => le_rfl
  | .ident _, _ => le_rfl
  | .call callee args, h => by
    simp only [exprCallees, List.forall_mem_append] at h
    exact add_nonneg (add_nonneg (worstExpr_nonneg callee h.1.1) (worstExprs_nonneg args h.1.2))
      (h.2 callee (by simp))
  | .fieldAccess target _, h => worstExpr_nonneg target h
  | .index target index, h => by
    simp only [exprCallees, List.forall_mem_append] at h
    exact add_nonneg (worstExpr_nonneg target h.1) (worstExpr_nonneg index h.2)
  | .binOp left right, h => by
    simp only [exprCallees, List.forall_mem_append] at h
    exact add_nonneg (worstExpr_nonneg left h.1) (worstExpr_nonneg right h.2)
  | .unOp operand, h => worstExpr_nonneg operand h
  | .list items, h => worstExprs_nonneg items h
  | .tryPropagate inner, h => worstExpr_nonneg inner h
  | .tryRetry body, h => worstExpr_nonneg body h
  | .replay trace arms elseBody, h => by
    simp only [exprCallees, List.forall_mem_append] at h
    exact add_nonneg (add_nonneg (worstExpr_nonneg trace h.1.1) (worstArms_nonneg arms h.1.2))
      (worstExpr_nonneg elseBody h.2)

theorem worstExprs_nonneg : (es : List Expr) → (∀ callee ∈ exprsCallees es, 0 ≤ cost callee) →
    0 ≤ worstExprs cost es
  | [], _ => le_rfl
  | e :: es, h => by
    simp only [exprsCallees, List.forall_mem_append] at h
    exact add_nonneg (worstExpr_nonneg e h.1) (worstExprs_nonneg es h.2)

theorem worstArms_nonneg : (arms : List ReplayArm) → (∀ callee ∈ armsCallees arms, 0 ≤ cost callee) →
    0 ≤ worstArms cost arms
  | [], _ => le_rfl
  | .mk _ _ body :: arms, h => by
    simp only [armsCallees, List.forall_mem_append] at h
    exact add_nonneg (worstExpr_nonneg body h.1) (worstArms_nonneg arms h.2)

end

mutual

theorem worstStmt_nonneg : (s : Stmt) → (∀ callee ∈ stmtCallees s, 0 ≤ cost callee) → 0 ≤ worstStmt cost s
  | .letStmt _ _ value, h => worstExpr_nonneg value h
  | .yieldStmt value, h => worstExpr_nonneg value h
  | .expr value, h => worstExpr_nonneg value h
  | .approve value, h => worstExpr_nonneg value h
  | .returnStmt (some value), h => worstExpr_nonneg value h
  | .returnStmt none, _ => le_rfl
  | .ifStmt cond thenBlock elseBlock, h => by
    simp only [stmtCallees, List.forall_mem_append] at h
    exact add_nonneg (worstExpr_nonneg cond h.1.1)
      (le_sup_of_le_left (worstBlock_nonneg thenBlock h.1.2))
  | .forStmt _ iter body, h => by
    simp only [stmtCallees, List.forall_mem_append] at h
    exact add_nonneg (worstExpr_nonneg iter h.1) (nsmul_nonneg (worstBlock_nonneg body h.2) _)

theorem worstBlock_nonneg : (ss : Block) → (∀ callee ∈ blockCallees ss, 0 ≤ cost callee) →
    0 ≤ worstBlock cost ss
  | [], _ => le_rfl
  | s :: ss, h => by
    simp only [blockCallees, List.forall_mem_append] at h
    exact add_nonneg (worstStmt_nonneg s h.1) (worstBlock_nonneg ss h.2)

end

mutual

theorem worstPiece_nonneg : (p : Piece) → (∀ callee ∈ pieceCallees p, 0 ≤ cost callee) →
    0 ≤ worstPiece cost p
  | .expr e, h => worstExpr_nonneg e h
  | .call callee, h => h callee (List.mem_singleton_self _)
  | .stmt s, h => worstStmt_nonneg s h
  | .block ss, h => worstBlock_nonneg ss h
  | .seq ps, h => worstPieces_nonneg ps h

theorem worstPieces_nonneg : (ps : List Piece) → (∀ callee ∈ piecesCallees ps, 0 ≤ cost callee) →
    0 ≤ worstPieces cost ps
  | [], _ => le_rfl
  | p :: ps, h => by
    simp only [piecesCallees, List.forall_mem_append] at h
    exact add_nonneg (worstPiece_nonneg p h.1) (worstPieces_nonneg ps h.2)

end

theorem worstExpr_le_arms {arms : List ReplayArm} {pattern : ReplayPattern} {capture : Option Ident}
    {body : Expr} (h : .mk pattern capture body ∈ arms)
    (hcost : ∀ callee ∈ armsCallees arms, 0 ≤ cost callee) :
    worstExpr cost body ≤ worstArms cost arms := by
  induction arms with
  | nil => cases h
  | cons arm arms ih =>
    obtain ⟨pattern', capture', body'⟩ := arm
    simp only [armsCallees, List.forall_mem_append] at hcost
    rw [worstArms]
    rcases List.mem_cons.mp h with heq | h
    · cases heq
      exact le_add_of_nonneg_right (worstArms_nonneg arms hcost.2)
    · exact le_add_of_nonneg_of_le (worstExpr_nonneg body' hcost.1) (ih h hcost.2)

end Nonnegative

/-! ### Executions stay within the estimate -/

namespace CostContext

variable {ctx : CostContext} {attempts : Expr → ℕ} {cost : Expr → Costs} {p q : Piece} {a b : String}

/-- Whatever agent is reached, its loops have static bounds. -/
def StaticFrom (ctx : CostContext) (a : String) : Prop :=
  ∀ b agent, ReflTransGen ctx.Calls a b → findAgent ctx.file b = some agent →
    staticBlock agent.body = true

theorem StaticFrom.of_reaches (h : ctx.StaticFrom a) (hab : ReflTransGen ctx.Calls a b) :
    ctx.StaticFrom b :=
  fun c agent hbc => h c agent (hab.trans hbc)

/-- A part the loops of which have static bounds, as do those of the agents it calls, which do not call
themselves. -/
structure Tame (ctx : CostContext) (p : Piece) : Prop where
  isStatic : staticPiece p = true
  agents : ∀ callee ∈ pieceCallees p, ∀ b, ctx.calledAgent callee = some b →
    ctx.Acyclic b ∧ ctx.StaticFrom b

theorem Tame.of_subset (h : ctx.Tame p) (hstatic : staticPiece q = true)
    (hsubset : pieceCallees q ⊆ pieceCallees p) : ctx.Tame q :=
  ⟨hstatic, fun callee hc => h.agents callee (hsubset hc)⟩

theorem tame_body {agent : AgentDecl} (hacyclic : ctx.Acyclic a) (hstatic : ctx.StaticFrom a)
    (hagent : findAgent ctx.file a = some agent) : ctx.Tame (.block agent.body) := by
  refine ⟨hstatic a agent .refl hagent, fun callee hc b hb => ?_⟩
  have hcall : ReflTransGen ctx.Calls a b := .single ⟨agent, hagent, callee, hc, hb⟩
  exact ⟨hacyclic.of_reaches hcall, hstatic.of_reaches hcall⟩

/-- The parts of a part are called from it, and their loops are among its. -/
theorem Unfolds.tame (h : ctx.Unfolds attempts p q) (hp : ctx.Tame p) : ctx.Tame q := by
  cases h with
  | agent hcallee hagent =>
    obtain ⟨hacyclic, hstatic⟩ := hp.agents _ (List.mem_singleton_self _) _ hcallee
    exact tame_body hacyclic hstatic hagent
  | ifThen =>
    have hstatic := hp.isStatic
    simp only [staticPiece, staticStmt, Bool.and_eq_true] at hstatic
    refine hp.of_subset (by simp [staticPiece, staticPieces, hstatic.1]) ?_
    simp [pieceCallees, piecesCallees, stmtCallees]
  | ifElse =>
    have hstatic := hp.isStatic
    simp only [staticPiece, staticStmt, staticElse, Bool.and_eq_true] at hstatic
    refine hp.of_subset (by simp [staticPiece, staticPieces, hstatic.2]) ?_
    simp [pieceCallees, piecesCallees, stmtCallees, elseCallees]
  | forStmt =>
    have hstatic := hp.isStatic
    simp only [staticPiece, staticStmt, Bool.and_eq_true] at hstatic
    refine hp.of_subset (by simp [staticPiece, staticPieces_eq, hstatic.2]) ?_
    intro callee hc
    simp [pieceCallees, piecesCallees_eq, stmtCallees] at hc ⊢
    tauto
  | block =>
    have hstatic := hp.isStatic
    refine hp.of_subset ?_ ?_
    · simpa [staticPiece, staticPieces_eq, staticBlock_eq, Function.comp_def] using hstatic
    · simp [pieceCallees, piecesCallees_eq, blockCallees_eq, List.flatMap_map]
  | replayArm harm =>
    refine hp.of_subset rfl ?_
    intro callee hc
    simp [pieceCallees, piecesCallees, exprCallees] at hc ⊢
    have hsub := @exprCallees_subset_arms _ _ _ _ harm callee
    tauto
  | tryRetry =>
    refine hp.of_subset (by simp [staticPiece, staticPieces_eq]) ?_
    intro callee hc
    simp [pieceCallees, piecesCallees_eq, exprCallees] at hc ⊢
    tauto
  | call =>
    refine hp.of_subset (by simp [staticPiece, staticPieces_eq]) ?_
    simp [pieceCallees, piecesCallees_eq, exprCallees, exprsCallees_eq, List.flatMap_map]
  | list =>
    refine hp.of_subset (by simp [staticPiece, staticPieces_eq]) ?_
    simp [pieceCallees, piecesCallees_eq, exprCallees, exprsCallees_eq, List.flatMap_map]
  | replayElse | index | binOp =>
    refine hp.of_subset rfl ?_
    simp [pieceCallees, piecesCallees, exprCallees]
  | fieldAccess | unOp | tryPropagate | letStmt | returnStmt | yieldStmt | approve | exprStmt =>
    exact hp.of_subset rfl (List.Subset.refl _)

/-- The parts of a part do not cost more than it. -/
theorem Unfolds.worst_le (h : ctx.Unfolds attempts p q) (hattempts : ∀ body, attempts body ≤ 1)
    (hp : ctx.Tame p) (hcost : ∀ callee ∈ pieceCallees p, 0 ≤ cost callee)
    (hagents : ∀ callee ∈ pieceCallees p, ∀ b agent, ctx.calledAgent callee = some b →
      findAgent ctx.file b = some agent → worstBlock cost agent.body ≤ cost callee) :
    worstPiece cost q ≤ worstPiece cost p := by
  cases h with
  | @agent callee name agent hcallee hagent =>
    exact hagents _ (List.mem_singleton_self _) name agent hcallee hagent
  | call =>
    simp [worstPiece, worstPieces_eq, worstExpr, worstExprs_eq, Function.comp_def, add_assoc]
  | list => simp [worstPiece, worstPieces_eq, worstExpr, worstExprs_eq, Function.comp_def]
  | block => simp [worstPiece, worstPieces_eq, worstBlock_eq, Function.comp_def]
  | index | binOp => simp [worstPiece, worstPieces, worstExpr]
  | @tryRetry body n hn =>
    have hbody := worstExpr_nonneg body hcost
    simp only [worstPiece, worstPieces_eq, List.map_replicate, List.sum_replicate, worstExpr]
    calc n • worstExpr cost body ≤ 1 • worstExpr cost body :=
          nsmul_le_nsmul_left hbody (hn.trans (hattempts body))
      _ = worstExpr cost body := one_nsmul _
  | @replayArm trace arms elseBody pattern capture body harm =>
    simp only [pieceCallees, exprCallees, List.forall_mem_append] at hcost
    have harm := worstExpr_le_arms harm hcost.1.2
    simp only [worstPiece, worstPieces, worstExpr, add_zero]
    exact le_add_of_le_of_nonneg (add_le_add_right harm _) (worstExpr_nonneg elseBody hcost.2)
  | @replayElse trace arms elseBody =>
    simp only [pieceCallees, exprCallees, List.forall_mem_append] at hcost
    simp only [worstPiece, worstPieces, worstExpr, add_zero]
    exact add_le_add_left (le_add_of_nonneg_right (worstArms_nonneg arms hcost.1.2)) _
  | ifThen =>
    simp only [worstPiece, worstPieces, worstStmt, add_zero]
    exact add_le_add_right le_sup_left _
  | ifElse =>
    simp only [worstPiece, worstPieces, worstStmt, worstElse, add_zero]
    exact add_le_add_right le_sup_right _
  | @forStmt var iter body n hn =>
    have hstatic := hp.isStatic
    simp only [staticPiece, staticStmt, Bool.and_eq_true] at hstatic
    obtain ⟨k, hk⟩ := Option.isSome_iff_exists.mp hstatic.1
    simp only [pieceCallees, stmtCallees, List.forall_mem_append] at hcost
    simp only [worstPiece, worstPieces_eq, List.map_cons, List.sum_cons, List.map_replicate,
      List.sum_replicate, worstStmt, hk, Option.getD_some]
    exact add_le_add_right (nsmul_le_nsmul_left (worstBlock_nonneg body hcost.2) (hn k hk)) _
  | fieldAccess | unOp | tryPropagate | letStmt | returnStmt | yieldStmt | approve | exprStmt =>
    exact le_rfl

end CostContext

namespace CostContext

section Estimate

variable {ctx : CostContext} {attempts : Expr → ℕ} {p : Piece} {a b : String} {c : Costs}

/-- What the tools and the prompts of the file declare. -/
def declaredPrices (ctx : CostContext) : List Costs :=
  ctx.file.decls.filterMap fun
    | .tool tool =>
      some (ctx.effectNodeForDecl tool.name.name .tool tool.effectRow (ctx.dangerous tool)).costs
    | .prompt prompt => some (ctx.effectNodeForPrompt prompt).costs
    | _ => none

/-- No price is negative, and none is below the precision in each of its dimensions, unless it is
zero. -/
def Priced (ctx : CostContext) : Prop :=
  ∀ price ∈ ctx.declaredPrices, 0 ≤ price ∧ (price ≠ 0 → ∃ d, epsilon < price d)

theorem declaredCosts_mem_declaredPrices (callee : Expr) :
    ctx.declaredCosts callee = 0 ∨ ctx.declaredCosts callee ∈ ctx.declaredPrices := by
  unfold declaredCosts
  split
  next => exact .inl rfl
  next entry _ =>
    split
    next =>
      cases hfind : findTool ctx.file entry.name with
      | none => exact .inl rfl
      | some tool =>
        obtain ⟨decl, hdecl, heq⟩ := List.exists_of_findSome?_eq_some hfind
        refine .inr (List.mem_filterMap.mpr ⟨decl, hdecl, ?_⟩)
        cases decl with
        | tool t =>
          dsimp only at heq
          split at heq
          next => cases heq; rfl
          next => cases heq
        | _ => cases heq
    next =>
      cases hfind : findPrompt ctx.file entry.name with
      | none => exact .inl rfl
      | some prompt =>
        obtain ⟨decl, hdecl, heq⟩ := List.exists_of_findSome?_eq_some hfind
        refine .inr (List.mem_filterMap.mpr ⟨decl, hdecl, ?_⟩)
        cases decl with
        | prompt p =>
          dsimp only at heq
          split at heq
          next => cases heq; rfl
          next => cases heq
        | _ => cases heq
    next => exact .inl rfl

theorem Priced.nonneg (h : ctx.Priced) (callee : Expr) : 0 ≤ ctx.declaredCosts callee := by
  rcases ctx.declaredCosts_mem_declaredPrices callee with hzero | hmem
  · exact hzero.ge
  · exact (h _ hmem).1

theorem Priced.countedCosts_eq (h : ctx.Priced) (callee : Expr) :
    ctx.countedCosts callee = ctx.declaredCosts callee := by
  by_cases hzero : ctx.declaredCosts callee = 0
  · rw [countedCosts, hzero, significant_zero]
  · obtain ⟨d, hd⟩ := (h _ ((ctx.declaredCosts_mem_declaredPrices callee).resolve_left hzero)).2 hzero
    refine if_neg fun hall => ?_
    have hmem : d ∈ costDimensions := by cases d <;> decide
    have hle := List.all_eq_true.mp hall d hmem
    exact absurd (of_decide_eq_true hle) (not_le.mpr hd)

theorem Worst.nonneg {w : Costs} (h : Worst ctx a w) (hpriced : ctx.Priced) : 0 ≤ w := by
  induction h with
  | agent hagent hcalls ih =>
    refine worstBlock_nonneg _ fun callee hc => ?_
    unfold callCosts
    split
    next b hb => exact ih callee hc b hb
    next =>
      rw [hpriced.countedCosts_eq]
      exact hpriced.nonneg callee

theorem agentCosts_nonneg (hpriced : ctx.Priced) {agent : AgentDecl} (hacyclic : ctx.Acyclic a)
    (hagent : findAgent ctx.file a = some agent) : 0 ≤ ctx.agentCosts a := by
  obtain ⟨w, hw⟩ := hacyclic.exists_worst hagent
  rw [agentCosts_of_worst hw]
  exact Worst.nonneg hw hpriced

theorem agentCosts_eq_worstBlock {agent : AgentDecl} (hacyclic : ctx.Acyclic a)
    (hagent : findAgent ctx.file a = some agent) :
    ctx.agentCosts a = worstBlock (ctx.callCosts ctx.agentCosts) agent.body := by
  obtain ⟨w, hw⟩ := hacyclic.exists_worst hagent
  rw [agentCosts_of_worst hw]
  obtain ⟨hagent', hcalls⟩ := hw
  obtain rfl := Option.some.inj (hagent.symm.trans hagent')
  refine worstBlock_congr _ fun callee hc => callCosts_congr fun b hb => ?_
  exact (agentCosts_of_worst (hcalls callee hc b hb)).symm

theorem Tame.callCosts_nonneg (hp : ctx.Tame p) (hpriced : ctx.Priced) :
    ∀ callee ∈ pieceCallees p, 0 ≤ ctx.callCosts ctx.agentCosts callee := by
  intro callee hc
  unfold callCosts
  split
  next b hb =>
    obtain ⟨agent, hagent⟩ := findAgent_of_calledAgent hb
    exact agentCosts_nonneg hpriced (hp.agents callee hc b hb).1 hagent
  next =>
    rw [hpriced.countedCosts_eq]
    exact hpriced.nonneg callee

theorem declaredCosts_of_calledAgent {callee : Expr} (h : ctx.calledAgent callee = some b) :
    ctx.declaredCosts callee = 0 := by
  unfold calledAgent at h
  unfold declaredCosts
  split at h
  next => cases h
  next entry hentry =>
    split at h
    next hkind => rw [hkind]
    next => cases h

/-- An execution of a part costs no more than what the analysis counts for it. -/
theorem Spends.le_worstPiece (h : ctx.Spends attempts p c) (hattempts : ∀ body, attempts body ≤ 1)
    (hpriced : ctx.Priced) (hp : ctx.Tame p) :
    c ≤ worstPiece (ctx.callCosts ctx.agentCosts) p := by
  induction h with
  | leave p => exact worstPiece_nonneg p (hp.callCosts_nonneg hpriced)
  | pay callee =>
    show ctx.declaredCosts callee ≤ ctx.callCosts ctx.agentCosts callee
    cases hagent : ctx.calledAgent callee with
    | some b =>
      rw [declaredCosts_of_calledAgent hagent]
      exact hp.callCosts_nonneg hpriced callee (List.mem_singleton_self _)
    | none =>
      rw [callCosts, hagent]
      exact (hpriced.countedCosts_eq callee).ge
  | unfold hunfold _ ih =>
    refine (ih (hunfold.tame hp)).trans ?_
    refine hunfold.worst_le hattempts hp (hp.callCosts_nonneg hpriced)
      fun callee hc b agent hb hagent => le_of_eq ?_
    rw [← agentCosts_eq_worstBlock (hp.agents callee hc b hb).1 hagent, callCosts, hb]
  | @next p ps c c' _ _ ihp ihps =>
    have hstatic := hp.isStatic
    simp only [staticPiece, staticPieces, Bool.and_eq_true] at hstatic
    have hhead : ctx.Tame p := hp.of_subset hstatic.1 (List.subset_append_left _ _)
    have hrest : ctx.Tame (.seq ps) := hp.of_subset hstatic.2 (List.subset_append_right _ _)
    exact add_le_add (ihp hhead) (ihps hrest)

/-- No execution of an agent spends more than its estimate, where the estimates of all agents that it
comes to are bounded and none of them calls itself. -/
theorem Spends.le_dimensions {agent : AgentDecl} {est : CostEstimate}
    (hagent : findAgent ctx.file a = some agent) (hacyclic : ctx.Acyclic a)
    (hbounded : ∀ b est, ReflTransGen ctx.Calls a b → computeWorstCaseCost ctx b = some est →
      est.bounded = true)
    (hpriced : ctx.Priced) (hattempts : ∀ body, attempts body ≤ 1)
    (hest : computeWorstCaseCost ctx a = some est)
    (hspends : ctx.Spends attempts (.block agent.body) c) (d : CostDimension) :
    c d ≤ est.dimensions d := by
  have hstatic : ctx.StaticFrom a := fun b agent hab hb => by
    obtain ⟨est, hest, -⟩ := dimensions_eq_worstBlock (hacyclic.of_reaches hab) hb
    exact (bounded_computeWorstCaseCost hb hest).symm.trans (hbounded b est hab hest)
  obtain ⟨est', hest', hdims⟩ := dimensions_eq_worstBlock hacyclic hagent
  obtain rfl := Option.some.inj (hest'.symm.trans hest)
  rw [hdims]
  exact hspends.le_worstPiece hattempts hpriced (tame_body hacyclic hstatic hagent) d

end Estimate

end CostContext

/-! ### Estimates are reached -/

mutual

/-- There is no replay in the expression. -/
def replayFreeExpr : Expr → Bool
  | .call callee args => replayFreeExpr callee && replayFreeExprs args
  | .fieldAccess target _ => replayFreeExpr target
  | .index target index => replayFreeExpr target && replayFreeExpr index
  | .binOp left right => replayFreeExpr left && replayFreeExpr right
  | .unOp operand => replayFreeExpr operand
  | .list items => replayFreeExprs items
  | .tryPropagate inner => replayFreeExpr inner
  | .tryRetry body => replayFreeExpr body
  | .replay _ _ _ => false
  | .literal | .ident _ => true

def replayFreeExprs : List Expr → Bool
  | [] => true
  | e :: es => replayFreeExpr e && replayFreeExprs es

end

mutual

def replayFreeStmt : Stmt → Bool
  | .letStmt _ _ value | .yieldStmt value | .expr value | .approve value | .returnStmt (some value) =>
    replayFreeExpr value
  | .returnStmt none => true
  | .ifStmt cond thenBlock elseBlock =>
    replayFreeExpr cond && replayFreeBlock thenBlock && replayFreeElse elseBlock
  | .forStmt _ iter body => replayFreeExpr iter && replayFreeBlock body

def replayFreeBlock : Block → Bool
  | [] => true
  | s :: ss => replayFreeStmt s && replayFreeBlock ss

def replayFreeElse : Option Block → Bool
  | some block => replayFreeBlock block
  | none => true

end

namespace CostContext

section Attains

variable {ctx : CostContext} {attempts : Expr → ℕ} {cost : Expr → Costs} {d : CostDimension}
  {p q : Piece} {ps : List Piece} {a : String}

/-- An execution of the part costs all that is counted for it. -/
def Attains (ctx : CostContext) (attempts : Expr → ℕ) (cost : Expr → Costs) (d : CostDimension)
    (p : Piece) : Prop :=
  ∃ c, ctx.Spends attempts p c ∧ c d = worstPiece cost p d

theorem Attains.unfold (h : ctx.Unfolds attempts p q) (hworst : worstPiece cost q d = worstPiece cost p d)
    (hq : ctx.Attains attempts cost d q) : ctx.Attains attempts cost d p := by
  obtain ⟨c, hc, hcosts⟩ := hq
  exact ⟨c, .unfold h hc, hcosts.trans hworst⟩

theorem Attains.seq (h : ∀ p ∈ ps, ctx.Attains attempts cost d p) :
    ctx.Attains attempts cost d (.seq ps) := by
  induction ps with
  | nil => exact ⟨0, .leave _, rfl⟩
  | cons p ps ih =>
    rw [List.forall_mem_cons] at h
    obtain ⟨c, hc, hcosts⟩ := h.1
    obtain ⟨c', hc', hcosts'⟩ := ih h.2
    exact ⟨c + c', .next hc hc', congrArg₂ (· + ·) hcosts hcosts'⟩

theorem Attains.nothing (h : worstPiece cost p d = 0) : ctx.Attains attempts cost d p :=
  ⟨0, .leave p, h.symm⟩

theorem Attains.pair (hp : ctx.Attains attempts cost d p) (hq : ctx.Attains attempts cost d q) :
    ctx.Attains attempts cost d (.seq [p, q]) :=
  .seq (List.forall_mem_cons.mpr ⟨hp, List.forall_mem_singleton.mpr hq⟩)

/-- Executions of a call cost all that is counted for it. -/
abbrev AttainsCalls (ctx : CostContext) (attempts : Expr → ℕ) (cost : Expr → Costs) (d : CostDimension)
    (callees : List Expr) : Prop :=
  ∀ callee ∈ callees, ctx.Attains attempts cost d (.call callee)

mutual

theorem attains_expr (hattempts : ∀ body, 1 ≤ attempts body) : (e : Expr) → replayFreeExpr e = true →
    ctx.AttainsCalls attempts cost d (exprCallees e) → ctx.Attains attempts cost d (.expr e)
  | .literal, _, _ => .nothing rfl
  | .ident _, _, _ => .nothing rfl
  | .call callee args, hfree, h => by
    rw [replayFreeExpr, Bool.and_eq_true] at hfree
    simp only [AttainsCalls, exprCallees, List.forall_mem_append] at h
    have hcallee := attains_expr hattempts callee hfree.1 h.1.1
    have hargs := attains_exprs hattempts args hfree.2 h.1.2
    refine .unfold .call (by
      simp [worstPiece, worstPieces_eq, worstExpr, worstExprs_eq, Function.comp_def, add_assoc]) ?_
    refine .seq fun p hp => ?_
    rw [List.mem_append, List.mem_cons, List.mem_singleton] at hp
    rcases hp with (rfl | hp) | rfl
    · exact hcallee
    · exact hargs p hp
    · exact h.2 callee (List.mem_singleton_self _)
  | .fieldAccess target _, hfree, h => .unfold .fieldAccess rfl (attains_expr hattempts target hfree h)
  | .index target index, hfree, h => by
    rw [replayFreeExpr, Bool.and_eq_true] at hfree
    simp only [AttainsCalls, exprCallees, List.forall_mem_append] at h
    refine .unfold .index (by simp [worstPiece, worstPieces, worstExpr]) ?_
    exact (attains_expr hattempts target hfree.1 h.1).pair (attains_expr hattempts index hfree.2 h.2)
  | .binOp left right, hfree, h => by
    rw [replayFreeExpr, Bool.and_eq_true] at hfree
    simp only [AttainsCalls, exprCallees, List.forall_mem_append] at h
    refine .unfold .binOp (by simp [worstPiece, worstPieces, worstExpr]) ?_
    exact (attains_expr hattempts left hfree.1 h.1).pair (attains_expr hattempts right hfree.2 h.2)
  | .unOp operand, hfree, h => .unfold .unOp rfl (attains_expr hattempts operand hfree h)
  | .list items, hfree, h => by
    refine .unfold .list (by
      simp [worstPiece, worstPieces_eq, worstExpr, worstExprs_eq, Function.comp_def]) ?_
    exact .seq (attains_exprs hattempts items hfree h)
  | .tryPropagate inner, hfree, h => .unfold .tryPropagate rfl (attains_expr hattempts inner hfree h)
  | .tryRetry body, hfree, h => by
    refine .unfold (.tryRetry (hattempts body)) (by simp [worstPiece, worstPieces, worstExpr]) ?_
    exact .seq (List.forall_mem_singleton.mpr (attains_expr hattempts body hfree h))

theorem attains_exprs (hattempts : ∀ body, 1 ≤ attempts body) : (es : List Expr) →
    replayFreeExprs es = true → ctx.AttainsCalls attempts cost d (exprsCallees es) →
    ∀ p ∈ es.map Piece.expr, ctx.Attains attempts cost d p
  | [], _, _ => List.forall_mem_nil _
  | e :: es, hfree, h => by
    rw [replayFreeExprs, Bool.and_eq_true] at hfree
    simp only [AttainsCalls, exprsCallees, List.forall_mem_append] at h
    exact List.forall_mem_cons.mpr
      ⟨attains_expr hattempts e hfree.1 h.1, attains_exprs hattempts es hfree.2 h.2⟩

end

mutual

theorem attains_stmt (hattempts : ∀ body, 1 ≤ attempts body) : (s : Stmt) → replayFreeStmt s = true →
    ctx.AttainsCalls attempts cost d (stmtCallees s) → ctx.Attains attempts cost d (.stmt s)
  | .letStmt _ _ value, hfree, h => .unfold .letStmt rfl (attains_expr hattempts value hfree h)
  | .yieldStmt value, hfree, h => .unfold .yieldStmt rfl (attains_expr hattempts value hfree h)
  | .expr value, hfree, h => .unfold .exprStmt rfl (attains_expr hattempts value hfree h)
  | .approve value, hfree, h => .unfold .approve rfl (attains_expr hattempts value hfree h)
  | .returnStmt (some value), hfree, h => .unfold .returnStmt rfl (attains_expr hattempts value hfree h)
  | .returnStmt none, _, _ => .nothing rfl
  | .ifStmt cond thenBlock elseBlock, hfree, h => by
    simp only [replayFreeStmt, Bool.and_eq_true] at hfree
    simp only [AttainsCalls, stmtCallees, List.forall_mem_append] at h
    have hcond := attains_expr hattempts cond hfree.1.1 h.1.1
    have hthen := attains_block hattempts thenBlock hfree.1.2 h.1.2
    -- the greater side is taken
    rcases le_total (worstElse cost elseBlock d) (worstBlock cost thenBlock d) with hle | hle
    · refine .unfold .ifThen ?_ (hcond.pair hthen)
      simp [worstPiece, worstPieces, worstStmt, max_eq_left hle]
    · cases elseBlock with
      | none =>
        obtain ⟨c, hc, hcosts⟩ := hcond
        refine ⟨c + 0, .unfold .ifThen (.next hc (.leave _)), ?_⟩
        have hmax : worstBlock cost thenBlock d ⊔ worstElse cost none d = 0 := max_eq_right hle
        show c d + 0 = worstExpr cost cond d + (worstBlock cost thenBlock d ⊔ worstElse cost none d)
        rw [hmax, hcosts]
        rfl
      | some elseBlock =>
        refine .unfold .ifElse ?_ (hcond.pair (attains_block hattempts elseBlock hfree.2 h.2))
        have hmax : worstBlock cost thenBlock d ⊔ worstElse cost (some elseBlock) d =
            worstBlock cost elseBlock d := max_eq_right hle
        simp [worstPiece, worstPieces, worstStmt, hmax]
  | .forStmt var iter body, hfree, h => by
    rw [replayFreeStmt, Bool.and_eq_true] at hfree
    simp only [AttainsCalls, stmtCallees, List.forall_mem_append] at h
    have hiter := attains_expr hattempts iter hfree.1 h.1
    have hbody := attains_block hattempts body hfree.2 h.2
    refine .unfold (.forStmt (n := (staticLoopBound iter).getD 0) fun k hk => by rw [hk]; rfl) ?_ ?_
    · simp [worstPiece, worstPieces_eq, worstStmt]
    · refine .seq (List.forall_mem_cons.mpr ⟨hiter, fun p hp => ?_⟩)
      rw [List.eq_of_mem_replicate hp]
      exact hbody

theorem attains_block (hattempts : ∀ body, 1 ≤ attempts body) (ss : Block)
    (hfree : replayFreeBlock ss = true) (h : ctx.AttainsCalls attempts cost d (blockCallees ss)) :
    ctx.Attains attempts cost d (.block ss) := by
  refine .unfold .block (by simp [worstPiece, worstPieces_eq, worstBlock_eq, Function.comp_def]) ?_
  exact .seq (attains_stmts hattempts ss hfree h)

theorem attains_stmts (hattempts : ∀ body, 1 ≤ attempts body) : (ss : Block) →
    replayFreeBlock ss = true → ctx.AttainsCalls attempts cost d (blockCallees ss) →
    ∀ p ∈ ss.map Piece.stmt, ctx.Attains attempts cost d p
  | [], _, _ => List.forall_mem_nil _
  | s :: ss, hfree, h => by
    rw [replayFreeBlock, Bool.and_eq_true] at hfree
    simp only [AttainsCalls, blockCallees, List.forall_mem_append] at h
    exact List.forall_mem_cons.mpr
      ⟨attains_stmt hattempts s hfree.1 h.1, attains_stmts hattempts ss hfree.2 h.2⟩

end

/-- There is no replay in the agents that `a` comes to. -/
def ReplayFreeFrom (ctx : CostContext) (a : String) : Prop :=
  ∀ b agent, ReflTransGen ctx.Calls a b → findAgent ctx.file b = some agent →
    replayFreeBlock agent.body = true

theorem Attains.agent {name : String} {agent : AgentDecl} {callee : Expr} (hacyclic : ctx.Acyclic name)
    (hcallee : ctx.calledAgent callee = some name) (hagent : findAgent ctx.file name = some agent)
    (h : ctx.Attains attempts (ctx.callCosts ctx.agentCosts) d (.block agent.body)) :
    ctx.Attains attempts (ctx.callCosts ctx.agentCosts) d (.call callee) := by
  refine .unfold (.agent hcallee hagent) (congrFun ?_ d) h
  show worstBlock (ctx.callCosts ctx.agentCosts) agent.body = ctx.callCosts ctx.agentCosts callee
  rw [← agentCosts_eq_worstBlock hacyclic hagent, callCosts, hcallee]

theorem Attains.declared {callee : Expr} (hpriced : ctx.Priced)
    (hcallee : ctx.calledAgent callee = none) :
    ctx.Attains attempts (ctx.callCosts ctx.agentCosts) d (.call callee) := by
  refine ⟨_, .pay callee, congrFun ?_ d⟩
  show ctx.declaredCosts callee = ctx.callCosts ctx.agentCosts callee
  rw [callCosts, hcallee]
  exact (hpriced.countedCosts_eq callee).symm

/-- In each dimension, some execution of an agent spends its estimate, where there is no replay in the
agents it comes to and none of them calls itself. -/
theorem exists_spends_eq_dimensions {agent : AgentDecl} {est : CostEstimate}
    (hagent : findAgent ctx.file a = some agent) (hacyclic : ctx.Acyclic a)
    (hfree : ctx.ReplayFreeFrom a) (hpriced : ctx.Priced) (hattempts : ∀ body, 1 ≤ attempts body)
    (hest : computeWorstCaseCost ctx a = some est) (d : CostDimension) :
    ∃ c, ctx.Spends attempts (.block agent.body) c ∧ c d = est.dimensions d := by
  obtain ⟨w, hw⟩ := hacyclic.exists_worst hagent
  have hbody : ctx.Attains attempts (ctx.callCosts ctx.agentCosts) d (.block agent.body) := by
    clear hest
    induction hw generalizing agent with
    | @agent name agent' f hagent' hcalls ih =>
      obtain rfl := Option.some.inj (hagent'.symm.trans hagent)
      refine attains_block hattempts _ (hfree _ _ .refl hagent) fun callee hc => ?_
      cases hcallee : ctx.calledAgent callee with
      | none => exact .declared hpriced hcallee
      | some b =>
        obtain ⟨called, hb⟩ := findAgent_of_calledAgent hcallee
        have hcall : ReflTransGen ctx.Calls name b := .single ⟨_, hagent, callee, hc, hcallee⟩
        refine .agent (hacyclic.of_reaches hcall) hcallee hb ?_
        exact ih callee hc b hcallee hb (hacyclic.of_reaches hcall)
          fun c agent hbc => hfree c agent (hcall.trans hbc)
  obtain ⟨c, hc, hcosts⟩ := hbody
  refine ⟨c, hc, hcosts.trans ?_⟩
  obtain ⟨est', hest', hdims⟩ := dimensions_eq_worstBlock hacyclic hagent
  obtain rfl := Option.some.inj (hest'.symm.trans hest)
  rw [hdims]
  rfl

end Attains

end CostContext

/-! ### Budgets -/

section Budgets

open CostContext

variable {ctx : CostContext} {attempts : Expr → ℕ} {a : String} {constraints : List EffectConstraint}

theorem mem_checkBudgets_iff {error : BudgetError} : error ∈ (checkBudgets ctx a constraints).2 ↔
    ∃ est, computeWorstCaseCost ctx a = some est ∧ est.bounded = true ∧
      ∃ constraint ∈ constraints, budgetError a est constraint = some error := by
  have hsome {est : CostEstimate} {constraint : EffectConstraint}
      (h : budgetError a est constraint = some error) : (budgetDimension constraint).isSome = true := by
    obtain ⟨d, hd, -⟩ := Option.bind_eq_some_iff.mp h
    rw [hd]
    rfl
  unfold checkBudgets
  dsimp only
  split
  next hempty =>
    refine iff_of_false List.not_mem_nil ?_
    rintro ⟨est, -, -, constraint, hmem, herror⟩
    have hfilter : constraint ∈ constraints.filter fun c => (budgetDimension c).isSome :=
      List.mem_filter.mpr ⟨hmem, hsome herror⟩
    rw [List.isEmpty_iff.mp hempty] at hfilter
    cases hfilter
  next =>
    cases hest : computeWorstCaseCost ctx a with
    | none => simp
    | some est =>
      simp only [Option.some.injEq, exists_eq_left']
      by_cases hbounded : est.bounded = true
      · rw [if_pos hbounded]
        simp only [List.mem_filterMap, List.mem_filter, hbounded, true_and]
        refine exists_congr fun constraint => ⟨fun h => ⟨h.1.1, h.2⟩, fun h => ⟨⟨h.1, hsome h.2⟩, h.2⟩⟩
      · rw [if_neg hbounded]
        exact iff_of_false List.not_mem_nil fun h => hbounded h.1

end Budgets

/-! ### An example -/

/-- The places of the names in the example. -/
def planIdent (name : String) (start : ℕ) : Ident := ⟨name, ⟨start, start + name.length⟩⟩

def planSpend : EffectDecl :=
  ⟨planIdent "spend" 0, [⟨planIdent "cost" 10, .cost ((1 / 50 : ℚ) : Num), ⟨10, 20⟩⟩], ⟨0, 20⟩⟩

def planSearch : ToolDecl :=
  ⟨planIdent "search" 30, [], .named (planIdent "Nothing" 40), ⟨[⟨planIdent "spend" 50, ⟨50, 60⟩⟩]⟩,
    ⟨30, 60⟩⟩

def planCall (name : String) (start : ℕ) : Stmt := .expr (.call (.ident (planIdent name start)) [])

def planLookup : AgentDecl :=
  ⟨planIdent "lookup" 70, [], .named (planIdent "Nothing" 80), [planCall "search" 90], ⟨[]⟩, ⟨70, 99⟩⟩

/-- One branch calls the other agent, and a loop calls the tool twice. -/
def planAgent : AgentDecl :=
  ⟨planIdent "plan" 100, [], .named (planIdent "Nothing" 110),
    [.ifStmt .literal [planCall "lookup" 120] none,
      .forStmt (planIdent "x" 130) (.list [.literal, .literal]) [planCall "search" 140]], ⟨[]⟩,
    ⟨100, 150⟩⟩

def planFile : File := ⟨[.effect planSpend, .tool planSearch, .agent planLookup, .agent planAgent]⟩

def planContext : CostContext :=
  ⟨planFile, Resolve.resolve planFile, EffectRegistry.fromDeclsWithConfig [planSpend] none,
    fun _ => false⟩


theorem findAgent_planFile {a : String} {agent : AgentDecl} (h : findAgent planFile a = some agent) :
    a = "lookup" ∧ agent = planLookup ∨ a = "plan" ∧ agent = planAgent := by
  simp only [findAgent, planFile, List.findSome?_cons, List.findSome?_nil] at h
  split at h
  next agent' hlookup =>
    split at hlookup
    next hname =>
      exact .inl ⟨hname.symm, Option.some.inj (h.symm.trans hlookup.symm)⟩
    next => cases hlookup
  next hlookup =>
    split at h
    next agent' hplan =>
      split at hplan
      next hname =>
        exact .inr ⟨hname.symm, Option.some.inj (h.symm.trans hplan.symm)⟩
      next => cases hplan
    next => cases h

theorem planContext_calls {a b : String} (h : planContext.Calls a b) : a = "plan" ∧ b = "lookup" := by
  obtain ⟨agent, hagent, callee, hc, hb⟩ := h
  have hlookup : planContext.calledAgent (.ident (planIdent "lookup" 120)) = some "lookup" := by
    decide +kernel
  have hsearch : planContext.calledAgent (.ident (planIdent "search" 90)) = none := by decide +kernel
  have hsearch' : planContext.calledAgent (.ident (planIdent "search" 140)) = none := by decide +kernel
  rcases findAgent_planFile hagent with ⟨rfl, rfl⟩ | ⟨rfl, rfl⟩
  · simp [planLookup, planCall, blockCallees, stmtCallees, exprCallees, exprsCallees] at hc
    subst hc
    rw [hsearch] at hb
    cases hb
  · simp [planAgent, planCall, blockCallees, stmtCallees, elseCallees, exprCallees, exprsCallees] at hc
    rcases hc with rfl | rfl
    · rw [hlookup] at hb
      exact ⟨rfl, (Option.some.inj hb).symm⟩
    · rw [hsearch'] at hb
      cases hb

theorem acyclic_planContext (a : String) : planContext.Acyclic a := by
  intro b _ hcycle
  obtain ⟨c, hbc, -⟩ := TransGen.head'_iff.mp hcycle
  obtain ⟨c, -, hcb⟩ := TransGen.tail'_iff.mp hcycle
  have hplan := (planContext_calls hbc).1
  rw [(planContext_calls hcb).2] at hplan
  exact absurd hplan (by decide)

theorem reaches_planContext {b : String} (h : ReflTransGen planContext.Calls "plan" b) :
    b = "plan" ∨ b = "lookup" := by
  cases h with
  | refl => exact .inl rfl
  | tail _ hcall => exact .inr (planContext_calls hcall).2

theorem bounded_planContext {b : String} {est : CostEstimate}
    (h : ReflTransGen planContext.Calls "plan" b) (hest : computeWorstCaseCost planContext b = some est) :
    est.bounded = true := by
  rcases reaches_planContext h with rfl | rfl
  · exact (bounded_computeWorstCaseCost rfl hest : est.bounded = staticBlock planAgent.body)
  · exact (bounded_computeWorstCaseCost rfl hest : est.bounded = staticBlock planLookup.body)

theorem replayFree_planContext : planContext.ReplayFreeFrom "plan" := by
  intro b agent _ hagent
  rcases findAgent_planFile hagent with ⟨-, rfl⟩ | ⟨-, rfl⟩ <;> rfl

theorem priced_planContext : planContext.Priced := by
  intro price hprice
  obtain rfl : price = (planContext.effectNodeForDecl "search" .tool planSearch.effectRow false).costs :=
    List.mem_singleton.mp hprice
  refine ⟨fun d => ?_, fun _ => ⟨.cost, by decide +kernel⟩⟩
  cases d <;> decide +kernel

def planBudget (limit : ℚ) : EffectConstraint :=
  ⟨planIdent "budget" 95, some (.cost (limit : Num)), ⟨95, 99⟩⟩

end Corvid.Effects
