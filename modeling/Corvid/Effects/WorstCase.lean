import Corvid.Effects.Cost
import Corvid.Lib.Chains
import Mathlib.Algebra.BigOperators.Group.List.Basic
import Mathlib.Algebra.Order.Monoid.Unbundled.Pow
import Mathlib.Algebra.Order.Pi
import Mathlib.Data.Fintype.Card

/-!
# What the cost analysis counts

The analysis walks an agent with a memory, a set of the agents around it, and trees that lose their
cheap leaves. None of this is to be seen in what it counts: `worstBlock` says by recursion on the syntax
what a body costs, given what each of its calls costs, and the estimate of an agent is the `worstBlock`
of its body with the estimates of the agents it calls.

## Why it is not bookkeeping

* Pruning is sound only for leaves. A tree with children is kept whatever it costs, and a tree without
  children costs nothing in the end (`Tidy`), as long as every node is rebuilt by the helpers of the
  analysis. Leaves themselves do lose what they declare below the precision (`significant`).
* What is remembered is right only where no agent is met inside of itself: inside of a cycle the
  estimate depends on where the analysis came in. `Worst` is an agent whose calls unfold to an end, and
  such an agent is apart from every agent around it; that keeps the memory right, and the fuel up.

The flag `bounded` of an estimate tells of the loops of the agent alone: the flags of the agents that it
calls are dropped (`bounded_computeWorstCaseCost`).

## Main results

* `yields_analyzeAgent`: the analysis counts the worst case, from every memory that holds worst cases
* `dimensions_eq_worstBlock`: the estimate of an agent, from those of the agents it calls
* `bounded_computeWorstCaseCost`
-/

namespace Corvid.Effects

open Corvid.Ast
open Relation (ReflTransGen TransGen)
open Chains (OnCycle)

/-! ### Calls -/

mutual

/-- What the calls in an expression call. -/
def exprCallees : Expr → List Expr
  | .call callee args => exprCallees callee ++ exprsCallees args ++ [callee]
  | .fieldAccess target _ => exprCallees target
  | .index target index => exprCallees target ++ exprCallees index
  | .binOp left right => exprCallees left ++ exprCallees right
  | .unOp operand => exprCallees operand
  | .list items => exprsCallees items
  | .tryPropagate inner => exprCallees inner
  | .tryRetry body => exprCallees body
  | .replay trace arms elseBody => exprCallees trace ++ armsCallees arms ++ exprCallees elseBody
  | .literal | .ident _ => []

def exprsCallees : List Expr → List Expr
  | [] => []
  | e :: es => exprCallees e ++ exprsCallees es

def armsCallees : List ReplayArm → List Expr
  | [] => []
  | .mk _ _ body :: arms => exprCallees body ++ armsCallees arms

end

mutual

def stmtCallees : Stmt → List Expr
  | .letStmt _ _ value | .yieldStmt value | .expr value | .approve value | .returnStmt (some value) =>
    exprCallees value
  | .returnStmt none => []
  | .ifStmt cond thenBlock elseBlock =>
    exprCallees cond ++ blockCallees thenBlock ++ elseCallees elseBlock
  | .forStmt _ iter body => exprCallees iter ++ blockCallees body

def blockCallees : Block → List Expr
  | [] => []
  | s :: ss => stmtCallees s ++ blockCallees ss

def elseCallees : Option Block → List Expr
  | some block => blockCallees block
  | none => []

end

/-! ### Loops with a static bound -/

mutual

/-- Every loop is over a list literal. -/
def staticStmt : Stmt → Bool
  | .ifStmt _ thenBlock elseBlock => staticBlock thenBlock && staticElse elseBlock
  | .forStmt _ iter body => (staticLoopBound iter).isSome && staticBlock body
  | _ => true

def staticBlock : Block → Bool
  | [] => true
  | s :: ss => staticStmt s && staticBlock ss

def staticElse : Option Block → Bool
  | some block => staticBlock block
  | none => true

end

/-! ### Worst cases, from the costs of the calls -/

section Worst

variable (cost : Expr → Costs)

mutual

def worstExpr : Expr → Costs
  | .call callee args => worstExpr callee + worstExprs args + cost callee
  | .fieldAccess target _ => worstExpr target
  | .index target index => worstExpr target + worstExpr index
  | .binOp left right => worstExpr left + worstExpr right
  | .unOp operand => worstExpr operand
  | .list items => worstExprs items
  | .tryPropagate inner => worstExpr inner
  | .tryRetry body => worstExpr body
  | .replay trace arms elseBody => worstExpr trace + worstArms arms + worstExpr elseBody
  | .literal | .ident _ => 0

def worstExprs : List Expr → Costs
  | [] => 0
  | e :: es => worstExpr e + worstExprs es

def worstArms : List ReplayArm → Costs
  | [] => 0
  | .mk _ _ body :: arms => worstExpr body + worstArms arms

end

mutual

def worstStmt : Stmt → Costs
  | .letStmt _ _ value | .yieldStmt value | .expr value | .approve value | .returnStmt (some value) =>
    worstExpr cost value
  | .returnStmt none => 0
  | .ifStmt cond thenBlock elseBlock =>
    worstExpr cost cond + (worstBlock thenBlock ⊔ worstElse elseBlock)
  | .forStmt _ iter body =>
    worstExpr cost iter + ((staticLoopBound iter).getD 0) • worstBlock body

def worstBlock : Block → Costs
  | [] => 0
  | s :: ss => worstStmt s + worstBlock ss

def worstElse : Option Block → Costs
  | some block => worstBlock block
  | none => 0

end

end Worst

/-- Costs that are nowhere above the precision are pruned. -/
def significant (costs : Costs) : Costs :=
  if costDimensions.all fun d => costs d ≤ epsilon then 0 else costs

theorem significant_zero : significant 0 = 0 := ite_self _

namespace CostContext

variable (ctx : CostContext)

/-- What a tool or a prompt declares. -/
def declaredCosts (callee : Expr) : Costs :=
  match ctx.calledEntry callee with
  | none => 0
  | some entry =>
    match entry.kind with
    | .tool => ((findTool ctx.file entry.name).map fun tool =>
        (ctx.effectNodeForDecl tool.name.name .tool tool.effectRow (ctx.dangerous tool)).costs).getD 0
    | .prompt => ((findPrompt ctx.file entry.name).map fun prompt =>
        (ctx.effectNodeForPrompt prompt).costs).getD 0
    | _ => 0

/-- What counts of a declared cost. -/
def countedCosts (callee : Expr) : Costs := significant (ctx.declaredCosts callee)

/-- The agent that is called. -/
def calledAgent (callee : Expr) : Option String :=
  match ctx.calledEntry callee with
  | none => none
  | some entry =>
    match entry.kind with
    | .agent => (findAgent ctx.file entry.name).map fun _ => entry.name
    | _ => none

/-- The costs of a call, from those of the agents. -/
def callCosts (agentCosts : String → Costs) (callee : Expr) : Costs :=
  match ctx.calledAgent callee with
  | some name => agentCosts name
  | none => ctx.countedCosts callee

/-- The body of the agent `a` has a call of the agent `b`. -/
def Calls (a b : String) : Prop :=
  ∃ agent, findAgent ctx.file a = some agent ∧
    ∃ callee ∈ blockCallees agent.body, ctx.calledAgent callee = some b

end CostContext

/-! ### Trees and their totals -/

section Trees

variable {tree : CostTreeNode} {ts ts' : List CostTreeNode} {name : String} {kind : CostNodeKind}

/-- What children add to a node. -/
def total (ts : List CostTreeNode) : Costs := ((pruneChildren ts).map CostTreeNode.costs).sum

/-- A tree that costs nothing where it has no children. -/
def Tidy (tree : CostTreeNode) : Prop := tree.children = [] → tree.costs = 0

theorem sequenceTree_eq : sequenceTree name kind ts = .mk name kind (total ts) (pruneChildren ts) := by
  rw [sequenceTree, total]
  refine congrArg (CostTreeNode.mk name kind · _) ?_
  rw [List.sum_eq_foldl, List.foldl_map]

theorem total_append : total (ts ++ ts') = total ts + total ts' := by
  rw [total, pruneChildren, List.filter_append, List.map_append, List.sum_append]
  rfl

theorem total_nil : total [] = 0 := rfl

theorem pruneChildren_idem : pruneChildren (pruneChildren ts) = pruneChildren ts := by
  rw [pruneChildren, pruneChildren, List.filter_filter]
  simp

theorem total_pruneChildren : total (pruneChildren ts) = total ts := by
  rw [total, pruneChildren_idem]
  rfl

theorem total_of_isZero (h : treeIsZero tree = true) : total [tree] = 0 := by
  rw [total, pruneChildren, List.filter_cons_of_neg (by simp [h])]
  rfl

/-- A leaf counts where it costs more than the precision. -/
theorem total_leaf {costs : Costs} : total [.mk name kind costs []] = significant costs := by
  have hzero : treeIsZero (.mk name kind costs []) = costDimensions.all fun d => costs d ≤ epsilon := by
    rw [treeIsZero]
    exact Bool.and_true _
  rw [significant]
  split
  next h => exact total_of_isZero (hzero.trans h)
  next h =>
    rw [total, pruneChildren, List.filter_cons_of_pos (by rw [hzero]; simpa using h)]
    simp [CostTreeNode.costs]

/-- Pruning takes nothing away from a tidy tree. -/
theorem Tidy.total (h : Tidy tree) : total [tree] = tree.costs := by
  rw [Effects.total, pruneChildren]
  by_cases hz : treeIsZero tree = true
  · have hnil : tree.children = [] := by
      rw [treeIsZero, Bool.and_eq_true] at hz
      exact List.isEmpty_iff.mp hz.2
    rw [h hnil, List.filter_cons_of_neg (by simp [hz])]
    rfl
  · rw [List.filter_cons_of_pos (by simp [hz])]
    simp

theorem total_cons (h : Tidy tree) : total (tree :: ts) = tree.costs + total ts := by
  rw [← List.singleton_append, total_append, h.total]

theorem tidy_sequenceTree : Tidy (sequenceTree name kind ts) := by
  rw [sequenceTree_eq]
  intro h
  show total ts = 0
  rw [← total_pruneChildren, show pruneChildren ts = [] from h, total_nil]

@[simp] theorem costs_sequenceTree : (sequenceTree name kind ts).costs = total ts := by
  rw [sequenceTree_eq]
  rfl

theorem tidy_wrapIfNeeded (h : Tidy tree) : Tidy (wrapIfNeeded name tree) := by
  rw [wrapIfNeeded]
  split
  · exact h
  · exact tidy_sequenceTree

theorem costs_wrapIfNeeded (h : Tidy tree) : (wrapIfNeeded name tree).costs = tree.costs := by
  rw [wrapIfNeeded]
  split
  · rfl
  · rw [costs_sequenceTree, h.total]

theorem pruned_sequenceTree : pruneChildren (sequenceTree name kind ts).children =
    (sequenceTree name kind ts).children := by
  rw [sequenceTree_eq]
  exact pruneChildren_idem

theorem pruned_wrapIfNeeded (h : pruneChildren tree.children = tree.children) :
    pruneChildren (wrapIfNeeded name tree).children = (wrapIfNeeded name tree).children := by
  rw [wrapIfNeeded]
  split
  · exact h
  · exact pruned_sequenceTree

theorem wrapIfNeeded_of_named (name : String) (costs : Costs) (ts : List CostTreeNode) :
    wrapIfNeeded name (.mk name .sequence costs ts) = .mk name .sequence costs ts := by
  rw [wrapIfNeeded]
  exact if_pos ⟨rfl, rfl⟩

theorem tidy_branchTree {s t : CostTreeNode} (hs : Tidy s) (ht : Tidy t) :
    Tidy (branchTree name s t) := by
  intro h
  have hzero : total [s] = 0 ∧ total [t] = 0 := by
    have hnil : pruneChildren [s, t] = [] := h
    rw [pruneChildren, List.filter_eq_nil_iff] at hnil
    constructor
    · exact total_of_isZero (by simpa using hnil s (by simp))
    · exact total_of_isZero (by simpa using hnil t (by simp))
  rw [hs.total, ht.total] at hzero
  funext d
  show max (s.costs d) (t.costs d) = 0
  simp [hzero.1, hzero.2]

theorem costs_branchTree {s t : CostTreeNode} : (branchTree name s t).costs = s.costs ⊔ t.costs := rfl

theorem tidy_scaleTree {n : ℕ} : Tidy (scaleTree tree n) := fun h => by cases h

theorem costs_scaleTree {n : ℕ} : (scaleTree tree n).costs = n • tree.costs := rfl

end Trees

/-- An estimate that counts `w`. -/
structure Counts (est : CostEstimate) (w : Costs) : Prop where
  dimensions : est.dimensions = w
  costs : est.tree.costs = w
  tidy : Tidy est.tree
  pruned : pruneChildren est.tree.children = est.tree.children

namespace Counts

variable {est est' : CostEstimate} {w w' : Costs}

theorem zero {name : String} {kind : CostNodeKind} : Counts (zeroEstimate name kind) 0 :=
  ⟨rfl, rfl, fun _ => rfl, rfl⟩

theorem sequence {name : String} {kind : CostNodeKind} {ts : List CostTreeNode}
    {warnings : List CostWarning} {bounded : Bool} (h : total ts = w) :
    Counts (sequenceEstimate (sequenceTree name kind ts) warnings bounded) w := by
  have hcosts : (sequenceTree name kind ts).costs = w := costs_sequenceTree.trans h
  exact ⟨hcosts, hcosts, tidy_sequenceTree, pruned_sequenceTree⟩

theorem total (h : Counts est w) : Effects.total [est.tree] = w := by rw [h.tidy.total, h.costs]

theorem total_pair (h : Counts est w) (h' : Counts est' w') :
    Effects.total [est.tree, est'.tree] = w + w' := by
  rw [total_cons h.tidy, h.costs, h'.total]

theorem wrap {name : String} {warnings : List CostWarning} {bounded : Bool} (h : Counts est w) :
    Counts (sequenceEstimate (wrapIfNeeded name est.tree) warnings bounded) w := by
  have hcosts : (wrapIfNeeded name est.tree).costs = w := (costs_wrapIfNeeded h.tidy).trans h.costs
  exact ⟨hcosts, hcosts, tidy_wrapIfNeeded h.tidy, pruned_wrapIfNeeded h.pruned⟩

theorem rewrap {name : String} (h : Counts est w) :
    Counts { est with tree := wrapIfNeeded name est.tree } w :=
  ⟨h.dimensions, (costs_wrapIfNeeded h.tidy).trans h.costs, tidy_wrapIfNeeded h.tidy,
    pruned_wrapIfNeeded h.pruned⟩

theorem total_wrap {name : String} (h : Counts est w) :
    Effects.total [wrapIfNeeded name est.tree] = w := by
  rw [(tidy_wrapIfNeeded h.tidy).total, costs_wrapIfNeeded h.tidy, h.costs]

theorem stmt (h : Counts est w) : Counts (stmtEstimate est) w := by
  have htree : (stmtEstimate est).tree =
      .mk "stmt" .sequence est.dimensions (pruneChildren est.tree.children) :=
    wrapIfNeeded_of_named "stmt" est.dimensions (pruneChildren est.tree.children)
  refine ⟨h.dimensions, by rw [htree]; exact h.dimensions, ?_, ?_⟩
  · rw [htree, h.pruned]
    intro hnil
    exact h.dimensions.trans (h.costs.symm.trans (h.tidy hnil))
  · rw [htree]
    exact pruneChildren_idem

theorem parts (h : Counts est w) {parts : Parts} (hparts : Effects.total parts.1 = w') :
    Effects.total (Parts.cons est parts).1 = w + w' := by
  rw [Parts.cons]
  dsimp only
  split
  next hz =>
    have hzero := total_of_isZero hz
    rw [h.total] at hzero
    rw [hparts, hzero, zero_add]
  next => rw [total_cons h.tidy, h.costs, hparts]

end Counts

/-! ### What the analysis counts -/

/-- From every state that satisfies `I`, the computation gives a value that satisfies `P`, and a state
that satisfies `I` again. -/
def Yields {α : Type} (I : CostAnalyzer → Prop) (x : CostM α) (P : α → Prop) : Prop :=
  ∀ s, I s → P (x.run s).1 ∧ I (x.run s).2

namespace Yields

variable {I : CostAnalyzer → Prop} {α β : Type} {P : α → Prop} {Q : β → Prop}

theorem pure {a : α} (h : P a) : Yields I (Pure.pure a) P := fun _ hs => ⟨h, hs⟩

theorem bind {x : CostM α} {f : α → CostM β} (hx : Yields I x P) (hf : ∀ a, P a → Yields I (f a) Q) :
    Yields I (x >>= f) Q := by
  intro s hs
  obtain ⟨hp, ht⟩ := hx s hs
  exact hf _ hp _ ht

theorem mono {x : CostM α} {P' : α → Prop} (hx : Yields I x P) (h : ∀ a, P a → P' a) : Yields I x P' :=
  fun s hs => ⟨h _ (hx s hs).1, (hx s hs).2⟩

end Yields

section Analysis

variable {ctx : CostContext} {enter : String → CostM (Option CostEstimate)} {I : CostAnalyzer → Prop}
  {cost : Expr → Costs} {agentName : String}

/-- The analysis counts `cost` for each of the calls. -/
def CountsCalls (ctx : CostContext) (enter : String → CostM (Option CostEstimate))
    (I : CostAnalyzer → Prop) (cost : Expr → Costs) (callees : List Expr) : Prop :=
  ∀ callee ∈ callees, Yields I (callCostTree ctx enter callee) fun t => total t.toList = cost callee

theorem CountsCalls.left {xs ys : List Expr} (h : CountsCalls ctx enter I cost (xs ++ ys)) :
    CountsCalls ctx enter I cost xs := fun c hc => h c (List.mem_append_left _ hc)

theorem CountsCalls.right {xs ys : List Expr} (h : CountsCalls ctx enter I cost (xs ++ ys)) :
    CountsCalls ctx enter I cost ys := fun c hc => h c (List.mem_append_right _ hc)

mutual

theorem yields_analyzeExpr : (e : Expr) → CountsCalls ctx enter I cost (exprCallees e) →
    Yields I (analyzeExpr ctx enter e) fun est => Counts est (worstExpr cost e)
  | .literal, _ => .pure .zero
  | .ident _, _ => .pure .zero
  | .call callee args, h => by
    refine (yields_analyzeExpr callee h.left.left).bind fun calleeEst hcallee => ?_
    refine (yields_analyzeExprs args h.left.right).bind fun argParts hargs => ?_
    refine (h.right callee (by simp)).bind fun callTree hcall => .pure (.sequence ?_)
    rw [total_append]
    exact congrArg₂ (· + ·) (hcallee.parts hargs) hcall
  | .fieldAccess target _, h => yields_analyzeExpr target h
  | .index target index, h => by
    refine (yields_analyzeExpr target h.left).bind fun targetEst htarget => ?_
    refine (yields_analyzeExpr index h.right).bind fun indexEst hindex => ?_
    exact .pure (.sequence (htarget.total_pair hindex))
  | .binOp left right, h => by
    refine (yields_analyzeExpr left h.left).bind fun leftEst hleft => ?_
    refine (yields_analyzeExpr right h.right).bind fun rightEst hright => ?_
    exact .pure (.sequence (hleft.total_pair hright))
  | .unOp operand, h => (yields_analyzeExpr operand h).bind fun est hest => .pure hest.wrap
  | .list items, h => (yields_analyzeExprs items h).bind fun parts hparts => .pure (.sequence hparts)
  | .tryPropagate inner, h => yields_analyzeExpr inner h
  | .tryRetry body, h => (yields_analyzeExpr body h).bind fun est hest => .pure hest.wrap
  | .replay trace arms elseBody, h => by
    refine (yields_analyzeExpr trace h.left.left).bind fun traceEst htrace => ?_
    refine (yields_analyzeArms arms h.left.right).bind fun armParts harms => ?_
    refine (yields_analyzeExpr elseBody h.right).bind fun elseEst helse => .pure (.sequence ?_)
    have hrest : total (armParts.1 ++ (Parts.cons elseEst ([], [], true)).1) =
        worstArms cost arms + worstExpr cost elseBody := by
      rw [total_append, harms, helse.parts total_nil, add_zero]
    have hparts (warnings : List CostWarning) (bounded : Bool) :
        total (Parts.cons traceEst (_, warnings, bounded)).1 = _ := htrace.parts hrest
    rw [worstExpr, add_assoc]
    exact hparts _ _

theorem yields_analyzeExprs : (es : List Expr) → CountsCalls ctx enter I cost (exprsCallees es) →
    Yields I (analyzeExprs ctx enter es) fun parts => total parts.1 = worstExprs cost es
  | [], _ => .pure total_nil
  | e :: es, h => by
    refine (yields_analyzeExpr e h.left).bind fun est hest => ?_
    exact (yields_analyzeExprs es h.right).bind fun parts hparts => .pure (hest.parts hparts)

theorem yields_analyzeArms : (arms : List ReplayArm) → CountsCalls ctx enter I cost (armsCallees arms) →
    Yields I (analyzeArms ctx enter arms) fun parts => total parts.1 = worstArms cost arms
  | [], _ => .pure total_nil
  | .mk _ _ body :: arms, h => by
    refine (yields_analyzeExpr body h.left).bind fun est hest => ?_
    exact (yields_analyzeArms arms h.right).bind fun parts hparts => .pure (hest.parts hparts)

end

theorem counts_blockEstimate {parts : Parts} {w : Costs} (h : total parts.1 = w) :
    Counts (blockEstimate parts) w := .sequence h

mutual

theorem yields_analyzeStmt : (s : Stmt) → CountsCalls ctx enter I cost (stmtCallees s) →
    Yields I (analyzeStmt ctx enter agentName s) fun est => Counts est (worstStmt cost s)
  | .letStmt _ _ value, h => (yields_analyzeExpr value h).bind fun est hest => .pure hest.stmt
  | .yieldStmt value, h => (yields_analyzeExpr value h).bind fun est hest => .pure hest.stmt
  | .expr value, h => (yields_analyzeExpr value h).bind fun est hest => .pure hest.stmt
  | .approve value, h => (yields_analyzeExpr value h).bind fun est hest => .pure hest.stmt
  | .returnStmt (some value), h => (yields_analyzeExpr value h).bind fun est hest => .pure hest.rewrap
  | .returnStmt none, _ => .pure .zero
  | .ifStmt cond thenBlock elseBlock, h => by
    refine (yields_analyzeExpr cond h.left.left).bind fun condEst hcond => ?_
    refine (yields_analyzeStmts thenBlock h.left.right).bind fun thenParts hthen => ?_
    refine (yields_analyzeElse elseBlock h.right).bind fun elseEst helse => .pure (.sequence ?_)
    have hthen := counts_blockEstimate hthen
    rw [total_cons (tidy_wrapIfNeeded hcond.tidy), costs_wrapIfNeeded hcond.tidy, hcond.costs,
      (tidy_branchTree hthen.tidy helse.tidy).total, costs_branchTree, hthen.costs, helse.costs]
    rfl
  | .forStmt _ iter body, h => by
    refine (yields_analyzeExpr iter h.left).bind fun iterEst hiter => ?_
    split
    next n hn =>
      refine (yields_analyzeStmts body h.right).bind fun bodyParts hbody => .pure (.sequence ?_)
      have hbody := counts_blockEstimate hbody
      rw [total_cons (tidy_wrapIfNeeded hiter.tidy), costs_wrapIfNeeded hiter.tidy, hiter.costs,
        tidy_scaleTree.total, costs_scaleTree, hbody.costs, worstStmt, hn]
      rfl
    next hn =>
      refine .pure (.sequence ?_)
      rw [hiter.total_wrap, worstStmt, hn]
      simp

theorem yields_analyzeStmts : (ss : Block) → CountsCalls ctx enter I cost (blockCallees ss) →
    Yields I (analyzeStmts ctx enter agentName ss) fun parts => total parts.1 = worstBlock cost ss
  | [], _ => .pure total_nil
  | s :: ss, h => by
    refine (yields_analyzeStmt s h.left).bind fun est hest => ?_
    exact (yields_analyzeStmts ss h.right).bind fun parts hparts => .pure (hest.parts hparts)

theorem yields_analyzeElse : (block : Option Block) →
    CountsCalls ctx enter I cost (elseCallees block) →
    Yields I (analyzeElse ctx enter agentName block) fun est => Counts est (worstElse cost block)
  | some block, h =>
    (yields_analyzeStmts block h).bind fun _ hparts => .pure (counts_blockEstimate hparts)
  | none, _ => .pure .zero

end

end Analysis

/-! ### Agents -/

section Agents

variable {ctx : CostContext}

/-- An agent with the worst case `w`: its calls are unfolded to the end, which is possible only where
no agent calls itself. -/
inductive Worst (ctx : CostContext) : String → Costs → Prop
  | agent {name : String} {agent : AgentDecl} {agentCosts : String → Costs}
      (hagent : findAgent ctx.file name = some agent)
      (hcalls : ∀ callee ∈ blockCallees agent.body, ∀ b, ctx.calledAgent callee = some b →
        Worst ctx b (agentCosts b)) :
      Worst ctx name (worstBlock (ctx.callCosts agentCosts) agent.body)

section Congruence

variable {cost cost' : Expr → Costs}

mutual

theorem worstExpr_congr : (e : Expr) → (∀ callee ∈ exprCallees e, cost callee = cost' callee) →
    worstExpr cost e = worstExpr cost' e
  | .literal, _ => rfl
  | .ident _, _ => rfl
  | .call callee args, h => by
    simp only [exprCallees, List.forall_mem_append] at h
    rw [worstExpr, worstExpr, worstExpr_congr callee h.1.1, worstExprs_congr args h.1.2,
      h.2 callee (by simp)]
  | .fieldAccess target _, h => worstExpr_congr target h
  | .index target index, h => by
    simp only [exprCallees, List.forall_mem_append] at h
    rw [worstExpr, worstExpr, worstExpr_congr target h.1, worstExpr_congr index h.2]
  | .binOp left right, h => by
    simp only [exprCallees, List.forall_mem_append] at h
    rw [worstExpr, worstExpr, worstExpr_congr left h.1, worstExpr_congr right h.2]
  | .unOp operand, h => worstExpr_congr operand h
  | .list items, h => worstExprs_congr items h
  | .tryPropagate inner, h => worstExpr_congr inner h
  | .tryRetry body, h => worstExpr_congr body h
  | .replay trace arms elseBody, h => by
    simp only [exprCallees, List.forall_mem_append] at h
    rw [worstExpr, worstExpr, worstExpr_congr trace h.1.1, worstArms_congr arms h.1.2,
      worstExpr_congr elseBody h.2]

theorem worstExprs_congr : (es : List Expr) → (∀ callee ∈ exprsCallees es, cost callee = cost' callee) →
    worstExprs cost es = worstExprs cost' es
  | [], _ => rfl
  | e :: es, h => by
    simp only [exprsCallees, List.forall_mem_append] at h
    rw [worstExprs, worstExprs, worstExpr_congr e h.1, worstExprs_congr es h.2]

theorem worstArms_congr : (arms : List ReplayArm) →
    (∀ callee ∈ armsCallees arms, cost callee = cost' callee) → worstArms cost arms = worstArms cost' arms
  | [], _ => rfl
  | .mk _ _ body :: arms, h => by
    simp only [armsCallees, List.forall_mem_append] at h
    rw [worstArms, worstArms, worstExpr_congr body h.1, worstArms_congr arms h.2]

end

mutual

theorem worstStmt_congr : (s : Stmt) → (∀ callee ∈ stmtCallees s, cost callee = cost' callee) →
    worstStmt cost s = worstStmt cost' s
  | .letStmt _ _ value, h => worstExpr_congr value h
  | .yieldStmt value, h => worstExpr_congr value h
  | .expr value, h => worstExpr_congr value h
  | .approve value, h => worstExpr_congr value h
  | .returnStmt (some value), h => worstExpr_congr value h
  | .returnStmt none, _ => rfl
  | .ifStmt cond thenBlock elseBlock, h => by
    simp only [stmtCallees, List.forall_mem_append] at h
    rw [worstStmt, worstStmt, worstExpr_congr cond h.1.1, worstBlock_congr thenBlock h.1.2,
      worstElse_congr elseBlock h.2]
  | .forStmt _ iter body, h => by
    simp only [stmtCallees, List.forall_mem_append] at h
    rw [worstStmt, worstStmt, worstExpr_congr iter h.1, worstBlock_congr body h.2]

theorem worstBlock_congr : (ss : Block) → (∀ callee ∈ blockCallees ss, cost callee = cost' callee) →
    worstBlock cost ss = worstBlock cost' ss
  | [], _ => rfl
  | s :: ss, h => by
    simp only [blockCallees, List.forall_mem_append] at h
    rw [worstBlock, worstBlock, worstStmt_congr s h.1, worstBlock_congr ss h.2]

theorem worstElse_congr : (block : Option Block) →
    (∀ callee ∈ elseCallees block, cost callee = cost' callee) →
    worstElse cost block = worstElse cost' block
  | some block, h => worstBlock_congr block h
  | none, _ => rfl

end

theorem CostContext.callCosts_congr {f g : String → Costs} {callee : Expr}
    (h : ∀ b, ctx.calledAgent callee = some b → f b = g b) :
    ctx.callCosts f callee = ctx.callCosts g callee := by
  unfold CostContext.callCosts
  split
  next b hb => exact h b hb
  next => rfl

end Congruence

theorem Worst.unique {a : String} {w w' : Costs} (h : Worst ctx a w) (h' : Worst ctx a w') : w = w' := by
  induction h generalizing w' with
  | @agent name agent f hagent hcalls ih =>
    obtain ⟨hagent', hcalls'⟩ := h'
    obtain rfl := Option.some.inj (hagent.symm.trans hagent')
    refine worstBlock_congr _ fun callee hc => CostContext.callCosts_congr fun b hb => ?_
    exact ih callee hc b hb (hcalls' callee hc b hb)

/-- An agent with a worst case is not called in its own calls. -/
theorem Worst.not_transGen {a : String} {w : Costs} (h : Worst ctx a w) :
    ¬ TransGen ctx.Calls a a := by
  induction h with
  | @agent name agent f hagent hcalls ih =>
    intro hcycle
    obtain ⟨b, ⟨agent', hagent', callee, hc, hb⟩, hback⟩ := TransGen.head'_iff.mp hcycle
    obtain rfl := Option.some.inj (hagent.symm.trans hagent')
    have hcall : ctx.Calls name b := ⟨agent, hagent, callee, hc, hb⟩
    exact ih callee hc b hb (TransGen.tail' hback hcall)

/-! ### The analysis of agents -/

/-- The analyzer stands in the agents `visiting`, and what it remembers are worst cases. -/
structure Remembers (ctx : CostContext) (visiting : Finset String) (s : CostAnalyzer) : Prop where
  visiting : s.visiting = visiting
  memo : ∀ name est, s.memo.lookup name = some est → ∃ w, Worst ctx name w ∧ Counts est w

theorem remembers_empty : Remembers ctx ∅ ⟨∅, ∅⟩ := ⟨rfl, fun _ _ h => by simp at h⟩

/-- The call of an agent counts what the agent counts, every other call what it declares. -/
theorem countsCalls {enter : String → CostM (Option CostEstimate)} {I : CostAnalyzer → Prop}
    {agentCosts : String → Costs} {callees : List Expr}
    (h : ∀ callee ∈ callees, ∀ b, ctx.calledAgent callee = some b →
      Yields I (enter b) fun r => ∃ est, r = some est ∧ Counts est (agentCosts b))
    (hnone : ∀ b, findAgent ctx.file b = none → Yields I (enter b) fun r => r = none) :
    CountsCalls ctx enter I (ctx.callCosts agentCosts) callees := by
  intro callee hc
  have hagent := h callee hc
  unfold callCostTree CostContext.callCosts CostContext.countedCosts CostContext.declaredCosts
  unfold CostContext.calledAgent at hagent ⊢
  cases hentry : ctx.calledEntry callee with
  | none => exact .pure (by simp [total_nil, significant_zero])
  | some entry =>
    obtain ⟨name, kind, span⟩ := entry
    rw [hentry] at hagent
    cases kind with
    | tool =>
      refine .pure ?_
      dsimp only
      cases findTool ctx.file name with
      | none => simp [total_nil, significant_zero]
      | some tool => exact total_leaf
    | prompt =>
      refine .pure ?_
      dsimp only
      cases findPrompt ctx.file name with
      | none => simp [total_nil, significant_zero]
      | some prompt => exact total_leaf
    | agent =>
      dsimp only at hagent ⊢
      cases hfind : findAgent ctx.file name with
      | none =>
        refine (hnone _ hfind).bind fun r hr => .pure ?_
        simp [hr, total_nil, significant_zero]
      | some agent =>
        rw [hfind] at hagent
        refine (hagent name rfl).bind fun r hr => .pure ?_
        obtain ⟨est, rfl, hest⟩ := hr
        have htidy : Tidy (renameTree est.tree name) := hest.tidy
        exact htidy.total.trans hest.costs
    | _ => exact .pure (by simp [total_nil, significant_zero])

section Run

variable {fuel : ℕ} {a : String} {s : CostAnalyzer}

theorem analyzeAgent_cached {est : CostEstimate} (h : s.memo.lookup a = some est) :
    (analyzeAgent ctx (fuel + 1) a).run s = (some est, s) := by
  simp [analyzeAgent, h]
  rfl

theorem analyzeAgent_unknown (h : s.memo.lookup a = none) (hagent : findAgent ctx.file a = none) :
    (analyzeAgent ctx (fuel + 1) a).run s = (none, s) := by
  simp [analyzeAgent, h, hagent]
  rfl

theorem analyzeAgent_entered {agent : AgentDecl} {est : CostEstimate} {t : CostAnalyzer}
    (h : s.memo.lookup a = none) (hagent : findAgent ctx.file a = some agent) (hnot : a ∉ s.visiting)
    (hbody : (analyzeBlock ctx (analyzeAgent ctx fuel) a agent.body).run
      { s with visiting := insert a s.visiting } = (est, t)) :
    (analyzeAgent ctx (fuel + 1) a).run s = (some (agentEstimate a est),
      ⟨t.memo.insert a (agentEstimate a est), t.visiting.erase a⟩) := by
  simp [analyzeAgent, h, hagent, hnot, hbody]
  rfl

end Run

theorem mem_agentNames {a : String} {agent : AgentDecl} (h : findAgent ctx.file a = some agent) :
    a ∈ agentNames ctx.file := by
  obtain ⟨d, hd, heq⟩ := List.exists_of_findSome?_eq_some h
  cases d with
  | agent decl =>
    dsimp only at heq
    split at heq
    next hname => exact List.mem_filterMap.mpr ⟨_, hd, by rw [← hname]⟩
    next => cases heq
  | _ => cases heq

theorem counts_agentEstimate {a : String} {est : CostEstimate} {w : Costs} (h : Counts est w) :
    Counts (agentEstimate a est) w :=
  ⟨h.dimensions, h.dimensions, fun hnil => h.dimensions.trans (h.costs.symm.trans (h.tidy hnil)),
    h.pruned⟩

/-- An agent that has a worst case is never met inside of itself, and its estimate is the worst case,
whatever has been remembered. -/
theorem yields_analyzeAgent {a : String} {w : Costs} (hw : Worst ctx a w) (visiting : Finset String)
    (fuel : ℕ) (hapart : ∀ v ∈ visiting, ¬ ReflTransGen ctx.Calls a v)
    (hfuel : ((agentNames ctx.file).toFinset \ visiting).card < fuel) :
    Yields (Remembers ctx visiting) (analyzeAgent ctx fuel a) fun r =>
      ∃ est, r = some est ∧ Counts est w := by
  induction hw generalizing visiting fuel with
  | @agent name agent f hagent hcalls ih =>
    have hworst : Worst ctx name (worstBlock (ctx.callCosts f) agent.body) := .agent hagent hcalls
    have hnot : name ∉ visiting := fun h => hapart name h .refl
    obtain ⟨n, rfl⟩ : ∃ n, fuel = n + 1 := ⟨fuel - 1, by omega⟩
    have hfuel' : ((agentNames ctx.file).toFinset \ insert name visiting).card < n := by
      have hlt : ((agentNames ctx.file).toFinset \ insert name visiting).card <
          ((agentNames ctx.file).toFinset \ visiting).card := by
        refine Finset.card_lt_card ⟨Finset.sdiff_subset_sdiff le_rfl (Finset.subset_insert _ _), ?_⟩
        intro hsub
        have hmem := hsub (Finset.mem_sdiff.mpr ⟨List.mem_toFinset.mpr (mem_agentNames hagent), hnot⟩)
        exact (Finset.mem_sdiff.mp hmem).2 (Finset.mem_insert_self _ _)
      omega
    -- inside of the agent, neither it nor the agents around it are met again
    have hinner : Yields (Remembers ctx (insert name visiting))
        (analyzeBlock ctx (analyzeAgent ctx n) name agent.body)
        fun est => Counts est (worstBlock (ctx.callCosts f) agent.body) := by
      refine (yields_analyzeStmts _ (countsCalls (fun callee hc b hb => ?_) fun b hb => ?_)).bind
        fun parts hparts => .pure (counts_blockEstimate hparts)
      · have hcall : ctx.Calls name b := ⟨agent, hagent, callee, hc, hb⟩
        refine ih callee hc b hb _ n (fun v hv hreach => ?_) hfuel'
        rcases Finset.mem_insert.mp hv with rfl | hv
        · exact hworst.not_transGen (TransGen.head' hcall hreach)
        · exact hapart v hv (.head hcall hreach)
      · obtain ⟨k, rfl⟩ : ∃ k, n = k + 1 := ⟨n - 1, by omega⟩
        intro s hs
        have hnone : s.memo.lookup b = none := by
          rw [Option.eq_none_iff_forall_ne_some]
          intro est hest
          obtain ⟨w, ⟨hagent', -⟩, -⟩ := hs.memo b est hest
          rw [hb] at hagent'
          cases hagent'
        rw [analyzeAgent_unknown hnone hb]
        exact ⟨rfl, hs⟩
    intro s hs
    cases hlookup : s.memo.lookup name with
    | some est =>
      obtain ⟨w, hw, hest⟩ := hs.memo name est hlookup
      rw [analyzeAgent_cached hlookup, hworst.unique hw]
      exact ⟨⟨est, rfl, hest⟩, hs⟩
    | none =>
      have hvisiting : Remembers ctx (insert name visiting)
          { s with visiting := insert name s.visiting } := ⟨by rw [← hs.visiting], hs.memo⟩
      obtain ⟨hest, ht⟩ := hinner _ hvisiting
      rw [analyzeAgent_entered hlookup hagent (by rwa [hs.visiting]) rfl]
      refine ⟨⟨_, rfl, counts_agentEstimate hest⟩, ?_, fun b est hb => ?_⟩
      · exact (congrArg (Finset.erase · name) ht.visiting).trans (Finset.erase_insert hnot)
      · rw [Keyed.lookup_insert_ite] at hb
        split at hb
        next hname =>
          obtain rfl := Option.some.inj hb
          rw [hname]
          exact ⟨_, hworst, counts_agentEstimate hest⟩
        next => exact ht.memo b est hb

/-- The estimate of an agent that has a worst case. -/
theorem computeWorstCaseCost_of_worst {a : String} {w : Costs} (hw : Worst ctx a w) :
    ∃ est, computeWorstCaseCost ctx a = some est ∧ Counts est w := by
  have hfuel : ((agentNames ctx.file).toFinset \ ∅).card < (agentNames ctx.file).length + 1 := by
    rw [Finset.sdiff_empty]
    exact Nat.lt_succ_of_le (List.toFinset_card_le _)
  exact (yields_analyzeAgent hw ∅ _ (by simp) hfuel _ remembers_empty).1

/-! ### Agents that do not call themselves -/

/-- No agent that `a` comes to calls itself, at once or through others. -/
def CostContext.Acyclic (ctx : CostContext) (a : String) : Prop :=
  ∀ b, ReflTransGen ctx.Calls a b → ¬ OnCycle ctx.Calls b

theorem CostContext.Acyclic.of_reaches {a b : String} (h : ctx.Acyclic a)
    (hab : ReflTransGen ctx.Calls a b) : ctx.Acyclic b :=
  fun c hbc => h c (hab.trans hbc)

theorem CostContext.findAgent_of_calledAgent {callee : Expr} {b : String}
    (h : ctx.calledAgent callee = some b) : ∃ agent, findAgent ctx.file b = some agent := by
  unfold CostContext.calledAgent at h
  split at h
  next => cases h
  next entry _ =>
    split at h
    next =>
      obtain ⟨agent, hagent, rfl⟩ := Option.map_eq_some_iff.mp h
      exact ⟨agent, hagent⟩
    next => cases h

theorem CostContext.Acyclic.exists_worst {a : String} {agent : AgentDecl} (h : ctx.Acyclic a)
    (hagent : findAgent ctx.file a = some agent) : ∃ w, Worst ctx a w := by
  let reached : Set String :=
    {b | ReflTransGen ctx.Calls a b ∧ ∃ agent, findAgent ctx.file b = some agent}
  have hfinite : reached.Finite := (agentNames ctx.file).toFinset.finite_toSet.subset fun b hb => by
    obtain ⟨agent, hb⟩ := hb.2
    exact List.mem_toFinset.mpr (mem_agentNames hb)
  refine Chains.induction_of_acyclic (s := reached) (P := fun b => ∃ w, Worst ctx b w) hfinite
    (fun b hb c hc => ?_) (fun b hb => h b hb.1) (fun b hb ih => ?_) ⟨.refl, agent, hagent⟩
  · obtain ⟨_, _, callee, _, hcallee⟩ := id hc
    exact ⟨hb.1.tail hc, ctx.findAgent_of_calledAgent hcallee⟩
  · obtain ⟨-, agent, hagent⟩ := hb
    choose! f hf using ih
    have hworst : Worst ctx b (worstBlock (ctx.callCosts f) agent.body) :=
      .agent hagent fun callee hc c hcallee => hf c ⟨agent, hagent, callee, hc, hcallee⟩
    exact ⟨_, hworst⟩

/-- The estimate of an agent, from those of the agents it calls. -/
def CostContext.agentCosts (ctx : CostContext) (a : String) : Costs :=
  ((computeWorstCaseCost ctx a).map CostEstimate.dimensions).getD 0

theorem agentCosts_of_worst {a : String} {w : Costs} (h : Worst ctx a w) : ctx.agentCosts a = w := by
  obtain ⟨est, hest, hw⟩ := computeWorstCaseCost_of_worst h
  rw [CostContext.agentCosts, hest]
  exact hw.dimensions

/-- Where no agent calls itself, the estimate of an agent counts its body with the estimates of the
agents it calls: neither what was remembered nor the order of the visits matters. -/
theorem dimensions_eq_worstBlock {a : String} {agent : AgentDecl} (hacyclic : ctx.Acyclic a)
    (hagent : findAgent ctx.file a = some agent) :
    ∃ est, computeWorstCaseCost ctx a = some est ∧
      est.dimensions = worstBlock (ctx.callCosts ctx.agentCosts) agent.body := by
  obtain ⟨w, hw⟩ := hacyclic.exists_worst hagent
  obtain ⟨est, hest, hcounts⟩ := computeWorstCaseCost_of_worst hw
  refine ⟨est, hest, hcounts.dimensions.trans ?_⟩
  obtain ⟨hagent', hcalls⟩ := hw
  obtain rfl := Option.some.inj (hagent.symm.trans hagent')
  refine worstBlock_congr _ fun callee hc => CostContext.callCosts_congr fun b hb => ?_
  exact (agentCosts_of_worst (hcalls callee hc b hb)).symm

end Agents

/-! ### Bounds -/

section Bounds

variable {ctx : CostContext} {enter : String → CostM (Option CostEstimate)} {agentName : String}

abbrev YieldsAll {α : Type} (x : CostM α) (P : α → Prop) : Prop := Yields (fun _ => True) x P

mutual

/-- Expressions have no loops. -/
theorem bounded_analyzeExpr : (e : Expr) →
    YieldsAll (analyzeExpr ctx enter e) fun est => est.bounded = true
  | .literal => .pure rfl
  | .ident _ => .pure rfl
  | .call callee args => by
    refine (bounded_analyzeExpr callee).bind fun calleeEst hcallee => ?_
    refine (bounded_analyzeExprs args).bind fun argParts hargs => ?_
    have hcall : YieldsAll (callCostTree ctx enter callee) fun _ => True := fun _ _ => ⟨trivial, trivial⟩
    refine hcall.bind fun callTree _ => .pure ?_
    show (calleeEst.bounded && argParts.2.2) = true
    rw [hcallee, hargs, Bool.and_self]
  | .fieldAccess target _ => bounded_analyzeExpr target
  | .index target index => by
    refine (bounded_analyzeExpr target).bind fun targetEst htarget => ?_
    refine (bounded_analyzeExpr index).bind fun indexEst hindex => .pure ?_
    exact Bool.and_eq_true_iff.mpr ⟨htarget, hindex⟩
  | .binOp left right => by
    refine (bounded_analyzeExpr left).bind fun leftEst hleft => ?_
    refine (bounded_analyzeExpr right).bind fun rightEst hright => .pure ?_
    exact Bool.and_eq_true_iff.mpr ⟨hleft, hright⟩
  | .unOp operand => (bounded_analyzeExpr operand).bind fun _ hest => .pure hest
  | .list items => (bounded_analyzeExprs items).bind fun _ hparts => .pure hparts
  | .tryPropagate inner => bounded_analyzeExpr inner
  | .tryRetry body => (bounded_analyzeExpr body).bind fun _ hest => .pure hest
  | .replay trace arms elseBody => by
    refine (bounded_analyzeExpr trace).bind fun traceEst htrace => ?_
    refine (bounded_analyzeArms arms).bind fun armParts harms => ?_
    refine (bounded_analyzeExpr elseBody).bind fun elseEst helse => .pure ?_
    show (traceEst.bounded && (armParts.2.2 && (elseEst.bounded && true))) = true
    rw [htrace, harms, helse]
    rfl

theorem bounded_analyzeExprs : (es : List Expr) →
    YieldsAll (analyzeExprs ctx enter es) fun parts => parts.2.2 = true
  | [] => .pure rfl
  | e :: es => by
    refine (bounded_analyzeExpr e).bind fun est hest => ?_
    refine (bounded_analyzeExprs es).bind fun parts hparts => .pure ?_
    exact Bool.and_eq_true_iff.mpr ⟨hest, hparts⟩

theorem bounded_analyzeArms : (arms : List ReplayArm) →
    YieldsAll (analyzeArms ctx enter arms) fun parts => parts.2.2 = true
  | [] => .pure rfl
  | .mk _ _ body :: arms => by
    refine (bounded_analyzeExpr body).bind fun est hest => ?_
    refine (bounded_analyzeArms arms).bind fun parts hparts => .pure ?_
    exact Bool.and_eq_true_iff.mpr ⟨hest, hparts⟩

end

mutual

theorem bounded_analyzeStmt : (s : Stmt) →
    YieldsAll (analyzeStmt ctx enter agentName s) fun est => est.bounded = staticStmt s
  | .letStmt _ _ value => (bounded_analyzeExpr value).bind fun _ hest => .pure hest
  | .yieldStmt value => (bounded_analyzeExpr value).bind fun _ hest => .pure hest
  | .expr value => (bounded_analyzeExpr value).bind fun _ hest => .pure hest
  | .approve value => (bounded_analyzeExpr value).bind fun _ hest => .pure hest
  | .returnStmt (some value) => (bounded_analyzeExpr value).bind fun _ hest => .pure hest
  | .returnStmt none => .pure rfl
  | .ifStmt cond thenBlock elseBlock => by
    refine (bounded_analyzeExpr cond).bind fun condEst hcond => ?_
    refine (bounded_analyzeStmts thenBlock).bind fun thenParts hthen => ?_
    refine (bounded_analyzeElse elseBlock).bind fun elseEst helse => .pure ?_
    show (condEst.bounded && thenParts.2.2 && elseEst.bounded) = _
    rw [hcond, hthen, helse, Bool.true_and]
    rfl
  | .forStmt _ iter body => by
    refine (bounded_analyzeExpr iter).bind fun iterEst hiter => ?_
    split
    next n hn =>
      refine (bounded_analyzeStmts body).bind fun bodyParts hbody => .pure ?_
      show (iterEst.bounded && bodyParts.2.2) = ((staticLoopBound iter).isSome && staticBlock body)
      rw [hiter, hbody, hn]
      rfl
    next hn =>
      refine .pure ?_
      show false = ((staticLoopBound iter).isSome && staticBlock body)
      rw [hn]
      rfl

theorem bounded_analyzeStmts : (ss : Block) →
    YieldsAll (analyzeStmts ctx enter agentName ss) fun parts => parts.2.2 = staticBlock ss
  | [] => .pure rfl
  | s :: ss => by
    refine (bounded_analyzeStmt s).bind fun est hest => ?_
    refine (bounded_analyzeStmts ss).bind fun parts hparts => .pure ?_
    exact congrArg₂ (· && ·) hest hparts

theorem bounded_analyzeElse : (block : Option Block) →
    YieldsAll (analyzeElse ctx enter agentName block) fun est => est.bounded = staticElse block
  | some block => (bounded_analyzeStmts block).bind fun _ hparts => .pure hparts
  | none => .pure rfl

end

theorem bounded_analyzeBlock (block : Block) :
    YieldsAll (analyzeBlock ctx enter agentName block) fun est => est.bounded = staticBlock block :=
  (bounded_analyzeStmts block).bind fun _ hparts => .pure hparts

/-- The estimate of an agent tells of the loops of its own body only. -/
theorem bounded_computeWorstCaseCost {a : String} {agent : AgentDecl} {est : CostEstimate}
    (hagent : findAgent ctx.file a = some agent) (hest : computeWorstCaseCost ctx a = some est) :
    est.bounded = staticBlock agent.body := by
  have hnot : a ∉ (⟨∅, ∅⟩ : CostAnalyzer).visiting := Finset.notMem_empty a
  have hrun := hest.symm.trans (congrArg Prod.fst (analyzeAgent_entered rfl hagent hnot rfl))
  obtain rfl := Option.some.inj hrun
  exact (bounded_analyzeBlock agent.body _ trivial).1

end Bounds

end Corvid.Effects
