import Corvid.Codegen.Ownership

/-!
# Elimination of pairs

After the ownership analysis has put in the statements that gain and give up references, a pass removes
the pairs of them that are not needed: a reference that is gained right before the one use of a local in
a statement, and given up later in the same block, with nothing in between that has to do with the local.

## Main definitions

* `eliminatePairs`: the pass

## Main results

* `eliminatePairs_equivalent`: the body of an agent has the same runs before and after the pass, with the
  same counts of references, unless it lacks a reference before
-/

namespace Corvid.Codegen

open Interp (Expr ExprKind ReplayArm Stmt Block CallKind LocalId IrAgent)
open Holding (Act Op Equivalent)
open Holding.Behaviour (seq loop once)

/-! ### The pass -/

def exprMentionsLocal (e : Expr) (id : LocalId) : Bool :=
  0 < countLocalMentionsExpr e id

/-- A call that leaves the compiled code, or enters another agent. -/
def externalObserver : CallKind → Bool
  | .tool _ | .prompt _ | .agent _ | .unknown => true
  | .fixture _ | .structConstructor _ => false

mutual

def exprObservesRefcount : Expr → LocalId → Bool
  | .mk kind _, id => kindObservesRefcount kind id

def kindObservesRefcount : ExprKind → LocalId → Bool
  | .literal _, _ => false
  | .decl, _ => false
  | .optionNone, _ => false
  | .localVar _, _ => false
  | .call kind _ args, id =>
    (externalObserver kind && args.any (exprMentionsLocal · id)) || exprsObserveRefcount args id
  | .fieldAccess target _, id => exprObservesRefcount target id
  | .unwrapGrounded value, id => exprObservesRefcount value id
  | .weakUpgrade weak, id => exprObservesRefcount weak id
  | .streamSplitBy stream _, id => exprObservesRefcount stream id
  | .streamMerge groups _, id => exprObservesRefcount groups id
  | .streamOrderedBy stream _, id => exprObservesRefcount stream id
  | .streamResumeToken stream, id => exprObservesRefcount stream id
  | .resumeStream _ _ token, id => exprObservesRefcount token id
  | .resultOk inner, id => exprObservesRefcount inner id
  | .resultErr inner, id => exprObservesRefcount inner id
  | .optionSome inner, id => exprObservesRefcount inner id
  | .ask prompt _, id => exprObservesRefcount prompt id
  | .choose options, id => exprObservesRefcount options id
  | .tryPropagate inner, id => exprObservesRefcount inner id
  | .tryRetry body _, id => exprObservesRefcount body id
  | .unOp _ operand, id => exprObservesRefcount operand id
  | .wrappingUnOp _ operand, id => exprObservesRefcount operand id
  | .weakNew strong, id => exprMentionsLocal strong id || exprObservesRefcount strong id
  | .index target i, id => exprObservesRefcount target id || exprObservesRefcount i id
  | .binOp _ left right, id => exprObservesRefcount left id || exprObservesRefcount right id
  | .wrappingBinOp _ left right, id => exprObservesRefcount left id || exprObservesRefcount right id
  | .list items, id => exprsObserveRefcount items id
  | .replay trace arms elseBody, id =>
    exprObservesRefcount trace id || armsObserveRefcount arms id || exprObservesRefcount elseBody id

def exprsObserveRefcount : List Expr → LocalId → Bool
  | [], _ => false
  | e :: es, id => exprObservesRefcount e id || exprsObserveRefcount es id

def armsObserveRefcount : List ReplayArm → LocalId → Bool
  | [], _ => false
  | .mk _ _ body :: arms, id => exprObservesRefcount body id || armsObserveRefcount arms id

end

def stmtObservesRefcount : Stmt → LocalId → Bool
  | .letStmt _ _ value, id => exprObservesRefcount value id
  | .expr value, id => exprObservesRefcount value id
  | .yieldStmt value _, id => exprObservesRefcount value id
  | .approve _ args _, id => args.any (exprMentionsLocal · id)
  | _, _ => true

/-- What is mentioned in the blocks of a statement does not count. -/
def stmtLocalMentions : Stmt → LocalId → ℕ
  | .letStmt _ _ value, id => countLocalMentionsExpr value id
  | .returnStmt value, id => (value.map (countLocalMentionsExpr · id)).getD 0
  | .yieldStmt value _, id => countLocalMentionsExpr value id
  | .ifStmt cond _ _, id => countLocalMentionsExpr cond id
  | .forStmt _ iter _ _, id => countLocalMentionsExpr iter id
  | .approve _ args _, id => countLocalMentionsExprs args id
  | .expr e, id => countLocalMentionsExpr e id
  | .breakStmt, _ => 0
  | .continueStmt, _ => 0
  | .pass, _ => 0
  | .dup _, _ => 0
  | .drop _, _ => 0

def stmtIsPairableUse (s : Stmt) (id : LocalId) : Bool :=
  stmtLocalMentions s id = 1 && !stmtObservesRefcount s id &&
    match s with
    | .letStmt defined _ _ => defined ≠ id
    | .expr _ => true
    | _ => false

def stmtBlocksPairSearch : Stmt → LocalId → Bool
  | .ifStmt _ _ _, _ => true
  | .forStmt _ _ _ _, _ => true
  | .returnStmt _, _ => true
  | .yieldStmt _ _, _ => true
  | .breakStmt, _ => true
  | .continueStmt, _ => true
  | .approve _ args _, id => args.any (exprMentionsLocal · id)
  | .letStmt defined _ value, id => defined = id || exprMentionsLocal value id
  | .expr e, id => exprMentionsLocal e id
  | .dup current, id => current = id
  | .drop current, id => current = id
  | .pass, _ => false

def isDropOf : Stmt → LocalId → Bool
  | .drop current, id => current = id
  | _, _ => false

/-- The statements up to the one that gives up a reference of the local, and those after it, unless some
statement before it blocks the search. -/
def findDrop (id : LocalId) : Block → Option (Block × Block)
  | [] => none
  | s :: rest =>
    if isDropOf s id then some ([], rest)
    else if stmtBlocksPairSearch s id then none
    else (findDrop id rest).map fun found => (s :: found.1, found.2)

theorem findDrop_eq_some {id : LocalId} {rest mid after : Block} (h : findDrop id rest = some (mid, after)) :
    rest = mid ++ .drop id :: after ∧ ∀ s ∈ mid, stmtBlocksPairSearch s id = false := by
  induction rest generalizing mid with
  | nil => cases h
  | cons s rest ih =>
    rw [findDrop] at h
    split_ifs at h with hdrop hblocks
    · obtain ⟨rfl, rfl⟩ := Prod.mk.inj (Option.some.inj h)
      cases s <;> simp_all [isDropOf]
    · obtain ⟨⟨mid', after'⟩, hfound, heq⟩ := Option.map_eq_some_iff.mp h
      obtain ⟨rfl, rfl⟩ := Prod.mk.inj heq
      obtain ⟨rfl, hmid⟩ := ih hfound
      exact ⟨rfl, List.forall_mem_cons.mpr ⟨by simpa using hblocks, hmid⟩⟩

theorem length_after_lt {id : LocalId} {rest mid after : Block} (h : findDrop id rest = some (mid, after)) :
    after.length < rest.length := by
  obtain ⟨rfl, -⟩ := findDrop_eq_some h
  rw [List.length_append, List.length_cons]
  omega

/-- The search goes on after a pair that is removed. -/
def removePairs : Block → Block
  | .dup id :: use :: rest =>
    if stmtIsPairableUse use id then
      match h : findDrop id rest with
      | some (mid, after) =>
        have := length_after_lt h
        use :: mid ++ removePairs after
      | none => .dup id :: removePairs (use :: rest)
    else .dup id :: removePairs (use :: rest)
  | s :: rest => s :: removePairs rest
  | [] => []
termination_by ss => ss.length

mutual

def eliminatePairsInStmt : Stmt → Stmt
  | .ifStmt cond thenBlock elseBlock =>
    .ifStmt cond (removePairs (eliminatePairsInStmts thenBlock)) (eliminatePairsInElse elseBlock)
  | .forStmt var iter body span => .forStmt var iter (removePairs (eliminatePairsInStmts body)) span
  | .letStmt id name value => .letStmt id name value
  | .returnStmt value => .returnStmt value
  | .yieldStmt value span => .yieldStmt value span
  | .approve label args span => .approve label args span
  | .expr e => .expr e
  | .breakStmt => .breakStmt
  | .continueStmt => .continueStmt
  | .pass => .pass
  | .dup id => .dup id
  | .drop id => .drop id

def eliminatePairsInStmts : Block → Block
  | [] => []
  | s :: ss => eliminatePairsInStmt s :: eliminatePairsInStmts ss

def eliminatePairsInElse : Option Block → Option Block
  | none => none
  | some block => some (removePairs (eliminatePairsInStmts block))

end

/-- The blocks inside a block come first. -/
def eliminatePairsInBlock (block : Block) : Block :=
  removePairs (eliminatePairsInStmts block)

def eliminatePairs (agent : IrAgent) : IrAgent :=
  { agent with body := eliminatePairsInBlock agent.body }

/-! ### Statements around a pair -/

section Statements

variable {refcounted : LocalId → Bool} {id : LocalId} {s : Stmt}

/-- Uses of a local of one kind. -/
def Alike (id : LocalId) (ops : List (Op LocalId)) : Prop :=
  (∀ a ∈ Holding.actsOn id ops, a = .take) ∨ ∀ a ∈ Holding.actsOn id ops, a = .look

theorem pairable_runs (h : stmtIsPairableUse s id = true) :
    ∀ p ∈ stmtRuns refcounted s, p.2 = .normal ∧ Alike id p.1 := by
  rintro ⟨t, x⟩ hp
  simp only [stmtIsPairableUse, Bool.and_eq_true, decide_eq_true_eq] at h
  obtain ⟨⟨hmentions, -⟩, hkind⟩ := h
  cases s with
  | letStmt defined name value =>
    obtain ⟨⟨w, hw, rfl⟩, rfl⟩ := hp
    refine ⟨rfl, ?_⟩
    have hne : defined ≠ id := by simpa using hkind
    rw [Alike, Holding.actsOn_append, Holding.actsOn_cons, if_neg hne, Holding.actsOn_nil, List.append_nil]
    exact reads_alike hmentions hw
  | expr e =>
    obtain ⟨⟨w, hw, rfl⟩, rfl⟩ := hp
    refine ⟨rfl, ?_⟩
    rw [List.append_nil]
    exact reads_alike hmentions hw
  | _ => simp at hkind

theorem countLocalMentionsExpr_eq_zero {e : Expr} (h : exprMentionsLocal e id = false) :
    countLocalMentionsExpr e id = 0 := by
  simpa [exprMentionsLocal] using h

theorem unblocking_runs (h : stmtBlocksPairSearch s id = false) :
    ∀ p ∈ stmtRuns refcounted s, p.2 = .normal ∧ Holding.actsOn id p.1 = [] := by
  rintro ⟨t, x⟩ hp
  cases s with
  | letStmt defined name value =>
    obtain ⟨⟨w, hw, rfl⟩, rfl⟩ := hp
    simp only [stmtBlocksPairSearch, Bool.or_eq_false_iff, decide_eq_false_iff_not] at h
    refine ⟨rfl, ?_⟩
    rw [Holding.actsOn_append, Holding.actsOn_cons, if_neg h.1, Holding.actsOn_nil, List.append_nil]
    exact actsOn_reads_eq_nil (countLocalMentionsExpr_eq_zero h.2) hw
  | expr e =>
    obtain ⟨⟨w, hw, rfl⟩, rfl⟩ := hp
    refine ⟨rfl, ?_⟩
    rw [List.append_nil]
    exact actsOn_reads_eq_nil (countLocalMentionsExpr_eq_zero h) hw
  | approve label args span =>
    obtain ⟨⟨w, hw, rfl⟩, rfl⟩ := hp
    refine ⟨rfl, ?_⟩
    rw [List.append_nil]
    refine actsOn_reads_all_eq_nil (fun e he => countLocalMentionsExpr_eq_zero ?_) hw
    simpa using List.any_eq_false.mp h e he
  | dup current =>
    obtain ⟨rfl, rfl⟩ := Prod.mk.inj hp
    exact ⟨rfl, Holding.actsOn_eq_nil (by simpa [stmtBlocksPairSearch] using h)⟩
  | drop current =>
    obtain ⟨rfl, rfl⟩ := Prod.mk.inj hp
    exact ⟨rfl, Holding.actsOn_eq_nil (by simpa [stmtBlocksPairSearch] using h)⟩
  | pass =>
    obtain ⟨rfl, rfl⟩ := Prod.mk.inj hp
    exact ⟨rfl, rfl⟩
  | _ => simp [stmtBlocksPairSearch] at h

theorem alike_append_of_nil {t u : List (Op LocalId)} (ht : Alike id t) (hu : Holding.actsOn id u = []) :
    Alike id (t ++ u) := by
  rwa [Alike, Holding.actsOn_append, hu, List.append_nil]

/-- The use of a pair and the statements between it and the end of the pair. -/
theorem between_runs {mid : Block} (huse : stmtIsPairableUse s id = true)
    (hmid : ∀ s ∈ mid, stmtBlocksPairSearch s id = false) :
    ∀ p ∈ blockRuns refcounted (s :: mid), p.2 = .normal ∧ Alike id p.1 := by
  have hrest : ∀ p ∈ blockRuns refcounted mid, p.2 = .normal ∧ Holding.actsOn id p.1 = [] :=
    blockRuns_normal (P := fun t => Holding.actsOn id t = []) rfl
      (fun t u ht hu => by rw [Holding.actsOn_append, ht, hu, List.append_nil])
      fun s hs => unblocking_runs (hmid s hs)
  rintro ⟨v, x⟩ hp
  obtain ⟨t, u, ht, hu, rfl⟩ :=
    (Holding.mem_seq_of_normal fun p hp => (pairable_runs huse p hp).1).mp hp
  exact ⟨(hrest _ hu).1, alike_append_of_nil (pairable_runs huse _ ht).2 (hrest _ hu).2⟩

end Statements

/-! ### The pass preserves runs -/

section Equivalence

variable {refcounted : LocalId → Bool}

theorem removePairs_equivalent (ss : Block) :
    Equivalent (blockRuns refcounted ss) (blockRuns refcounted (removePairs ss)) := by
  fun_induction removePairs ss with
  | case1 id use rest huse mid after hfound _ ih =>
    obtain ⟨rfl, hmid⟩ := findDrop_eq_some hfound
    have hbetween : ∀ p ∈ blockRuns refcounted (use :: mid), p.2 = .normal ∧ Alike id p.1 :=
      between_runs huse hmid
    have hpair := Holding.equivalent_pair hbetween (blockRuns refcounted after)
    have hbefore : blockRuns refcounted (.dup id :: use :: (mid ++ .drop id :: after)) =
        seq (once [⟨.dup, id⟩]) (seq (blockRuns refcounted (use :: mid))
          (seq (once [⟨.drop, id⟩]) (blockRuns refcounted after))) := by
      rw [blockRuns, ← List.cons_append, blockRuns_append]
      rfl
    rw [hbefore, blockRuns_append]
    exact hpair.trans (.seq (.refl _) ih (blockRuns_nonempty after))
  | case2 id use rest huse hnone ih => exact .seq (.refl _) ih (blockRuns_nonempty _)
  | case3 id use rest huse ih => exact .seq (.refl _) ih (blockRuns_nonempty _)
  | case4 s rest hne ih => exact .seq (.refl _) ih (blockRuns_nonempty rest)
  | case5 => exact .refl _

mutual

theorem eliminatePairsInStmt_equivalent : (s : Stmt) →
    Equivalent (stmtRuns refcounted s) (stmtRuns refcounted (eliminatePairsInStmt s))
  | .ifStmt _ thenBlock elseBlock =>
    .seq (.refl _)
      (((eliminatePairsInStmts_equivalent thenBlock).trans (removePairs_equivalent _)).union
        (eliminatePairsInElse_equivalent elseBlock))
      ((blockRuns_nonempty thenBlock).mono Set.subset_union_left)
  | .forStmt _ _ body _ =>
    .seq (.refl _) ((eliminatePairsInStmts_equivalent body).trans (removePairs_equivalent _)).loop
      ⟨([], .normal), .done⟩
  | .letStmt _ _ _ => .refl _
  | .returnStmt _ => .refl _
  | .yieldStmt _ _ => .refl _
  | .approve _ _ _ => .refl _
  | .expr _ => .refl _
  | .breakStmt => .refl _
  | .continueStmt => .refl _
  | .pass => .refl _
  | .dup _ => .refl _
  | .drop _ => .refl _

theorem eliminatePairsInStmts_equivalent : (ss : Block) →
    Equivalent (blockRuns refcounted ss) (blockRuns refcounted (eliminatePairsInStmts ss))
  | [] => .refl _
  | s :: ss =>
    .seq (eliminatePairsInStmt_equivalent s) (eliminatePairsInStmts_equivalent ss) (blockRuns_nonempty ss)

theorem eliminatePairsInElse_equivalent : (block : Option Block) →
    Equivalent (elseRuns refcounted block) (elseRuns refcounted (eliminatePairsInElse block))
  | none => .refl _
  | some block => (eliminatePairsInStmts_equivalent block).trans (removePairs_equivalent _)

end

/-- Wherever the body of an agent lacks no reference, the pass leaves its runs and their counts as they
are. -/
theorem eliminatePairs_equivalent (agent : IrAgent) :
    Equivalent (blockRuns refcounted agent.body) (blockRuns refcounted (eliminatePairs agent).body) :=
  (eliminatePairsInStmts_equivalent agent.body).trans (removePairs_equivalent _)

end Equivalence

end Corvid.Codegen
