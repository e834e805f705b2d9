import Corvid.Codegen.PairElim

/-!
# Reduction of scopes

The last pass over the references of an agent gives them up earlier: right after the definition of the
local, or after the last statement since then that mentions it or may have an effect. It looks up which
statements may have an effect in an analysis made before.

## Main definitions

* `analyzeEffects`: the statements that may have an effect, by their paths
* `reduceScope`: the pass

## Main results

* `optimized_runs`: the runs of an agent that lacks no reference are the same before and after this pass
  and the elimination of pairs
-/

namespace Corvid.Codegen

open Interp (Expr ExprKind ReplayArm Stmt Block LocalId IrAgent)
open Holding (Act Op Equivalent Safe)
open Holding.Behaviour (seq loop once)

namespace ScopeReduce

/-! ### Mentions and effects -/

mutual

def exprMentionsLocal : Expr → LocalId → Bool
  | .mk kind _, id => kindMentionsLocal kind id

def kindMentionsLocal : ExprKind → LocalId → Bool
  | .literal _, _ => false
  | .decl, _ => false
  | .optionNone, _ => false
  | .localVar current, id => current = id
  | .call _ _ args, id => exprsMentionLocal args id
  | .list items, id => exprsMentionLocal items id
  | .fieldAccess target _, id => exprMentionsLocal target id
  | .unwrapGrounded value, id => exprMentionsLocal value id
  | .weakNew strong, id => exprMentionsLocal strong id
  | .weakUpgrade weak, id => exprMentionsLocal weak id
  | .streamSplitBy stream _, id => exprMentionsLocal stream id
  | .streamMerge groups _, id => exprMentionsLocal groups id
  | .streamOrderedBy stream _, id => exprMentionsLocal stream id
  | .streamResumeToken stream, id => exprMentionsLocal stream id
  | .resumeStream _ _ token, id => exprMentionsLocal token id
  | .resultOk inner, id => exprMentionsLocal inner id
  | .resultErr inner, id => exprMentionsLocal inner id
  | .optionSome inner, id => exprMentionsLocal inner id
  | .ask prompt _, id => exprMentionsLocal prompt id
  | .choose options, id => exprMentionsLocal options id
  | .tryPropagate inner, id => exprMentionsLocal inner id
  | .tryRetry body _, id => exprMentionsLocal body id
  | .unOp _ operand, id => exprMentionsLocal operand id
  | .wrappingUnOp _ operand, id => exprMentionsLocal operand id
  | .index target i, id => exprMentionsLocal target id || exprMentionsLocal i id
  | .binOp _ left right, id => exprMentionsLocal left id || exprMentionsLocal right id
  | .wrappingBinOp _ left right, id => exprMentionsLocal left id || exprMentionsLocal right id
  | .replay trace arms elseBody, id =>
    exprMentionsLocal trace id || armsMentionLocal arms id || exprMentionsLocal elseBody id

def exprsMentionLocal : List Expr → LocalId → Bool
  | [], _ => false
  | e :: es, id => exprMentionsLocal e id || exprsMentionLocal es id

def armsMentionLocal : List ReplayArm → LocalId → Bool
  | [], _ => false
  | .mk _ _ body :: arms, id => exprMentionsLocal body id || armsMentionLocal arms id

end

/-- What is mentioned in the blocks of a statement does not count. -/
def stmtMentionsLocal : Stmt → LocalId → Bool
  | .letStmt _ _ value, id => exprMentionsLocal value id
  | .returnStmt value, id => (value.map (exprMentionsLocal · id)).getD false
  | .yieldStmt value _, id => exprMentionsLocal value id
  | .ifStmt cond _ _, id => exprMentionsLocal cond id
  | .forStmt _ iter _ _, id => exprMentionsLocal iter id
  | .approve _ args _, id => args.any (exprMentionsLocal · id)
  | .expr e, id => exprMentionsLocal e id
  | .dup current, id => current = id
  | .drop current, id => current = id
  | .breakStmt, _ => false
  | .continueStmt, _ => false
  | .pass, _ => false

mutual

def exprIsEffectFree : Expr → Bool
  | .mk kind _ => kindIsEffectFree kind

def kindIsEffectFree : ExprKind → Bool
  | .literal _ => true
  | .localVar _ => true
  | .decl => true
  | .unOp _ operand => exprIsEffectFree operand
  | .wrappingUnOp _ operand => exprIsEffectFree operand
  | .binOp _ left right => exprIsEffectFree left && exprIsEffectFree right
  | .wrappingBinOp _ left right => exprIsEffectFree left && exprIsEffectFree right
  | _ => false

end

def stmtIsEffectBarrier : Stmt → Bool
  | .letStmt _ _ value => !exprIsEffectFree value
  | .expr e => !exprIsEffectFree e
  | .yieldStmt value _ => !exprIsEffectFree value
  | .returnStmt _ => true
  | .ifStmt _ _ _ => true
  | .forStmt _ _ _ _ => true
  | .approve _ _ _ => true
  | .breakStmt => true
  | .continueStmt => true
  | .dup _ => true
  | .drop _ => true
  | .pass => false

/-! ### Paths -/

inductive IrNavStep where
  | stmt (idx : ℕ)
  | ifThen
  | ifElse
  | forBody
deriving DecidableEq, Repr

abbrev IrPath := List IrNavStep

structure EffectInfo where
  barriers : List IrPath

def EffectInfo.isBarrier (info : EffectInfo) (path : IrPath) : Bool :=
  path ∈ info.barriers

mutual

/-- The barriers in the statement at the path. -/
def collectEffectsInStmt (s : Stmt) (path : IrPath) : List IrPath :=
  (if stmtIsEffectBarrier s then [path] else []) ++
    match s with
    | .ifStmt _ thenBlock elseBlock =>
      collectEffectsInBlock thenBlock (path ++ [.ifThen]) 0 ++ collectEffectsInElse elseBlock path
    | .forStmt _ _ body _ => collectEffectsInBlock body (path ++ [.forBody]) 0
    | _ => []

/-- The statements of the block are counted from an index on. -/
def collectEffectsInBlock : Block → IrPath → ℕ → List IrPath
  | [], _, _ => []
  | s :: ss, parent, idx =>
    collectEffectsInStmt s (parent ++ [.stmt idx]) ++ collectEffectsInBlock ss parent (idx + 1)

def collectEffectsInElse : Option Block → IrPath → List IrPath
  | none, _ => []
  | some block, path => collectEffectsInBlock block (path ++ [.ifElse]) 0

end

def analyzeEffects (agent : IrAgent) : EffectInfo :=
  ⟨collectEffectsInBlock agent.body [] 0⟩

/-! ### The pass -/

def definesLocal : Stmt → LocalId → Bool
  | .letStmt defined _ _, id => defined = id
  | _, _ => false

/-- A statement with the flag of the analysis. -/
abbrev Flagged := Stmt × Bool

/-- The statement is put after the last one that defines or mentions the local or is flagged. The
statements are given from the last one on. -/
def putBack (id : LocalId) (dropStmt : Flagged) : List Flagged → List Flagged
  | [] => [dropStmt]
  | s :: done =>
    if definesLocal s.1 id || stmtMentionsLocal s.1 id || s.2 then dropStmt :: s :: done
    else s :: putBack id dropStmt done

/-- A reference is given up earlier if the local is defined in the same block. No statement that gives
one up is moved over, since it is a barrier itself. -/
def moveDrops (done : List Flagged) : List Flagged → Block
  | [] => done.reverse.map Prod.fst
  | (.drop id, flag) :: rest =>
    if done.any (definesLocal ·.1 id) then moveDrops (putBack id (.drop id, flag) done) rest
    else moveDrops ((.drop id, flag) :: done) rest
  | s :: rest => moveDrops (s :: done) rest

section Reduce

variable (info : EffectInfo)

mutual

def reduceStmt : Stmt → IrPath → Stmt
  | .ifStmt cond thenBlock elseBlock, path =>
    .ifStmt cond (moveDrops [] (reduceStmts thenBlock (path ++ [.ifThen]) 0)) (reduceElse elseBlock path)
  | .forStmt var iter body span, path =>
    .forStmt var iter (moveDrops [] (reduceStmts body (path ++ [.forBody]) 0)) span
  | .letStmt id name value, _ => .letStmt id name value
  | .returnStmt value, _ => .returnStmt value
  | .yieldStmt value span, _ => .yieldStmt value span
  | .approve label args span, _ => .approve label args span
  | .expr e, _ => .expr e
  | .breakStmt, _ => .breakStmt
  | .continueStmt, _ => .continueStmt
  | .pass, _ => .pass
  | .dup id, _ => .dup id
  | .drop id, _ => .drop id

/-- The blocks inside the statements come first; the flags are those of the statements as they were. -/
def reduceStmts : Block → IrPath → ℕ → List Flagged
  | [], _, _ => []
  | s :: ss, parent, idx =>
    (reduceStmt s (parent ++ [.stmt idx]), info.isBarrier (parent ++ [.stmt idx])) ::
      reduceStmts ss parent (idx + 1)

def reduceElse : Option Block → IrPath → Option Block
  | none, _ => none
  | some block, path => some (moveDrops [] (reduceStmts block (path ++ [.ifElse]) 0))

end

def reduceBlock (block : Block) (parent : IrPath) : Block :=
  moveDrops [] (reduceStmts info block parent 0)

end Reduce

def reduceScope (agent : IrAgent) (info : EffectInfo) : IrAgent :=
  { agent with body := reduceBlock info agent.body [] }

end ScopeReduce

open ScopeReduce

/-! ### What is moved over -/

mutual

/-- The two passes agree on what mentions a local. -/
theorem countLocalMentionsExpr_eq_zero_iff (id : LocalId) : (e : Expr) →
    (countLocalMentionsExpr e id = 0 ↔ ScopeReduce.exprMentionsLocal e id = false)
  | .mk kind _ => countLocalMentionsKind_eq_zero_iff id kind

theorem countLocalMentionsKind_eq_zero_iff (id : LocalId) : (kind : ExprKind) →
    (countLocalMentionsKind kind id = 0 ↔ kindMentionsLocal kind id = false)
  | .literal _ => by simp [countLocalMentionsKind, kindMentionsLocal]
  | .decl => by simp [countLocalMentionsKind, kindMentionsLocal]
  | .optionNone => by simp [countLocalMentionsKind, kindMentionsLocal]
  | .localVar current => by simp [countLocalMentionsKind, kindMentionsLocal]
  | .call _ _ args => countLocalMentionsExprs_eq_zero_iff id args
  | .list items => countLocalMentionsExprs_eq_zero_iff id items
  | .fieldAccess target _ => countLocalMentionsExpr_eq_zero_iff id target
  | .unwrapGrounded value => countLocalMentionsExpr_eq_zero_iff id value
  | .weakNew strong => countLocalMentionsExpr_eq_zero_iff id strong
  | .weakUpgrade weak => countLocalMentionsExpr_eq_zero_iff id weak
  | .streamSplitBy stream _ => countLocalMentionsExpr_eq_zero_iff id stream
  | .streamMerge groups _ => countLocalMentionsExpr_eq_zero_iff id groups
  | .streamOrderedBy stream _ => countLocalMentionsExpr_eq_zero_iff id stream
  | .streamResumeToken stream => countLocalMentionsExpr_eq_zero_iff id stream
  | .resumeStream _ _ token => countLocalMentionsExpr_eq_zero_iff id token
  | .resultOk inner => countLocalMentionsExpr_eq_zero_iff id inner
  | .resultErr inner => countLocalMentionsExpr_eq_zero_iff id inner
  | .optionSome inner => countLocalMentionsExpr_eq_zero_iff id inner
  | .ask prompt _ => countLocalMentionsExpr_eq_zero_iff id prompt
  | .choose options => countLocalMentionsExpr_eq_zero_iff id options
  | .tryPropagate inner => countLocalMentionsExpr_eq_zero_iff id inner
  | .tryRetry body _ => countLocalMentionsExpr_eq_zero_iff id body
  | .unOp _ operand => countLocalMentionsExpr_eq_zero_iff id operand
  | .wrappingUnOp _ operand => countLocalMentionsExpr_eq_zero_iff id operand
  | .index target i => by
    rw [countLocalMentionsKind, Nat.add_eq_zero_iff, kindMentionsLocal, Bool.or_eq_false_iff,
      countLocalMentionsExpr_eq_zero_iff id target, countLocalMentionsExpr_eq_zero_iff id i]
  | .binOp _ left right => by
    rw [countLocalMentionsKind, Nat.add_eq_zero_iff, kindMentionsLocal, Bool.or_eq_false_iff,
      countLocalMentionsExpr_eq_zero_iff id left, countLocalMentionsExpr_eq_zero_iff id right]
  | .wrappingBinOp _ left right => by
    rw [countLocalMentionsKind, Nat.add_eq_zero_iff, kindMentionsLocal, Bool.or_eq_false_iff,
      countLocalMentionsExpr_eq_zero_iff id left, countLocalMentionsExpr_eq_zero_iff id right]
  | .replay trace arms elseBody => by
    rw [countLocalMentionsKind, Nat.add_eq_zero_iff, Nat.add_eq_zero_iff, kindMentionsLocal,
      Bool.or_eq_false_iff, Bool.or_eq_false_iff, countLocalMentionsExpr_eq_zero_iff id trace,
      countLocalMentionsArms_eq_zero_iff id arms, countLocalMentionsExpr_eq_zero_iff id elseBody]

theorem countLocalMentionsExprs_eq_zero_iff (id : LocalId) : (es : List Expr) →
    (countLocalMentionsExprs es id = 0 ↔ exprsMentionLocal es id = false)
  | [] => by simp [countLocalMentionsExprs, exprsMentionLocal]
  | e :: es => by
    rw [countLocalMentionsExprs, Nat.add_eq_zero_iff, exprsMentionLocal, Bool.or_eq_false_iff,
      countLocalMentionsExpr_eq_zero_iff id e, countLocalMentionsExprs_eq_zero_iff id es]

theorem countLocalMentionsArms_eq_zero_iff (id : LocalId) : (arms : List ReplayArm) →
    (countLocalMentionsArms arms id = 0 ↔ armsMentionLocal arms id = false)
  | [] => by simp [countLocalMentionsArms, armsMentionLocal]
  | .mk _ _ body :: arms => by
    rw [countLocalMentionsArms, Nat.add_eq_zero_iff, armsMentionLocal, Bool.or_eq_false_iff,
      countLocalMentionsExpr_eq_zero_iff id body, countLocalMentionsArms_eq_zero_iff id arms]

end

section MovedOver

variable {refcounted : LocalId → Bool} {id : LocalId}

/-- A statement without effects that has nothing to do with the local. -/
theorem movedOver_runs {s : Stmt} (hdefines : definesLocal s id = false)
    (hmentions : stmtMentionsLocal s id = false) (hbarrier : stmtIsEffectBarrier s = false) :
    ∀ p ∈ stmtRuns refcounted s, p.2 = .normal ∧ Holding.actsOn id p.1 = [] := by
  rintro ⟨t, x⟩ hp
  cases s with
  | letStmt defined name value =>
    obtain ⟨⟨w, hw, rfl⟩, rfl⟩ := hp
    have hne : defined ≠ id := by simpa [definesLocal] using hdefines
    refine ⟨rfl, ?_⟩
    rw [Holding.actsOn_append, Holding.actsOn_cons, if_neg hne, Holding.actsOn_nil, List.append_nil]
    exact actsOn_reads_eq_nil ((countLocalMentionsExpr_eq_zero_iff id value).mpr hmentions) hw
  | expr e =>
    obtain ⟨⟨w, hw, rfl⟩, rfl⟩ := hp
    refine ⟨rfl, ?_⟩
    rw [List.append_nil]
    exact actsOn_reads_eq_nil ((countLocalMentionsExpr_eq_zero_iff id e).mpr hmentions) hw
  | yieldStmt value span =>
    obtain ⟨⟨w, hw, rfl⟩, rfl⟩ := hp
    refine ⟨rfl, ?_⟩
    rw [List.append_nil]
    exact actsOn_reads_eq_nil ((countLocalMentionsExpr_eq_zero_iff id value).mpr hmentions) hw
  | pass =>
    obtain ⟨rfl, rfl⟩ := Prod.mk.inj hp
    exact ⟨rfl, rfl⟩
  | _ => simp [stmtIsEffectBarrier] at hbarrier

/-! ### The pass preserves runs -/

/-- Every barrier is flagged. -/
def WellFlagged (stmts : List Flagged) : Prop :=
  ∀ s ∈ stmts, stmtIsEffectBarrier s.1 = true → s.2 = true

theorem blockRuns_equivalent_append {ss ss' : Block} (before : Block)
    (h : Equivalent (blockRuns refcounted ss) (blockRuns refcounted ss')) :
    Equivalent (blockRuns refcounted (before ++ ss)) (blockRuns refcounted (before ++ ss')) := by
  rw [blockRuns_append, blockRuns_append]
  exact .seq (.refl _) h (blockRuns_nonempty ss)

theorem putBack_equivalent (flag : Bool) {done : List Flagged} (hdone : WellFlagged done) (rest : Block) :
    Equivalent (blockRuns refcounted (done.reverse.map Prod.fst ++ .drop id :: rest))
      (blockRuns refcounted ((putBack id (.drop id, flag) done).reverse.map Prod.fst ++ rest)) := by
  induction done generalizing rest with
  | nil => exact .refl _
  | cons s done ih =>
    rw [putBack]
    split_ifs with hstays
    · simpa using Equivalent.refl _
    · simp only [Bool.or_eq_true, not_or, Bool.not_eq_true] at hstays
      obtain ⟨⟨hdefines, hmentions⟩, hflag⟩ := hstays
      have hbarrier : stmtIsEffectBarrier s.1 = false := by
        cases hs : stmtIsEffectBarrier s.1 with
        | false => rfl
        | true => exact absurd (hdone s List.mem_cons_self hs) (by simp [hflag])
      have hmove : Equivalent (blockRuns refcounted (s.1 :: .drop id :: rest))
          (blockRuns refcounted (.drop id :: s.1 :: rest)) :=
        Holding.equivalent_move (movedOver_runs hdefines hmentions hbarrier) (blockRuns refcounted rest)
      have hrest := ih (fun s hs => hdone s (List.mem_cons_of_mem _ hs)) (s.1 :: rest)
      have hstep := (blockRuns_equivalent_append (done.reverse.map Prod.fst) hmove).trans hrest
      simpa using hstep

theorem wellFlagged_putBack {s : Flagged} (hs : stmtIsEffectBarrier s.1 = true → s.2 = true)
    {done : List Flagged} (hdone : WellFlagged done) : WellFlagged (putBack id s done) := by
  induction done with
  | nil =>
    rintro t ht
    rw [List.mem_singleton.mp ht]
    exact hs
  | cons d done ih =>
    obtain ⟨hd, hdone'⟩ := List.forall_mem_cons.mp hdone
    rw [putBack]
    split_ifs
    · exact List.forall_mem_cons.mpr ⟨hs, hdone⟩
    · exact List.forall_mem_cons.mpr ⟨hd, ih hdone'⟩

theorem moveDrops_equivalent {done stmts : List Flagged} (hdone : WellFlagged done)
    (hstmts : WellFlagged stmts) :
    Equivalent (blockRuns refcounted (done.reverse.map Prod.fst ++ stmts.map Prod.fst))
      (blockRuns refcounted (moveDrops done stmts)) := by
  fun_induction moveDrops done stmts with
  | case1 done => simpa using Equivalent.refl _
  | case2 done id flag rest _ ih =>
    obtain ⟨hdrop, hrest⟩ := List.forall_mem_cons.mp hstmts
    exact (putBack_equivalent flag hdone (rest.map Prod.fst)).trans
      (ih (wellFlagged_putBack hdrop hdone) hrest)
  | case3 done id flag rest _ ih =>
    obtain ⟨hdrop, hrest⟩ := List.forall_mem_cons.mp hstmts
    simpa using ih (List.forall_mem_cons.mpr ⟨hdrop, hdone⟩) hrest
  | case4 done s rest _ ih =>
    obtain ⟨hs, hrest⟩ := List.forall_mem_cons.mp hstmts
    simpa using ih (List.forall_mem_cons.mpr ⟨hs, hdone⟩) hrest

end MovedOver

section Analysis

variable {refcounted : LocalId → Bool} {info : EffectInfo}

theorem stmtIsEffectBarrier_reduceStmt (s : Stmt) (path : IrPath) :
    stmtIsEffectBarrier (reduceStmt info s path) = stmtIsEffectBarrier s := by
  cases s <;> rw [reduceStmt] <;> rfl

theorem mem_collectEffectsInStmt {s : Stmt} (h : stmtIsEffectBarrier s = true) (path : IrPath) :
    path ∈ collectEffectsInStmt s path := by
  cases s <;> simp_all [collectEffectsInStmt, stmtIsEffectBarrier]

theorem wellFlagged_reduceStmts : (ss : Block) → (parent : IrPath) → (idx : ℕ) →
    (∀ p ∈ collectEffectsInBlock ss parent idx, info.isBarrier p = true) →
    WellFlagged (reduceStmts info ss parent idx)
  | [], _, _, _ => by simp [WellFlagged, reduceStmts]
  | s :: ss, parent, idx, h => by
    rw [collectEffectsInBlock] at h
    have hss := wellFlagged_reduceStmts ss parent (idx + 1) fun p hp => h p (List.mem_append_right _ hp)
    refine List.forall_mem_cons.mpr ⟨fun hbarrier => h _ (List.mem_append_left _ ?_), hss⟩
    rw [stmtIsEffectBarrier_reduceStmt] at hbarrier
    exact mem_collectEffectsInStmt hbarrier _

mutual

theorem reduceStmt_equivalent : (s : Stmt) → (path : IrPath) →
    (∀ p ∈ collectEffectsInStmt s path, info.isBarrier p = true) →
    Equivalent (stmtRuns refcounted s) (stmtRuns refcounted (reduceStmt info s path))
  | .ifStmt _ thenBlock elseBlock, path, h => by
    rw [collectEffectsInStmt] at h
    have hthen := reduceBlock_equivalent thenBlock (path ++ [.ifThen]) 0 fun p hp =>
      h p (List.mem_append_right _ (List.mem_append_left _ hp))
    have helse := reduceElse_equivalent elseBlock path fun p hp =>
      h p (List.mem_append_right _ (List.mem_append_right _ hp))
    exact .seq (.refl _) (hthen.union helse) ((blockRuns_nonempty thenBlock).mono Set.subset_union_left)
  | .forStmt _ _ body _, path, h => by
    rw [collectEffectsInStmt] at h
    have hbody := reduceBlock_equivalent body (path ++ [.forBody]) 0 fun p hp =>
      h p (List.mem_append_right _ hp)
    exact .seq (.refl _) hbody.loop ⟨([], .normal), .done⟩
  | .letStmt _ _ _, _, _ => .refl _
  | .returnStmt _, _, _ => .refl _
  | .yieldStmt _ _, _, _ => .refl _
  | .approve _ _ _, _, _ => .refl _
  | .expr _, _, _ => .refl _
  | .breakStmt, _, _ => .refl _
  | .continueStmt, _, _ => .refl _
  | .pass, _, _ => .refl _
  | .dup _, _, _ => .refl _
  | .drop _, _, _ => .refl _

theorem reduceStmts_equivalent : (ss : Block) → (parent : IrPath) → (idx : ℕ) →
    (∀ p ∈ collectEffectsInBlock ss parent idx, info.isBarrier p = true) →
    Equivalent (blockRuns refcounted ss)
      (blockRuns refcounted ((reduceStmts info ss parent idx).map Prod.fst))
  | [], _, _, _ => .refl _
  | s :: ss, parent, idx, h => by
    rw [collectEffectsInBlock] at h
    have hs := reduceStmt_equivalent s (parent ++ [.stmt idx]) fun p hp => h p (List.mem_append_left _ hp)
    have hss := reduceStmts_equivalent ss parent (idx + 1) fun p hp => h p (List.mem_append_right _ hp)
    exact .seq hs hss (blockRuns_nonempty ss)

theorem reduceElse_equivalent : (block : Option Block) → (path : IrPath) →
    (∀ p ∈ collectEffectsInElse block path, info.isBarrier p = true) →
    Equivalent (elseRuns refcounted block) (elseRuns refcounted (reduceElse info block path))
  | none, _, _ => .refl _
  | some block, path, h => by
    rw [collectEffectsInElse] at h
    exact reduceBlock_equivalent block (path ++ [.ifElse]) 0 h

theorem reduceBlock_equivalent (block : Block) (parent : IrPath) (idx : ℕ)
    (h : ∀ p ∈ collectEffectsInBlock block parent idx, info.isBarrier p = true) :
    Equivalent (blockRuns refcounted block)
      (blockRuns refcounted (moveDrops [] (reduceStmts info block parent idx))) := by
  have hnone : WellFlagged [] := fun _ h => by cases h
  exact (reduceStmts_equivalent block parent idx h).trans
    (moveDrops_equivalent hnone (wellFlagged_reduceStmts block parent idx h))

end

theorem reduceScope_equivalent (agent : IrAgent) :
    Equivalent (blockRuns refcounted agent.body)
      (blockRuns refcounted (reduceScope agent (analyzeEffects agent)).body) :=
  reduceBlock_equivalent agent.body [] 0 fun _ hp => decide_eq_true hp

end Analysis

/-! ### Both passes -/

/-- The passes after the insertion of the statements that gain and give up references, in their order. -/
def optimize (agent : IrAgent) : IrAgent :=
  let transformed := eliminatePairs agent
  reduceScope transformed (analyzeEffects transformed)

theorem optimize_equivalent (refcounted : LocalId → Bool) (agent : IrAgent) :
    Equivalent (blockRuns refcounted agent.body) (blockRuns refcounted (optimize agent).body) :=
  (eliminatePairs_equivalent agent).trans (reduceScope_equivalent (eliminatePairs agent))

/-- An agent with a parameter that is assigned to another name, and is given up after it is no longer
used. -/
def reassigned : IrAgent where
  id := 0
  name := "reassigned"
  params := [⟨"s", 0, .string⟩]
  returnTy := .int
  costBudget := none
  body :=
    [.dup 0, .letStmt 1 "t" (.mk (.localVar 0) ⟨0, 0⟩), .drop 0,
      .letStmt 2 "n" (.mk (.literal (.int 1)) ⟨0, 0⟩), .drop 1, .returnStmt none]
  span := ⟨0, 0⟩

end Corvid.Codegen
