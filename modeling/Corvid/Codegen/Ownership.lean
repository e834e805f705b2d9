import Corvid.Codegen.Dataflow
import Corvid.Lib.Holding
import Mathlib.Computability.Language

/-!
# Ownership of locals

In the native tier a local of a refcounted type holds references to its value. An expression reads its
locals in order; a read consumes a reference or borrows the value, as the place of the read in the
expression has it. Which reads happen depends on the run: the right side of `and` may be passed over, the
body of a retry is evaluated again after an error, and of the arms of a replay one is evaluated.
Statements put the reads together with the references that are gained and given up explicitly.

## Main definitions

* `walkExpr`: the reads of an expression as the ownership analysis has them
* `evaluations`: the reads of its evaluations
* `blockRuns`: the runs of a block
* `countLocalMentionsExpr`: how often an expression mentions a local

## Main results

* `evaluations_within`: an evaluation has only reads that the analysis has
* `reads_alike`: the evaluations of an expression that mentions a local once read it in one way
-/

namespace Corvid.Codegen

open Interp (Expr ExprKind ReplayArm Stmt Block CallKind BinaryOp LocalId)
open Holding (Act Behaviour Op)
open Holding.Behaviour (seq loop once)

/-! ### Reads -/

section Reads

variable (refcounted : LocalId → Bool)

/-- Whether a call takes over the references of its arguments. -/
def argsConsumed : CallKind → Bool
  | .tool _ | .prompt _ | .fixture _ | .unknown => false
  | .agent _ | .structConstructor _ => true

def readLocal (id : LocalId) (consumed : Bool) : List LocalRead :=
  if refcounted id then [⟨id, if consumed then .owned else .borrowed⟩] else []

mutual

def walkExpr : Expr → Bool → List LocalRead
  | .mk kind _, consumed => walkKind kind consumed

def walkKind : ExprKind → Bool → List LocalRead
  | .localVar id, consumed => readLocal refcounted id consumed
  | .literal _, _ => []
  | .decl, _ => []
  | .optionNone, _ => []
  | .fieldAccess target _, _ => walkExpr target false
  | .unwrapGrounded value, _ => walkExpr value true
  | .index target i, _ => walkExpr target false ++ walkExpr i true
  | .binOp _ left right, _ => walkExpr left true ++ walkExpr right true
  | .wrappingBinOp _ left right, _ => walkExpr left true ++ walkExpr right true
  | .unOp _ operand, _ => walkExpr operand true
  | .wrappingUnOp _ operand, _ => walkExpr operand true
  | .call kind _ args, _ => walkExprs args (argsConsumed kind)
  | .list items, _ => walkExprs items true
  | .weakNew strong, _ => walkExpr strong true
  | .weakUpgrade weak, _ => walkExpr weak false
  | .streamSplitBy stream _, _ => walkExpr stream false
  | .streamMerge groups _, _ => walkExpr groups false
  | .streamOrderedBy stream _, _ => walkExpr stream false
  | .streamResumeToken stream, _ => walkExpr stream false
  | .resumeStream _ _ token, _ => walkExpr token false
  | .resultOk inner, _ => walkExpr inner true
  | .resultErr inner, _ => walkExpr inner true
  | .optionSome inner, _ => walkExpr inner true
  | .ask prompt _, _ => walkExpr prompt true
  | .choose options, _ => walkExpr options true
  | .tryPropagate inner, _ => walkExpr inner true
  | .tryRetry body _, consumed => walkExpr body consumed
  | .replay trace arms elseBody, consumed =>
    walkExpr trace true ++ walkArms arms consumed ++ walkExpr elseBody consumed

def walkExprs : List Expr → Bool → List LocalRead
  | [], _ => []
  | e :: es, consumed => walkExpr e consumed ++ walkExprs es consumed

def walkArms : List ReplayArm → Bool → List LocalRead
  | [], _ => []
  | .mk _ _ body :: arms, consumed => walkExpr body consumed ++ walkArms arms consumed

end

/-- The right side of `and` and `or` may be passed over. -/
def operandReads (op : BinaryOp) (left right : Language LocalRead) : Language LocalRead :=
  if op = .and ∨ op = .or then left * (1 + right) else left * right

mutual

/-- The reads of the evaluations that come to an end, each in its order. One that a `?` or an error cuts
short begins like one of these. -/
def evaluations : Expr → Bool → Language LocalRead
  | .mk kind _, consumed => evaluationsKind kind consumed

def evaluationsKind : ExprKind → Bool → Language LocalRead
  | .localVar id, consumed => {readLocal refcounted id consumed}
  | .literal _, _ => 1
  | .decl, _ => 1
  | .optionNone, _ => 1
  | .fieldAccess target _, _ => evaluations target false
  | .unwrapGrounded value, _ => evaluations value true
  | .index target i, _ => evaluations target false * evaluations i true
  | .binOp op left right, _ => operandReads op (evaluations left true) (evaluations right true)
  | .wrappingBinOp op left right, _ => operandReads op (evaluations left true) (evaluations right true)
  | .unOp _ operand, _ => evaluations operand true
  | .wrappingUnOp _ operand, _ => evaluations operand true
  | .call kind _ args, _ => evaluationsAll args (argsConsumed kind)
  | .list items, _ => evaluationsAll items true
  | .weakNew strong, _ => evaluations strong true
  | .weakUpgrade weak, _ => evaluations weak false
  | .streamSplitBy stream _, _ => evaluations stream false
  | .streamMerge groups _, _ => evaluations groups false
  | .streamOrderedBy stream _, _ => evaluations stream false
  | .streamResumeToken stream, _ => evaluations stream false
  | .resumeStream _ _ token, _ => evaluations token false
  | .resultOk inner, _ => evaluations inner true
  | .resultErr inner, _ => evaluations inner true
  | .optionSome inner, _ => evaluations inner true
  | .ask prompt _, _ => evaluations prompt true
  | .choose options, _ => evaluations options true
  | .tryPropagate inner, _ => evaluations inner true
  | .tryRetry body attempts, consumed =>
    evaluations body consumed * (1 + evaluations body consumed) ^ (attempts - 1)
  | .replay trace arms elseBody, consumed =>
    evaluations trace true * (evaluationsArms arms consumed + evaluations elseBody consumed)

def evaluationsAll : List Expr → Bool → Language LocalRead
  | [], _ => 1
  | e :: es, consumed => evaluations e consumed * evaluationsAll es consumed

/-- One of the arms. -/
def evaluationsArms : List ReplayArm → Bool → Language LocalRead
  | [], _ => 0
  | .mk _ _ body :: arms, consumed => evaluations body consumed + evaluationsArms arms consumed

end

end Reads

/-! ### Mentions -/

mutual

def countLocalMentionsExpr : Expr → LocalId → ℕ
  | .mk kind _, id => countLocalMentionsKind kind id

def countLocalMentionsKind : ExprKind → LocalId → ℕ
  | .literal _, _ => 0
  | .decl, _ => 0
  | .optionNone, _ => 0
  | .localVar current, id => if current = id then 1 else 0
  | .call _ _ args, id => countLocalMentionsExprs args id
  | .list items, id => countLocalMentionsExprs items id
  | .fieldAccess target _, id => countLocalMentionsExpr target id
  | .unwrapGrounded value, id => countLocalMentionsExpr value id
  | .weakNew strong, id => countLocalMentionsExpr strong id
  | .weakUpgrade weak, id => countLocalMentionsExpr weak id
  | .streamSplitBy stream _, id => countLocalMentionsExpr stream id
  | .streamMerge groups _, id => countLocalMentionsExpr groups id
  | .streamOrderedBy stream _, id => countLocalMentionsExpr stream id
  | .streamResumeToken stream, id => countLocalMentionsExpr stream id
  | .resumeStream _ _ token, id => countLocalMentionsExpr token id
  | .resultOk inner, id => countLocalMentionsExpr inner id
  | .resultErr inner, id => countLocalMentionsExpr inner id
  | .optionSome inner, id => countLocalMentionsExpr inner id
  | .ask prompt _, id => countLocalMentionsExpr prompt id
  | .choose options, id => countLocalMentionsExpr options id
  | .tryPropagate inner, id => countLocalMentionsExpr inner id
  | .tryRetry body _, id => countLocalMentionsExpr body id
  | .unOp _ operand, id => countLocalMentionsExpr operand id
  | .wrappingUnOp _ operand, id => countLocalMentionsExpr operand id
  | .index target i, id => countLocalMentionsExpr target id + countLocalMentionsExpr i id
  | .binOp _ left right, id => countLocalMentionsExpr left id + countLocalMentionsExpr right id
  | .wrappingBinOp _ left right, id => countLocalMentionsExpr left id + countLocalMentionsExpr right id
  | .replay trace arms elseBody, id =>
    countLocalMentionsExpr trace id + countLocalMentionsArms arms id + countLocalMentionsExpr elseBody id

def countLocalMentionsExprs : List Expr → LocalId → ℕ
  | [], _ => 0
  | e :: es, id => countLocalMentionsExpr e id + countLocalMentionsExprs es id

def countLocalMentionsArms : List ReplayArm → LocalId → ℕ
  | [], _ => 0
  | .mk _ _ body :: arms, id => countLocalMentionsExpr body id + countLocalMentionsArms arms id

end

/-! ### Statements -/

/-- What a read does to its local. -/
def LocalRead.op (r : LocalRead) : Op LocalId :=
  match r.kind with
  | .owned => ⟨.take, r.localId⟩
  | .borrowed => ⟨.look, r.localId⟩

/-- The reads of an evaluation, and then some more operations. -/
def reading (evals : Language LocalRead) (after : List (Op LocalId)) (x : Holding.Exit) :
    Behaviour LocalId :=
  {p | (∃ w ∈ evals, p.1 = w.map LocalRead.op ++ after) ∧ p.2 = x}

section Runs

variable (refcounted : LocalId → Bool)

mutual

def stmtRuns : Stmt → Behaviour LocalId
  | .letStmt id _ value => reading (evaluations refcounted value true) [⟨.define, id⟩] .normal
  | .returnStmt (some value) => reading (evaluations refcounted value true) [] .returned
  | .returnStmt none => reading 1 [] .returned
  | .yieldStmt value _ => reading (evaluations refcounted value true) [] .normal
  | .ifStmt cond thenBlock elseBlock =>
    seq (reading (evaluations refcounted cond false) [] .normal)
      (blockRuns thenBlock ∪ elseRuns elseBlock)
  | .forStmt var iter body _ =>
    seq (reading (evaluations refcounted iter false) [] .normal) (loop var (blockRuns body))
  | .approve _ args _ => reading (evaluationsAll refcounted args false) [] .normal
  | .expr e => reading (evaluations refcounted e true) [] .normal
  | .breakStmt => reading 1 [] .broken
  | .continueStmt => reading 1 [] .continued
  | .pass => once []
  | .dup id => once [⟨.dup, id⟩]
  | .drop id => once [⟨.drop, id⟩]

def blockRuns : Block → Behaviour LocalId
  | [] => once []
  | s :: ss => seq (stmtRuns s) (blockRuns ss)

def elseRuns : Option Block → Behaviour LocalId
  | none => once []
  | some block => blockRuns block

end

end Runs

/-! ### Reads of evaluations -/

/-- The words of the language have no other reads. -/
def Within (l : Language LocalRead) (reads : List LocalRead) : Prop :=
  ∀ w ∈ l, w ⊆ reads

namespace Within

variable {l m : Language LocalRead} {reads reads' : List LocalRead}

theorem mono (h : Within l reads) (hsub : reads ⊆ reads') : Within l reads' :=
  fun w hw => List.Subset.trans (h w hw) hsub

theorem one : Within 1 reads := by
  intro w hw
  rw [(Language.mem_one w).mp hw]
  exact List.nil_subset reads

theorem mul (h : Within l reads) (h' : Within m reads') : Within (l * m) (reads ++ reads') := by
  intro w hw
  obtain ⟨a, ha, b, hb, rfl⟩ := Language.mem_mul.mp hw
  exact List.append_subset.mpr
    ⟨List.Subset.trans (h a ha) (List.subset_append_left _ _),
      List.Subset.trans (h' b hb) (List.subset_append_right _ _)⟩

theorem add (h : Within l reads) (h' : Within m reads) : Within (l + m) reads := by
  intro w hw
  rcases (Language.mem_add _ _ _).mp hw with hw | hw
  · exact h w hw
  · exact h' w hw

/-- A repetition has no reads of its own. -/
theorem pow (h : Within l reads) (n : ℕ) : Within (l ^ n) reads := by
  induction n with
  | zero =>
    rw [pow_zero]
    exact one
  | succ n ih =>
    rw [pow_succ]
    exact (ih.mul h).mono (by simp)

theorem operandReads (op : BinaryOp) (h : Within l reads) (h' : Within m reads') :
    Within (Codegen.operandReads op l m) (reads ++ reads') := by
  unfold Codegen.operandReads
  split_ifs
  · exact h.mul (one.add h')
  · exact h.mul h'

theorem retry (h : Within l reads) (n : ℕ) : Within (l * (1 + l) ^ n) reads :=
  (h.mul ((one.add h).pow n)).mono (by simp)

end Within

section Evaluations

variable {refcounted : LocalId → Bool}

mutual

/-- An evaluation has only reads that the analysis has, perhaps not all of them and some more than
once. -/
theorem evaluations_within : (e : Expr) → (consumed : Bool) →
    Within (evaluations refcounted e consumed) (walkExpr refcounted e consumed)
  | .mk kind _, consumed => evaluationsKind_within kind consumed

theorem evaluationsKind_within : (kind : ExprKind) → (consumed : Bool) →
    Within (evaluationsKind refcounted kind consumed) (walkKind refcounted kind consumed)
  | .localVar id, consumed => by
    rintro w rfl
    exact List.Subset.refl _
  | .literal _, _ => .one
  | .decl, _ => .one
  | .optionNone, _ => .one
  | .fieldAccess target _, _ => evaluations_within target false
  | .unwrapGrounded value, _ => evaluations_within value true
  | .index target i, _ => (evaluations_within target false).mul (evaluations_within i true)
  | .binOp op left right, _ => .operandReads op (evaluations_within left true) (evaluations_within right true)
  | .wrappingBinOp op left right, _ =>
    .operandReads op (evaluations_within left true) (evaluations_within right true)
  | .unOp _ operand, _ => evaluations_within operand true
  | .wrappingUnOp _ operand, _ => evaluations_within operand true
  | .call kind _ args, _ => evaluationsAll_within args (argsConsumed kind)
  | .list items, _ => evaluationsAll_within items true
  | .weakNew strong, _ => evaluations_within strong true
  | .weakUpgrade weak, _ => evaluations_within weak false
  | .streamSplitBy stream _, _ => evaluations_within stream false
  | .streamMerge groups _, _ => evaluations_within groups false
  | .streamOrderedBy stream _, _ => evaluations_within stream false
  | .streamResumeToken stream, _ => evaluations_within stream false
  | .resumeStream _ _ token, _ => evaluations_within token false
  | .resultOk inner, _ => evaluations_within inner true
  | .resultErr inner, _ => evaluations_within inner true
  | .optionSome inner, _ => evaluations_within inner true
  | .ask prompt _, _ => evaluations_within prompt true
  | .choose options, _ => evaluations_within options true
  | .tryPropagate inner, _ => evaluations_within inner true
  | .tryRetry body attempts, consumed => (evaluations_within body consumed).retry (attempts - 1)
  | .replay trace arms elseBody, consumed => by
    have htrace := evaluations_within trace true
    have harms := evaluationsArms_within arms consumed
    have helse := evaluations_within elseBody consumed
    have hbranches := (harms.mono (List.subset_append_left _ (walkExpr refcounted elseBody consumed))).add
      (helse.mono (List.subset_append_right (walkArms refcounted arms consumed) _))
    exact (htrace.mul hbranches).mono (by rw [walkKind, List.append_assoc]; exact List.Subset.refl _)

theorem evaluationsAll_within : (es : List Expr) → (consumed : Bool) →
    Within (evaluationsAll refcounted es consumed) (walkExprs refcounted es consumed)
  | [], _ => .one
  | e :: es, consumed => (evaluations_within e consumed).mul (evaluationsAll_within es consumed)

theorem evaluationsArms_within : (arms : List ReplayArm) → (consumed : Bool) →
    Within (evaluationsArms refcounted arms consumed) (walkArms refcounted arms consumed)
  | [], _ => by
    intro w hw
    exact absurd hw (Language.notMem_zero w)
  | .mk _ _ body :: arms, consumed =>
    ((evaluations_within body consumed).mono (List.subset_append_left _ _)).add
      ((evaluationsArms_within arms consumed).mono (List.subset_append_right _ _))

end

/-! ### Evaluations there are -/

theorem one_nonempty : ∃ w, w ∈ (1 : Language LocalRead) := ⟨[], rfl⟩

theorem mul_nonempty {l m : Language LocalRead} (hl : ∃ w, w ∈ l) (hm : ∃ w, w ∈ m) : ∃ w, w ∈ l * m := by
  obtain ⟨a, ha⟩ := hl
  obtain ⟨b, hb⟩ := hm
  exact ⟨a ++ b, Language.append_mem_mul ha hb⟩

theorem one_add_pow_nonempty (l : Language LocalRead) (n : ℕ) : ∃ w, w ∈ (1 + l) ^ n := by
  induction n with
  | zero => exact ⟨[], rfl⟩
  | succ n ih =>
    rw [pow_succ]
    exact mul_nonempty ih ⟨[], .inl rfl⟩

theorem operandReads_nonempty (op : BinaryOp) {l m : Language LocalRead} (hl : ∃ w, w ∈ l) (hm : ∃ w, w ∈ m) :
    ∃ w, w ∈ operandReads op l m := by
  unfold operandReads
  split_ifs
  · exact mul_nonempty hl ⟨[], .inl rfl⟩
  · exact mul_nonempty hl hm

mutual

theorem evaluations_nonempty : (e : Expr) → (consumed : Bool) → ∃ w, w ∈ evaluations refcounted e consumed
  | .mk kind _, consumed => evaluationsKind_nonempty kind consumed

theorem evaluationsKind_nonempty : (kind : ExprKind) → (consumed : Bool) →
    ∃ w, w ∈ evaluationsKind refcounted kind consumed
  | .localVar id, consumed => ⟨_, rfl⟩
  | .literal _, _ => one_nonempty
  | .decl, _ => one_nonempty
  | .optionNone, _ => one_nonempty
  | .fieldAccess target _, _ => evaluations_nonempty target false
  | .unwrapGrounded value, _ => evaluations_nonempty value true
  | .index target i, _ => mul_nonempty (evaluations_nonempty target false) (evaluations_nonempty i true)
  | .binOp op left right, _ =>
    operandReads_nonempty op (evaluations_nonempty left true) (evaluations_nonempty right true)
  | .wrappingBinOp op left right, _ =>
    operandReads_nonempty op (evaluations_nonempty left true) (evaluations_nonempty right true)
  | .unOp _ operand, _ => evaluations_nonempty operand true
  | .wrappingUnOp _ operand, _ => evaluations_nonempty operand true
  | .call kind _ args, _ => evaluationsAll_nonempty args (argsConsumed kind)
  | .list items, _ => evaluationsAll_nonempty items true
  | .weakNew strong, _ => evaluations_nonempty strong true
  | .weakUpgrade weak, _ => evaluations_nonempty weak false
  | .streamSplitBy stream _, _ => evaluations_nonempty stream false
  | .streamMerge groups _, _ => evaluations_nonempty groups false
  | .streamOrderedBy stream _, _ => evaluations_nonempty stream false
  | .streamResumeToken stream, _ => evaluations_nonempty stream false
  | .resumeStream _ _ token, _ => evaluations_nonempty token false
  | .resultOk inner, _ => evaluations_nonempty inner true
  | .resultErr inner, _ => evaluations_nonempty inner true
  | .optionSome inner, _ => evaluations_nonempty inner true
  | .ask prompt _, _ => evaluations_nonempty prompt true
  | .choose options, _ => evaluations_nonempty options true
  | .tryPropagate inner, _ => evaluations_nonempty inner true
  | .tryRetry body attempts, consumed =>
    mul_nonempty (evaluations_nonempty body consumed) (one_add_pow_nonempty _ _)
  | .replay trace arms elseBody, consumed => by
    obtain ⟨w, hw⟩ := evaluations_nonempty elseBody consumed
    exact mul_nonempty (evaluations_nonempty trace true) ⟨w, .inr hw⟩

theorem evaluationsAll_nonempty : (es : List Expr) → (consumed : Bool) →
    ∃ w, w ∈ evaluationsAll refcounted es consumed
  | [], _ => one_nonempty
  | e :: es, consumed =>
    mul_nonempty (evaluations_nonempty e consumed) (evaluationsAll_nonempty es consumed)

end

/-! ### Reads and mentions -/

mutual

/-- Every read is a mention. -/
theorem countP_walkExpr_le (id : LocalId) : (e : Expr) → (consumed : Bool) →
    (walkExpr refcounted e consumed).countP (·.localId = id) ≤ countLocalMentionsExpr e id
  | .mk kind _, consumed => countP_walkKind_le id kind consumed

theorem countP_walkKind_le (id : LocalId) : (kind : ExprKind) → (consumed : Bool) →
    (walkKind refcounted kind consumed).countP (·.localId = id) ≤ countLocalMentionsKind kind id
  | .localVar current, consumed => by
    rw [walkKind, readLocal, countLocalMentionsKind]
    split_ifs <;> simp_all
  | .literal _, _ => le_refl 0
  | .decl, _ => le_refl 0
  | .optionNone, _ => le_refl 0
  | .fieldAccess target _, _ => countP_walkExpr_le id target false
  | .unwrapGrounded value, _ => countP_walkExpr_le id value true
  | .index target i, _ => by
    rw [walkKind, List.countP_append, countLocalMentionsKind]
    exact Nat.add_le_add (countP_walkExpr_le id target false) (countP_walkExpr_le id i true)
  | .binOp op left right, _ => by
    rw [walkKind, List.countP_append, countLocalMentionsKind]
    exact Nat.add_le_add (countP_walkExpr_le id left true) (countP_walkExpr_le id right true)
  | .wrappingBinOp op left right, _ => by
    rw [walkKind, List.countP_append, countLocalMentionsKind]
    exact Nat.add_le_add (countP_walkExpr_le id left true) (countP_walkExpr_le id right true)
  | .unOp _ operand, _ => countP_walkExpr_le id operand true
  | .wrappingUnOp _ operand, _ => countP_walkExpr_le id operand true
  | .call kind _ args, _ => countP_walkExprs_le id args (argsConsumed kind)
  | .list items, _ => countP_walkExprs_le id items true
  | .weakNew strong, _ => countP_walkExpr_le id strong true
  | .weakUpgrade weak, _ => countP_walkExpr_le id weak false
  | .streamSplitBy stream _, _ => countP_walkExpr_le id stream false
  | .streamMerge groups _, _ => countP_walkExpr_le id groups false
  | .streamOrderedBy stream _, _ => countP_walkExpr_le id stream false
  | .streamResumeToken stream, _ => countP_walkExpr_le id stream false
  | .resumeStream _ _ token, _ => countP_walkExpr_le id token false
  | .resultOk inner, _ => countP_walkExpr_le id inner true
  | .resultErr inner, _ => countP_walkExpr_le id inner true
  | .optionSome inner, _ => countP_walkExpr_le id inner true
  | .ask prompt _, _ => countP_walkExpr_le id prompt true
  | .choose options, _ => countP_walkExpr_le id options true
  | .tryPropagate inner, _ => countP_walkExpr_le id inner true
  | .tryRetry body _, consumed => countP_walkExpr_le id body consumed
  | .replay trace arms elseBody, consumed => by
    rw [walkKind, List.countP_append, List.countP_append, countLocalMentionsKind]
    exact Nat.add_le_add
      (Nat.add_le_add (countP_walkExpr_le id trace true) (countP_walkArms_le id arms consumed))
      (countP_walkExpr_le id elseBody consumed)

theorem countP_walkExprs_le (id : LocalId) : (es : List Expr) → (consumed : Bool) →
    (walkExprs refcounted es consumed).countP (·.localId = id) ≤ countLocalMentionsExprs es id
  | [], _ => le_refl 0
  | e :: es, consumed => by
    rw [walkExprs, List.countP_append, countLocalMentionsExprs]
    exact Nat.add_le_add (countP_walkExpr_le id e consumed) (countP_walkExprs_le id es consumed)

theorem countP_walkArms_le (id : LocalId) : (arms : List ReplayArm) → (consumed : Bool) →
    (walkArms refcounted arms consumed).countP (·.localId = id) ≤ countLocalMentionsArms arms id
  | [], _ => le_refl 0
  | .mk _ _ body :: arms, consumed => by
    rw [walkArms, List.countP_append, countLocalMentionsArms]
    exact Nat.add_le_add (countP_walkExpr_le id body consumed) (countP_walkArms_le id arms consumed)

end

end Evaluations

/-! ### What the reads do to one local -/

@[simp] theorem LocalRead.op_key (r : LocalRead) : r.op.key = r.localId := by
  unfold LocalRead.op
  cases r.kind <;> rfl

theorem mem_actsOn_reads {id : LocalId} {w : List LocalRead} {a : Act} :
    a ∈ Holding.actsOn id (w.map LocalRead.op) ↔ ∃ r ∈ w, r.localId = id ∧ r.op.act = a := by
  simp only [Holding.actsOn, List.mem_map, List.mem_filter, decide_eq_true_eq]
  constructor
  · rintro ⟨_, ⟨⟨r, hr, rfl⟩, hid⟩, rfl⟩
    exact ⟨r, hr, (LocalRead.op_key r).symm.trans hid, rfl⟩
  · rintro ⟨r, hr, hid, rfl⟩
    exact ⟨r.op, ⟨⟨r, hr, rfl⟩, (LocalRead.op_key r).trans hid⟩, rfl⟩

section Mentions

variable {refcounted : LocalId → Bool} {id : LocalId} {consumed : Bool} {w : List LocalRead}

/-- What is not mentioned is not read. -/
theorem actsOn_reads_eq_nil {e : Expr} (h : countLocalMentionsExpr e id = 0)
    (hw : w ∈ evaluations refcounted e consumed) : Holding.actsOn id (w.map LocalRead.op) = [] := by
  refine List.eq_nil_iff_forall_not_mem.mpr fun a ha => ?_
  obtain ⟨r, hr, hid, -⟩ := mem_actsOn_reads.mp ha
  have hcount : (walkExpr refcounted e consumed).countP _ ≤ _ := countP_walkExpr_le id e consumed
  have hpos : 0 < (walkExpr refcounted e consumed).countP (·.localId = id) :=
    List.countP_pos_iff.mpr ⟨r, evaluations_within e consumed w hw hr, by simpa using hid⟩
  omega

theorem actsOn_reads_all_eq_nil {es : List Expr} (h : ∀ e ∈ es, countLocalMentionsExpr e id = 0)
    (hw : w ∈ evaluationsAll refcounted es consumed) : Holding.actsOn id (w.map LocalRead.op) = [] := by
  induction es generalizing w with
  | nil =>
    rw [(Language.mem_one w).mp hw]
    rfl
  | cons e es ih =>
    obtain ⟨a, ha, b, hb, rfl⟩ := Language.mem_mul.mp hw
    rw [List.map_append, Holding.actsOn_append,
      actsOn_reads_eq_nil (h e List.mem_cons_self) ha, ih (fun e he => h e (List.mem_cons_of_mem _ he)) hb,
      List.append_nil]

/-- What is mentioned once is read in one way, however often a retry reads it. -/
theorem reads_alike {e : Expr} (h : countLocalMentionsExpr e id = 1)
    (hw : w ∈ evaluations refcounted e consumed) :
    (∀ a ∈ Holding.actsOn id (w.map LocalRead.op), a = .take) ∨
      ∀ a ∈ Holding.actsOn id (w.map LocalRead.op), a = .look := by
  have hcount : (walkExpr refcounted e consumed).countP _ ≤ _ := countP_walkExpr_le id e consumed
  rw [h, List.countP_eq_length_filter] at hcount
  have hmem (a) (ha : a ∈ Holding.actsOn id (w.map LocalRead.op)) :
      ∃ r ∈ (walkExpr refcounted e consumed).filter (·.localId = id), r.op.act = a := by
    obtain ⟨r, hr, hid, hact⟩ := mem_actsOn_reads.mp ha
    exact ⟨r, List.mem_filter.mpr ⟨evaluations_within e consumed w hw hr, by simpa using hid⟩, hact⟩
  cases hreads : (walkExpr refcounted e consumed).filter (·.localId = id) with
  | nil =>
    left
    intro a ha
    obtain ⟨r, hr, -⟩ := hmem a ha
    rw [hreads] at hr
    cases hr
  | cons r rs =>
    have hrs : rs = [] := by
      rw [hreads, List.length_cons] at hcount
      exact List.length_eq_zero_iff.mp (by omega)
    have hone (a) (ha : a ∈ Holding.actsOn id (w.map LocalRead.op)) : a = r.op.act := by
      obtain ⟨r', hr', hact⟩ := hmem a ha
      rw [hreads, hrs, List.mem_singleton] at hr'
      rw [← hact, hr']
    cases hkind : r.kind with
    | owned => exact .inl fun a ha => (hone a ha).trans (by rw [LocalRead.op, hkind])
    | borrowed => exact .inr fun a ha => (hone a ha).trans (by rw [LocalRead.op, hkind])

end Mentions

/-! ### Runs of blocks -/

section Blocks

variable {refcounted : LocalId → Bool}

theorem reading_nonempty {evals : Language LocalRead} (h : ∃ w, w ∈ evals) (after : List (Op LocalId))
    (x : Holding.Exit) : (reading evals after x).Nonempty := by
  obtain ⟨w, hw⟩ := h
  exact ⟨(w.map LocalRead.op ++ after, x), ⟨w, hw, rfl⟩, rfl⟩

mutual

theorem stmtRuns_nonempty : (s : Stmt) → (stmtRuns refcounted s).Nonempty
  | .letStmt _ _ value => reading_nonempty (evaluations_nonempty value true) _ _
  | .returnStmt (some value) => reading_nonempty (evaluations_nonempty value true) _ _
  | .returnStmt none => reading_nonempty one_nonempty _ _
  | .yieldStmt value _ => reading_nonempty (evaluations_nonempty value true) _ _
  | .ifStmt cond thenBlock _ =>
    Holding.seq_nonempty (reading_nonempty (evaluations_nonempty cond false) _ _)
      ((blockRuns_nonempty thenBlock).mono Set.subset_union_left)
  | .forStmt _ iter _ _ =>
    Holding.seq_nonempty (reading_nonempty (evaluations_nonempty iter false) _ _) ⟨([], .normal), .done⟩
  | .approve _ args _ => reading_nonempty (evaluationsAll_nonempty args false) _ _
  | .expr e => reading_nonempty (evaluations_nonempty e true) _ _
  | .breakStmt => reading_nonempty one_nonempty _ _
  | .continueStmt => reading_nonempty one_nonempty _ _
  | .pass => Set.singleton_nonempty _
  | .dup _ => Set.singleton_nonempty _
  | .drop _ => Set.singleton_nonempty _

theorem blockRuns_nonempty : (ss : Block) → (blockRuns refcounted ss).Nonempty
  | [] => Set.singleton_nonempty _
  | s :: ss => Holding.seq_nonempty (stmtRuns_nonempty s) (blockRuns_nonempty ss)

end

theorem blockRuns_append (ss ss' : Block) :
    blockRuns refcounted (ss ++ ss') = seq (blockRuns refcounted ss) (blockRuns refcounted ss') := by
  induction ss with
  | nil => rw [blockRuns, Holding.once_nil_seq, List.nil_append]
  | cons s ss ih => rw [List.cons_append, blockRuns, blockRuns, ih, Holding.seq_assoc]

/-- Blocks whose statements go on go on. -/
theorem blockRuns_normal {P : List (Op LocalId) → Prop} (hnil : P [])
    (happend : ∀ t u, P t → P u → P (t ++ u)) {ss : Block}
    (h : ∀ s ∈ ss, ∀ p ∈ stmtRuns refcounted s, p.2 = .normal ∧ P p.1) :
    ∀ p ∈ blockRuns refcounted ss, p.2 = .normal ∧ P p.1 := by
  induction ss with
  | nil =>
    rintro p rfl
    exact ⟨rfl, hnil⟩
  | cons s ss ih =>
    have hs := h s List.mem_cons_self
    rintro ⟨v, x⟩ hp
    obtain ⟨t, u, ht, hu, rfl⟩ := (Holding.mem_seq_of_normal fun p hp => (hs p hp).1).mp hp
    have hss := ih (fun s hs => h s (List.mem_cons_of_mem _ hs)) _ hu
    exact ⟨hss.1, happend t u (hs _ ht).2 hss.2⟩

end Blocks

end Corvid.Codegen
