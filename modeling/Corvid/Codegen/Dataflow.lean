import Corvid.Interp.Ir
import Corvid.Lib.Equations
import Mathlib.Data.Fintype.Basic
import Mathlib.Data.Set.Lattice

/-!
# Liveness

The ownership analysis of the native tier needs to know, for the start and the end of every block of
the control-flow graph, which locals are still read before they are defined again. It computes these
sets from the blocks with a queue of the blocks to look at again.

## Main definitions

* `Cfg`: the control-flow graph
* `blockUseDef`: the locals that a block reads first, and those that it defines
* `computeLiveness`: the sets at the start and the end of every block

## Main results

* `computeLiveness_correct`: the queue runs empty, and the sets are the least solution of the equations
  of liveness; a local is in the set at a start just when a path from there reads it before a definition
-/

namespace Corvid.Codegen

open Interp (LocalId Ty)

inductive ReadKind where
  | owned
  | borrowed
deriving DecidableEq, Repr

structure LocalRead where
  localId : LocalId
  kind : ReadKind
deriving DecidableEq, Repr

inductive CfgStmt where
  | letStmt (lhs : LocalId) (lhsTy : Ty) (reads : List LocalRead)
  | expr (reads : List LocalRead)
  | returnStmt (reads : List LocalRead)
  | branch (reads : List LocalRead)
  | loopHead (var : LocalId) (varTy : Ty) (reads : List LocalRead)
  | other (reads : List LocalRead)
deriving DecidableEq, Repr

/-- A block of a graph with `n` blocks. -/
structure CfgBlock (n : ℕ) where
  stmts : List CfgStmt
  successors : List (Fin n)

structure Cfg where
  size : ℕ
  blocks : Fin size → CfgBlock size

abbrev Cfg.BlockId (cfg : Cfg) := Fin cfg.size

def stmtReads : CfgStmt → List LocalRead
  | .letStmt _ _ reads | .expr reads | .returnStmt reads | .branch reads | .loopHead _ _ reads
  | .other reads => reads

def stmtDef : CfgStmt → Option LocalId
  | .letStmt lhs _ _ => some lhs
  | .loopHead var _ _ => some var
  | _ => none

/-- One statement more: what it reads counts unless the block has defined it before. -/
def stmtUseDef (sets : Finset LocalId × Finset LocalId) (stmt : CfgStmt) :
    Finset LocalId × Finset LocalId :=
  let uses := (stmtReads stmt).foldl
    (fun uses r => if r.localId ∉ sets.2 then insert r.localId uses else uses) sets.1
  match stmtDef stmt with
  | some d => (uses, insert d sets.2)
  | none => (uses, sets.2)

/-- The locals with a use before any definition in the block, and those with a definition in it. -/
def blockUseDef {n : ℕ} (blk : CfgBlock n) : Finset LocalId × Finset LocalId :=
  blk.stmts.foldl stmtUseDef (∅, ∅)

variable (cfg : Cfg)

def uses (b : cfg.BlockId) : Finset LocalId := (blockUseDef (cfg.blocks b)).1

def defs (b : cfg.BlockId) : Finset LocalId := (blockUseDef (cfg.blocks b)).2

/-- What a block is evaluated to, the sets at its start and at its end, and the blocks that lead to
it. -/
def livenessEquations : Equations cfg.BlockId (Finset LocalId × Finset LocalId) where
  eval b live :=
    let newOut := (cfg.blocks b).successors.foldl (fun out s => out ∪ (live s).1) ∅
    let newIn := uses cfg b ∪ newOut.filter (· ∉ defs cfg b)
    (newIn, newOut)
  readers b := (List.finRange cfg.size).filter fun pb => b ∈ (cfg.blocks pb).successors

structure Liveness (n : ℕ) where
  liveIn : Fin n → Finset LocalId
  liveOut : Fin n → Finset LocalId

def usedLocals : Finset LocalId := Finset.univ.biUnion (uses cfg)

/-- The number of locals in the sets of a block, which bounds how often they can change. -/
def liveCount (live : Finset LocalId × Finset LocalId) : ℕ := live.1.card + live.2.card

/-- The sets at the start and the end of every block. -/
def liveSets : cfg.BlockId → Finset LocalId × Finset LocalId :=
  (livenessEquations cfg).solve liveCount (fun _ => (usedLocals cfg, usedLocals cfg))
    (List.finRange cfg.size)

def computeLiveness : Liveness cfg.size where
  liveIn b := (liveSets cfg b).1
  liveOut b := (liveSets cfg b).2

/-! ### What liveness means -/

/-- The statements read the local before any of them defines it. -/
def ReadsFirst (l : LocalId) (stmts : List CfgStmt) : Prop :=
  ∃ before stmt after, stmts = before ++ stmt :: after ∧ (∃ r ∈ stmtReads stmt, r.localId = l) ∧
    ∀ s ∈ before, stmtDef s ≠ some l

/-- A path along the edges of the graph. -/
def Cfg.IsPath (path : List cfg.BlockId) : Prop :=
  path.IsChain fun b s => s ∈ (cfg.blocks b).successors

/-- The statements along a path. -/
def Cfg.pathStmts (path : List cfg.BlockId) : List CfgStmt :=
  path.flatMap fun b => (cfg.blocks b).stmts

/-- A path from the block reads the local before it defines it. -/
def Cfg.ReadsFrom (b : cfg.BlockId) (l : LocalId) : Prop :=
  ∃ path, cfg.IsPath (b :: path) ∧ ReadsFirst l (cfg.pathStmts (b :: path))

/-- The equations of liveness. -/
structure Cfg.Solution (liveIn liveOut : cfg.BlockId → Set LocalId) : Prop where
  liveOut_eq : ∀ b, liveOut b = ⋃ s ∈ (cfg.blocks b).successors, liveIn s
  liveIn_eq : ∀ b, liveIn b = (uses cfg b : Set LocalId) ∪ (liveOut b \ (defs cfg b : Set LocalId))

/-- The queue has run empty, with these sets as the last ones. -/
def Cfg.Ends (live : cfg.BlockId → Finset LocalId × Finset LocalId) : Prop :=
  Loop.Steps (livenessEquations cfg).step ⟨fun _ => ⊥, List.finRange cfg.size⟩ ⟨live, []⟩

variable {cfg} {b s : cfg.BlockId} {l : LocalId} {stmt : CfgStmt} {stmts stmts' : List CfgStmt}

/-! ### Blocks -/

@[simp] theorem not_readsFirst_nil : ¬ ReadsFirst l [] := by
  simp [ReadsFirst]

theorem readsFirst_cons : ReadsFirst l (stmt :: stmts) ↔
    (∃ r ∈ stmtReads stmt, r.localId = l) ∨ stmtDef stmt ≠ some l ∧ ReadsFirst l stmts := by
  constructor
  · rintro ⟨before, s, after, heq, hread, hdef⟩
    cases before with
    | nil =>
      obtain ⟨rfl, rfl⟩ := List.cons.inj heq
      exact .inl hread
    | cons t before =>
      obtain ⟨rfl, rfl⟩ := List.cons.inj heq
      rw [List.forall_mem_cons] at hdef
      exact .inr ⟨hdef.1, before, s, after, rfl, hread, hdef.2⟩
  · rintro (hread | ⟨hdef, before, s, after, rfl, hread, hbefore⟩)
    · exact ⟨[], stmt, stmts, rfl, hread, by simp⟩
    · exact ⟨stmt :: before, s, after, rfl, hread, List.forall_mem_cons.mpr ⟨hdef, hbefore⟩⟩

theorem readsFirst_append : ReadsFirst l (stmts ++ stmts') ↔
    ReadsFirst l stmts ∨ (∀ s ∈ stmts, stmtDef s ≠ some l) ∧ ReadsFirst l stmts' := by
  induction stmts with
  | nil => simp
  | cons stmt stmts ih =>
    rw [List.cons_append, readsFirst_cons, readsFirst_cons, ih, List.forall_mem_cons]
    by_cases hdef : stmtDef stmt = some l <;> simp [hdef, or_assoc]

theorem mem_foldl_insert {sets : Finset LocalId × Finset LocalId} {uses : Finset LocalId}
    {reads : List LocalRead} :
    l ∈ reads.foldl
        (fun uses r => if r.localId ∉ sets.2 then insert r.localId uses else uses) uses ↔
      l ∈ uses ∨ l ∉ sets.2 ∧ ∃ r ∈ reads, r.localId = l := by
  induction reads generalizing uses with
  | nil => simp
  | cons r reads ih =>
    rw [List.foldl_cons, ih]
    by_cases hr : r.localId ∈ sets.2
    · rw [if_neg (not_not.mpr hr)]
      grind
    · rw [if_pos hr]
      grind

theorem stmtUseDef_snd {sets : Finset LocalId × Finset LocalId} :
    l ∈ (stmtUseDef sets stmt).2 ↔ l ∈ sets.2 ∨ stmtDef stmt = some l := by
  unfold stmtUseDef
  cases stmtDef stmt with
  | none => simp
  | some d => simp [or_comm, eq_comm]

theorem stmtUseDef_fst {sets : Finset LocalId × Finset LocalId} :
    l ∈ (stmtUseDef sets stmt).1 ↔
      l ∈ sets.1 ∨ l ∉ sets.2 ∧ ∃ r ∈ stmtReads stmt, r.localId = l := by
  unfold stmtUseDef
  cases stmtDef stmt <;> exact mem_foldl_insert

theorem foldl_stmtUseDef {sets : Finset LocalId × Finset LocalId} :
    (l ∈ (stmts.foldl stmtUseDef sets).1 ↔ l ∈ sets.1 ∨ l ∉ sets.2 ∧ ReadsFirst l stmts) ∧
      (l ∈ (stmts.foldl stmtUseDef sets).2 ↔ l ∈ sets.2 ∨ ∃ s ∈ stmts, stmtDef s = some l) := by
  induction stmts generalizing sets with
  | nil => simp
  | cons stmt stmts ih =>
    rw [List.foldl_cons, ih.1, ih.2, stmtUseDef_fst, stmtUseDef_snd, readsFirst_cons,
      List.exists_mem_cons_iff]
    by_cases hdef : stmtDef stmt = some l <;> by_cases hl : l ∈ sets.2 <;> simp [hdef, hl, or_assoc]

theorem mem_uses : l ∈ uses cfg b ↔ ReadsFirst l (cfg.blocks b).stmts := by
  rw [uses, blockUseDef, foldl_stmtUseDef.1]
  simp

theorem mem_defs : l ∈ defs cfg b ↔ ∃ s ∈ (cfg.blocks b).stmts, stmtDef s = some l := by
  rw [defs, blockUseDef, foldl_stmtUseDef.2]
  simp

/-! ### The equations -/

theorem mem_foldl_union {α : Type*} {f : α → Finset LocalId} {ss : List α} {out : Finset LocalId} :
    l ∈ ss.foldl (fun out s => out ∪ f s) out ↔ l ∈ out ∨ ∃ s ∈ ss, l ∈ f s := by
  induction ss generalizing out with
  | nil => simp
  | cons s ss ih => simp [ih, or_assoc]

variable {live live' : cfg.BlockId → Finset LocalId × Finset LocalId}

theorem mem_eval_snd :
    l ∈ ((livenessEquations cfg).eval b live).2 ↔ ∃ s ∈ (cfg.blocks b).successors, l ∈ (live s).1 := by
  simp [livenessEquations, mem_foldl_union]

theorem mem_eval_fst : l ∈ ((livenessEquations cfg).eval b live).1 ↔
    l ∈ uses cfg b ∨ l ∈ ((livenessEquations cfg).eval b live).2 ∧ l ∉ defs cfg b := by
  simp [livenessEquations]

theorem eval_congr (h : ∀ s ∈ (cfg.blocks b).successors, live s = live' s) :
    (livenessEquations cfg).eval b live = (livenessEquations cfg).eval b live' := by
  have hout : ((livenessEquations cfg).eval b live).2 = ((livenessEquations cfg).eval b live').2 := by
    ext l
    rw [mem_eval_snd, mem_eval_snd]
    exact exists_congr fun s => and_congr_right fun hs => by rw [h s hs]
  refine Prod.ext ?_ hout
  ext l
  rw [mem_eval_fst, mem_eval_fst, hout]

theorem eval_mono (b : cfg.BlockId) : Monotone ((livenessEquations cfg).eval b) := by
  intro live live' hle
  have hout : ((livenessEquations cfg).eval b live).2 ⊆ ((livenessEquations cfg).eval b live').2 := by
    intro l hl
    obtain ⟨s, hs, hl⟩ := mem_eval_snd.mp hl
    exact mem_eval_snd.mpr ⟨s, hs, (hle s).1 hl⟩
  refine ⟨fun l hl => ?_, hout⟩
  rcases mem_eval_fst.mp hl with huse | ⟨hl, hdef⟩
  · exact mem_eval_fst.mpr (.inl huse)
  · exact mem_eval_fst.mpr (.inr ⟨hout hl, hdef⟩)

theorem liveCount_strictMono : StrictMono liveCount := by
  intro live live' hlt
  have hle := hlt.le
  have hfst := Finset.card_le_card hle.1
  have hsnd := Finset.card_le_card hle.2
  rcases Prod.lt_iff.mp hlt with ⟨h, -⟩ | ⟨-, h⟩
  · have := Finset.card_lt_card h
    simp only [liveCount]
    omega
  · have := Finset.card_lt_card h
    simp only [liveCount]
    omega

variable (cfg)

theorem livenessEquations_lawful :
    (livenessEquations cfg).Lawful liveCount fun _ => (usedLocals cfg, usedLocals cfg) where
  monotone := eval_mono
  reads b c live x hc := by
    refine eval_congr fun s hs => ?_
    have hne : s ≠ b := by
      rintro rfl
      exact hc (by simpa [livenessEquations] using hs)
    exact Function.update_of_ne hne x live
  rank := liveCount_strictMono
  top b := by
    have hout : ((livenessEquations cfg).eval b fun _ => (usedLocals cfg, usedLocals cfg)).2 ⊆
        usedLocals cfg := by
      intro l hl
      obtain ⟨-, -, hl⟩ := mem_eval_snd.mp hl
      exact hl
    refine ⟨fun l hl => ?_, hout⟩
    rcases mem_eval_fst.mp hl with huse | ⟨hl, -⟩
    · exact Finset.mem_biUnion.mpr ⟨b, Finset.mem_univ b, huse⟩
    · exact hout hl

theorem eval_liveSets (b : cfg.BlockId) :
    (livenessEquations cfg).eval b (liveSets cfg) = liveSets cfg b :=
  Equations.eval_solve (livenessEquations_lawful cfg) List.mem_finRange b

theorem computeLiveness_solution :
    cfg.Solution (fun b => (computeLiveness cfg).liveIn b) fun b => (computeLiveness cfg).liveOut b where
  liveOut_eq b := by
    ext l
    simp only [computeLiveness, SetLike.mem_coe, Set.mem_iUnion, exists_prop]
    rw [← eval_liveSets cfg b, mem_eval_snd]
  liveIn_eq b := by
    ext l
    simp only [computeLiveness, SetLike.mem_coe, Set.mem_union, Set.mem_sdiff]
    conv_lhs => rw [← eval_liveSets cfg b, mem_eval_fst, eval_liveSets cfg b]

theorem computeLiveness_ends :
    cfg.Ends fun b => ((computeLiveness cfg).liveIn b, (computeLiveness cfg).liveOut b) :=
  Equations.steps_solve (livenessEquations_lawful cfg) List.mem_finRange

variable {cfg}

/-- Any solution contains the computed sets. -/
theorem computeLiveness_least {liveIn liveOut : cfg.BlockId → Set LocalId}
    (h : cfg.Solution liveIn liveOut) (b : cfg.BlockId) :
    ((computeLiveness cfg).liveIn b : Set LocalId) ⊆ liveIn b ∧
      ((computeLiveness cfg).liveOut b : Set LocalId) ⊆ liveOut b := by
  refine Equations.solve_closed (e := livenessEquations cfg)
    (P := fun b live => (live.1 : Set LocalId) ⊆ liveIn b ∧ (live.2 : Set LocalId) ⊆ liveOut b)
    (fun live hlive b => ?_) (by simp) b
  have hout : (((livenessEquations cfg).eval b live).2 : Set LocalId) ⊆ liveOut b := by
    intro l hl
    obtain ⟨s, hs, hl⟩ := mem_eval_snd.mp hl
    rw [h.liveOut_eq]
    exact Set.mem_biUnion hs ((hlive s).1 hl)
  refine ⟨fun l hl => ?_, hout⟩
  rw [h.liveIn_eq]
  rcases mem_eval_fst.mp hl with huse | ⟨hl, hdef⟩
  · exact .inl huse
  · exact .inr ⟨hout hl, hdef⟩

/-! ### Paths -/

theorem mem_liveIn : l ∈ (computeLiveness cfg).liveIn b ↔ ReadsFirst l (cfg.blocks b).stmts ∨
    (∀ stmt ∈ (cfg.blocks b).stmts, stmtDef stmt ≠ some l) ∧
      ∃ s ∈ (cfg.blocks b).successors, l ∈ (computeLiveness cfg).liveIn s := by
  have hin := congrArg (l ∈ ·) ((computeLiveness_solution cfg).liveIn_eq b)
  have hout := congrArg (l ∈ ·) ((computeLiveness_solution cfg).liveOut_eq b)
  simp only [SetLike.mem_coe, Set.mem_union, Set.mem_sdiff, Set.mem_iUnion, exists_prop, eq_iff_iff,
    mem_uses, mem_defs, not_exists, not_and] at hin hout
  rw [hin, hout, and_comm]

theorem readsFrom_iff : cfg.ReadsFrom b l ↔ ReadsFirst l (cfg.blocks b).stmts ∨
    (∀ stmt ∈ (cfg.blocks b).stmts, stmtDef stmt ≠ some l) ∧
      ∃ s ∈ (cfg.blocks b).successors, cfg.ReadsFrom s l := by
  constructor
  · rintro ⟨path, hpath, hreads⟩
    rw [Cfg.pathStmts, List.flatMap_cons, readsFirst_append] at hreads
    rcases hreads with hreads | ⟨hdef, hreads⟩
    · exact .inl hreads
    · cases path with
      | nil => simp at hreads
      | cons s path =>
        obtain ⟨hs, hpath⟩ := List.isChain_cons_cons.mp hpath
        exact .inr ⟨hdef, s, hs, path, hpath, hreads⟩
  · rintro (hreads | ⟨hdef, s, hs, path, hpath, hreads⟩)
    · refine ⟨[], List.isChain_singleton b, ?_⟩
      simpa [Cfg.pathStmts] using hreads
    · refine ⟨s :: path, List.isChain_cons_cons.mpr ⟨hs, hpath⟩, ?_⟩
      rw [Cfg.pathStmts, List.flatMap_cons, readsFirst_append]
      exact .inr ⟨hdef, hreads⟩

theorem mem_liveIn_of_reads {path : List cfg.BlockId} (hpath : cfg.IsPath (b :: path))
    (hreads : ReadsFirst l (cfg.pathStmts (b :: path))) : l ∈ (computeLiveness cfg).liveIn b := by
  induction path generalizing b with
  | nil =>
    refine mem_liveIn.mpr (.inl ?_)
    simpa [Cfg.pathStmts] using hreads
  | cons s path ih =>
    obtain ⟨hs, hpath⟩ := List.isChain_cons_cons.mp hpath
    rw [Cfg.pathStmts, List.flatMap_cons, readsFirst_append] at hreads
    rcases hreads with hreads | ⟨hdef, hreads⟩
    · exact mem_liveIn.mpr (.inl hreads)
    · exact mem_liveIn.mpr (.inr ⟨hdef, s, hs, ih hpath hreads⟩)

/-- The locals that are read from a block on solve the equations themselves. -/
theorem solution_readsFrom : cfg.Solution (fun b => {l | cfg.ReadsFrom b l})
    fun b => ⋃ s ∈ (cfg.blocks b).successors, {l | cfg.ReadsFrom s l} where
  liveOut_eq _ := rfl
  liveIn_eq b := by
    ext l
    rw [Set.mem_ofPred_eq, readsFrom_iff, and_comm]
    simp only [Set.mem_union, Set.mem_sdiff, SetLike.mem_coe, Set.mem_iUnion, exists_prop, mem_uses,
      mem_defs, not_exists, not_and, Set.mem_ofPred_eq]

/-- A local is in the set at the start of a block just when a path from there reads it before a
definition. -/
theorem mem_liveIn_iff_readsFrom : l ∈ (computeLiveness cfg).liveIn b ↔ cfg.ReadsFrom b l := by
  constructor
  · intro hl
    exact (computeLiveness_least solution_readsFrom b).1 hl
  · rintro ⟨path, hpath, hreads⟩
    exact mem_liveIn_of_reads hpath hreads

/-- The queue runs empty, whatever edges the graph has, and leaves the least sets that solve the
equations of liveness: those of the locals that some path reads before it defines them. -/
theorem computeLiveness_correct (cfg : Cfg) :
    cfg.Ends (fun b => ((computeLiveness cfg).liveIn b, (computeLiveness cfg).liveOut b)) ∧
    cfg.Solution (fun b => (computeLiveness cfg).liveIn b)
      (fun b => (computeLiveness cfg).liveOut b) ∧
    (∀ liveIn liveOut : cfg.BlockId → Set LocalId, cfg.Solution liveIn liveOut → ∀ b,
      ((computeLiveness cfg).liveIn b : Set LocalId) ⊆ liveIn b ∧
        ((computeLiveness cfg).liveOut b : Set LocalId) ⊆ liveOut b) ∧
    ∀ b l, l ∈ (computeLiveness cfg).liveIn b ↔ cfg.ReadsFrom b l :=
  ⟨computeLiveness_ends cfg, computeLiveness_solution cfg,
    fun _ _ => computeLiveness_least, fun _ _ => mem_liveIn_iff_readsFrom⟩

end Corvid.Codegen
