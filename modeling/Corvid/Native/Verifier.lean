import Corvid.Native.Collector

/-!
# The verifier of the collector

Between marking and sweeping, a collection may count the references to every block that it finds, and
report the blocks whose own count is different. The counts are kept in the tracking nodes of the
blocks, which static literals do not have.

## Main definitions

* `Scratch`, `Pass`: the counts of a verification
* `Heap.gcVerify`: the verification of a marked heap
* `Heap.gcFromRootsWithVerify`, `Heap.gcWithVerify`: the collections that call it

## Main results

* `Walking.walk`: what a walk has counted when it ends
-/

namespace Corvid.Native

/-- The part of a tracking node that belongs to the verifier. -/
structure Scratch where
  verifyEpoch : Word
  /-- the lower 63 bits of `verify_expected_tagged`, which count slots of eight bytes -/
  expected : ℕ
  /-- `CORVID_VERIFY_VISITED_BIT` -/
  visited : Bool

namespace Scratch

/-- The count, if it is of this epoch. -/
def expectedIn (epoch : Word) (n : Scratch) : ℕ := if n.verifyEpoch = epoch then n.expected else 0

def visitedIn (epoch : Word) (n : Scratch) : Bool := decide (n.verifyEpoch = epoch) && n.visited

/-- `corvid_verify_prepare_node` -/
def prepare (epoch : Word) (n : Scratch) : Scratch :=
  if n.verifyEpoch = epoch then n else ⟨epoch, 0, false⟩

variable {epoch : Word} {n : Scratch}

theorem epoch_prepare : (n.prepare epoch).verifyEpoch = epoch := by
  unfold prepare
  split
  next h => exact h
  next => rfl

theorem expected_prepare : (n.prepare epoch).expected = n.expectedIn epoch := by
  unfold prepare expectedIn
  split <;> rfl

theorem visited_prepare : (n.prepare epoch).visited = n.visitedIn epoch := by
  unfold prepare visitedIn
  split
  next h => rw [decide_eq_true h, Bool.true_and]
  next h => rw [decide_eq_false h, Bool.false_and]

end Scratch

/-- `corvid_gc_verify_mode` -/
inductive VerifyMode where
  | off
  | warn
  | abort
deriving DecidableEq, Repr

structure Verifier where
  mode : VerifyMode
  /-- `corvid_verify_epoch` -/
  epoch : Word
  /-- the memory in front of the headers, whether it is a tracking node or not -/
  scratch : Addr → Scratch

/-- A verification under way, with the payloads in front of which it has read or written. -/
structure Pass where
  scratch : Addr → Scratch
  touched : List Addr

inductive DriftKind where
  /-- `under-count (missing retain; UAF risk)` -/
  | underCount
  /-- `over-count (missing release; leak)` -/
  | overCount
deriving DecidableEq, Repr

/-- What `corvid_verify_report` prints. -/
structure Drift where
  block : Addr
  expected : ℕ
  actual : ℕ
  kind : DriftKind
deriving DecidableEq, Repr

structure Verdict where
  verifier : Verifier
  touched : List Addr
  reports : List Drift
  /-- the process has ended -/
  aborted : Bool

namespace Pass

variable (epoch : Word) (x : Addr) (s : Pass)

/-- Writes the scratch of one node. -/
def put (n : Scratch) : Pass := ⟨Function.update s.scratch x n, x :: s.touched⟩

/-- `corvid_verify_bump_expected` -/
def bumpExpected : Pass :=
  let n := (s.scratch x).prepare epoch
  s.put x { n with expected := n.expected + 1 }

/-- `corvid_verify_mark_visited`: whether the node was not visited before. -/
def markVisited : Bool × Pass :=
  let n := (s.scratch x).prepare epoch
  if n.visited then (false, s.put x n) else (true, s.put x { n with visited := true })

/-- `corvid_verify_expected` -/
def expected : ℕ := (s.scratch x).expectedIn epoch

def visited : Bool := (s.scratch x).visitedIn epoch

end Pass

namespace Heap

/-- `corvid_verify_marker`, which calls itself for what a block refers to. -/
def verifyMarker (h : Heap) (epoch : Word) : Pass × List Addr → Option (Pass × List Addr)
  | (_, []) => none
  | (s, x :: stack) =>
    if x = 0 then some (s, stack)
    else
      let (first, s) := (s.bumpExpected epoch x).markVisited epoch x
      if !first then some (s, stack)
      else match h.blocks x with
        | none => some (s, stack)
        | some b => if b.isImmortal then some (s, stack) else some (s, b.trace ++ stack)

/-- The blocks that a verification has visited. -/
def visitedBlocks (h : Heap) (epoch : Word) (s : Pass) (x : Addr) : Bool :=
  h.isCounted x && s.visited epoch x

def verifyPotential (h : Heap) (epoch : Word) (s : Pass × List Addr) : ℕ :=
  Mark.potential h.refs h.live (h.visitedBlocks epoch s.1, s.2)

/-- The calls of `corvid_verify_marker` for some slots. -/
def verifyWalk (h : Heap) (epoch : Word) (slots : List Addr) (s : Pass) : Pass :=
  (Loop.exhaust (h.verifyMarker epoch) (h.verifyPotential epoch) (s, slots)).1

/-- A block of the live list, when no roots are given. -/
def verifyBlock (h : Heap) (epoch : Word) (s : Pass) (x : Addr) : Pass :=
  match h.blocks x with
  | none => s
  | some b =>
    if b.isImmortal then s
    else if !Word.isMarked b.refcountWord then s
    else
      let (first, s) := s.markVisited epoch x
      if !first then s else h.verifyWalk epoch b.trace (s.bumpExpected epoch x)

/-- The check of a block at the end. -/
def verifyDrift (h : Heap) (epoch : Word) (s : Pass) (x : Addr) : Option Drift :=
  match h.blocks x with
  | none => none
  | some b =>
    if b.isImmortal then none
    else
      let expected := s.expected epoch x
      if expected = 0 then none
      else
        let actual := Word.rc b.refcountWord
        if actual = expected then none
        else some ⟨x, expected, actual, if actual < expected then .underCount else .overCount⟩

/-- The epoch of a new verification. When the counter wraps, the nodes of all blocks are reset. -/
def nextEpoch (h : Heap) (v : Verifier) : Word × Pass :=
  if v.epoch + 1 = 0 then
    (1, ⟨fun x => if x ∈ h.live then ⟨0, 0, false⟩ else v.scratch x, h.live⟩)
  else (v.epoch + 1, ⟨v.scratch, []⟩)

/-- `corvid_gc_verify` -/
def gcVerify (roots : List Addr) (h : Heap) (v : Verifier) : Verdict :=
  if v.mode = .off then ⟨v, [], [], false⟩
  else
    let (epoch, s) := h.nextEpoch v
    let s := h.verifyWalk epoch roots s
    let s := if roots.isEmpty then h.live.foldl (h.verifyBlock epoch) s else s
    let reports := h.live.filterMap (h.verifyDrift epoch s)
    { verifier := { v with epoch := epoch, scratch := s.scratch }
      touched := h.live.filter h.isCounted ++ s.touched
      reports := reports
      aborted := decide (v.mode = .abort) && !reports.isEmpty }

/-- A collection that gives its verifier some of its roots. -/
def collect (given roots : List Addr) (h : Heap) (v : Verifier) : Heap × Verdict :=
  let h := h.gcMark roots
  let verdict := h.gcVerify given v
  (if verdict.aborted then h else h.gcSweep, verdict)

/-- `corvid_gc_from_roots` -/
def gcFromRootsWithVerify (roots : List Addr) (h : Heap) (v : Verifier) : Heap × Verdict :=
  h.collect roots roots v

/-- `corvid_gc`, whose roots are the slots of the stack maps. -/
def gcWithVerify (roots : List Addr) (h : Heap) (v : Verifier) : Heap × Verdict :=
  h.collect [] roots v

/-- Without verification a collection is what it was, and with it the heap is no other, unless the
process ends. -/
theorem collect_fst {given roots : List Addr} {h : Heap} {v : Verifier}
    (hrun : (h.collect given roots v).2.aborted = false) :
    (h.collect given roots v).1 = h.gcFromRoots roots := by
  unfold collect at hrun ⊢
  dsimp only at hrun ⊢
  rw [hrun, if_neg Bool.false_ne_true]
  rfl

end Heap

/-! ### The scratch of a node -/

namespace Pass

variable {epoch : Word} {x y : Addr} {s : Pass}

theorem expected_put {n : Scratch} :
    (s.put x n).expected epoch y = if y = x then n.expectedIn epoch else s.expected epoch y := by
  rw [expected, put]
  dsimp only
  split
  next hy => rw [hy, Function.update_self]
  next hy => rw [Function.update_of_ne hy, expected]

theorem visited_put {n : Scratch} :
    (s.put x n).visited epoch y = if y = x then n.visitedIn epoch else s.visited epoch y := by
  rw [visited, put]
  dsimp only
  split
  next hy => rw [hy, Function.update_self]
  next hy => rw [Function.update_of_ne hy, visited]

theorem expected_bumpExpected :
    (s.bumpExpected epoch x).expected epoch y = s.expected epoch y + if y = x then 1 else 0 := by
  rw [bumpExpected, expected_put]
  split
  next hy =>
    rw [hy, Scratch.expectedIn, if_pos Scratch.epoch_prepare, Scratch.expected_prepare, expected]
  next => rfl

@[simp]
theorem visited_bumpExpected : (s.bumpExpected epoch x).visited epoch y = s.visited epoch y := by
  rw [bumpExpected, visited_put]
  split
  next hy =>
    rw [hy, Scratch.visitedIn, decide_eq_true Scratch.epoch_prepare, Bool.true_and,
      Scratch.visited_prepare, visited]
  next => rfl

@[simp]
theorem touched_bumpExpected : (s.bumpExpected epoch x).touched = x :: s.touched := rfl

theorem markVisited_eq : s.markVisited epoch x =
    (!s.visited epoch x, s.put x { (s.scratch x).prepare epoch with visited := true }) := by
  unfold markVisited
  dsimp only
  rw [Scratch.visited_prepare, ← visited]
  cases hv : s.visited epoch x with
  | true =>
    rw [if_pos rfl]
    have hn : (s.scratch x).prepare epoch = { (s.scratch x).prepare epoch with visited := true } := by
      rw [← hv, visited, ← Scratch.visited_prepare]
    rw [← hn]
    rfl
  | false =>
    rw [if_neg Bool.false_ne_true]
    rfl

theorem markVisited_fst : (s.markVisited epoch x).1 = !s.visited epoch x := by
  rw [markVisited_eq]

theorem visited_markVisited :
    (s.markVisited epoch x).2.visited epoch y = (s.visited epoch y || decide (y = x)) := by
  rw [markVisited_eq, visited_put]
  split
  next hy => rw [Scratch.visitedIn, decide_eq_true hy, decide_eq_true Scratch.epoch_prepare, Bool.or_true,
      Bool.true_and]
  next hy => rw [decide_eq_false hy, Bool.or_false]

@[simp]
theorem expected_markVisited : (s.markVisited epoch x).2.expected epoch y = s.expected epoch y := by
  rw [markVisited_eq, expected_put]
  split
  next hy =>
    rw [hy, Scratch.expectedIn, if_pos Scratch.epoch_prepare, Scratch.expected_prepare, expected]
  next => rfl

@[simp]
theorem touched_markVisited : (s.markVisited epoch x).2.touched = x :: s.touched := by
  rw [markVisited_eq, put]

end Pass

/-! ### Walks -/

namespace Heap

variable {h : Heap} {epoch : Word} {s s' : Pass} {stack stack' roots : List Addr} {x y : Addr}

/-- A call of the marker counts one reference, and follows a block the first time. -/
theorem verifyMarker_cases (hstep : h.verifyMarker epoch (s, stack) = some (s', stack')) :
    ∃ x rest, stack = x :: rest ∧
      (x = 0 ∧ s' = s ∧ stack' = rest ∨
        x ≠ 0 ∧ (∀ y, s'.expected epoch y = s.expected epoch y + if y = x then 1 else 0) ∧
          (∀ y, s'.visited epoch y = (s.visited epoch y || decide (y = x))) ∧
          (∀ y, y ∈ s'.touched ↔ y = x ∨ y ∈ s.touched) ∧
          stack' = (if h.isCounted x && !s.visited epoch x then h.refs x else []) ++ rest) := by
  cases stack with
  | nil => cases hstep
  | cons x rest =>
    refine ⟨x, rest, rfl, ?_⟩
    by_cases hx : x = 0
    · rw [verifyMarker, if_pos hx] at hstep
      cases hstep
      exact .inl ⟨hx, rfl, rfl⟩
    rw [verifyMarker, if_neg hx] at hstep
    dsimp only at hstep
    rw [Pass.markVisited_fst, Pass.visited_bumpExpected, Bool.not_not] at hstep
    -- all branches leave the same pass, and differ in what they put on the stack
    have hs : s' = ((s.bumpExpected epoch x).markVisited epoch x).2 ∧
        stack' = (if h.isCounted x && !s.visited epoch x then h.refs x else []) ++ rest := by
      cases hv : s.visited epoch x with
      | true =>
        rw [hv, if_pos rfl] at hstep
        cases hstep
        exact ⟨rfl, by rw [Bool.not_true, Bool.and_false]; rfl⟩
      | false =>
        rw [hv, if_neg Bool.false_ne_true] at hstep
        cases hb : h.blocks x with
        | none =>
          rw [hb] at hstep
          cases hstep
          exact ⟨rfl, by rw [isCounted, hb]; rfl⟩
        | some b =>
          rw [hb] at hstep
          dsimp only at hstep
          rw [isCounted_of_block hb, refs, hb]
          cases himm : b.isImmortal with
          | true =>
            rw [himm, if_pos rfl] at hstep
            cases hstep
            exact ⟨rfl, rfl⟩
          | false =>
            rw [himm, if_neg Bool.false_ne_true] at hstep
            cases hstep
            exact ⟨rfl, rfl⟩
    obtain ⟨rfl, rfl⟩ := hs
    refine .inr ⟨hx, fun y => ?_, fun y => ?_, fun y => ?_, rfl⟩
    · rw [Pass.expected_markVisited, Pass.expected_bumpExpected]
    · rw [Pass.visited_markVisited, Pass.visited_bumpExpected]
    · rw [Pass.touched_markVisited, Pass.touched_bumpExpected, List.mem_cons, List.mem_cons]
      tauto

theorem visitedBlocks_of_or (hv : ∀ y, s'.visited epoch y = (s.visited epoch y || decide (y = x))) :
    h.visitedBlocks epoch s' = if h.isCounted x && !s.visited epoch x then
      Function.update (h.visitedBlocks epoch s) x true else h.visitedBlocks epoch s := by
  funext y
  rw [visitedBlocks, hv]
  by_cases hy : y = x
  · subst hy
    cases hc : h.isCounted y <;> cases hs : s.visited epoch y <;>
      simp [visitedBlocks, hc, hs]
  · have hold : h.visitedBlocks epoch s y =
        Function.update (h.visitedBlocks epoch s) x true y := (Function.update_of_ne hy _ _).symm
    rw [decide_eq_false hy, Bool.or_false]
    split
    next => exact hold
    next => rfl

/-- What the verifier does with its marks is the traversal of the blocks. -/
theorem verifyMarker_step (hnull : h.blocks 0 = none)
    (hstep : h.verifyMarker epoch (s, stack) = some (s', stack')) :
    Mark.step h.isCounted h.refs (h.visitedBlocks epoch s, stack) =
      some (h.visitedBlocks epoch s', stack') := by
  obtain ⟨x, rest, rfl, ⟨rfl, rfl, rfl⟩ | ⟨hx, -, hv, -, rfl⟩⟩ := verifyMarker_cases hstep
  · have hnot : h.isCounted 0 = false := by rw [isCounted, hnull]
    rw [Mark.step, hnot, Bool.false_and, if_neg Bool.false_ne_true]
  · rw [visitedBlocks_of_or hv, Mark.step]
    have hcond : (h.isCounted x && !h.visitedBlocks epoch s x) =
        (h.isCounted x && !s.visited epoch x) := by
      rw [visitedBlocks]
      cases h.isCounted x <;> rfl
    rw [hcond]
    split <;> rfl

/-- A walk of the verifier: it counts the roots that it has come past, and the edges from the blocks
that it has visited. -/
structure Walking (h : Heap) (epoch : Word) (base old : Addr → ℕ) (roots : List Addr)
    (p : Pass × List Addr) : Prop where
  inv : Mark.Inv h.isCounted h.refs roots (h.visitedBlocks epoch p.1, p.2)
  tally : ∀ y, y ≠ 0 → p.1.expected epoch y + p.2.count y =
    old y + base y + Mark.edges h.refs h.live (h.visitedBlocks epoch p.1) y
  grows : ∀ y, old y ≤ p.1.expected epoch y
  touched : ∀ y ∈ p.1.touched, y ∈ h.live ∨ y ≠ 0 ∧ old y < p.1.expected epoch y
  bumped : ∀ y, old y < p.1.expected epoch y → y ∈ p.1.touched

section Walking

variable (hnull : h.blocks 0 = none) (hlive : ∀ x, h.isCounted x = true → x ∈ h.live)
  (hnodup : h.live.Nodup) {base old : Addr → ℕ} {p p' : Pass × List Addr}

include hnull hlive hnodup

theorem Walking.step (hw : h.Walking epoch base old roots p) (hstep : h.verifyMarker epoch p = some p') :
    h.Walking epoch base old roots p' := by
  obtain ⟨s, stack⟩ := p
  obtain ⟨s', stack'⟩ := p'
  have hinv := hw.inv.step (verifyMarker_step hnull hstep)
  obtain ⟨x, rest, rfl, ⟨rfl, rfl, rfl⟩ | ⟨hx, he, hv, ht, rfl⟩⟩ := verifyMarker_cases hstep
  · refine ⟨hinv, fun y hy => ?_, hw.grows, hw.touched, hw.bumped⟩
    have := hw.tally y hy
    rwa [List.count_cons_of_ne (Ne.symm hy)] at this
  · refine ⟨hinv, fun y hy => ?_, fun y => ?_, fun y hy => ?_, fun y hy => ?_⟩
    · have htally := hw.tally y hy
      dsimp only at htally ⊢
      rw [List.count_cons] at htally
      rw [he, visitedBlocks_of_or hv, List.count_append]
      have hxy : (if (x == y) = true then 1 else 0) = if y = x then 1 else 0 :=
        if_congr (beq_iff_eq.trans eq_comm) rfl rfl
      rw [hxy] at htally
      cases hnew : h.isCounted x && !s.visited epoch x with
      | true =>
        -- the block is visited for the first time, so its edges are on the stack
        rw [Bool.and_eq_true, Bool.not_eq_true'] at hnew
        have hold : h.visitedBlocks epoch s x = false := by rw [visitedBlocks, hnew.2, Bool.and_false]
        rw [if_pos rfl, if_pos rfl, Mark.edges_update hnodup (hlive x hnew.1) hold]
        omega
      | false =>
        rw [if_neg Bool.false_ne_true, if_neg Bool.false_ne_true, List.count_nil]
        omega
    · exact (hw.grows y).trans (by dsimp only; rw [he]; exact Nat.le_add_right _ _)
    · dsimp only
      rw [he]
      rcases (ht y).mp hy with rfl | hy
      · rw [if_pos rfl]
        exact .inr ⟨hx, Nat.lt_succ_of_le (hw.grows y)⟩
      · exact (hw.touched y hy).imp_right fun h => ⟨h.1, h.2.trans_le (Nat.le_add_right _ _)⟩
    · dsimp only at hy
      rw [he] at hy
      refine (ht y).mpr ?_
      by_cases hyx : y = x
      · exact .inl hyx
      · rw [if_neg hyx, Nat.add_zero] at hy
        exact .inr (hw.bumped y hy)

omit hnodup in
theorem verifyPotential_lt (hstep : h.verifyMarker epoch p = some p') :
    h.verifyPotential epoch p' < h.verifyPotential epoch p := by
  obtain ⟨s, stack⟩ := p
  obtain ⟨s', stack'⟩ := p'
  exact Mark.potential_lt hlive (verifyMarker_step hnull hstep)

omit hnodup in
/-- The walks of the verifier end. -/
theorem verifyMarker_done (p : Pass × List Addr) :
    h.verifyMarker epoch (Loop.exhaust (h.verifyMarker epoch) (h.verifyPotential epoch) p) = none :=
  Loop.exhaust_done (fun _ _ => verifyPotential_lt hnull hlive) p

/-- What has been counted when a walk ends. -/
theorem Walking.walk (hw : h.Walking epoch base old roots (s, stack)) :
    h.Walking epoch base old roots (h.verifyWalk epoch stack s, []) := by
  have hend : h.Walking epoch base old roots
      (Loop.exhaust (h.verifyMarker epoch) (h.verifyPotential epoch) (s, stack)) :=
    Loop.exhaust_inv (fun _ _ => Walking.step hnull hlive hnodup) hw
  have hdone : h.verifyMarker epoch _ = none := verifyMarker_done hnull hlive (s, stack)
  unfold verifyWalk
  generalize Loop.exhaust (h.verifyMarker epoch) (h.verifyPotential epoch) (s, stack) = p
    at hend hdone ⊢
  obtain ⟨s', stack'⟩ := p
  obtain rfl : stack' = [] := by
    cases stack' with
    | nil => rfl
    | cons y rest =>
      rw [verifyMarker] at hdone
      split at hdone
      · cases hdone
      · dsimp only at hdone
        split at hdone
        · cases hdone
        · split at hdone
          · cases hdone
          · split at hdone <;> cases hdone
  exact hend

end Walking

end Heap

end Corvid.Native
