import Corvid.Native.Runs
import Corvid.Native.Verifier
import Mathlib.Data.List.TakeWhile

/-!
# Drift

The verifier of the collector is right if it reports the blocks in use whose reference count is not
the number of references to them, and if it only works on the tracking nodes of blocks. Given the
roots it reports the right blocks, but it writes in front of every static literal that it comes
past. The collection that walks the stack gives it no roots; it then takes each marked block that it
has not come past before for the target of one root.

## Main definitions

* `Heap.Drifted`: a block in use with a wrong count
* `Heap.Verifies`: the verification is right
* `Heap.RootsClear`, `Heap.EdgesClear`: no static literals are found
* `Heap.Seed`, `Heap.Rooted`: the roots are where the verifier takes them to be

## Main results

* `current_collect`: verifications use new epochs
* `verifies_iff`: when the verification of a collection is right
-/

namespace Corvid.Native

/-- No block has scratch of an epoch that is still to come. -/
def Verifier.Current (v : Verifier) (live : List Addr) : Prop :=
  ∀ x ∈ live, (v.scratch x).verifyEpoch.toNat ≤ v.epoch.toNat

namespace Heap

/-- A block of static memory, which has no tracking node. -/
def Literal (h : Heap) (x : Addr) : Prop := ∃ b, h.blocks x = some b ∧ b.isImmortal = true

open Classical in
/-- The edges to a block from the blocks that the roots lead to. -/
noncomputable def edgesTo (h : Heap) (roots : List Addr) (x : Addr) : ℕ :=
  Mark.edges h.refs h.live (fun y => decide (h.Reached roots y)) x

/-- A block that the roots lead to, whose count is not that of the references to it. -/
def Drifted (h : Heap) (roots : List Addr) (x : Addr) : Prop :=
  h.Reached roots x ∧ h.rc x ≠ roots.count x + h.edgesTo roots x

/-- Marking and the walks of the verifier come to an end. -/
def Ends (h : Heap) (roots : List Addr) : Prop :=
  markStep (Loop.exhaust markStep markPotential (h, roots)) = none ∧
    ∀ epoch p, (h.gcMark roots).verifyMarker epoch (Loop.exhaust ((h.gcMark roots).verifyMarker epoch)
      ((h.gcMark roots).verifyPotential epoch) p) = none

/-- A collection ends, works on the scratch of heap blocks only, and reports the blocks that have
drifted. -/
structure Verifies (h : Heap) (roots : List Addr) (verdict : Verdict) : Prop where
  ends : h.Ends roots
  touched : ∀ x ∈ verdict.touched, x ∈ h.live
  reports : ∀ x, (∃ d ∈ verdict.reports, d.block = x) ↔ h.Drifted roots x

def RootsClear (h : Heap) (roots : List Addr) : Prop := ∀ x ∈ roots, ¬ h.Literal x

def EdgesClear (h : Heap) (roots : List Addr) : Prop :=
  ∀ y, h.Reached roots y → ∀ x ∈ h.refs y, ¬ h.Literal x

/-- A block in use to which no block in use leads that comes before it in the list. -/
def Seed (h : Heap) (roots : List Addr) (x : Addr) : Prop :=
  h.Reached roots x ∧ ∀ y ∈ h.live.takeWhile (· ≠ x), h.Reached roots y → ¬ h.Reached [y] x

open Classical in
/-- The roots that the verifier takes a block to have when it is given none. -/
noncomputable def assumedRoots (h : Heap) (roots : List Addr) (x : Addr) : ℕ :=
  if h.Seed roots x then 1 else 0

/-- Each block in use has as many roots as the verifier takes it to have, or a count that is wrong
in both ways. -/
def Rooted (h : Heap) (roots : List Addr) : Prop :=
  ∀ x, h.Reached roots x → h.assumedRoots roots x = roots.count x ∨
    h.rc x ≠ h.assumedRoots roots x + h.edgesTo roots x ∧
      h.rc x ≠ roots.count x + h.edgesTo roots x

variable {h g : Heap} {epoch : Word} {s s' : Pass} {stack roots given : List Addr} {x y : Addr}
  {v : Verifier} {base old : Addr → ℕ} {c : Addr → ℕ} {m : Addr → Bool}

/-! ### The marked heap -/

theorem isCounted_recount (hlt : ∀ x, c x < 2 ^ 61) : (h.recount c m).isCounted = h.isCounted := by
  funext x
  cases hb : h.blocks x with
  | none => rw [isCounted, isCounted, blocks_recount, hb, Option.map_none]
  | some b =>
    cases himm : b.isImmortal with
    | true => rw [isCounted_of_block (recount_immortal hb himm), isCounted_of_block hb]
    | false =>
      rw [isCounted_of_block (recount_counted hb himm), isCounted_of_block hb,
        isImmortal_setWord_pack (hlt x), himm]

theorem refs_recount : (h.recount c m).refs = h.refs := by
  funext x
  rw [refs, refs, blocks_recount]
  cases h.blocks x with
  | none => rfl
  | some b =>
    rw [Option.map_some]
    dsimp only
    split <;> rfl

theorem rc_recount (hlt : ∀ x, c x < 2 ^ 61) (hx : h.isCounted x = true) :
    (h.recount c m).rc x = c x := by
  rw [isCounted] at hx
  cases hb : h.blocks x with
  | none => rw [hb] at hx; cases hx
  | some b =>
    rw [hb] at hx
    rw [rc_of_block (recount_counted hb (Bool.not_eq_true' _ ▸ hx))]
    exact Word.rc_pack (hlt x)

theorem reached_recount (hlt : ∀ x, c x < 2 ^ 61) :
    (h.recount c m).Reached roots x ↔ h.Reached roots x := by
  rw [Reached, Reached, isCounted_recount hlt, refs_recount]

/-! ### Epochs -/

/-- A new epoch has no scratch yet. -/
theorem nextEpoch_fresh (hv : v.Current h.live) (hx : x ∈ h.live) :
    (h.nextEpoch v).2.visited (h.nextEpoch v).1 x = false ∧
      (h.nextEpoch v).2.expected (h.nextEpoch v).1 x = 0 := by
  have hne : ((h.nextEpoch v).2.scratch x).verifyEpoch ≠ (h.nextEpoch v).1 := by
    unfold nextEpoch
    split
    next =>
      dsimp only
      rw [if_pos hx]
      exact (by decide : (0 : Word) ≠ 1)
    next hwrap =>
      dsimp only
      intro heq
      have hle := hv x hx
      rw [heq, BitVec.toNat_add] at hle
      have hpos : (v.epoch + 1).toNat ≠ 0 := fun h0 => hwrap (BitVec.eq_of_toNat_eq h0)
      rw [BitVec.toNat_add] at hpos
      have hlt := v.epoch.isLt
      simp at hle hpos
      omega
  exact ⟨by rw [Pass.visited, Scratch.visitedIn, decide_eq_false hne, Bool.false_and],
    by rw [Pass.expected, Scratch.expectedIn, if_neg hne]⟩

theorem touched_nextEpoch (hx : x ∈ (h.nextEpoch v).2.touched) : x ∈ h.live := by
  unfold nextEpoch at hx
  split at hx
  · exact hx
  · cases hx

/-- The scratch that a verification writes is of its epoch. -/
def Stamps (epoch : Word) (s s' : Pass) : Prop :=
  ∀ x, (s'.scratch x).verifyEpoch = (s.scratch x).verifyEpoch ∨ (s'.scratch x).verifyEpoch = epoch

theorem Stamps.trans {t : Pass} (h : Stamps epoch s t) (h' : Stamps epoch t s') :
    Stamps epoch s s' := fun x => by
  rcases h' x with h' | h'
  · rw [h']
    exact h x
  · exact .inr h'

theorem stamps_put {n : Scratch} (hn : n.verifyEpoch = epoch) : Stamps epoch s (s.put x n) := by
  intro y
  rw [Pass.put]
  dsimp only
  by_cases hy : y = x
  · rw [hy, Function.update_self]
    exact .inr hn
  · rw [Function.update_of_ne hy]
    exact .inl rfl

theorem stamps_bumpExpected : Stamps epoch s (s.bumpExpected epoch x) :=
  stamps_put Scratch.epoch_prepare

theorem stamps_markVisited : Stamps epoch s (s.markVisited epoch x).2 := by
  rw [Pass.markVisited_eq]
  exact stamps_put Scratch.epoch_prepare

theorem stamps_verifyMarker {p p' : Pass × List Addr} (hstep : h.verifyMarker epoch p = some p') :
    Stamps epoch p.1 p'.1 := by
  obtain ⟨s, stack⟩ := p
  cases stack with
  | nil => cases hstep
  | cons x rest =>
    rw [verifyMarker] at hstep
    split at hstep
    next =>
      cases hstep
      exact fun _ => .inl rfl
    next =>
      have hmarked : Stamps epoch (s.bumpExpected epoch x) ((s.bumpExpected epoch x).markVisited epoch x).2 :=
        stamps_markVisited
      have hboth := stamps_bumpExpected.trans hmarked
      dsimp only at hstep
      split at hstep
      · cases hstep
        exact hboth
      split at hstep
      · cases hstep
        exact hboth
      split at hstep <;> cases hstep <;> exact hboth

theorem stamps_verifyWalk {slots : List Addr} : Stamps epoch s (h.verifyWalk epoch slots s) :=
  Loop.exhaust_inv (I := fun p : Pass × List Addr => Stamps epoch s p.1)
    (fun _ _ hp hstep => hp.trans (stamps_verifyMarker hstep)) fun _ => .inl rfl

theorem stamps_verifyBlock : Stamps epoch s (h.verifyBlock epoch s x) := by
  rw [verifyBlock]
  split
  next => exact fun _ => .inl rfl
  next =>
    split
    · exact fun _ => .inl rfl
    split
    · exact fun _ => .inl rfl
    dsimp only
    split
    · exact stamps_markVisited
    · exact (stamps_markVisited.trans stamps_bumpExpected).trans stamps_verifyWalk

theorem stamps_foldl {xs : List Addr} : Stamps epoch s (xs.foldl (h.verifyBlock epoch) s) := by
  induction xs generalizing s with
  | nil => exact fun _ => .inl rfl
  | cons x xs ih => exact stamps_verifyBlock.trans ih

theorem live_gcMark : (h.gcMark roots).live = h.live := by
  refine Loop.exhaust_inv (I := fun p : Heap × List Addr => p.1.live = h.live) ?_ rfl
  rintro ⟨g, stack⟩ p hg hstep
  cases stack with
  | nil => cases hstep
  | cons x rest =>
    rw [markStep] at hstep
    split at hstep
    next => cases hstep; exact hg
    next =>
      split at hstep
      next => cases hstep; exact hg
      next =>
        split at hstep <;> cases hstep
        · exact hg
        · exact modify_live.trans hg

/-- Verifications use new epochs. -/
theorem current_collect (hv : v.Current h.live) :
    (h.collect given roots v).2.verifier.Current h.live := by
  have hlive : (h.gcMark roots).live = h.live := live_gcMark
  by_cases hoff : v.mode = .off
  · rw [Heap.collect, gcVerify, if_pos hoff]
    exact hv
  rw [Heap.collect, gcVerify, if_neg hoff]
  dsimp only
  intro x hx
  dsimp only
  have hstamps : Stamps ((h.gcMark roots).nextEpoch v).1 ((h.gcMark roots).nextEpoch v).2
      (if given.isEmpty = true then
        (h.gcMark roots).live.foldl ((h.gcMark roots).verifyBlock ((h.gcMark roots).nextEpoch v).1)
          ((h.gcMark roots).verifyWalk ((h.gcMark roots).nextEpoch v).1 given
            ((h.gcMark roots).nextEpoch v).2)
      else (h.gcMark roots).verifyWalk ((h.gcMark roots).nextEpoch v).1 given
        ((h.gcMark roots).nextEpoch v).2) := by
    split
    · exact stamps_verifyWalk.trans stamps_foldl
    · exact stamps_verifyWalk
  rcases hstamps x with h' | h' <;> rw [h']
  unfold nextEpoch
  split
  next =>
    dsimp only
    rw [hlive, if_pos hx]
    exact Nat.zero_le _
  next hwrap =>
    dsimp only
    have hpos : (v.epoch + 1).toNat ≠ 0 := fun h0 => hwrap (BitVec.eq_of_toNat_eq h0)
    have hle := hv x hx
    rw [BitVec.toNat_add] at hpos ⊢
    have hlt := v.epoch.isLt
    simp at hpos ⊢
    omega

/-! ### Counting -/

section Counting

variable (hnull : g.blocks 0 = none) (hlive : ∀ x, g.isCounted x = true → x ∈ g.live)
  (hnodup : g.live.Nodup)

include hlive in
/-- Before a walk from some roots. -/
theorem walking_roots (hfresh : ∀ x ∈ g.live, s.visited epoch x = false)
    (htouched : ∀ x ∈ s.touched, x ∈ g.live) (roots : List Addr) :
    g.Walking epoch (fun x => roots.count x) (fun x => s.expected epoch x) roots (s, roots) := by
  have hnone : g.visitedBlocks epoch s = fun _ => false := by
    funext x
    rw [visitedBlocks]
    cases hx : g.isCounted x with
    | false => rfl
    | true => rw [hfresh x (hlive x hx), Bool.and_false]
  refine ⟨?_, fun x _ => ?_, fun _ => Nat.le_refl _, fun x hx => .inl (htouched x hx),
    fun x hx => absurd hx (Nat.lt_irrefl _)⟩
  · dsimp only
    rw [hnone]
    exact Mark.inv_roots roots
  · dsimp only
    rw [hnone, Mark.edges_eq_zero fun _ _ => rfl, Nat.add_zero]

theorem Walking.visited_iff (hw : g.Walking epoch base old roots (s, [])) :
    g.visitedBlocks epoch s x = true ↔ g.Reached roots x := hw.inv.marked_iff

include hnull hlive hnodup

open Classical in
/-- A marked block of the list: it is taken for the target of a root if it has not been visited. -/
theorem Walking.block (hw : g.Walking epoch base old roots (s, [])) {b : Block}
    (hb : g.blocks x = some b) (himm : b.isImmortal = false)
    (hmark : Word.isMarked b.refcountWord = true) :
    g.Walking epoch (fun y => base y + if y = x ∧ ¬ g.Reached roots x then 1 else 0) old
      (roots ++ [x]) (g.verifyBlock epoch s x, []) := by
  have hcounted : g.isCounted x = true := by rw [isCounted_of_block hb, himm]; rfl
  have hx : x ∈ g.live := hlive x hcounted
  have hvisited : g.visitedBlocks epoch s x = s.visited epoch x := by
    rw [visitedBlocks, hcounted, Bool.true_and]
  rw [verifyBlock, hb]
  dsimp only
  rw [himm, hmark, if_neg Bool.false_ne_true, Bool.not_true, if_neg Bool.false_ne_true,
    Pass.markVisited_fst, Bool.not_not]
  have hmarks : g.visitedBlocks epoch (s.markVisited epoch x).2 = _ :=
    visitedBlocks_of_or fun _ => Pass.visited_markVisited
  rw [hcounted, Bool.true_and] at hmarks
  cases hv : s.visited epoch x with
  | true =>
    rw [hv] at hvisited hmarks
    have hreached : g.Reached roots x := hw.visited_iff.mp hvisited
    rw [Bool.not_true, if_neg Bool.false_ne_true] at hmarks
    rw [if_pos rfl]
    refine ⟨?_, fun y hy => ?_, fun y => ?_, fun y hy => ?_, fun y hy => ?_⟩
    · dsimp only
      rw [hmarks]
      exact (hw.inv.push x).pop hvisited
    · dsimp only
      rw [Pass.expected_markVisited, hmarks, if_neg fun h => h.2 hreached]
      exact hw.tally y hy
    · dsimp only
      rw [Pass.expected_markVisited]
      exact hw.grows y
    · dsimp only at hy ⊢
      rw [Pass.expected_markVisited]
      rw [Pass.touched_markVisited] at hy
      rcases List.mem_cons.mp hy with rfl | hy
      · exact .inl hx
      · exact hw.touched y hy
    · dsimp only at hy ⊢
      rw [Pass.expected_markVisited] at hy
      rw [Pass.touched_markVisited]
      exact List.mem_cons_of_mem _ (hw.bumped y hy)
  | false =>
    rw [hv] at hvisited hmarks
    have hnot : ¬ g.Reached roots x := fun h => by
      have := hw.visited_iff.mpr h
      rw [hvisited] at this
      cases this
    rw [Bool.not_false, if_pos rfl] at hmarks
    rw [if_neg Bool.false_ne_true]
    have hmarks' : g.visitedBlocks epoch (((s.markVisited epoch x).2).bumpExpected epoch x) =
        Function.update (g.visitedBlocks epoch s) x true := by
      rw [← hmarks]
      funext y
      rw [visitedBlocks, visitedBlocks, Pass.visited_bumpExpected]
    have hexpected : ∀ y, (((s.markVisited epoch x).2).bumpExpected epoch x).expected epoch y =
        s.expected epoch y + if y = x then 1 else 0 := fun y => by
      rw [Pass.expected_bumpExpected, Pass.expected_markVisited]
    have htrace : b.trace = g.refs x := by rw [refs, hb]
    rw [htrace]
    refine Walking.walk hnull hlive hnodup ⟨?_, fun y hy => ?_, fun y => ?_, fun y hy => ?_,
      fun y hy => ?_⟩
    · dsimp only
      rw [hmarks', ← List.append_nil (g.refs x)]
      refine (hw.inv.push x).step ?_
      rw [Mark.step, hcounted, hvisited]
      rfl
    · have htally := hw.tally y hy
      dsimp only at htally ⊢
      rw [hexpected, hmarks', Mark.edges_update hnodup hx hvisited]
      rw [List.count_nil] at htally
      simp only [hnot, not_false_eq_true, and_true]
      omega
    · dsimp only
      rw [hexpected]
      exact (hw.grows y).trans (Nat.le_add_right _ _)
    · dsimp only at hy ⊢
      rw [hexpected]
      rw [Pass.touched_bumpExpected, Pass.touched_markVisited] at hy
      rcases List.mem_cons.mp hy with rfl | hy
      · exact .inl hx
      rcases List.mem_cons.mp hy with rfl | hy
      · exact .inl hx
      · exact (hw.touched y hy).imp_right fun h => ⟨h.1, h.2.trans_le (Nat.le_add_right _ _)⟩
    · dsimp only at hy ⊢
      rw [hexpected] at hy
      rw [Pass.touched_bumpExpected, Pass.touched_markVisited]
      by_cases hyx : y = x
      · rw [hyx]
        exact List.mem_cons_self
      · rw [if_neg hyx, Nat.add_zero] at hy
        exact List.mem_cons_of_mem _ (List.mem_cons_of_mem _ (hw.bumped y hy))

open Classical in
/-- The marked blocks of the list one after the other. -/
theorem Walking.scan {marked : Addr → Bool}
    (hword : ∀ x ∈ g.live, ∃ b, g.blocks x = some b ∧ b.isImmortal = false ∧
      Word.isMarked b.refcountWord = marked x) (seeds : Addr → Prop)
    (hseeds : ∀ x, seeds x ↔ marked x = true ∧
      ¬ g.Reached ((g.live.takeWhile (· ≠ x)).filter marked) x)
    {xs ys : List Addr} (hlist : xs ++ ys = g.live)
    (hw : g.Walking epoch (fun y => if y ∈ xs ∧ seeds y then 1 else 0) old (xs.filter marked) (s, [])) :
    g.Walking epoch (fun y => if y ∈ g.live ∧ seeds y then 1 else 0) old (g.live.filter marked)
      (ys.foldl (g.verifyBlock epoch) s, []) := by
  induction ys generalizing xs s with
  | nil =>
    rw [List.append_nil] at hlist
    rw [← hlist]
    exact hw
  | cons x ys ih =>
    have hx : x ∈ g.live := by rw [← hlist]; simp
    have hnot : x ∉ xs := fun h => by
      rw [← hlist] at hnodup
      exact (List.nodup_append.mp hnodup).2.2 x h x List.mem_cons_self rfl
    have hprefix : g.live.takeWhile (· ≠ x) = xs := by
      rw [← hlist, List.takeWhile_append_of_pos fun y hy => ?_, List.takeWhile_cons_of_neg (by simp),
        List.append_nil]
      exact decide_eq_true fun h => hnot (h ▸ hy)
    obtain ⟨b, hb, himm, hmark⟩ := hword x hx
    have hlist' : (xs ++ [x]) ++ ys = g.live := by
      rw [List.append_assoc]
      exact hlist
    refine ih hlist' ?_
    rw [List.filter_append]
    have hsplit : ∀ y, (if y ∈ xs ++ [x] ∧ seeds y then 1 else 0) =
        (if y ∈ xs ∧ seeds y then 1 else 0) + if y = x ∧ seeds x then 1 else 0 := fun y => by
      by_cases hy : y = x
      · subst hy
        simp [hnot]
      · simp [hy]
    cases hm : marked x with
    | false =>
      have hseed : ¬ seeds x := fun h => by
        have := ((hseeds x).mp h).1
        rw [hm] at this
        cases this
      have hskip : g.verifyBlock epoch s x = s := by
        rw [verifyBlock, hb]
        dsimp only
        rw [himm, hmark, hm]
        rfl
      have hnone : [x].filter marked = [] := List.filter_cons_of_neg (by rw [hm]; exact Bool.false_ne_true)
      rw [hskip, hnone, List.append_nil]
      simpa only [hsplit, hseed, and_false, if_false, Nat.add_zero] using hw
    | true =>
      have hseed : seeds x ↔ ¬ g.Reached (xs.filter marked) x := by
        rw [hseeds, hprefix]
        exact and_iff_right hm
      rw [List.filter_cons_of_pos hm, List.filter_nil]
      have := hw.block hnull hlive hnodup hb himm (hmark.trans hm)
      simpa only [hsplit, hseed] using this

end Counting

/-! ### Reports -/

theorem verifyDrift_isSome : (∃ d, h.verifyDrift epoch s x = some d) ↔
    h.isCounted x = true ∧ s.expected epoch x ≠ 0 ∧ h.rc x ≠ s.expected epoch x := by
  rw [verifyDrift, isCounted, rc]
  cases h.blocks x with
  | none => simp
  | some b => cases himm : b.isImmortal <;> simp [himm]

theorem block_verifyDrift {d : Drift} (hd : h.verifyDrift epoch s x = some d) : d.block = x := by
  rw [verifyDrift] at hd
  cases hb : h.blocks x with
  | none => rw [hb] at hd; cases hd
  | some b =>
    rw [hb] at hd
    dsimp only at hd
    split at hd
    · cases hd
    split at hd
    · cases hd
    split at hd <;> cases hd
    rfl

theorem kind_verifyDrift {d : Drift} (hd : h.verifyDrift epoch s x = some d) :
    d.kind = if h.rc x < s.expected epoch x then .underCount else .overCount := by
  rw [verifyDrift] at hd
  rw [rc]
  cases hb : h.blocks x with
  | none => rw [hb] at hd; cases hd
  | some b =>
    rw [hb] at hd
    dsimp only at hd ⊢
    split at hd
    · cases hd
    split at hd
    · cases hd
    split at hd <;> cases hd
    rfl

theorem exists_report_iff {xs : List Addr} :
    (∃ d ∈ xs.filterMap (h.verifyDrift epoch s), d.block = x) ↔
      x ∈ xs ∧ h.isCounted x = true ∧ s.expected epoch x ≠ 0 ∧ h.rc x ≠ s.expected epoch x := by
  rw [← verifyDrift_isSome]
  constructor
  · rintro ⟨d, hd, rfl⟩
    obtain ⟨y, hy, hd⟩ := List.mem_filterMap.mp hd
    rw [block_verifyDrift hd]
    exact ⟨hy, d, hd⟩
  · rintro ⟨hx, d, hd⟩
    exact ⟨d, List.mem_filterMap.mpr ⟨x, hx, hd⟩, block_verifyDrift hd⟩

/-! ### Verdicts -/

theorem Literal.ne_zero (hf : h.Formed) (hx : h.Literal x) : x ≠ 0 := by
  obtain ⟨b, hb, -⟩ := hx
  rintro rfl
  rw [hf.null] at hb
  cases hb

theorem Formed.mem_live_iff (hf : h.Formed) (hx : x = 0 ∨ h.blocks x ≠ none) (h0 : x ≠ 0) :
    x ∈ h.live ↔ ¬ h.Literal x := by
  obtain ⟨b, hb⟩ := Option.ne_none_iff_exists'.mp (hx.resolve_left h0)
  rw [hf.mem_live hb, Literal]
  constructor
  · rintro himm ⟨b', hb', himm'⟩
    rw [hb] at hb'
    cases hb'
    rw [himm] at himm'
    cases himm'
  · intro hnot
    by_contra himm
    exact hnot ⟨b, hb, Bool.not_eq_false _ ▸ himm⟩

theorem edgesTo_pos_iff (hf : h.Formed) :
    0 < h.edgesTo roots x ↔ ∃ y, h.Reached roots y ∧ x ∈ h.refs y := by
  classical
  constructor
  · intro hpos
    obtain ⟨y, -, hy, hx⟩ := Mark.exists_of_edges_pos hpos
    exact ⟨y, of_decide_eq_true hy, hx⟩
  · rintro ⟨y, hy, hx⟩
    exact Mark.edges_pos (hf.isCounted_iff.mp hy.1) (decide_eq_true hy) hx

/-- A block in use is held by a root or by a block in use. -/
theorem Reached.held (hx : h.Reached roots x) : x ∈ roots ∨ ∃ y, h.Reached roots y ∧ x ∈ h.refs y := by
  obtain ⟨hcounted, r, hr, hpath⟩ := hx
  rcases hpath.cases_tail with rfl | ⟨y, hpath', hedge⟩
  · exact .inl hr
  · exact .inr ⟨y, ⟨hedge.1, r, hr, hpath'⟩, hedge.2⟩

theorem Seed.held (hx : h.Reached roots x) (hnone : ¬ ∃ y, h.Reached roots y ∧ x ∈ h.refs y) :
    h.Seed roots x := by
  refine ⟨hx, fun y hy hreached hlead => hnone ?_⟩
  have hyx : y ≠ x := by simpa using List.mem_takeWhile_imp hy
  rcases Reached.held hlead with hmem | ⟨z, hz, hedge⟩
  · exact absurd (List.mem_singleton.mp hmem).symm hyx
  · refine ⟨z, Mark.Reached.trans hz fun w hw _ => ?_, hedge⟩
    rw [List.mem_singleton.mp hw]
    exact hreached

/-- The end of a verification that has visited the blocks in use. -/
structure Surveyed (h : Heap) (epoch : Word) (roots : List Addr) (base : Addr → ℕ) (s : Pass) :
    Prop where
  expected : ∀ x ∈ h.live, s.expected epoch x = base x + h.edgesTo roots x
  touched : (∀ x ∈ s.touched, x ∈ h.live) ↔ (∀ x, x ≠ 0 → 0 < base x → x ∈ h.live) ∧ h.EdgesClear roots

theorem Walking.surveyed (hl : h.Linked) (hlive : g.live = h.live) (hrefs : g.refs = h.refs)
    {starts : List Addr} (hw : g.Walking epoch base old starts (s, []))
    (hmarks : ∀ x, g.Reached starts x ↔ h.Reached roots x) (hold : ∀ x ∈ h.live, old x = 0) :
    h.Surveyed epoch roots base s := by
  classical
  have hedges : ∀ x, Mark.edges g.refs g.live (g.visitedBlocks epoch s) x = h.edgesTo roots x := by
    intro x
    rw [edgesTo, hlive, hrefs]
    refine Mark.edges_congr fun y _ => ?_
    rw [Bool.eq_iff_iff, hw.visited_iff, hmarks, decide_eq_true_iff]
  have htally : ∀ x, x ≠ 0 → s.expected epoch x = old x + base x + h.edgesTo roots x := fun x hx => by
    have := hw.tally x hx
    rwa [hedges, List.count_nil, Nat.add_zero] at this
  have hne : ∀ x ∈ h.live, x ≠ 0 := by
    rintro x hx rfl
    obtain ⟨b, -, hb, -⟩ := hl.word 0 hx
    rw [hl.null] at hb
    cases hb
  refine ⟨fun x hx => ?_, fun ht => ⟨fun x hx hpos => ?_, fun y hy x hx hlit => ?_⟩, ?_⟩
  · rw [htally x (hne x hx), hold x hx, Nat.zero_add]
  · refine ht x (hw.bumped x ?_)
    have := htally x hx
    dsimp only
    omega
  · -- the literal has been counted, so its scratch was written
    have hpos := (edgesTo_pos_iff hl.toFormed).mpr ⟨y, hy, hx⟩
    have h0 := hlit.ne_zero hl.toFormed
    have hmem : x ∈ h.live := by
      refine ht x (hw.bumped x ?_)
      have := htally x h0
      dsimp only
      omega
    have hvalid := hl.refs y (hl.toFormed.isCounted_iff.mp hy.1) x hx
    exact (hl.toFormed.mem_live_iff hvalid h0).mp hmem hlit
  · rintro ⟨hbase, hclear⟩ x hx
    rcases hw.touched x hx with hmem | ⟨h0, hlt⟩
    · exact hlive ▸ hmem
    dsimp only at hlt
    have := htally x h0
    by_cases hpos : 0 < base x
    · exact hbase x h0 hpos
    · obtain ⟨y, hy, hmem⟩ := (edgesTo_pos_iff hl.toFormed).mp (by omega : 0 < h.edgesTo roots x)
      exact (hl.toFormed.mem_live_iff (hl.refs y (hl.toFormed.isCounted_iff.mp hy.1) x hmem) h0).mpr
        (hclear y hy x hmem)


/-! ### Collections -/

section Collections

variable (hl : h.Linked) (hroots : ∀ r ∈ roots, r = 0 ∨ h.blocks r ≠ none)

include hl hroots

theorem ends_gcMark : h.Ends roots := by
  refine ⟨?_, ?_⟩
  · -- the marking goes along with the traversal, which empties its stack
    have hpotential : markPotential (h, roots) =
        Mark.potential h.refs h.live (fun _ => false, roots) := markPotential_eq hl
    have hsim := Loop.run_sim (markStep_sim hl h.rc_lt) (markPotential (h, roots))
      (s := (h, roots)) (t := (fun _ => false, roots)) ⟨hl.toFormed.recount_self.symm, rfl, hroots⟩
    have hdone : Mark.step h.isCounted h.refs (Loop.run (Mark.step h.isCounted h.refs)
        (markPotential (h, roots)) (fun _ => false, roots)) = none := by
      rw [hpotential]
      exact Loop.exhaust_done (Φ := Mark.potential h.refs h.live)
        (fun _ _ => Mark.potential_lt fun x hx => hl.toFormed.isCounted_iff.mp hx) _
    unfold Loop.exhaust
    generalize Loop.run (Mark.step h.isCounted h.refs) (markPotential (h, roots))
      (fun _ => false, roots) = t at hsim hdone
    generalize Loop.run markStep (markPotential (h, roots)) (h, roots) = p at hsim ⊢
    obtain ⟨-, hstack, -⟩ := hsim
    obtain ⟨g, stack⟩ := p
    obtain rfl : stack = [] := hstack.trans (Mark.stack_of_done hdone)
    rfl
  · rw [gcMark_eq hl hroots]
    intro epoch p
    refine verifyMarker_done (recount_eq_none.mpr hl.null) (fun x hx => ?_) p
    rw [isCounted_recount h.rc_lt] at hx
    exact hl.toFormed.isCounted_iff.mp hx

omit hl hroots in
theorem reached_filter {xs : List Addr} (hm : ∀ x, m x = true ↔ h.Reached roots x) :
    h.Reached (xs.filter m) x ↔ ∃ y ∈ xs, h.Reached roots y ∧ h.Reached [y] x := by
  constructor
  · rintro ⟨hx, y, hy, hpath⟩
    obtain ⟨hy, hmy⟩ := List.mem_filter.mp hy
    exact ⟨y, hy, (hm y).mp hmy, hx, y, List.mem_singleton_self y, hpath⟩
  · rintro ⟨y, hy, hmy, hx, z, hz, hpath⟩
    obtain rfl := List.mem_singleton.mp hz
    exact ⟨hx, z, List.mem_filter.mpr ⟨hy, (hm z).mpr hmy⟩, hpath⟩

/-- The marked heap, as the verifier sees it. -/
theorem exists_marked : ∃ m, h.gcMark roots = h.recount h.rc m ∧
    ∀ x, m x = true ↔ h.Reached roots x :=
  ⟨_, gcMark_eq hl hroots, fun _ => Mark.marks_iff fun _ hx => hl.toFormed.isCounted_iff.mp hx⟩

omit hroots in
/-- After a walk from the roots. -/
theorem surveyed_roots (hv : v.Current h.live) :
    h.Surveyed (h.nextEpoch v).1 roots (fun x => roots.count x)
      ((h.recount h.rc m).verifyWalk (h.nextEpoch v).1 roots (h.nextEpoch v).2) := by
  have hcounted : (h.recount h.rc m).isCounted = h.isCounted := isCounted_recount h.rc_lt
  have hlive : ∀ x, (h.recount h.rc m).isCounted x = true → x ∈ (h.recount h.rc m).live :=
    fun x hx => hl.toFormed.isCounted_iff.mp (hcounted ▸ hx)
  have hwalk := (walking_roots hlive (fun x hx => (nextEpoch_fresh hv hx).1)
    (fun x hx => touched_nextEpoch hx) roots).walk (recount_eq_none.mpr hl.null) hlive hl.nodup
  exact Walking.surveyed (g := h.recount h.rc m) hl rfl refs_recount hwalk
    (fun x => reached_recount h.rc_lt) fun x hx => (nextEpoch_fresh hv hx).2

omit hroots in
/-- After the search of the list for marked blocks. -/
theorem surveyed_list (hv : v.Current h.live) (hm : ∀ x, m x = true ↔ h.Reached roots x) :
    h.Surveyed (h.nextEpoch v).1 roots (h.assumedRoots roots)
      (h.live.foldl ((h.recount h.rc m).verifyBlock (h.nextEpoch v).1)
        ((h.recount h.rc m).verifyWalk (h.nextEpoch v).1 [] (h.nextEpoch v).2)) := by
  classical
  have hcounted : (h.recount h.rc m).isCounted = h.isCounted := isCounted_recount h.rc_lt
  have hreached : ∀ rs x, (h.recount h.rc m).Reached rs x ↔ h.Reached rs x :=
    fun rs x => reached_recount h.rc_lt
  have hnull : (h.recount h.rc m).blocks 0 = none := recount_eq_none.mpr hl.null
  have hlive : ∀ x, (h.recount h.rc m).isCounted x = true → x ∈ (h.recount h.rc m).live :=
    fun x hx => hl.toFormed.isCounted_iff.mp (hcounted ▸ hx)
  have hwalk := (walking_roots hlive (fun x hx => (nextEpoch_fresh hv hx).1)
    (fun x hx => touched_nextEpoch hx) []).walk hnull hlive hl.nodup
  have hword : ∀ x ∈ h.live, ∃ b, (h.recount h.rc m).blocks x = some b ∧ b.isImmortal = false ∧
      Word.isMarked b.refcountWord = m x := by
    intro x hx
    obtain ⟨b, hb, -⟩ := hl.toFormed.exists_block hx
    exact ⟨_, recount_counted hb (hl.toFormed.not_immortal hx hb),
      isImmortal_setWord_pack (h.rc_lt x), Word.isMarked_pack (h.rc_lt x)⟩
  have hseeds : ∀ x, h.Seed roots x ↔ m x = true ∧
      ¬ (h.recount h.rc m).Reached ((h.live.takeWhile (· ≠ x)).filter m) x := by
    intro x
    rw [Seed, hm, hreached, reached_filter hm]
    push Not
    exact Iff.rfl
  have hscan := Walking.scan hnull hlive hl.nodup hword (h.Seed roots) hseeds
    (show [] ++ h.live = h.live from rfl) (by simpa using hwalk)
  have hbase : (fun y => if y ∈ (h.recount h.rc m).live ∧ h.Seed roots y then 1 else 0) =
      h.assumedRoots roots := by
    funext y
    refine if_congr (and_iff_right_of_imp fun hy => ?_) rfl rfl
    exact hl.toFormed.isCounted_iff.mp hy.1.1
  rw [hbase] at hscan
  refine Walking.surveyed (g := h.recount h.rc m) hl rfl refs_recount hscan (fun x => ?_)
    fun x hx => (nextEpoch_fresh hv hx).2
  rw [hreached, reached_filter hm]
  constructor
  · rintro ⟨y, -, hy, hlead⟩
    refine hlead.trans fun z hz _ => ?_
    rw [List.mem_singleton.mp hz]
    exact hy
  · exact fun hx => ⟨x, hl.toFormed.isCounted_iff.mp hx.1, hx,
      .of_mem (List.mem_singleton_self x) hx.1⟩

omit hl hroots in
/-- The verdict of a verification whose last pass is `s`. -/
theorem verdict_eq (hon : v.mode ≠ .off) (hm : h.gcMark roots = h.recount h.rc m)
    (hs : s = if given.isEmpty then
      h.live.foldl ((h.recount h.rc m).verifyBlock (h.nextEpoch v).1)
        ((h.recount h.rc m).verifyWalk (h.nextEpoch v).1 given (h.nextEpoch v).2)
      else (h.recount h.rc m).verifyWalk (h.nextEpoch v).1 given (h.nextEpoch v).2) :
    (h.collect given roots v).2 =
      ⟨{ v with epoch := (h.nextEpoch v).1, scratch := s.scratch },
        h.live.filter h.isCounted ++ s.touched,
        h.live.filterMap ((h.recount h.rc m).verifyDrift (h.nextEpoch v).1 s),
        decide (v.mode = .abort) &&
          !(h.live.filterMap ((h.recount h.rc m).verifyDrift (h.nextEpoch v).1 s)).isEmpty⟩ := by
  have hcounted : (h.recount h.rc m).isCounted = h.isCounted := isCounted_recount h.rc_lt
  rw [collect, hm, gcVerify, if_neg hon, hcounted, hs]
  rfl

omit hroots in
/-- The blocks that a verification reports once it has counted. -/
theorem Surveyed.reports (hsurveyed : h.Surveyed epoch roots base s) :
    (∃ d ∈ h.live.filterMap ((h.recount h.rc m).verifyDrift epoch s), d.block = x) ↔
      x ∈ h.live ∧ base x + h.edgesTo roots x ≠ 0 ∧ h.rc x ≠ base x + h.edgesTo roots x := by
  rw [exists_report_iff, isCounted_recount h.rc_lt]
  refine and_congr_right fun hx => ?_
  have hx' := hl.toFormed.isCounted_iff.mpr hx
  rw [rc_recount h.rc_lt hx', hsurveyed.expected x hx]
  exact and_iff_right hx'

/-- What a verification says once it has counted. -/
theorem verifies_of_surveyed (hon : v.mode ≠ .off) (hm : h.gcMark roots = h.recount h.rc m)
    (hs : s = if given.isEmpty then
      h.live.foldl ((h.recount h.rc m).verifyBlock (h.nextEpoch v).1)
        ((h.recount h.rc m).verifyWalk (h.nextEpoch v).1 given (h.nextEpoch v).2)
      else (h.recount h.rc m).verifyWalk (h.nextEpoch v).1 given (h.nextEpoch v).2)
    (hsurveyed : h.Surveyed (h.nextEpoch v).1 roots base s) :
    h.Verifies roots (h.collect given roots v).2 ↔
      ((∀ x, x ≠ 0 → 0 < base x → x ∈ h.live) ∧ h.EdgesClear roots) ∧
      ∀ x, (x ∈ h.live ∧ base x + h.edgesTo roots x ≠ 0 ∧ h.rc x ≠ base x + h.edgesTo roots x) ↔
        h.Drifted roots x := by
  rw [verdict_eq hon hm hs]
  have htouched : (∀ x ∈ h.live.filter h.isCounted ++ s.touched, x ∈ h.live) ↔
      (∀ x, x ≠ 0 → 0 < base x → x ∈ h.live) ∧ h.EdgesClear roots := by
    rw [← hsurveyed.touched]
    constructor
    · exact fun hall x hx => hall x (List.mem_append_right _ hx)
    · intro hall x hx
      rcases List.mem_append.mp hx with hx | hx
      · exact (List.mem_filter.mp hx).1
      · exact hall x hx
  constructor
  · rintro ⟨-, ht, hr⟩
    exact ⟨htouched.mp ht, fun x => (hsurveyed.reports hl).symm.trans (hr x)⟩
  · rintro ⟨ht, hr⟩
    exact ⟨ends_gcMark hl hroots, htouched.mpr ht, fun x => (hsurveyed.reports hl).trans (hr x)⟩

omit hroots in
/-- A block with a count is in use if a root or a block in use holds it. -/
theorem reached_iff_held (hx : x ∈ h.live) :
    h.Reached roots x ↔ roots.count x + h.edgesTo roots x ≠ 0 := by
  have hcounted := hl.toFormed.isCounted_iff.mpr hx
  rw [← Nat.pos_iff_ne_zero, Nat.add_pos_iff_pos_or_pos, List.count_pos_iff,
    edgesTo_pos_iff hl.toFormed]
  refine ⟨fun h => h.held, ?_⟩
  rintro (hmem | ⟨y, hy, hmem⟩)
  · exact .of_mem hmem hcounted
  · exact hy.child hmem hcounted

omit hroots in
/-- The blocks in use are those that have drifted or have the right count. -/
theorem drifted_iff : (x ∈ h.live ∧ roots.count x + h.edgesTo roots x ≠ 0 ∧
    h.rc x ≠ roots.count x + h.edgesTo roots x) ↔ h.Drifted roots x := by
  rw [← and_assoc, Drifted]
  refine and_congr_left fun _ => ⟨fun hx => (reached_iff_held hl hx.1).mpr hx.2, fun hx => ?_⟩
  have hmem := hl.toFormed.isCounted_iff.mp hx.1
  exact ⟨hmem, (reached_iff_held hl hmem).mp hx⟩

omit hl hroots in
theorem not_reached_nil : ¬ h.Reached [] x := by
  rintro ⟨-, r, hr, -⟩
  cases hr

/-- Given the roots, a verification reports the blocks that have drifted, by the difference of the
counts. -/
theorem reports_roots (hv : v.Current h.live) (hon : v.mode ≠ .off) :
    (∀ x, (∃ d ∈ (h.collect roots roots v).2.reports, d.block = x) ↔ h.Drifted roots x) ∧
      ∀ d ∈ (h.collect roots roots v).2.reports,
        d.kind = if h.rc d.block < roots.count d.block + h.edgesTo roots d.block then .underCount
          else .overCount := by
  obtain ⟨m, hg, hm⟩ := exists_marked hl hroots
  -- without roots, nothing is in use
  have hbase : ∃ base s, h.Surveyed (h.nextEpoch v).1 roots base s ∧
      (s = if roots.isEmpty then
        h.live.foldl ((h.recount h.rc m).verifyBlock (h.nextEpoch v).1)
          ((h.recount h.rc m).verifyWalk (h.nextEpoch v).1 roots (h.nextEpoch v).2)
        else (h.recount h.rc m).verifyWalk (h.nextEpoch v).1 roots (h.nextEpoch v).2) ∧
      ∀ x, base x = roots.count x := by
    cases hempty : roots with
    | nil =>
      subst hempty
      refine ⟨_, _, surveyed_list hl hv hm, rfl, fun x => ?_⟩
      exact if_neg fun hseed => not_reached_nil hseed.1
    | cons r rest => exact ⟨_, _, surveyed_roots hl hv, rfl, fun x => rfl⟩
  obtain ⟨base, s, hsurveyed, hs, hcount⟩ := hbase
  rw [verdict_eq hon hg hs]
  refine ⟨fun x => ?_, fun d hd => ?_⟩
  · rw [hsurveyed.reports hl, hcount]
    exact drifted_iff hl
  · obtain ⟨x, hx, hd⟩ := List.mem_filterMap.mp hd
    rw [kind_verifyDrift hd, block_verifyDrift hd,
      rc_recount h.rc_lt (hl.toFormed.isCounted_iff.mpr hx), hsurveyed.expected x hx, hcount]

/-- A collection that walks the stack verifies the counts exactly if it comes past no static literal
and the blocks in use have the roots that it takes them to have. -/
theorem verifies_stack_iff (hv : v.Current h.live) (hon : v.mode ≠ .off) :
    h.Verifies roots (h.collect [] roots v).2 ↔ h.EdgesClear roots ∧ h.Rooted roots := by
  classical
  obtain ⟨m, hg, hm⟩ := exists_marked hl hroots
  rw [verifies_of_surveyed hl hroots hon hg rfl (surveyed_list hl hv hm)]
  have hbase : ∀ x, x ≠ 0 → 0 < h.assumedRoots roots x → x ∈ h.live := by
    intro x _ hpos
    rw [assumedRoots] at hpos
    split at hpos
    next hseed => exact hl.toFormed.isCounted_iff.mp hseed.1.1
    next => exact absurd hpos (Nat.lt_irrefl 0)
  rw [and_iff_right hbase]
  refine and_congr_right fun _ => ?_
  -- exactly the blocks in use are counted
  have hcount : ∀ x, x ∈ h.live ∧ h.assumedRoots roots x + h.edgesTo roots x ≠ 0 ↔
      h.Reached roots x := by
    intro x
    constructor
    · rintro ⟨hx, hne⟩
      by_cases hedges : 0 < h.edgesTo roots x
      · exact (reached_iff_held hl hx).mpr (by omega)
      · rw [assumedRoots] at hne
        split at hne
        next hseed => exact hseed.1
        next => omega
    · intro hx
      refine ⟨hl.toFormed.isCounted_iff.mp hx.1, ?_⟩
      by_cases hedges : ∃ y, h.Reached roots y ∧ x ∈ h.refs y
      · have := (edgesTo_pos_iff hl.toFormed).mpr hedges
        omega
      · rw [assumedRoots, if_pos (Seed.held hx hedges)]
        omega
  constructor
  · intro hall x hx
    have hiff := hall x
    rw [← and_assoc, hcount, Drifted, and_iff_right hx, and_iff_right hx] at hiff
    omega
  · intro hrooted x
    rw [← and_assoc, hcount, Drifted]
    refine and_congr_right fun hx => ?_
    have := hrooted x hx
    omega

/-- A collection from given roots verifies the counts exactly if no static literal is held by the
roots or the blocks in use. -/
theorem verifies_roots_iff (hv : v.Current h.live) (hon : v.mode ≠ .off) :
    h.Verifies roots (h.collect roots roots v).2 ↔ h.RootsClear roots ∧ h.EdgesClear roots := by
  by_cases hempty : roots = []
  · -- nothing is in use
    subst hempty
    rw [verifies_stack_iff hl hroots hv hon]
    exact iff_of_true ⟨fun y hy => absurd hy not_reached_nil, fun x hx => absurd hx not_reached_nil⟩
      ⟨fun _ hx => absurd hx List.not_mem_nil, fun y hy => absurd hy not_reached_nil⟩
  obtain ⟨m, hg, -⟩ := exists_marked hl hroots
  have hisEmpty : roots.isEmpty = false := by
    rw [← Bool.not_eq_true, List.isEmpty_iff]
    exact hempty
  rw [verifies_of_surveyed hl hroots hon hg (by rw [hisEmpty, if_neg Bool.false_ne_true])
    (surveyed_roots hl hv)]
  rw [and_iff_left fun x => drifted_iff hl]
  refine and_congr_left fun _ => ⟨fun hall x hx hlit => ?_, fun hclear x h0 hpos => ?_⟩
  · have h0 := hlit.ne_zero hl.toFormed
    exact (hl.toFormed.mem_live_iff (hroots x hx) h0).mp (hall x h0 (List.count_pos_iff.mpr hx)) hlit
  · have hx := List.count_pos_iff.mp hpos
    exact (hl.toFormed.mem_live_iff (hroots x hx) h0).mpr (hclear x hx)

end Collections

/-- A verification that is given the roots is right exactly if it comes past no static literal. One
that has to find the roots is right exactly if no block in use refers to a static literal, and the
blocks in use have the roots that it assumes. -/
theorem verifies_iff (h : Heap) (v : Verifier) (roots : List Addr) (hl : h.Linked)
    (hroots : ∀ r ∈ roots, r = 0 ∨ h.blocks r ≠ none) (hv : v.Current h.live) (hon : v.mode ≠ .off) :
    (h.Verifies roots (h.gcFromRootsWithVerify roots v).2 ↔
        h.RootsClear roots ∧ h.EdgesClear roots) ∧
      (h.Verifies roots (h.gcWithVerify roots v).2 ↔ h.EdgesClear roots ∧ h.Rooted roots) :=
  ⟨verifies_roots_iff hl hroots hv hon, verifies_stack_iff hl hroots hv hon⟩

theorem verifies_weakCycle : (after weakCycle 2).Verifies [0x100, 0x200]
    ((after weakCycle 2).gcFromRootsWithVerify [0x100, 0x200] ⟨.warn, 1, fun _ => ⟨0, 0, false⟩⟩).2 := by
  have hl := reachable_weakCycle.1.sound.counted.linked
  have hlive : (after weakCycle 2).live = [0x200, 0x100] := by decide +kernel
  have hpair : ∀ r ∈ [(0x100 : Addr), 0x200], r ∈ (after weakCycle 2).live := by
    intro r hr
    rw [hlive]
    exact (List.Perm.swap _ _ []).mem_iff.mp hr
  have hroots : ∀ r ∈ [(0x100 : Addr), 0x200], r = 0 ∨ (after weakCycle 2).blocks r ≠ none := by
    intro r hr
    obtain ⟨b, hb, -⟩ := hl.toFormed.exists_block (hpair r hr)
    exact .inr (by rw [hb]; exact Option.some_ne_none b)
  have hne : ∀ r ∈ [(0x100 : Addr), 0x200], r ≠ 0 := by
    rintro r hr rfl
    simp at hr
  refine ((verifies_iff (after weakCycle 2) ⟨.warn, 1, fun _ => ⟨0, 0, false⟩⟩ [0x100, 0x200] hl
    hroots (fun x _ => Nat.zero_le _) (by decide)).1).mpr ⟨fun r hr => ?_, fun y hy => ?_⟩
  · exact (hl.toFormed.mem_live_iff (hroots r hr) (hne r hr)).mp (hpair r hr)
  · -- neither block refers to another
    have hmem := hl.toFormed.isCounted_iff.mp hy.1
    have hrefs : (after weakCycle 2).refs y = [] := by
      rw [hlive] at hmem
      rcases List.mem_cons.mp hmem with rfl | hmem
      · decide +kernel
      · rw [List.mem_singleton.mp hmem]
        decide +kernel
    rw [hrefs]
    exact fun x hx => absurd hx List.not_mem_nil

end Heap

end Corvid.Native
