import Corvid.Lib.Mark
import Corvid.Native.Allocation

/-!
# The collector

Marking only writes mark bits, and the first walk of the sweep only counts, so both leave a heap
that differs from the one before in its words. The second walk frees the blocks without a mark one
after the other, and clears the weak boxes that refer to them.

## Main definitions

* `Heap.recount`: the heap with other counts and marks
* `Heap.Reached`: the blocks that the roots lead to
* `Heap.Swept`: the heap in the middle of the second walk

## Main results

* `gcMark_eq`: marking marks what is reached
* `Swept.block`, `Swept.all`: the second walk
* `gcFromRoots_swept`: a collection
-/

namespace Corvid.Native

open Probing

namespace Heap

/-- A block with a count. -/
def isCounted (h : Heap) (x : Addr) : Bool :=
  match h.blocks x with
  | some b => !b.isImmortal
  | none => false

/-- A block that the roots lead to. -/
def Reached (h : Heap) (roots : List Addr) (x : Addr) : Prop :=
  Mark.Reached h.isCounted h.refs roots x

/-- The heap with other counts and marks. -/
def recount (c : Addr → ℕ) (m : Addr → Bool) (h : Heap) : Heap :=
  { h with
    blocks := fun x => (h.blocks x).map fun b =>
      if b.isImmortal then b else b.setWord (Word.pack (c x) (m x)) }

/-- The references that unmarked blocks hold. -/
def lost (h : Heap) (m : Addr → Bool) (xs : List Addr) (y : Addr) : ℕ :=
  (xs.map fun x => if m x then 0 else (h.refs x).count y).sum

variable {h g : Heap} {x y n k o : Addr} {b : Block} {c c' : Addr → ℕ} {m m' : Addr → Bool}
  {roots xs : List Addr}

theorem rc_lt (h : Heap) (x : Addr) : h.rc x < 2 ^ 61 := by
  unfold rc
  split
  · exact Word.rc_lt _
  · decide

theorem isCounted_of_block (hb : h.blocks x = some b) : h.isCounted x = !b.isImmortal := by
  rw [isCounted, hb]

theorem Formed.isCounted_iff (hf : h.Formed) : h.isCounted x = true ↔ x ∈ h.live := by
  cases hb : h.blocks x with
  | none =>
    rw [isCounted, hb]
    refine ⟨fun h => absurd h Bool.false_ne_true, fun hx => ?_⟩
    obtain ⟨b, -, hb', -⟩ := hf.word x hx
    rw [hb] at hb'
    cases hb'
  | some b => rw [isCounted_of_block hb, hf.mem_live hb, Bool.not_eq_true']

theorem recount_congr (hc : ∀ x, h.isCounted x = true → c x = c' x ∧ m x = m' x) :
    h.recount c m = h.recount c' m' := by
  unfold recount
  congr 1
  funext x
  cases hb : h.blocks x with
  | none => rfl
  | some b =>
    rw [Option.map_some, Option.map_some]
    split
    next => rfl
    next himm =>
      have himm' : b.isImmortal = false := Bool.eq_false_iff.mpr himm
      have := hc x
      rw [isCounted_of_block hb, himm'] at this
      rw [(this rfl).1, (this rfl).2]

theorem blocks_recount (x : Addr) :
    (h.recount c m).blocks x = (h.blocks x).map fun b =>
      if b.isImmortal then b else b.setWord (Word.pack (c x) (m x)) := rfl

theorem recount_immortal (hb : h.blocks x = some b) (himm : b.isImmortal = true) :
    (h.recount c m).blocks x = some b := by
  rw [blocks_recount, hb]
  exact congrArg some (if_pos himm)

theorem recount_counted (hb : h.blocks x = some b) (himm : b.isImmortal = false) :
    (h.recount c m).blocks x = some (b.setWord (Word.pack (c x) (m x))) := by
  rw [blocks_recount, hb]
  exact congrArg some (if_neg (by rw [himm]; exact Bool.false_ne_true))

theorem recount_eq_none : (h.recount c m).blocks x = none ↔ h.blocks x = none := by
  rw [blocks_recount, Option.map_eq_none_iff]

theorem isImmortal_setWord_pack (hx : c x < 2 ^ 61) :
    (b.setWord (Word.pack (c x) (m x))).isImmortal = false :=
  decide_eq_false (Word.pack_ne_immortal hx)

/-- A heap has its own counts. -/
theorem Formed.recount_self (hf : h.Formed) : h.recount h.rc (fun _ => false) = h := by
  unfold recount
  congr 1
  funext x
  cases hb : h.blocks x with
  | none => rfl
  | some b =>
    rw [Option.map_some]
    split
    next => rfl
    next himm =>
      have hx : x ∈ h.live := (hf.mem_live hb).mpr (Bool.eq_false_iff.mpr himm)
      obtain ⟨b', hb', hw, -⟩ := hf.exists_block hx
      rw [hb] at hb'
      cases hb'
      rw [← hw]
      rfl

/-- Writing the word of one block is setting its count and its mark. -/
theorem modify_recount (hb : h.blocks x = some b) (himm : b.isImmortal = false) (count : ℕ)
    (mark : Bool) :
    (h.recount c m).modify x (.setWord (Word.pack count mark)) =
      h.recount (Function.update c x count) (Function.update m x mark) := by
  rw [modify, recount_counted hb himm]
  unfold recount
  dsimp only
  congr 1
  funext y
  by_cases hy : y = x
  · rw [hy, Function.update_self, Function.update_self, Function.update_self, hb]
    exact congrArg some (if_neg (by rw [himm]; exact Bool.false_ne_true)).symm
  · rw [Function.update_of_ne hy, Function.update_of_ne hy, Function.update_of_ne hy]

/-! ### Marking -/

section Marking

variable (hc : h.Linked)

include hc

theorem Linked.valid_of_mem_refs (hx : h.isCounted x = true) (hy : y ∈ h.refs x) :
    y = 0 ∨ h.blocks y ≠ none :=
  hc.refs x (hc.toFormed.isCounted_iff.mp hx) y hy

/-- A step of the marking is a step of the traversal. -/
theorem markStep_sim (hlt : ∀ x, c x < 2 ^ 61) (s : Heap × List Addr) (t : (Addr → Bool) × List Addr)
    (hst : s.1 = h.recount c t.1 ∧ s.2 = t.2 ∧ ∀ x ∈ t.2, x = 0 ∨ h.blocks x ≠ none) :
    Option.Rel (fun (s : Heap × List Addr) (t : (Addr → Bool) × List Addr) =>
        s.1 = h.recount c t.1 ∧ s.2 = t.2 ∧ ∀ x ∈ t.2, x = 0 ∨ h.blocks x ≠ none)
      (markStep s) (Mark.step h.isCounted h.refs t) := by
  obtain ⟨g, stack⟩ := s
  obtain ⟨m, stack'⟩ := t
  obtain ⟨hg, hs, hvalid⟩ := hst
  dsimp only at hg hs hvalid
  subst hg hs
  cases stack with
  | nil => exact .none
  | cons x rest =>
    have hrest : ∀ y ∈ rest, y = 0 ∨ h.blocks y ≠ none :=
      fun y hy => hvalid y (List.mem_cons_of_mem _ hy)
    by_cases hx0 : x = 0
    · -- null is no block
      have hnot : h.isCounted x = false := by rw [isCounted, hx0, hc.null]
      rw [markStep, if_pos hx0, Mark.step, hnot]
      exact .some ⟨rfl, rfl, hrest⟩
    · obtain ⟨b, hb⟩ := Option.ne_none_iff_exists'.mp ((hvalid x List.mem_cons_self).resolve_left hx0)
      have hcounted := isCounted_of_block hb
      cases himm : b.isImmortal with
      | true =>
        simp only [markStep, Mark.step, hx0, if_false, recount_immortal hb himm, himm, hcounted,
          Bool.true_or, if_true, Bool.not_true, Bool.false_and, Bool.false_eq_true]
        exact .some ⟨rfl, rfl, hrest⟩
      | false =>
        have hmarked : Word.isMarked (b.setWord (Word.pack (c x) (m x))).refcountWord = m x :=
          Word.isMarked_pack (hlt x)
        have hword : Word.setMark (b.setWord (Word.pack (c x) (m x))).refcountWord =
            Word.pack (c x) true := Word.setMark_pack (hlt x)
        have htrace : (b.setWord (Word.pack (c x) (m x))).trace = h.refs x := by
          rw [refs, hb]
          rfl
        simp only [markStep, Mark.step, hx0, if_false, recount_counted hb himm,
          isImmortal_setWord_pack (hlt x), Bool.false_or, hmarked, hword, htrace, hcounted, himm,
          Bool.not_false, Bool.true_and]
        cases hm : m x with
        | true =>
          simp only [if_true, Bool.not_true, Bool.false_eq_true, if_false]
          exact .some ⟨rfl, rfl, hrest⟩
        | false =>
          simp only [Bool.false_eq_true, if_false, Bool.not_false, if_true]
          refine .some ⟨?_, rfl, fun y hy => ?_⟩
          · rw [modify_recount hb himm, Function.update_eq_self]
          · rcases List.mem_append.mp hy with hy | hy
            · refine hc.valid_of_mem_refs ?_ hy
              rw [hcounted, himm]
              rfl
            · exact hrest y hy

theorem markPotential_eq :
    markPotential (h, roots) = Mark.potential h.refs h.live (fun _ => false, roots) := by
  unfold markPotential Mark.potential
  congr 2
  refine List.map_congr_left fun x hx => ?_
  obtain ⟨b, hb, hw, hlt⟩ := hc.exists_block hx
  rw [markWeight, hb, refs, hb]
  simp only [hw, Word.isMarked_pack hlt, Bool.false_eq_true, if_false]

/-- Marking marks what is reached. -/
theorem gcMark_eq (hroots : ∀ r ∈ roots, r = 0 ∨ h.blocks r ≠ none) :
    h.gcMark roots = h.recount h.rc (Mark.marks h.isCounted h.refs h.live roots) := by
  have hstart : h = h.recount h.rc fun _ => false := hc.toFormed.recount_self.symm
  unfold gcMark Mark.marks Loop.exhaust
  rw [markPotential_eq hc]
  exact (Loop.run_sim (markStep_sim hc h.rc_lt) _
    (s := (h, roots)) (t := (fun _ => false, roots)) ⟨hstart, rfl, hroots⟩).1

end Marking

/-! ### Counting -/

section Counting

variable (hc : h.Counted [])

include hc

theorem gcDecrement_recount (hlt : ∀ x, c x < 2 ^ 61) (hy : y = 0 ∨ h.blocks y ≠ none) :
    (h.recount c m).gcDecrement y = h.recount (fun x => c x - [y].count x) m := by
  -- only the count of `y` matters, and that only if it has one
  have hskip : h.isCounted y = false →
      h.recount c m = h.recount (fun x => c x - [y].count x) m := by
    intro hnot
    refine recount_congr fun x hx => ⟨?_, rfl⟩
    have hxy : y ≠ x := by
      rintro rfl
      rw [hnot] at hx
      cases hx
    rw [List.count_cons_of_ne hxy]
    rfl
  unfold gcDecrement
  split
  next hy0 =>
    refine hskip ?_
    rw [isCounted, hy0, hc.null]
  next hy0 =>
    obtain ⟨b, hb⟩ := Option.ne_none_iff_exists'.mp (hy.resolve_left hy0)
    cases himm : b.isImmortal with
    | true =>
      rw [recount_immortal hb himm]
      simp only [himm, if_true]
      refine hskip ?_
      rw [isCounted_of_block hb, himm]
      rfl
    | false =>
      rw [recount_counted hb himm]
      have hword : Word.decrement (b.setWord (Word.pack (c y) (m y))).refcountWord =
          Word.pack (c y - 1) (m y) := Word.decrement_pack (hlt y)
      simp only [isImmortal_setWord_pack (hlt y), Bool.false_eq_true, if_false, hword]
      rw [modify_recount hb himm, Function.update_eq_self]
      refine recount_congr fun x _ => ⟨?_, rfl⟩
      by_cases hxy : x = y
      · rw [hxy, Function.update_self, List.count_cons_self]
        rfl
      · rw [Function.update_of_ne hxy, List.count_cons_of_ne (Ne.symm hxy)]
        rfl

theorem foldl_gcDecrement (hlt : ∀ x, c x < 2 ^ 61) (hxs : ∀ y ∈ xs, y = 0 ∨ h.blocks y ≠ none) :
    xs.foldl gcDecrement (h.recount c m) = h.recount (fun x => c x - xs.count x) m := by
  induction xs generalizing c with
  | nil => rfl
  | cons y xs ih =>
    rw [List.foldl_cons, gcDecrement_recount hc hlt (hxs y List.mem_cons_self),
      ih (fun x => (Nat.sub_le _ _).trans_lt (hlt x)) fun z hz => hxs z (List.mem_cons_of_mem _ hz)]
    refine recount_congr fun x _ => ⟨?_, rfl⟩
    have hcount : (y :: xs).count x = [y].count x + xs.count x := by
      rw [← List.count_append]
      rfl
    rw [hcount, Nat.sub_sub]

/-- The first walk of the sweep. -/
theorem foldl_gcDecrementRefs (hlt : ∀ x, c x < 2 ^ 61) (hxs : ∀ x ∈ xs, x ∈ h.live) :
    xs.foldl gcDecrementRefs (h.recount c m) = h.recount (fun x => c x - h.lost m xs x) m := by
  induction xs generalizing c with
  | nil => rfl
  | cons y xs ih =>
    have hy := hxs y List.mem_cons_self
    obtain ⟨b, hb, -⟩ := hc.exists_block hy
    have himm := hc.toFormed.not_immortal hy hb
    have hrefs : b.trace = h.refs y := by rw [refs, hb]
    have hhead : gcDecrementRefs (h.recount c m) y =
        h.recount (fun x => c x - if m y then 0 else (h.refs y).count x) m := by
      rw [gcDecrementRefs, recount_counted hb himm]
      have hmarked : Word.isMarked (b.setWord (Word.pack (c y) (m y))).refcountWord = m y :=
        Word.isMarked_pack (hlt y)
      simp only [isImmortal_setWord_pack (hlt y), Bool.false_or, hmarked]
      cases hm : m y with
      | true => simp only [if_true, Nat.sub_zero]
      | false =>
        simp only [Bool.false_eq_true, if_false]
        rw [← hrefs]
        refine foldl_gcDecrement hc hlt fun z hz => ?_
        exact hc.refs y hy List.not_mem_nil z (hrefs ▸ hz)
    rw [List.foldl_cons, hhead, ih (fun x => (Nat.sub_le _ _).trans_lt (hlt x))
      fun z hz => hxs z (List.mem_cons_of_mem _ hz)]
    refine recount_congr fun x _ => ⟨?_, rfl⟩
    rw [lost, lost, List.map_cons, List.sum_cons, Nat.sub_sub]

end Counting

/-! ### Sweeping -/

/-- A weak box whose target is among some blocks and not marked. -/
def Cleared (h : Heap) (m : Addr → Bool) (xs : List Addr) (x : Addr) : Prop :=
  ∃ n k, h.nodes n = some ⟨k, x⟩ ∧ k ∈ xs ∧ m k = false

/-- The heap in the second walk, after it has come past the blocks `xs`. -/
structure Swept (h : Heap) (c : Addr → ℕ) (m : Addr → Bool) (xs : List Addr) (g : Heap) : Prop where
  live : g.live = h.live.filter fun x => m x || !decide (x ∈ xs)
  gone : ∀ x, x ∈ xs → m x = false → g.blocks x = none
  absent : ∀ x, h.blocks x = none → g.blocks x = none
  block : ∀ x b, h.blocks x = some b → (x ∈ xs → m x = true) →
    ∃ b', g.blocks x = some b' ∧ b'.typeinfo = b.typeinfo ∧
      b'.refcountWord = (if b.isImmortal then b.refcountWord
        else Word.pack (c x) (m x && !decide (x ∈ xs))) ∧
      (h.Cleared m xs x → b'.payload = b.clear.payload) ∧
      (¬ h.Cleared m xs x → b'.payload = b.payload)
  nodes : ∀ n k o, g.nodes n = some ⟨k, o⟩ ↔ h.nodes n = some ⟨k, o⟩ ∧ (k ∈ xs → m k = true)
  filed : g.Filed
  pooled : g.Pooled
  freed : ∀ y, g.freed.count y = h.freed.count y + if y ∈ xs ∧ m y = false then 1 else 0
  fault : (∀ n k o, h.nodes n = some ⟨k, o⟩ → m o = true) → g.fault = h.fault

section Sweeping

/-- What the sweep relies on: the owners of nodes are weak boxes and the keys are not. -/
structure Noded (h : Heap) : Prop where
  owner : ∀ n k o, h.nodes n = some ⟨k, o⟩ →
    ∃ b, h.blocks o = some b ∧ b.typeinfo = .weakBox ∧ b.target = k ∧ b.node = n
  key : ∀ n k o, h.nodes n = some ⟨k, o⟩ → ∃ t, h.blocks k = some t ∧ t.typeinfo.weakFn = true

theorem Boxed.noded (hb : h.Boxed) (hf : h.Filed) : h.Noded :=
  ⟨hb.owner, fun _ _ _ hn => hb.key_weakFn hf hn⟩

variable (hc : h.Counted []) (hlt : ∀ x, c x < 2 ^ 61)

include hc hlt

omit hlt in
theorem swept_nil (hf : h.Filed) (hp : h.Pooled) : Swept h c m [] (h.recount c m) := by
  refine ⟨?_, fun x hx => absurd hx List.not_mem_nil, fun x hx => recount_eq_none.mpr hx,
    fun x b hb _ => ?_, fun n k o => ?_, hf.congr rfl rfl rfl,
    hp.congr rfl fun _ => recount_eq_none, fun y => ?_, fun _ => rfl⟩
  · exact (List.filter_eq_self.mpr fun x _ => by simp).symm
  · refine ⟨if b.isImmortal then b else b.setWord (Word.pack (c x) (m x)),
      by rw [blocks_recount, hb]; rfl, ?_, ?_, ?_, fun _ => ?_⟩
    · split <;> rfl
    · simp only [List.not_mem_nil, decide_false, Bool.not_false, Bool.and_true]
      split <;> rfl
    · rintro ⟨n, k, -, hk, -⟩
      exact absurd hk List.not_mem_nil
    · split <;> rfl
  · exact ⟨fun h => ⟨h, fun hk => absurd hk List.not_mem_nil⟩, fun h => h.1⟩
  · rw [if_neg fun h => List.not_mem_nil h.1]
    rfl

variable (hs : Swept h c m xs g) (hx : x ∈ h.live) (hnot : x ∉ xs)

include hs hx hnot

omit hlt in
/-- The next block of the walk, which has not been touched yet but for its slots. -/
theorem Swept.next : ∃ b, g.blocks x = some b ∧ b.refcountWord = Word.pack (c x) (m x) := by
  obtain ⟨b, hb, -⟩ := hc.exists_block hx
  obtain ⟨b', hb', -, hw, -⟩ := hs.block x b hb fun h => absurd h hnot
  rw [hc.toFormed.not_immortal hx hb] at hw
  simp only [Bool.false_eq_true, if_false, decide_eq_false hnot, Bool.not_false, Bool.and_true] at hw
  exact ⟨b', hb', hw⟩

theorem Swept.marked (hm : m x = true) :
    Swept h c m (xs ++ [x]) (g.gcSweepBlock x) := by
  obtain ⟨b, hb, hw⟩ := hs.next hc hx hnot
  have hstep : g.gcSweepBlock x = g.modify x (.setWord (Word.pack (c x) false)) := by
    have himm : b.isImmortal = false := by
      rw [Block.isImmortal, hw]
      exact decide_eq_false (Word.pack_ne_immortal (hlt x))
    rw [gcSweepBlock, hb]
    simp only [himm, Bool.false_eq_true, if_false, hw, Word.isMarked_pack (hlt x), hm, if_true,
      Word.clearMark_pack (hlt x)]
  -- a marked block is not gone, so nothing changes for the others
  have hmem : ∀ y, m y = false → (y ∈ xs ++ [x] ↔ y ∈ xs) := by
    intro y hy
    rw [List.mem_append, List.mem_singleton]
    refine or_iff_left ?_
    rintro rfl
    rw [hm] at hy
    cases hy
  have hcleared : ∀ y, h.Cleared m (xs ++ [x]) y ↔ h.Cleared m xs y := by
    intro y
    unfold Cleared
    refine exists_congr fun n => exists_congr fun k => and_congr_right fun _ => ?_
    exact and_congr_left fun hk => hmem k hk
  rw [hstep]
  refine ⟨?_, fun y hy hmy => ?_, fun y hy => ?_, fun y b₀ hb₀ hy => ?_, fun n k o => ?_,
    hs.filed.congr modify_weakBuckets modify_weakLen modify_nodes,
    hs.pooled.congr modify_pools fun _ => blocks_setWord_eq_none _, fun y => ?_, fun hall => ?_⟩
  · rw [modify_live, hs.live]
    refine List.filter_congr fun y _ => ?_
    cases hmy : m y with
    | true => rfl
    | false => simp only [Bool.false_or, hmem y hmy]
  · rw [blocks_setWord_eq_none]
    exact hs.gone y ((hmem y hmy).mp hy) hmy
  · rw [blocks_setWord_eq_none]
    exact hs.absent y hy
  · rw [hcleared]
    by_cases hyx : y = x
    · subst hyx
      obtain ⟨b', hb', hty, -, hpay⟩ := hs.block y b₀ hb₀ fun h => absurd h hnot
      refine ⟨b'.setWord (Word.pack (c y) false), by rw [modify_blocks_self, hb']; rfl, hty, ?_, hpay⟩
      rw [hc.toFormed.not_immortal hx hb₀]
      simp [Block.setWord]
    · obtain ⟨b', hb', hty, hw', hpay⟩ := hs.block y b₀ hb₀ fun hmem =>
        hy (List.mem_append_left _ hmem)
      refine ⟨b', by rw [modify_blocks_of_ne hyx, hb'], hty, ?_, hpay⟩
      rw [hw']
      simp [hyx]
  · rw [modify_nodes, hs.nodes]
    refine and_congr_right fun _ => ⟨fun h hk => ?_, fun h hk => h (List.mem_append_left _ hk)⟩
    by_contra hmk
    exact hmk (h ((hmem k (Bool.eq_false_iff.mpr hmk)).mp hk))
  · rw [modify_freed, hs.freed]
    congr 1
    refine if_congr (and_congr_left fun hmy => (hmem y hmy).symm) rfl rfl
  · rw [modify_fault (by rw [hb]; exact Option.some_ne_none b), hs.fault hall]

omit hlt in
/-- What the sweep does to the side table before it frees a block. -/
theorem Swept.detached (hn : h.Noded) (hb : g.blocks x = some b) :
    Detached (fun n => ∃ o, g.nodes n = some ⟨x, o⟩) g
      (if b.typeinfo.weakFn then g.weakClearSelf x else g) := by
  split
  next => exact weakClearSelf_detached hs.filed x
  next hweak =>
    -- nothing refers to a weak box weakly
    refine .refl hs.filed fun n hnode => ?_
    obtain ⟨o, hnode⟩ := hnode
    obtain ⟨t, ht, hweak'⟩ := hn.key n x o ((hs.nodes n x o).mp hnode).1
    obtain ⟨b', hb', hty, -⟩ := hs.block x t ht fun h => absurd h hnot
    rw [hb] at hb'
    cases hb'
    rw [hty] at hweak
    exact absurd hweak' hweak

theorem Swept.unmarked (hn : h.Noded) (hm : m x = false) :
    Swept h c m (xs ++ [x]) (g.gcSweepBlock x) := by
  obtain ⟨b, hb, hw⟩ := hs.next hc hx hnot
  have hd := hs.detached hc hx hnot hn hb
  have hstep : g.gcSweepBlock x =
      (if b.typeinfo.weakFn then g.weakClearSelf x else g).freeBlock x := by
    have himm : b.isImmortal = false := by
      rw [Block.isImmortal, hw]
      exact decide_eq_false (Word.pack_ne_immortal (hlt x))
    rw [gcSweepBlock, hb]
    simp only [himm, Bool.false_eq_true, if_false, hw, Word.isMarked_pack (hlt x), hm]
  rw [hstep]
  generalize (if b.typeinfo.weakFn then g.weakClearSelf x else g) = g' at hd
  obtain ⟨b', hb'⟩ : ∃ b', g'.blocks x = some b' := by
    refine Option.ne_none_iff_exists'.mp fun hnone => ?_
    rw [hd.allocated, hb] at hnone
    cases hnone
  have hmem : ∀ {y}, y ∈ xs ++ [x] ↔ y ∈ xs ∨ y = x := by simp
  have hx0 : x ≠ 0 := by
    obtain ⟨b₀, hb₀, -⟩ := hc.exists_block hx
    exact hc.ne_zero hb₀
  -- the nodes of the block are those of the heap before the sweep
  have hnode : ∀ n o, g.nodes n = some ⟨x, o⟩ ↔ h.nodes n = some ⟨x, o⟩ := fun n o => by
    rw [hs.nodes]
    exact and_iff_left fun h => absurd h hnot
  refine ⟨?_, fun y hy hmy => ?_, fun y hy => ?_, fun y b₀ hb₀ hy => ?_, fun n k o => ?_,
    hd.filed.freeBlock hb', (hs.pooled.congr hd.pools hd.allocated).freeBlock hx0 hb',
    fun y => ?_, fun hall => ?_⟩
  · rw [live_freeBlock hb', hd.live, hs.live, (hc.nodup.filter _).erase_eq_filter,
      List.filter_filter]
    refine List.filter_congr fun y _ => ?_
    by_cases hyx : y = x
    · simp [hyx, hm]
    · simp [hyx]
  · rw [blocks_freeBlock hb']
    by_cases hyx : y = x
    · rw [hyx, Function.update_self]
    · rw [Function.update_of_ne hyx, hd.allocated]
      exact hs.gone y ((hmem.mp hy).resolve_right hyx) hmy
  · rw [blocks_freeBlock hb']
    by_cases hyx : y = x
    · rw [hyx, Function.update_self]
    · rw [Function.update_of_ne hyx, hd.allocated]
      exact hs.absent y hy
  · have hyx : y ≠ x := by
      rintro rfl
      rw [hy (hmem.mpr (.inr rfl))] at hm
      cases hm
    obtain ⟨b₁, hb₁, hty, hword, hcleared, hsame⟩ := hs.block y b₀ hb₀ fun h => hy (hmem.mpr (.inl h))
    have hword' : b₁.refcountWord = if b₀.isImmortal then b₀.refcountWord
        else Word.pack (c y) (m y && !decide (y ∈ xs ++ [x])) := by
      rw [hword]
      simp [hyx]
    rw [blocks_freeBlock hb', Function.update_of_ne hyx]
    by_cases htarget : ∃ n, h.nodes n = some ⟨x, y⟩
    · -- a weak box of the block, cleared now if it was not before
      obtain ⟨n, hn⟩ := htarget
      have hclear := hd.cleared n x y ⟨y, (hnode n y).mpr hn⟩ ((hnode n y).mpr hn)
      have hpay : b₁.clear.payload = b₀.clear.payload := by
        have hfn : ∀ b : Block, b.clear.payload =
            Function.update (Function.update b.payload 0 0) 1 0 := fun _ => rfl
        by_cases hcl : h.Cleared m xs y
        · rw [hfn, hcleared hcl, ← hfn b₀.clear, Block.clear_clear]
        · rw [hfn, hsame hcl, ← hfn]
      refine ⟨b₁.clear, by rw [hclear, hb₁]; rfl, hty, hword', fun _ => hpay, fun hnot' => ?_⟩
      exact absurd ⟨n, x, hn, hmem.mpr (.inr rfl), hm⟩ hnot'
    · have hsame' : g'.blocks y = g.blocks y := by
        refine hd.same y fun n k hgone hk => htarget ⟨n, ?_⟩
        obtain ⟨o, ho⟩ := hgone
        rw [hk] at ho
        cases ho
        exact (hnode n y).mp hk
      have hiff : h.Cleared m (xs ++ [x]) y ↔ h.Cleared m xs y := by
        constructor
        · rintro ⟨n, k, hk, hmk, hfalse⟩
          rcases hmem.mp hmk with hmk | rfl
          · exact ⟨n, k, hk, hmk, hfalse⟩
          · exact absurd ⟨n, hk⟩ htarget
        · rintro ⟨n, k, hk, hmk, hfalse⟩
          exact ⟨n, k, hk, hmem.mpr (.inl hmk), hfalse⟩
      rw [hiff]
      exact ⟨b₁, hsame'.trans hb₁, hty, hword', hcleared, hsame⟩
  · rw [nodes_freeBlock hb']
    constructor
    · intro hk
      obtain ⟨hgone, hk⟩ := hd.node_of hk
      obtain ⟨hk', hmk⟩ := (hs.nodes n k o).mp hk
      refine ⟨hk', fun hin => ?_⟩
      rcases hmem.mp hin with hin | rfl
      · exact hmk hin
      · exact absurd ⟨o, hk⟩ hgone
    · rintro ⟨hk, hmk⟩
      have hk' := (hs.nodes n k o).mpr ⟨hk, fun hin => hmk (hmem.mpr (.inl hin))⟩
      rw [hd.kept, hk']
      rintro ⟨o', ho'⟩
      rw [hk'] at ho'
      cases ho'
      rw [hmk (hmem.mpr (.inr rfl))] at hm
      cases hm
  · rw [freed_freeBlock hb', hd.freed, List.count_cons, hs.freed]
    by_cases hyx : y = x
    · subst hyx
      rw [if_neg fun h => hnot h.1, if_pos (by simp), if_pos ⟨hmem.mpr (.inr rfl), hm⟩]
    · rw [if_neg (show ¬(x == y) = true by simpa using Ne.symm hyx), Nat.add_zero]
      congr 1
      exact if_congr (and_congr_left fun _ => (hmem.trans (or_iff_left hyx)).symm) rfl rfl
  · rw [fault_freeBlock hb', hd.fault, hs.fault hall]
    intro n k o hgone hk
    -- the owner is marked, so it is still there
    have hk' := ((hs.nodes n k o).mp hk).1
    obtain ⟨b₀, ho, -⟩ := hn.owner n k o hk'
    obtain ⟨b₁, hb₁, -⟩ := hs.block o b₀ ho fun _ => hall n k o hk'
    rw [hb₁]
    exact Option.some_ne_none b₁

omit hx hnot

/-- The second walk of the sweep. -/
theorem Swept.all (hn : h.Noded) {ys : List Addr} (hlive : xs ++ ys = h.live) :
    Swept h c m h.live (ys.foldl gcSweepBlock g) := by
  induction ys generalizing xs g with
  | nil =>
    rw [← hlive, List.append_nil]
    exact hs
  | cons y ys ih =>
    have hy : y ∈ h.live := by rw [← hlive]; simp
    have hnodup := hc.nodup
    rw [← hlive] at hnodup
    have hnot : y ∉ xs := fun h =>
      (List.nodup_append.mp hnodup).2.2 y h y List.mem_cons_self rfl
    have hlive' : (xs ++ [y]) ++ ys = h.live := by rw [List.append_assoc]; exact hlive
    cases hm : m y with
    | true => exact ih (hs.marked hc hlt hy hnot hm) hlive'
    | false => exact ih (hs.unmarked hc hlt hy hnot hn hm) hlive'

end Sweeping

/-- A collection: marked is what the roots lead to, and counts lose what is not marked. -/
theorem gcFromRoots_swept (hc : h.Counted []) (hf : h.Filed) (hp : h.Pooled) (hn : h.Noded)
    (hroots : ∀ r ∈ roots, r = 0 ∨ h.blocks r ≠ none) :
    ∃ m, (∀ x, m x = true ↔ h.Reached roots x) ∧
      Swept h (fun x => h.rc x - h.lost m h.live x) m h.live (h.gcFromRoots roots) := by
  refine ⟨Mark.marks h.isCounted h.refs h.live roots, fun x => ?_, ?_⟩
  · exact Mark.marks_iff fun x hx => hc.toFormed.isCounted_iff.mp hx
  · have hlt : ∀ x, h.rc x - h.lost (Mark.marks h.isCounted h.refs h.live roots) h.live x < 2 ^ 61 :=
      fun x => (Nat.sub_le _ _).trans_lt (h.rc_lt x)
    have hwalk : (h.gcMark roots).gcSweep = h.live.foldl gcSweepBlock (h.recount
        (fun x => h.rc x - h.lost (Mark.marks h.isCounted h.refs h.live roots) h.live x)
        (Mark.marks h.isCounted h.refs h.live roots)) := by
      rw [gcMark_eq hc.linked hroots]
      unfold gcSweep
      dsimp only
      rw [show (h.recount h.rc (Mark.marks h.isCounted h.refs h.live roots)).live = h.live from rfl,
        foldl_gcDecrementRefs hc h.rc_lt fun x hx => hx]
      rfl
    rw [gcFromRoots, hwalk]
    exact (swept_nil hc hf hp).all hc hlt hn (List.nil_append _)

end Heap

end Corvid.Native
