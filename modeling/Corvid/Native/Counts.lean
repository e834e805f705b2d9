import Corvid.Native.Weak
import Mathlib.Algebra.Order.BigOperators.Group.List
import Mathlib.Algebra.Order.Group.Nat
import Mathlib.Data.List.Nodup

/-!
# Sound counts

A block has at least as many references counted as the other blocks hold to it; the rest belong to
the program. While a release is under way, a block whose count is zero has handed its references
over to the releases that are still to be done, and waits to be freed.

## Main definitions

* `Heap.Counted`: the invariant of the counts, with the tasks of a release
* `Heap.Sound`: the invariant of the heap

## Main results

* `Sound.releaseStep`, `Sound.release`: releasing a reference
* `releaseStep_potential`: a release ends
-/

namespace Corvid.Native

open Probing

/-- Two sums over a list that differ in one place. -/
theorem sum_map_of_eq_off {α : Type*} [DecidableEq α] {l : List α} {x : α} {f g : α → ℕ}
    (hl : l.Nodup) (hx : x ∈ l) (hoff : ∀ y ∈ l, y ≠ x → f y = g y) :
    (l.map f).sum + g x = (l.map g).sum + f x := by
  have hperm := List.perm_cons_erase hx
  rw [(hperm.map f).sum_eq, (hperm.map g).sum_eq, List.map_cons, List.map_cons, List.sum_cons,
    List.sum_cons]
  have hrest : (l.erase x).map f = (l.erase x).map g := by
    refine List.map_congr_left fun y hy => ?_
    rw [hl.mem_erase_iff] at hy
    exact hoff y hy.2 hy.1
  rw [hrest]
  omega

theorem Typeinfo.refs_of_destroyFn {ti : Typeinfo} (h : ti.destroyFn ≠ some .releaseRefs)
    (p : Payload) : ti.refs p = [] := by
  cases ti with
  | string | weakBox => rfl
  | struct fields =>
    have hnone : fields.any id = false := by
      rw [Bool.eq_false_iff]
      exact fun hany => h (if_pos hany)
    rw [refs, List.map_eq_nil_iff, List.filter_eq_nil_iff]
    intro f hf
    rw [List.any_eq_false] at hnone
    exact hnone f.1 (List.fst_mem_of_mem_zipIdx hf)
  | list elem | option elem =>
    cases elem with
    | true => exact absurd rfl h
    | false => rfl
  | result ok err =>
    cases ok <;> cases err <;> simp_all [destroyFn, refs]

namespace Heap

/-- The reference count of a block. -/
def rc (h : Heap) (x : Addr) : ℕ :=
  match h.blocks x with
  | some b => Word.rc b.refcountWord
  | none => 0

/-- What the collector follows from a block. -/
def refs (h : Heap) (x : Addr) : List Addr :=
  match h.blocks x with
  | some b => b.trace
  | none => []

/-- The references that blocks hold, those aside that are about to be freed. -/
def inEdges (h : Heap) (ts : List Task) (y : Addr) : ℕ :=
  (h.live.map fun x => if Task.free x ∈ ts then 0 else (h.refs x).count y).sum

/-- What counting looks at in a block. -/
def view (h : Heap) (x : Addr) : Option (Word × Typeinfo × List Addr) :=
  (h.blocks x).map fun b => (b.refcountWord, b.typeinfo, b.trace)

/-- The list links the blocks with a count, whose mark bits are clear. -/
structure Formed (h : Heap) : Prop where
  nodup : h.live.Nodup
  null : h.blocks 0 = none
  word : ∀ x ∈ h.live, ∃ b n, h.blocks x = some b ∧ n < 2 ^ 61 ∧ b.refcountWord = Word.pack n false
  literal : ∀ x b, h.blocks x = some b → x ∉ h.live →
    b.refcountWord = Word.immortal ∧ b.typeinfo = .string

/-- The references that blocks hold are null or lead to blocks. -/
structure Linked (h : Heap) : Prop extends Formed h where
  refs : ∀ x ∈ h.live, ∀ y ∈ h.refs x, y = 0 ∨ h.blocks y ≠ none

structure Counted (h : Heap) (ts : List Task) : Prop extends Formed h where
  dying : ∀ x, .free x ∈ ts → x ∈ h.live ∧ h.rc x = 0
  once : ∀ x, ts.count (.free x) ≤ 1
  alive : ∀ x ∈ h.live, .free x ∉ ts → 0 < h.rc x
  refs : ∀ x ∈ h.live, .free x ∉ ts → ∀ y ∈ h.refs x, y = 0 ∨ h.blocks y ≠ none
  pending : ∀ y, .release y ∈ ts → y = 0 ∨ h.blocks y ≠ none
  count : ∀ y ∈ h.live, h.inEdges ts y + ts.count (.release y) ≤ h.rc y

/-- The memory in the pools is free, and in one pool only. -/
structure Pooled (h : Heap) : Prop where
  unused : ∀ i, ∀ x ∈ h.pools i, x ≠ 0 ∧ h.blocks x = none
  nodup : ∀ i, (h.pools i).Nodup
  disjoint : ∀ i j x, x ∈ h.pools i → x ∈ h.pools j → i = j

/-- The invariant of the heap, with the tasks of a release. A block that waits to be freed is not in
the side table any more. -/
structure Sound (h : Heap) (ts : List Task) : Prop where
  counted : h.Counted ts
  pooled : h.Pooled
  filed : h.Filed
  boxed : h.Boxed
  quiet : ∀ x, .free x ∈ ts → ∀ n k o, h.nodes n = some ⟨k, o⟩ → k ≠ x ∧ o ≠ x
  fault : h.fault = none

variable {h h' : Heap} {ts : List Task} {x y : Addr} {b : Block} {n : ℕ}

theorem rc_of_block (hx : h.blocks x = some b) : h.rc x = Word.rc b.refcountWord := by
  rw [rc, hx]

theorem rc_congr (hx : h'.blocks x = h.blocks x) : h'.rc x = h.rc x := by
  rw [rc, rc, hx]

theorem refs_congr (hx : h'.blocks x = h.blocks x) : h'.refs x = h.refs x := by
  rw [refs, refs, hx]

theorem refs_of_block (hx : h.blocks x = some b) : h.refs x = b.typeinfo.refs b.payload := by
  rw [refs, hx]
  exact b.trace_eq_refs

theorem view_eq_some {v : Word × Typeinfo × List Addr} :
    h.view x = some v ↔
      ∃ b, h.blocks x = some b ∧ b.refcountWord = v.1 ∧ b.typeinfo = v.2.1 ∧ b.trace = v.2.2 := by
  rw [view, Option.map_eq_some_iff]
  refine exists_congr fun b => and_congr_right fun _ => ?_
  rw [Prod.ext_iff, Prod.ext_iff]

theorem view_of_block (hx : h.blocks x = some b) :
    h.view x = some (b.refcountWord, b.typeinfo, b.trace) := by
  rw [view, hx]
  rfl

theorem view_eq_none : h.view x = none ↔ h.blocks x = none := Option.map_eq_none_iff

theorem rc_eq_view (h : Heap) (x : Addr) : h.rc x = ((h.view x).map fun v => Word.rc v.1).getD 0 := by
  rw [rc, view]
  cases h.blocks x <;> rfl

theorem refs_eq_view (h : Heap) (x : Addr) : h.refs x = ((h.view x).map fun v => v.2.2).getD [] := by
  rw [refs, view]
  cases h.blocks x <;> rfl

theorem Formed.congr (hc : h.Formed) (hlive : h'.live = h.live)
    (hview : ∀ x, h'.view x = h.view x) : h'.Formed := by
  constructor
  · rw [hlive]; exact hc.nodup
  · rw [← view_eq_none, hview, view_eq_none]; exact hc.null
  · rw [hlive]
    intro x hx
    obtain ⟨b, n, hb, hn, hw⟩ := hc.word x hx
    obtain ⟨b', hb', hw', -⟩ := view_eq_some.mp ((hview x).trans (view_of_block hb))
    exact ⟨b', n, hb', hn, hw'.trans hw⟩
  · rw [hlive]
    intro x b' hb' hx
    obtain ⟨b, hb, hw, hti, -⟩ := view_eq_some.mp ((hview x).symm.trans (view_of_block hb'))
    obtain ⟨himm, hstr⟩ := hc.literal x b hb hx
    exact ⟨hw.symm.trans himm, hti.symm.trans hstr⟩

theorem Counted.congr (hc : h.Counted ts) (hlive : h'.live = h.live)
    (hview : ∀ x, h'.view x = h.view x) : h'.Counted ts := by
  have hrc : ∀ x, h'.rc x = h.rc x := fun x => by rw [rc_eq_view, rc_eq_view, hview]
  have hrefs : ∀ x, h'.refs x = h.refs x := fun x => by rw [refs_eq_view, refs_eq_view, hview]
  have hnone : ∀ x, h'.blocks x = none ↔ h.blocks x = none := fun x => by
    rw [← view_eq_none, ← view_eq_none, hview]
  have hedges : ∀ y, h'.inEdges ts y = h.inEdges ts y := fun y => by simp only [inEdges, hlive, hrefs]
  refine ⟨hc.toFormed.congr hlive hview, fun x hx => ?_, hc.once, ?_, ?_, fun y hy => ?_, ?_⟩
  · rw [hlive, hrc]
    exact hc.dying x hx
  · rw [hlive]
    intro x hx
    rw [hrc]
    exact hc.alive x hx
  · rw [hlive]
    intro x hx hfree y hy
    rw [hrefs] at hy
    rw [Ne, hnone]
    exact hc.refs x hx hfree y hy
  · rw [Ne, hnone]
    exact hc.pending y hy
  · rw [hlive]
    intro y hy
    rw [hedges, hrc]
    exact hc.count y hy

theorem Formed.exists_block (hf : h.Formed) (hx : x ∈ h.live) :
    ∃ b, h.blocks x = some b ∧ b.refcountWord = Word.pack (h.rc x) false ∧ h.rc x < 2 ^ 61 := by
  obtain ⟨b, n, hb, hn, hw⟩ := hf.word x hx
  have hrc : h.rc x = n := by rw [rc_of_block hb, hw, Word.rc_pack hn]
  exact ⟨b, hb, hrc ▸ hw, hrc ▸ hn⟩

theorem Formed.not_immortal (hf : h.Formed) (hx : x ∈ h.live) (hb : h.blocks x = some b) :
    b.isImmortal = false := by
  obtain ⟨b', hb', hw, hlt⟩ := hf.exists_block hx
  rw [hb] at hb'
  cases hb'
  rw [Block.isImmortal, hw]
  exact decide_eq_false (Word.pack_ne_immortal hlt)

/-- The blocks with a count are those of the list. -/
theorem Formed.mem_live (hf : h.Formed) (hb : h.blocks x = some b) :
    x ∈ h.live ↔ b.isImmortal = false := by
  refine ⟨fun hx => hf.not_immortal hx hb, fun himm => ?_⟩
  by_contra hx
  rw [Block.isImmortal, (hf.literal x b hb hx).1] at himm
  simp at himm

theorem Counted.linked (hc : h.Counted []) : h.Linked :=
  ⟨hc.toFormed, fun x hx => hc.refs x hx List.not_mem_nil⟩

/-! ### Steps of the counts -/

/-- A reference that is not counted, or more than counted, is just dropped. -/
theorem Counted.skip (hc : h.Counted (.release x :: ts)) : h.Counted ts := by
  have hfree : ∀ z, Task.free z ∈ Task.release x :: ts ↔ Task.free z ∈ ts := fun z => by simp
  have hedges : ∀ y, h.inEdges (.release x :: ts) y = h.inEdges ts y := fun y => by
    simp only [inEdges, hfree]
  refine ⟨hc.toFormed, fun z hz => hc.dying z ((hfree z).mpr hz), ?_, ?_, ?_,
    fun y hy => hc.pending y (List.mem_cons_of_mem _ hy), ?_⟩
  · intro z
    have := hc.once z
    rwa [List.count_cons_of_ne (by simp)] at this
  · exact fun z hz hnot => hc.alive z hz (mt (hfree z).mp hnot)
  · exact fun z hz hnot => hc.refs z hz (mt (hfree z).mp hnot)
  · intro y hy
    have := hc.count y hy
    rw [hedges, List.count_cons] at this
    omega

/-- The heap after the count of a block is set. -/
theorem rc_setWord (hx : h.blocks x = some b) (hn : n < 2 ^ 61) :
    (h.modify x (.setWord (Word.pack n false))).rc = Function.update h.rc x n := by
  funext y
  by_cases hy : y = x
  · subst hy
    rw [Function.update_self, rc, modify_blocks_self, hx]
    exact Word.rc_pack hn
  · rw [Function.update_of_ne hy, rc, rc, modify_blocks_of_ne hy]

theorem refs_setWord (w : Word) : (h.modify x (.setWord w)).refs = h.refs := by
  funext y
  by_cases hy : y = x
  · subst hy
    rw [refs, refs, modify_blocks_self]
    cases h.blocks y <;> rfl
  · rw [refs, refs, modify_blocks_of_ne hy]

theorem blocks_setWord_eq_none (w : Word) :
    (h.modify x (.setWord w)).blocks y = none ↔ h.blocks y = none := by
  by_cases hy : y = x
  · subst hy
    rw [modify_blocks_self, Option.map_eq_none_iff]
  · rw [modify_blocks_of_ne hy]

theorem Formed.setWord (hf : h.Formed) (hx : x ∈ h.live) (hn : n < 2 ^ 61) :
    (h.modify x (.setWord (Word.pack n false))).Formed := by
  refine ⟨by simpa using hf.nodup, (blocks_setWord_eq_none _).mpr hf.null, fun y hy => ?_, ?_⟩
  · rw [modify_live] at hy
    by_cases hyx : y = x
    · subst hyx
      obtain ⟨b, m, hb, -⟩ := hf.word y hx
      exact ⟨_, n, by rw [modify_blocks_self, hb]; rfl, hn, rfl⟩
    · rw [modify_blocks_of_ne hyx]
      exact hf.word y hy
  · intro y b hb hy
    rw [modify_live] at hy
    have hyx : y ≠ x := fun heq => hy (heq ▸ hx)
    rw [modify_blocks_of_ne hyx] at hb
    exact hf.literal y b hb hy

section Release

variable (hc : h.Counted (.release x :: ts)) (hx : x ∈ h.live)

include hc hx

theorem Counted.not_dying : .free x ∉ ts := by
  intro hfree
  have hcount := hc.count x hx
  rw [List.count_cons_self, (hc.dying x (List.mem_cons_of_mem _ hfree)).2] at hcount
  omega

/-- A pending release is counted. -/
theorem Counted.exists_rc : ∃ n, h.rc x = n + 1 := by
  refine Nat.exists_eq_succ_of_ne_zero fun hzero => ?_
  have hcount := hc.count x hx
  rw [hzero, List.count_cons_self] at hcount
  omega

/-- A release that leaves other references. -/
theorem Counted.decrement (hn : h.rc x = n + 1) (hpos : 0 < n) (hlt : n < 2 ^ 61) :
    (h.modify x (.setWord (Word.pack n false))).Counted ts := by
  have hdead := hc.not_dying hx
  have hskip := hc.skip
  obtain ⟨b, hb, -⟩ := hc.exists_block hx
  have hrc : ∀ y, y ≠ x → (h.modify x (.setWord (Word.pack n false))).rc y = h.rc y := fun y hy => by
    rw [rc_setWord hb hlt, Function.update_of_ne hy]
  have hself : (h.modify x (.setWord (Word.pack n false))).rc x = n := by
    rw [rc_setWord hb hlt, Function.update_self]
  refine ⟨hc.toFormed.setWord hx hlt, fun y hy => ?_, hskip.once, fun y hy hfree => ?_, ?_,
    fun y hy => ?_, fun y hy => ?_⟩
  · rw [modify_live, hrc y fun heq => hdead (heq ▸ hy)]
    exact hskip.dying y hy
  · by_cases hyx : y = x
    · rw [hyx, hself]
      exact hpos
    · rw [modify_live] at hy
      rw [hrc y hyx]
      exact hskip.alive y hy hfree
  · rw [modify_live, refs_setWord]
    simp only [Ne, blocks_setWord_eq_none]
    exact hskip.refs
  · rw [Ne, blocks_setWord_eq_none]
    exact hskip.pending y hy
  · rw [modify_live] at hy
    rw [inEdges, modify_live, refs_setWord]
    by_cases hyx : y = x
    · have hcount := hc.count x hx
      have hedges : h.inEdges (.release x :: ts) x = h.inEdges ts x := by simp [inEdges]
      rw [List.count_cons_self, hn, hedges, inEdges] at hcount
      rw [hyx, hself]
      omega
    · rw [hrc y hyx]
      exact hskip.count y hy

/-- The last release: the references of the block are to be released next. -/
theorem Counted.die (hn : h.rc x = 1) :
    (h.modify x (.setWord (Word.pack 0 false))).Counted
      ((h.refs x).map .release ++ .free x :: ts) := by
  have hdead := hc.not_dying hx
  have hskip := hc.skip
  obtain ⟨b, hb, -⟩ := hc.exists_block hx
  have hrc : ∀ y, y ≠ x → (h.modify x (.setWord (Word.pack 0 false))).rc y = h.rc y := fun y hy => by
    rw [rc_setWord hb (by decide), Function.update_of_ne hy]
  have hself : (h.modify x (.setWord (Word.pack 0 false))).rc x = 0 := by
    rw [rc_setWord hb (by decide), Function.update_self]
  have hfree : ∀ z, Task.free z ∈ (h.refs x).map .release ++ .free x :: ts ↔
      z = x ∨ .free z ∈ ts := fun z => by simp
  have hrelease : ∀ z, Task.release z ∈ (h.refs x).map .release ++ .free x :: ts ↔
      z ∈ h.refs x ∨ .release z ∈ ts := fun z => by simp
  refine ⟨hc.toFormed.setWord hx (by decide), fun y hy => ?_, fun y => ?_, fun y hy hnot => ?_,
    fun y hy hnot z hz => ?_, fun y hy => ?_, fun y hy => ?_⟩
  · rw [modify_live]
    by_cases hyx : y = x
    · rw [hyx]
      exact ⟨hx, hself⟩
    · rw [hrc y hyx]
      exact hskip.dying y (((hfree y).mp hy).resolve_left hyx)
  · have hzero : ((h.refs x).map Task.release).count (.free y) = 0 :=
      List.count_eq_zero.mpr (by simp)
    rw [List.count_append, hzero, Nat.zero_add]
    by_cases hyx : y = x
    · rw [hyx, List.count_cons_self, List.count_eq_zero.mpr hdead]
    · rw [List.count_cons_of_ne (by simpa using Ne.symm hyx)]
      exact hskip.once y
  · rw [hfree, not_or] at hnot
    rw [modify_live] at hy
    rw [hrc y hnot.1]
    exact hskip.alive y hy hnot.2
  · rw [hfree, not_or] at hnot
    rw [modify_live] at hy
    rw [refs_setWord] at hz
    rw [Ne, blocks_setWord_eq_none]
    exact hskip.refs y hy hnot.2 z hz
  · rw [Ne, blocks_setWord_eq_none]
    rcases (hrelease y).mp hy with hy | hy
    · exact hskip.refs x hx hdead y hy
    · exact hskip.pending y hy
  · -- the edges of the block have become pending releases
    rw [modify_live] at hy
    have hmove : (h.modify x (.setWord (Word.pack 0 false))).inEdges
        ((h.refs x).map .release ++ .free x :: ts) y + (h.refs x).count y = h.inEdges ts y := by
      rw [inEdges, inEdges, modify_live, refs_setWord]
      have hsum := sum_map_of_eq_off (f := fun z => if Task.free z ∈
          (h.refs x).map .release ++ .free x :: ts then 0 else (h.refs z).count y)
        (g := fun z => if .free z ∈ ts then 0 else (h.refs z).count y) hc.nodup hx ?_
      · simpa [hdead] using hsum
      · intro z _ hzx
        simp [hzx]
    have hpending : ((h.refs x).map Task.release ++ .free x :: ts).count (.release y) =
        (h.refs x).count y + ts.count (.release y) := by
      rw [List.count_append, List.count_cons_of_ne (by simp)]
      congr 1
      exact List.count_map_of_injective _ _ (fun _ _ heq => by injection heq) _
    have hcount := hc.count y hy
    have hedges : h.inEdges (.release x :: ts) y = h.inEdges ts y := by simp [inEdges]
    rw [hedges, List.count_cons] at hcount
    rw [hpending]
    by_cases hyx : y = x
    · rw [hyx] at hcount hmove ⊢
      rw [hself]
      rw [hn] at hcount
      simp only [beq_self_eq_true, if_true] at hcount
      omega
    · rw [hrc y hyx]
      omega

end Release

/-! ### Freeing a block -/

theorem poolPut_eq (x : Addr) (ti : Typeinfo) (h : Heap) :
    ∃ p, h.poolPut x ti = { h with pools := p } ∧
      (p = h.pools ∨ ∃ i, p = Function.update h.pools i (x :: h.pools i)) := by
  unfold poolPut
  split
  next => exact ⟨_, rfl, .inl rfl⟩
  next i _ =>
    split
    next => exact ⟨_, rfl, .inl rfl⟩
    next => exact ⟨_, rfl, .inr ⟨i, rfl⟩⟩

theorem freeBlock_eq (hb : h.blocks x = some b) :
    ∃ p, h.freeBlock x =
        { h with
          blocks := Function.update h.blocks x none
          live := h.live.erase x
          freed := x :: h.freed
          pools := p } ∧
      (p = h.pools ∨ ∃ i, p = Function.update h.pools i (x :: h.pools i)) := by
  rw [freeBlock, hb]
  obtain ⟨p, heq, hp⟩ := poolPut_eq x b.typeinfo
    { h with blocks := Function.update h.blocks x none, live := h.live.erase x, freed := x :: h.freed }
  exact ⟨p, heq, hp⟩

theorem Pooled.freeBlock (hp : h.Pooled) (hx : x ≠ 0) (hb : h.blocks x = some b) :
    (h.freeBlock x).Pooled := by
  obtain ⟨p, heq, hpools⟩ := freeBlock_eq hb
  -- a block is in no pool before it is freed
  have hnot : ∀ i, x ∉ h.pools i := by
    intro i hi
    rw [(hp.unused i x hi).2] at hb
    cases hb
  have hmem : ∀ j y, y ∈ p j → y ∈ h.pools j ∨ y = x ∧ ∃ i, i = j ∧ p = Function.update h.pools i (x :: h.pools i) := by
    intro j y hy
    rcases hpools with rfl | ⟨i, hpi⟩
    · exact .inl hy
    · by_cases hj : j = i
      · subst hj
        rw [hpi, Function.update_self] at hy
        exact (List.mem_cons.mp hy).symm.imp_right fun h => ⟨h, j, rfl, hpi⟩
      · rw [hpi, Function.update_of_ne hj] at hy
        exact .inl hy
  rw [heq]
  constructor
  · intro j y hy
    rcases hmem j y hy with hy | ⟨rfl, -⟩
    · obtain ⟨hy0, hnone⟩ := hp.unused j y hy
      refine ⟨hy0, ?_⟩
      show Function.update h.blocks x none y = none
      rw [Function.update_of_ne, hnone]
      exact fun hyx => hnot j (hyx ▸ hy)
    · exact ⟨hx, Function.update_self ..⟩
  · intro j
    show (p j).Nodup
    rcases hpools with rfl | ⟨i, rfl⟩
    · exact hp.nodup j
    · by_cases hj : j = i
      · subst hj
        rw [Function.update_self]
        exact List.nodup_cons.mpr ⟨hnot j, hp.nodup j⟩
      · rw [Function.update_of_ne hj]
        exact hp.nodup j
  · show ∀ i j y, y ∈ p i → y ∈ p j → i = j
    intro i j y hi hj
    rcases hmem i y hi with hi | ⟨rfl, i', rfl, hpi⟩
    · rcases hmem j y hj with hj | ⟨rfl, -⟩
      · exact hp.disjoint i j y hi hj
      · exact absurd hi (hnot i)
    · rcases hmem j y hj with hj | ⟨-, j', rfl, hpj⟩
      · exact absurd hj (hnot j)
      · -- only one pool has grown
        by_contra hne
        have := congrFun (hpi.symm.trans hpj) i'
        rw [Function.update_self, Function.update_of_ne hne] at this
        exact absurd (congrArg List.length this) (by simp)

section Edges

variable (hc : h.Counted ts)

include hc

theorem Counted.count_refs_le (hx : x ∈ h.live) (hfree : .free x ∉ ts) (hy : y ∈ h.live) :
    (h.refs x).count y ≤ h.rc y := by
  have hle : (h.refs x).count y ≤ h.inEdges ts y := by
    refine List.le_sum_of_mem (List.mem_map.mpr ⟨x, hx, ?_⟩)
    exact if_neg hfree
  have := hc.count y hy
  omega

/-- Nothing that stays refers to a block that is about to be freed. -/
theorem Counted.not_mem_refs_of_dying (hx : x ∈ h.live) (hfree : .free x ∉ ts)
    (hy : .free y ∈ ts) : y ∉ h.refs x := by
  obtain ⟨hlive, hrc⟩ := hc.dying y hy
  have hle := hc.count_refs_le hx hfree hlive
  rw [hrc, Nat.le_zero] at hle
  exact List.count_eq_zero.mp hle

theorem Counted.not_pending_of_dying (hy : .free y ∈ ts) : .release y ∉ ts := by
  obtain ⟨hlive, hrc⟩ := hc.dying y hy
  have hcount := hc.count y hlive
  rw [hrc] at hcount
  exact List.count_eq_zero.mp (by omega)

end Edges

theorem blocks_freeBlock (hb : h.blocks x = some b) :
    (h.freeBlock x).blocks = Function.update h.blocks x none := by
  obtain ⟨p, heq, -⟩ := freeBlock_eq hb
  rw [heq]

theorem live_freeBlock (hb : h.blocks x = some b) : (h.freeBlock x).live = h.live.erase x := by
  obtain ⟨p, heq, -⟩ := freeBlock_eq hb
  rw [heq]

theorem nodes_freeBlock (hb : h.blocks x = some b) : (h.freeBlock x).nodes = h.nodes := by
  obtain ⟨p, heq, -⟩ := freeBlock_eq hb
  rw [heq]

theorem fault_freeBlock (hb : h.blocks x = some b) : (h.freeBlock x).fault = h.fault := by
  obtain ⟨p, heq, -⟩ := freeBlock_eq hb
  rw [heq]

theorem freed_freeBlock (hb : h.blocks x = some b) : (h.freeBlock x).freed = x :: h.freed := by
  obtain ⟨p, heq, -⟩ := freeBlock_eq hb
  rw [heq]

theorem Filed.freeBlock (hf : h.Filed) (hb : h.blocks x = some b) : (h.freeBlock x).Filed := by
  obtain ⟨p, heq, -⟩ := freeBlock_eq hb
  exact hf.congr (by rw [heq]) (by rw [heq]) (by rw [heq])

/-- A block may go that is neither a weak box of a node nor the target of one. -/
theorem Boxed.freeBlock (hbox : h.Boxed) (hb : h.blocks x = some b)
    (hquiet : ∀ n k o, h.nodes n = some ⟨k, o⟩ → k ≠ x ∧ o ≠ x) : (h.freeBlock x).Boxed := by
  have hblock : ∀ {y c}, (h.freeBlock x).blocks y = some c → h.blocks y = some c := by
    intro y c hy
    rw [blocks_freeBlock hb] at hy
    by_cases hyx : y = x
    · rw [hyx, Function.update_self] at hy
      cases hy
    · rwa [Function.update_of_ne hyx] at hy
  rw [← nodes_freeBlock hb] at hquiet
  constructor
  · intro n k o hn
    rw [blocks_freeBlock hb, Function.update_of_ne (hquiet n k o hn).2]
    rw [nodes_freeBlock hb] at hn
    exact hbox.owner n k o hn
  · exact fun y c hy => hbox.cleared y c (hblock hy)
  · intro y c hy hty htarget
    rw [nodes_freeBlock hb]
    exact hbox.node y c (hblock hy) hty htarget
  · intro y c hy hty htarget
    have hn := hbox.node y c (hblock hy) hty htarget
    rw [← nodes_freeBlock hb] at hn
    rw [blocks_freeBlock hb, Function.update_of_ne (hquiet _ _ _ hn).1]
    exact hbox.target y c (hblock hy) hty htarget

theorem Counted.free (hc : h.Counted (.free x :: ts)) : (h.freeBlock x).Counted ts := by
  obtain ⟨hx, hrcx⟩ := hc.dying x List.mem_cons_self
  obtain ⟨b, hb, -⟩ := hc.exists_block hx
  have hgone : .free x ∉ ts := by
    have := hc.once x
    rw [List.count_cons_self] at this
    exact List.count_eq_zero.mp (by omega)
  have hne : ∀ {y}, y ∈ h.live.erase x → y ≠ x := fun hy => (hc.nodup.mem_erase_iff.mp hy).1
  have hlive : ∀ {y}, y ∈ h.live.erase x → y ∈ h.live := fun hy => List.mem_of_mem_erase hy
  have hblock : ∀ {y}, y ≠ x → (h.freeBlock x).blocks y = h.blocks y := fun hy => by
    rw [blocks_freeBlock hb, Function.update_of_ne hy]
  have hrc : ∀ {y}, y ≠ x → (h.freeBlock x).rc y = h.rc y := fun hy => by rw [rc, rc, hblock hy]
  have hrefs : ∀ {y}, y ≠ x → (h.freeBlock x).refs y = h.refs y := fun hy => by
    rw [Heap.refs, Heap.refs, hblock hy]
  have hstay : ∀ {y}, y ∈ h.live.erase x → .free y ∉ ts → .free y ∉ Task.free x :: ts := by
    intro y hy hnot hmem
    rcases List.mem_cons.mp hmem with heq | hmem
    · injection heq with heq
      exact hne hy heq
    · exact hnot hmem
  refine ⟨⟨?_, ?_, fun y hy => ?_, fun y c hy hnot => ?_⟩, fun y hy => ?_, fun y => ?_,
    fun y hy hnot => ?_, fun y hy hnot z hz => ?_, fun y hy => ?_, fun y hy => ?_⟩
  · rw [live_freeBlock hb]
    exact hc.nodup.erase x
  · by_cases h0 : (0 : Addr) = x
    · rw [blocks_freeBlock hb, h0, Function.update_self]
    · rw [hblock h0, hc.null]
  · rw [live_freeBlock hb] at hy
    rw [hblock (hne hy)]
    exact hc.word y (hlive hy)
  · rw [live_freeBlock hb] at hnot
    by_cases hyx : y = x
    · rw [blocks_freeBlock hb, hyx, Function.update_self] at hy
      cases hy
    · rw [hblock hyx] at hy
      exact hc.literal y c hy fun hmem => hnot ((List.mem_erase_of_ne hyx).mpr hmem)
  · have hyx : y ≠ x := fun heq => hgone (heq ▸ hy)
    obtain ⟨hmem, hzero⟩ := hc.dying y (List.mem_cons_of_mem _ hy)
    rw [live_freeBlock hb, hrc hyx]
    exact ⟨(List.mem_erase_of_ne hyx).mpr hmem, hzero⟩
  · have := hc.once y
    rw [List.count_cons] at this
    omega
  · rw [live_freeBlock hb] at hy
    rw [hrc (hne hy)]
    exact hc.alive y (hlive hy) (hstay hy hnot)
  · rw [live_freeBlock hb] at hy
    rw [hrefs (hne hy)] at hz
    have hnot' := hstay hy hnot
    have hzx : z ≠ x := fun heq =>
      hc.not_mem_refs_of_dying (hlive hy) hnot' List.mem_cons_self (heq ▸ hz)
    rw [hblock hzx]
    exact hc.refs y (hlive hy) hnot' z hz
  · have hyx : y ≠ x := fun heq =>
      hc.not_pending_of_dying List.mem_cons_self (List.mem_cons_of_mem _ (heq ▸ hy))
    rw [hblock hyx]
    exact hc.pending y (List.mem_cons_of_mem _ hy)
  · rw [live_freeBlock hb] at hy
    have hcount := hc.count y (hlive hy)
    rw [List.count_cons_of_ne (by simp)] at hcount
    have hedges : (h.freeBlock x).inEdges ts y = h.inEdges (.free x :: ts) y := by
      rw [inEdges, inEdges, live_freeBlock hb,
        ((List.perm_cons_erase hx).map _).sum_eq, List.map_cons, List.sum_cons,
        if_pos List.mem_cons_self, Nat.zero_add]
      refine congrArg List.sum (List.map_congr_left fun z hz => ?_)
      rw [hrefs (hne hz)]
      simp [hne hz]
    rw [hrc (hne hy), hedges]
    exact hcount

/-! ### Releasing -/

variable {gone : Addr → Prop}

/-- Clearing weak boxes changes nothing that counts. -/
theorem Detached.view (hd : Detached gone h h')
    (howner : ∀ n k o, h.nodes n = some ⟨k, o⟩ → ∀ b, h.blocks o = some b → b.typeinfo = .weakBox)
    (y : Addr) : h'.view y = h.view y := by
  rcases hd.block y with hy | ⟨⟨n, k, -, hn⟩, hy⟩
  · rw [Heap.view, Heap.view, hy]
  · rw [Heap.view, Heap.view, hy, Option.map_map]
    cases hb : h.blocks y with
    | none => rfl
    | some b =>
      have hbox := howner n k y hn b hb
      have htrace : b.clear.trace = b.trace := by
        rw [Block.trace_eq_refs, Block.trace_eq_refs]
        show b.typeinfo.refs _ = b.typeinfo.refs _
        rw [hbox]
        rfl
      show some (b.refcountWord, b.typeinfo, b.clear.trace) = some (_, _, b.trace)
      rw [htrace]

theorem Boxed.owner_weakBox (hb : h.Boxed) {n k o : Addr} (hn : h.nodes n = some ⟨k, o⟩)
    (ho : h.blocks o = some b) : b.typeinfo = .weakBox := by
  obtain ⟨b', hb', hty, -⟩ := hb.owner n k o hn
  rw [ho] at hb'
  cases hb'
  exact hty

/-- The target of a node is not a weak box. -/
theorem Boxed.key_weakFn (hb : h.Boxed) (hf : h.Filed) {n k o : Addr}
    (hn : h.nodes n = some ⟨k, o⟩) : ∃ t, h.blocks k = some t ∧ t.typeinfo.weakFn = true := by
  obtain ⟨b', hb', hty, htarget, -⟩ := hb.owner n k o hn
  have hk := hf.key_ne hn
  rw [← htarget] at hk ⊢
  exact hb.target o b' hb' hty hk

theorem Boxed.fault_detached (hb : h.Boxed) (hd : Detached gone h h') : h'.fault = h.fault := by
  refine hd.fault fun n k o _ hn => ?_
  obtain ⟨b, hb', -⟩ := hb.owner n k o hn
  rw [hb']
  exact Option.some_ne_none b

theorem Pooled.congr (hp : h.Pooled) (hpools : h'.pools = h.pools)
    (hblocks : ∀ y, h'.blocks y = none ↔ h.blocks y = none) : h'.Pooled := by
  constructor
  · rw [hpools]
    exact fun i x hx => ⟨(hp.unused i x hx).1, (hblocks x).mpr (hp.unused i x hx).2⟩
  · rw [hpools]; exact hp.nodup
  · rw [hpools]; exact hp.disjoint

/-- Nodes and boxes only look at payloads. -/
theorem Boxed.congr (hb : h.Boxed) (hnodes : h'.nodes = h.nodes)
    (hblocks : ∀ y, (h'.blocks y).map (fun b => (b.typeinfo, b.payload)) =
      (h.blocks y).map fun b => (b.typeinfo, b.payload)) : h'.Boxed := by
  have hsome : ∀ {y b'}, h'.blocks y = some b' →
      ∃ b, h.blocks y = some b ∧ b.typeinfo = b'.typeinfo ∧ b.payload = b'.payload := by
    intro y b' hy
    have heq := hblocks y
    rw [hy] at heq
    obtain ⟨b, hb, heq⟩ := Option.map_eq_some_iff.mp heq.symm
    injection heq with hty hp
    exact ⟨b, hb, hty, hp⟩
  have hsome' : ∀ {y b}, h.blocks y = some b →
      ∃ b', h'.blocks y = some b' ∧ b'.typeinfo = b.typeinfo ∧ b'.payload = b.payload := by
    intro y b hy
    have heq := hblocks y
    rw [hy] at heq
    obtain ⟨b', hb', heq⟩ := Option.map_eq_some_iff.mp heq
    injection heq with hty hp
    exact ⟨b', hb', hty, hp⟩
  constructor
  · rw [hnodes]
    intro n k o hn
    obtain ⟨b, ho, hty, htarget, hnode⟩ := hb.owner n k o hn
    obtain ⟨b', ho', hty', hp⟩ := hsome' ho
    refine ⟨b', ho', hty'.trans hty, ?_, ?_⟩
    · rw [← htarget, Block.target, Block.target, hp]
    · rw [← hnode, Block.node, Block.node, hp]
  · intro y b' hy hty htarget
    obtain ⟨b, hy, hty', hp⟩ := hsome hy
    rw [Block.target, ← hp] at htarget
    rw [Block.node, ← hp]
    exact hb.cleared y b hy (hty'.trans hty) htarget
  · intro y b' hy hty htarget
    obtain ⟨b, hy, hty', hp⟩ := hsome hy
    rw [Block.target, ← hp] at htarget ⊢
    rw [Block.node, ← hp, hnodes]
    exact hb.node y b hy (hty'.trans hty) htarget
  · intro y b' hy hty htarget
    obtain ⟨b, hy, hty', hp⟩ := hsome hy
    rw [Block.target, ← hp] at htarget ⊢
    obtain ⟨t, ht, hweak⟩ := hb.target y b hy (hty'.trans hty) htarget
    obtain ⟨t', ht', htyt, -⟩ := hsome' ht
    exact ⟨t', ht', htyt ▸ hweak⟩

theorem content_setWord (w : Word) (y : Addr) :
    ((h.modify x (.setWord w)).blocks y).map (fun b => (b.typeinfo, b.payload)) =
      (h.blocks y).map fun b => (b.typeinfo, b.payload) := by
  by_cases hy : y = x
  · rw [hy, modify_blocks_self, Option.map_map]
    rfl
  · rw [modify_blocks_of_ne hy]

/-- The tasks that are left once a block is destroyed. -/
theorem destroy_tasks (x : Addr) (b : Block) (h : Heap) (rest : List Task) :
    (h.destroy x b rest).2 = (b.typeinfo.refs b.payload).map .release ++ .free x :: rest := by
  cases hd : b.typeinfo.destroyFn with
  | none =>
    rw [Typeinfo.refs_of_destroyFn (by simp [hd])]
    simp only [destroy, hd]
    rfl
  | some d =>
    cases d with
    | weakDestroyBox =>
      rw [Typeinfo.refs_of_destroyFn (by simp [hd])]
      simp only [destroy, hd]
      rfl
    | releaseRefs => simp only [destroy, hd]

/-- A block that dies leaves the side table. -/
theorem destroy_detached (hf : h.Filed) (hb : h.Boxed) {c : Block} (hx : h.blocks x = some c)
    (hty : c.typeinfo = b.typeinfo) (rest : List Task) :
    ∃ gone, Detached gone h (h.destroy x b rest).1 ∧
      ∀ n k o, ¬ gone n → h.nodes n = some ⟨k, o⟩ → k ≠ x ∧ o ≠ x := by
  by_cases hbox : b.typeinfo = .weakBox
  · have hdestroy : (h.destroy x b rest).1 = h.weakDestroyBox x := by
      unfold destroy
      rw [hbox]
      rfl
    rw [hdestroy]
    refine ⟨_, weakDestroyBox_detached hf hb hx (hty.trans hbox), fun n k o hgone hn => ⟨?_, ?_⟩⟩
    · rintro rfl
      obtain ⟨t, ht, hweak⟩ := hb.key_weakFn hf hn
      rw [hx] at ht
      cases ht
      rw [hty, hbox] at hweak
      cases hweak
    · rintro rfl
      exact hgone ⟨k, hn⟩
  · have hweak : b.typeinfo.weakFn = true := by
      cases hti : b.typeinfo with
      | weakBox => exact absurd hti hbox
      | _ => rfl
    have hdestroy : (h.destroy x b rest).1 = h.weakClearSelf x := by
      have hnot : b.typeinfo.destroyFn ≠ some .weakDestroyBox := by
        cases hti : b.typeinfo with
        | weakBox => exact absurd hti hbox
        | string => exact fun h => nomatch h
        | struct | list | result | option =>
          rw [Typeinfo.destroyFn]
          split <;> simp
      unfold destroy
      rw [if_pos hweak]
      cases hd : b.typeinfo.destroyFn with
      | none => rfl
      | some d =>
        cases d with
        | weakDestroyBox => exact absurd hd hnot
        | releaseRefs => rfl
    rw [hdestroy]
    refine ⟨_, weakClearSelf_detached hf x, fun n k o hgone hn => ⟨?_, ?_⟩⟩
    · rintro rfl
      exact hgone ⟨o, hn⟩
    · rintro rfl
      exact hbox (hty.symm.trans (hb.owner_weakBox hn hx))

theorem Detached.node_of (hd : Detached gone h h') {n : Addr} {node : WeakNode}
    (hn : h'.nodes n = some node) : ¬ gone n ∧ h.nodes n = some node := by
  by_cases hg : gone n
  · rw [hd.removed n hg] at hn
    cases hn
  · exact ⟨hg, (hd.kept n hg).symm.trans hn⟩

/-- What a step of a release can do: free a block, drop a reference that is not counted, lower a
count, or destroy a block. -/
theorem Counted.releaseStep_cases {s : Heap × List Task} (hc : h.Counted ts)
    (hstep : Heap.releaseStep (h, ts) = some s) :
    (∃ x rest, ts = .free x :: rest ∧ s = (h.freeBlock x, rest)) ∨
    (∃ x rest, ts = .release x :: rest ∧ s = (h, rest)) ∨
    (∃ x rest n, ts = .release x :: rest ∧ x ∈ h.live ∧ h.rc x = n + 1 ∧ n ≠ 0 ∧
      s = (h.modify x (.setWord (Word.pack n false)), rest)) ∨
    (∃ x rest b, ts = .release x :: rest ∧ x ∈ h.live ∧ h.rc x = 1 ∧ h.blocks x = some b ∧
      s = (h.modify x (.setWord (Word.pack 0 false))).destroy x b rest) := by
  cases ts with
  | nil => cases hstep
  | cons t rest =>
    cases t with
    | free x => exact .inl ⟨x, rest, rfl, (Option.some.inj hstep).symm⟩
    | release x =>
      rw [Heap.releaseStep] at hstep
      split at hstep
      next => exact .inr (.inl ⟨x, rest, rfl, (Option.some.inj hstep).symm⟩)
      next hx0 =>
        split at hstep
        next hnone => exact absurd hnone ((hc.pending x List.mem_cons_self).resolve_left hx0)
        next b hb =>
          split at hstep
          next => exact .inr (.inl ⟨x, rest, rfl, (Option.some.inj hstep).symm⟩)
          next himm =>
            have hx : x ∈ h.live := (hc.mem_live hb).mpr (Bool.eq_false_iff.mpr himm)
            obtain ⟨b', hb', hw, -⟩ := hc.exists_block hx
            rw [hb] at hb'
            cases hb'
            obtain ⟨n, hn⟩ := hc.exists_rc hx
            have hword : b.refcountWord - 1 = Word.pack n false := by
              rw [hw, hn, Word.pack_pred]
            rw [← rc_of_block hb, hn, hword] at hstep
            split at hstep
            next hone =>
              obtain rfl : n = 0 := by omega
              exact .inr (.inr (.inr ⟨x, rest, b, rfl, hx, hn, hb, (Option.some.inj hstep).symm⟩))
            next hone =>
              split at hstep
              next hzero => omega
              next =>
                exact .inr (.inr (.inl ⟨x, rest, n, rfl, hx, hn, by omega,
                  (Option.some.inj hstep).symm⟩))

theorem Counted.ne_zero (hc : h.Counted ts) (hb : h.blocks x = some b) : x ≠ 0 := by
  rintro rfl
  rw [hc.null] at hb
  cases hb

/-- Setting a count keeps everything but the counts. -/
theorem Sound.setWord (hs : h.Sound ts) {ts' : List Task} (hx : x ∈ h.live)
    (hc : (h.modify x (.setWord (Word.pack n false))).Counted ts')
    (hquiet : ∀ y, .free y ∈ ts' → .free y ∈ ts) :
    (h.modify x (.setWord (Word.pack n false))).Sound ts' := by
  obtain ⟨b, hb, -⟩ := hs.counted.exists_block hx
  refine ⟨hc, hs.pooled.congr modify_pools fun y => blocks_setWord_eq_none _,
    hs.filed.congr modify_weakBuckets modify_weakLen modify_nodes,
    hs.boxed.congr modify_nodes (content_setWord _), ?_, ?_⟩
  · rw [modify_nodes]
    exact fun y hy => hs.quiet y (hquiet y hy)
  · rw [modify_fault (by rw [hb]; exact Option.some_ne_none b), hs.fault]

/-- The block that dies, before it is taken out of the side table. -/
theorem Sound.dead (hs : h.Sound (.release x :: ts)) (hb : h.blocks x = some b) :
    ∃ gone, Detached gone (h.modify x (.setWord (Word.pack 0 false)))
        ((h.modify x (.setWord (Word.pack 0 false))).destroy x b ts).1 ∧
      (h.modify x (.setWord (Word.pack 0 false))).Boxed ∧
      ∀ n k o, ¬ gone n → h.nodes n = some ⟨k, o⟩ → k ≠ x ∧ o ≠ x := by
  have hboxed : (h.modify x (.setWord (Word.pack 0 false))).Boxed :=
    hs.boxed.congr modify_nodes (content_setWord _)
  have hself : (h.modify x (.setWord (Word.pack 0 false))).blocks x =
      some (b.setWord (Word.pack 0 false)) := by
    rw [modify_blocks_self, hb]
    rfl
  obtain ⟨gone, hd, hquiet⟩ := destroy_detached (b := b)
    (hs.filed.congr modify_weakBuckets modify_weakLen modify_nodes) hboxed hself rfl ts
  rw [modify_nodes] at hquiet
  exact ⟨gone, hd, hboxed, hquiet⟩

/-- The step lemma of releases. -/
theorem Sound.releaseStep {s : Heap × List Task} (hs : h.Sound ts)
    (hstep : Heap.releaseStep (h, ts) = some s) : s.1.Sound s.2 := by
  rcases hs.counted.releaseStep_cases hstep with ⟨x, rest, rfl, rfl⟩ | ⟨x, rest, rfl, rfl⟩ |
    ⟨x, rest, n, rfl, hx, hn, hpos, rfl⟩ | ⟨x, rest, b, rfl, hx, hn, hb, rfl⟩
  · obtain ⟨hx, -⟩ := hs.counted.dying x List.mem_cons_self
    obtain ⟨b, hb, -⟩ := hs.counted.exists_block hx
    refine ⟨hs.counted.free, hs.pooled.freeBlock (hs.counted.ne_zero hb) hb, hs.filed.freeBlock hb,
      hs.boxed.freeBlock hb (hs.quiet x List.mem_cons_self), ?_, ?_⟩
    · rw [nodes_freeBlock hb]
      exact fun y hy => hs.quiet y (List.mem_cons_of_mem _ hy)
    · rw [fault_freeBlock hb]
      exact hs.fault
  · exact ⟨hs.counted.skip, hs.pooled, hs.filed, hs.boxed,
      fun y hy => hs.quiet y (List.mem_cons_of_mem _ hy), hs.fault⟩
  · have hlt : n < 2 ^ 61 := by
      obtain ⟨b, -, -, hlt⟩ := hs.counted.exists_block hx
      omega
    exact hs.setWord hx (hs.counted.decrement hx hn (Nat.pos_of_ne_zero hpos) hlt)
      fun y hy => List.mem_cons_of_mem _ hy
  · have hcounted := hs.counted.die hx hn
    rw [refs_of_block hb] at hcounted
    obtain ⟨gone, hd, hboxed, hquiet⟩ := hs.dead hb
    rw [destroy_tasks]
    refine ⟨hcounted.congr hd.live (hd.view fun n k o hn b => hboxed.owner_weakBox hn),
      hs.pooled.congr (hd.pools.trans modify_pools) ?_, hd.filed, hboxed.detached hd, ?_, ?_⟩
    · exact fun y => (hd.allocated y).trans (blocks_setWord_eq_none _)
    · intro y hy n k o hn
      obtain ⟨hg, hn⟩ := hd.node_of hn
      rw [modify_nodes] at hn
      rcases List.mem_append.mp hy with hy | hy
      · obtain ⟨z, -, hz⟩ := List.mem_map.mp hy
        cases hz
      · rcases List.mem_cons.mp hy with hy | hy
        · injection hy with hy
          exact hy ▸ hquiet n k o hg hn
        · exact hs.quiet y (List.mem_cons_of_mem _ hy) n k o hn
    · rw [hboxed.fault_detached hd, modify_fault, hs.fault]
      rw [hb]
      exact Option.some_ne_none b

/-! ### The end of a release -/

theorem weight_eq (h : Heap) (x : Addr) :
    h.weight x = if h.rc x = 0 then 0 else (h.refs x).length + 2 := by
  unfold weight
  split
  next hnone => rw [rc, hnone]; rfl
  next b hb => rw [rc_of_block hb, refs_of_block hb]

theorem weight_congr (hview : ∀ x, h'.view x = h.view x) : h'.weight = h.weight := by
  funext x
  rw [weight_eq, weight_eq, rc_eq_view, rc_eq_view, refs_eq_view, refs_eq_view, hview]

/-- A block whose count goes to `n`. -/
theorem sum_weight_setWord (hs : h.Formed) (hx : x ∈ h.live) (hn : n < 2 ^ 61) :
    ((h.modify x (.setWord (Word.pack n false))).live.map
        (h.modify x (.setWord (Word.pack n false))).weight).sum + h.weight x =
      (h.live.map h.weight).sum + if n = 0 then 0 else (h.refs x).length + 2 := by
  obtain ⟨b, hb, -⟩ := hs.exists_block hx
  have hsum := sum_map_of_eq_off (f := (h.modify x (.setWord (Word.pack n false))).weight)
    (g := h.weight) hs.nodup hx fun y _ hy => by
      rw [weight_eq, weight_eq, rc_setWord hb hn, refs_setWord, Function.update_of_ne hy]
  rw [modify_live, hsum, weight_eq (h.modify x _), rc_setWord hb hn, refs_setWord,
    Function.update_self]

theorem releaseStep_potential {s : Heap × List Task} (hs : h.Sound ts)
    (hstep : Heap.releaseStep (h, ts) = some s) : releasePotential s < releasePotential (h, ts) := by
  rcases hs.counted.releaseStep_cases hstep with ⟨x, rest, rfl, rfl⟩ | ⟨x, rest, rfl, rfl⟩ |
    ⟨x, rest, n, rfl, hx, hn, hpos, rfl⟩ | ⟨x, rest, b, rfl, hx, hn, hb, rfl⟩
  · obtain ⟨hx, hrc⟩ := hs.counted.dying x List.mem_cons_self
    obtain ⟨b, hb, -⟩ := hs.counted.exists_block hx
    have heq : ((h.freeBlock x).live.map (h.freeBlock x).weight).sum = (h.live.map h.weight).sum := by
      rw [((List.perm_cons_erase hx).map h.weight).sum_eq, List.map_cons, List.sum_cons,
        weight_eq h x, if_pos hrc, Nat.zero_add, live_freeBlock hb]
      refine congrArg List.sum (List.map_congr_left fun y hy => ?_)
      have hyx : y ≠ x := (hs.counted.nodup.mem_erase_iff.mp hy).1
      rw [weight, weight, blocks_freeBlock hb, Function.update_of_ne hyx]
    simp only [releasePotential, List.length_cons, heq]
    omega
  · simp only [releasePotential, List.length_cons]
    omega
  · have hlt : n < 2 ^ 61 := by
      obtain ⟨b, -, -, hlt⟩ := hs.counted.exists_block hx
      omega
    have hsum := sum_weight_setWord hs.counted.toFormed hx hlt
    rw [weight_eq h x, hn, if_neg (Nat.succ_ne_zero n), if_neg hpos] at hsum
    simp only [releasePotential, List.length_cons]
    omega
  · have hsum := sum_weight_setWord (n := 0) hs.counted.toFormed hx (by decide)
    rw [weight_eq h x, hn, if_neg Nat.one_ne_zero, if_pos rfl] at hsum
    obtain ⟨gone, hd, hboxed, -⟩ := hs.dead hb
    have hview := hd.view fun n k o hn b => hboxed.owner_weakBox hn
    rw [releasePotential, releasePotential, destroy_tasks, hd.live, weight_congr hview,
      ← refs_of_block hb]
    simp only [List.length_append, List.length_map, List.length_cons]
    omega

/-- A release of a reference that the program holds. -/
theorem Sound.release (hs : h.Sound [.release x]) : (h.release x).Sound [] := by
  have hinv := Loop.exhaust_inv (Φ := releasePotential) (I := fun s => s.1.Sound s.2)
    (fun s s' hs hstep => Sound.releaseStep hs hstep) (s := (h, [.release x])) hs
  have hdone := Loop.exhaust_done_of_inv (Φ := releasePotential) (I := fun s => s.1.Sound s.2)
    (fun s s' hs hstep => Sound.releaseStep hs hstep)
    (fun s s' hs hstep => releaseStep_potential hs hstep) (s := (h, [.release x])) hs
  unfold Heap.release
  generalize Loop.exhaust Heap.releaseStep releasePotential (h, [.release x]) = s at hinv hdone ⊢
  obtain ⟨h', ts⟩ := s
  cases ts with
  | nil => exact hinv
  | cons t rest =>
    -- there is a step for every task
    cases t with
    | free x => cases hdone
    | release x =>
      rw [Heap.releaseStep] at hdone
      repeat' split at hdone
      all_goals cases hdone

end Heap

end Corvid.Native
