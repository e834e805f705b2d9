import Corvid.Native.Counts

/-!
# Allocation and weak references

An allocation that does not start a collection, a reference that is retained, a word that is
written, and a new weak box: each of them keeps the invariant of the heap, as long as the program
only writes references that it holds.

## Main definitions

* `Heap.Covered`: every reference in a block is counted
* `Heap.Fresh`: memory that may be allocated

## Main results

* `Sound.retain`, `Sound.store`, `Sound.link`, `Sound.weakNew`: the operations keep the invariant
-/

namespace Corvid.Native

open Probing

namespace Heap

variable {h h' : Heap} {x y n k o : Addr} {b : Block} {ti : Typeinfo} {p : Payload} {i : ℕ}

/-! ### Retaining -/

/-- A reference more. -/
theorem Counted.increment (hc : h.Counted []) (hx : x ∈ h.live) (hlt : h.rc x + 1 < 2 ^ 61) :
    (h.modify x (.setWord (Word.pack (h.rc x + 1) false))).Counted [] := by
  obtain ⟨b, hb, -⟩ := hc.exists_block hx
  have hle : ∀ y, h.rc y ≤ (h.modify x (.setWord (Word.pack (h.rc x + 1) false))).rc y := by
    intro y
    rw [rc_setWord hb hlt]
    by_cases hy : y = x
    · rw [hy, Function.update_self]
      exact Nat.le_succ _
    · rw [Function.update_of_ne hy]
  refine ⟨hc.toFormed.setWord hx hlt, fun y hy => absurd hy List.not_mem_nil, hc.once, fun y hy hnot => ?_,
    fun y hy hnot z hz => ?_, fun y hy => absurd hy List.not_mem_nil, fun y hy => ?_⟩
  · rw [modify_live] at hy
    exact (hc.alive y hy hnot).trans_le (hle y)
  · rw [modify_live] at hy
    rw [refs_setWord] at hz
    rw [Ne, blocks_setWord_eq_none]
    exact hc.refs y hy hnot z hz
  · rw [modify_live] at hy
    rw [inEdges, modify_live, refs_setWord]
    exact (hc.count y hy).trans (hle y)

theorem Sound.retain (hs : h.Sound []) (hx : x = 0 ∨ h.blocks x ≠ none)
    (hlt : h.rc x + 1 < 2 ^ 61) : (h.retain x).Sound [] := by
  unfold Heap.retain
  split
  next => exact hs
  next hx0 =>
    split
    next hnone => exact absurd hnone (hx.resolve_left hx0)
    next b hb =>
      split
      next => exact hs
      next himm =>
        have hlive : x ∈ h.live := (hs.counted.mem_live hb).mpr (Bool.eq_false_iff.mpr himm)
        obtain ⟨b', hb', hw, -⟩ := hs.counted.exists_block hlive
        rw [hb] at hb'
        cases hb'
        rw [hw, Word.pack_succ]
        exact hs.setWord hlive (hs.counted.increment hlive hlt) fun y hy => hy

/-! ### Writing -/

/-- Every reference in a block goes to a block, and is counted there. -/
def Covered (h : Heap) : Prop :=
  (∀ x ∈ h.live, ∀ y ∈ h.refs x, y = 0 ∨ h.blocks y ≠ none) ∧
    ∀ y ∈ h.live, h.inEdges [] y ≤ h.rc y

theorem Formed.counted (hf : h.Formed) (halive : ∀ x ∈ h.live, 0 < h.rc x) (hc : h.Covered) :
    h.Counted [] :=
  ⟨hf, fun _ hx => absurd hx List.not_mem_nil, fun _ => Nat.zero_le _, fun x hx _ => halive x hx,
    fun x hx _ => hc.1 x hx, fun _ hx => absurd hx List.not_mem_nil, hc.2⟩

theorem blocks_store_eq_none {v : Word} :
    (h.modify x (.store i v)).blocks y = none ↔ h.blocks y = none := by
  by_cases hy : y = x
  · subst hy
    rw [modify_blocks_self, Option.map_eq_none_iff]
  · rw [modify_blocks_of_ne hy]

theorem Sound.store {v : Word} (hs : h.Sound []) (hb : h.blocks x = some b)
    (hbox : b.typeinfo ≠ .weakBox) (hc : (h.modify x (.store i v)).Covered) :
    (h.modify x (.store i v)).Sound [] := by
  have hself : (h.modify x (.store i v)).blocks x = some (b.store i v) := by
    rw [modify_blocks_self, hb]
    rfl
  have hrc : ∀ y, (h.modify x (.store i v)).rc y = h.rc y := by
    intro y
    by_cases hy : y = x
    · rw [hy, rc_of_block hself, rc_of_block hb, Block.store_refcountWord]
    · rw [rc, rc, modify_blocks_of_ne hy]
  have hformed : (h.modify x (.store i v)).Formed := by
    refine ⟨by simpa using hs.counted.nodup, blocks_store_eq_none.mpr hs.counted.null,
      fun y hy => ?_, fun y c hy hnot => ?_⟩
    · rw [modify_live] at hy
      obtain ⟨c, m, hy', hm, hw⟩ := hs.counted.word y hy
      by_cases hyx : y = x
      · rw [hyx, hb] at hy'
        cases hy'
        exact ⟨b.store i v, m, by rw [hyx, hself], hm, hw⟩
      · exact ⟨c, m, by rw [modify_blocks_of_ne hyx, hy'], hm, hw⟩
    · rw [modify_live] at hnot
      by_cases hyx : y = x
      · subst hyx
        rw [hself] at hy
        cases hy
        exact hs.counted.literal y b hb hnot
      · rw [modify_blocks_of_ne hyx] at hy
        exact hs.counted.literal y c hy hnot
  -- the block is not a weak box, and its type stays
  have hother : ∀ {y c}, (h.modify x (.store i v)).blocks y = some c → c.typeinfo = .weakBox →
      h.blocks y = some c ∧ y ≠ x := by
    intro y c hy hty
    by_cases hyx : y = x
    · rw [hyx, hself] at hy
      cases hy
      exact absurd hty hbox
    · exact ⟨(modify_blocks_of_ne hyx).symm.trans hy, hyx⟩
  refine ⟨hformed.counted (fun y hy => ?_) hc, hs.pooled.congr modify_pools fun y =>
    blocks_store_eq_none, hs.filed.congr modify_weakBuckets modify_weakLen modify_nodes,
    ⟨fun m k o hm => ?_, fun y c hy hty => ?_, fun y c hy hty => ?_, fun y c hy hty ht => ?_⟩,
    fun y hy => absurd hy List.not_mem_nil, ?_⟩
  · rw [modify_live] at hy
    rw [hrc]
    exact hs.counted.alive y hy List.not_mem_nil
  · rw [modify_nodes] at hm
    obtain ⟨c, ho, hty, hrest⟩ := hs.boxed.owner m k o hm
    have hox : o ≠ x := by
      rintro rfl
      rw [hb] at ho
      cases ho
      exact hbox hty
    exact ⟨c, by rw [modify_blocks_of_ne hox, ho], hty, hrest⟩
  · exact hs.boxed.cleared y c (hother hy hty).1 hty
  · rw [modify_nodes]
    exact hs.boxed.node y c (hother hy hty).1 hty
  · obtain ⟨t, ht, hweak⟩ := hs.boxed.target y c (hother hy hty).1 hty ht
    by_cases htx : c.target = x
    · rw [htx, hb] at ht
      cases ht
      exact ⟨b.store i v, by rw [htx, hself], hweak⟩
    · exact ⟨t, by rw [modify_blocks_of_ne htx, ht], hweak⟩
  · rw [modify_fault (by rw [hb]; exact Option.some_ne_none b), hs.fault]

/-! ### New blocks -/

/-- Memory that `malloc` may return. -/
def Fresh (h : Heap) (x : Addr) : Prop := x ≠ 0 ∧ h.blocks x = none ∧ ∀ i, x ∉ h.pools i

theorem place_spec (bytes : ℕ) (ti : Typeinfo) (hs : h.Sound []) (hx : h.Fresh x) :
    (h.place bytes ti x).2.Sound [] ∧ (h.place bytes ti x).2.Fresh (h.place bytes ti x).1 ∧
      ∃ p, (h.place bytes ti x).2 = { h with pools := p } := by
  unfold place poolTake
  split
  next => exact ⟨hs, hx, h.pools, rfl⟩
  next =>
    split
    next => exact ⟨hs, hx, h.pools, rfl⟩
    next =>
      split
      next => exact ⟨hs, hx, h.pools, rfl⟩
      next i _ =>
        split
        next => exact ⟨hs, hx, h.pools, rfl⟩
        next z rest hpool =>
          have hmem : ∀ j y, y ∈ Function.update h.pools i rest j → y ∈ h.pools j := by
            intro j y hy
            by_cases hj : j = i
            · rw [hj, Function.update_self] at hy
              rw [hj, hpool]
              exact List.mem_cons_of_mem _ hy
            · rwa [Function.update_of_ne hj] at hy
          have hz : z ∈ h.pools i := by rw [hpool]; exact List.mem_cons_self
          have hpooled : Pooled { h with pools := Function.update h.pools i rest } := by
            refine ⟨fun j y hy => hs.pooled.unused j y (hmem j y hy), fun j => ?_,
              fun j l y hj hl => hs.pooled.disjoint j l y (hmem j y hj) (hmem l y hl)⟩
            show (Function.update h.pools i rest j).Nodup
            by_cases hj : j = i
            · have := hs.pooled.nodup i
              rw [hpool] at this
              rw [hj, Function.update_self]
              exact (List.nodup_cons.mp this).2
            · rw [Function.update_of_ne hj]
              exact hs.pooled.nodup j
          refine ⟨⟨hs.counted.congr rfl fun _ => rfl, hpooled, hs.filed.congr rfl rfl rfl,
            hs.boxed.congr rfl fun _ => rfl, hs.quiet, hs.fault⟩,
            ⟨(hs.pooled.unused i z hz).1, (hs.pooled.unused i z hz).2, fun j hj => ?_⟩, _, rfl⟩
          by_cases hji : j = i
          · have := hs.pooled.nodup i
            rw [hpool] at this
            have hj' : z ∈ Function.update h.pools i rest j := hj
            rw [hji, Function.update_self] at hj'
            exact (List.nodup_cons.mp this).1 hj'
          · exact hji (hs.pooled.disjoint j i z (hmem j z hj) hz)

section Link

variable (hx : h.Fresh x)

include hx

theorem Formed.not_mem_of_fresh (hf : h.Formed) : x ∉ h.live := by
  intro hmem
  obtain ⟨b, -, hb, -⟩ := hf.word x hmem
  rw [hx.2.1] at hb
  cases hb

theorem Formed.link (hf : h.Formed) : (h.link x ti p).Formed := by
  have hnot := hf.not_mem_of_fresh hx
  refine ⟨List.nodup_cons.mpr ⟨hnot, hf.nodup⟩, ?_, fun y hy => ?_, fun y c hy hmem => ?_⟩
  · show Function.update h.blocks x _ 0 = none
    rw [Function.update_of_ne (Ne.symm hx.1), hf.null]
  · rcases List.mem_cons.mp hy with rfl | hy
    · exact ⟨_, 1, Function.update_self .., by decide, rfl⟩
    · have hyx : y ≠ x := fun heq => hnot (heq ▸ hy)
      obtain ⟨c, m, hc, hrest⟩ := hf.word y hy
      exact ⟨c, m, (Function.update_of_ne hyx _ _).trans hc, hrest⟩
  · have hmem' : y ∉ x :: h.live := hmem
    rw [List.mem_cons, not_or] at hmem'
    have hy' : Function.update h.blocks x _ y = some c := hy
    rw [Function.update_of_ne hmem'.1] at hy'
    exact hf.literal y c hy' hmem'.2

theorem Pooled.link (hp : h.Pooled) : (h.link x ti p).Pooled := by
  refine ⟨fun i y hy => ⟨(hp.unused i y hy).1, ?_⟩, hp.nodup, hp.disjoint⟩
  have hyx : y ≠ x := fun heq => hx.2.2 i (heq ▸ hy)
  exact (Function.update_of_ne hyx _ _).trans (hp.unused i y hy).2

/-- A new block next to the side table, if it does not belong to it. -/
theorem Boxed.link (hb : h.Boxed) (hp : ti = .weakBox → p 0 = 0 ∧ p 1 = 0) :
    (h.link x ti p).Boxed := by
  have hold : ∀ {y c}, h.blocks y = some c → (h.link x ti p).blocks y = some c := by
    intro y c hy
    refine (Function.update_of_ne ?_ _ _).trans hy
    rintro rfl
    rw [hx.2.1] at hy
    cases hy
  have hnew : ∀ {y c}, (h.link x ti p).blocks y = some c → c.typeinfo = .weakBox →
      h.blocks y = some c ∨ c.target = 0 ∧ c.node = 0 := by
    intro y c hy hty
    by_cases hyx : y = x
    · have hy' : Function.update h.blocks x _ y = some c := hy
      rw [hyx, Function.update_self] at hy'
      cases hy'
      exact .inr (hp hty)
    · exact .inl ((Function.update_of_ne hyx _ _).symm.trans hy)
  refine ⟨fun m k o hm => ?_, fun y c hy hty ht => ?_, fun y c hy hty ht => ?_,
    fun y c hy hty ht => ?_⟩
  · obtain ⟨c, ho, hrest⟩ := hb.owner m k o hm
    exact ⟨c, hold ho, hrest⟩
  · rcases hnew hy hty with hy | ⟨-, hnode⟩
    · exact hb.cleared y c hy hty ht
    · exact hnode
  · exact hb.node y c ((hnew hy hty).resolve_right fun h => ht h.1) hty ht
  · obtain ⟨t, htarget, hweak⟩ :=
      hb.target y c ((hnew hy hty).resolve_right fun h => ht h.1) hty ht
    exact ⟨t, hold htarget, hweak⟩

omit hx in
theorem blocks_link_of_ne {y : Addr} (hy : y ≠ x) : (h.link x ti p).blocks y = h.blocks y :=
  Function.update_of_ne hy _ _

theorem rc_link : (h.link x ti p).rc = Function.update h.rc x 1 := by
  funext y
  by_cases hy : y = x
  · rw [hy, Function.update_self,
      rc_of_block (h := h.link x ti p) (b := ⟨1, ti, p⟩) (Function.update_self ..)]
    exact Word.rc_pack (n := 1) (m := false) (by decide)
  · rw [Function.update_of_ne hy, rc_congr (blocks_link_of_ne hy)]

theorem Counted.link (hc : h.Counted []) (hcovered : (h.link x ti p).Covered) :
    (h.link x ti p).Counted [] := by
  refine (hc.toFormed.link hx).counted (fun y hy => ?_) hcovered
  rw [rc_link hx]
  by_cases hyx : y = x
  · rw [hyx, Function.update_self]
    exact Nat.one_pos
  · rw [Function.update_of_ne hyx]
    exact hc.alive y ((List.mem_cons.mp hy).resolve_left hyx) List.not_mem_nil

theorem Sound.link (hs : h.Sound []) (hp : ti = .weakBox → p 0 = 0 ∧ p 1 = 0)
    (hc : (h.link x ti p).Covered) : (h.link x ti p).Sound [] :=
  ⟨hs.counted.link hx hc, hs.pooled.link hx, hs.filed.congr rfl rfl rfl, hs.boxed.link hx hp,
    fun y hy => absurd hy List.not_mem_nil, hs.fault⟩

end Link

/-- Writing to a new block, whatever has become of the side table. -/
theorem store_link_table (x : Addr) (ti : Typeinfo) (p : Payload) (i : ℕ) (v : Word) (h : Heap)
    (buckets : Table Addr (List Addr)) (len : ℕ) (nodes : Addr → Option WeakNode) :
    ({ h.link x ti p with weakBuckets := buckets, weakLen := len, nodes := nodes } : Heap).modify x
        (.store i v) =
      { h.link x ti (Function.update p i v) with
        weakBuckets := buckets, weakLen := len, nodes := nodes } := by
  have hx : Function.update h.blocks x (some ⟨1, ti, p⟩) x = some ⟨1, ti, p⟩ :=
    Function.update_self ..
  rw [modify]
  dsimp only [link]
  rw [hx]
  dsimp only
  rw [Function.update_idem]
  rfl

theorem store_link (x : Addr) (ti : Typeinfo) (p : Payload) (i : ℕ) (v : Word) (h : Heap) :
    (h.link x ti p).modify x (.store i v) = h.link x ti (Function.update p i v) :=
  store_link_table x ti p i v h h.weakBuckets h.weakLen h.nodes

/-- The program fills a new block. -/
theorem fill_link (x : Addr) (ti : Typeinfo) (p init : Payload) (h : Heap) :
    ((h.link x ti p).modify x fun b => { b with payload := init }) = h.link x ti init := by
  have hx : Function.update h.blocks x (some ⟨1, ti, p⟩) x = some ⟨1, ti, p⟩ :=
    Function.update_self ..
  rw [modify]
  dsimp only [link]
  rw [hx]
  dsimp only
  rw [Function.update_idem]

/-- An allocation that does not start a collection. -/
theorem allocTyped_of_not_crosses {bytes : ℕ} {roots : List Addr} (hcross : h.crosses = false) :
    h.allocTyped bytes ti x p roots =
      ((h.place bytes ti x).1, (h.place bytes ti x).2.link (h.place bytes ti x).1 ti p) := by
  unfold allocTyped
  simp only [hcross, Bool.false_eq_true, if_false]

/-! ### New weak boxes -/

section WeakBox

variable (hx : h.Fresh x)

include hx

/-- A new block whose slots are null. -/
theorem covered_link (hc : h.Counted []) (hnull : ∀ y ∈ ti.refs p, y = 0) :
    (h.link x ti p).Covered := by
  have hnot := hc.toFormed.not_mem_of_fresh hx
  have hself : (h.link x ti p).refs x = ti.refs p :=
    refs_of_block (h := h.link x ti p) (b := ⟨1, ti, p⟩) (Function.update_self ..)
  have hrefs : ∀ y, y ≠ x → (h.link x ti p).refs y = h.refs y := fun y hy =>
    refs_congr (blocks_link_of_ne hy)
  have hedges : ∀ y, y ≠ 0 → (h.link x ti p).inEdges [] y = h.inEdges [] y := by
    intro y hy
    have hzero : (ti.refs p).count y = 0 :=
      List.count_eq_zero.mpr fun hmem => hy (hnull y hmem)
    show ((x :: h.live).map _).sum = _
    rw [List.map_cons, List.sum_cons, if_neg List.not_mem_nil, hself, hzero, Nat.zero_add]
    refine congrArg List.sum (List.map_congr_left fun z hz => ?_)
    rw [hrefs z fun heq => hnot (heq ▸ hz)]
  refine ⟨fun z hz y hy => ?_, fun y hy => ?_⟩
  · by_cases hzx : z = x
    · rw [hzx, hself] at hy
      exact .inl (hnull y hy)
    · rw [hrefs z hzx] at hy
      refine (hc.refs z ((List.mem_cons.mp hz).resolve_left hzx) List.not_mem_nil y hy).imp_right ?_
      intro hne
      show Function.update h.blocks x _ y ≠ none
      by_cases hyx : y = x
      · rw [hyx, Function.update_self]
        exact Option.some_ne_none _
      · rwa [Function.update_of_ne hyx]
  · rw [rc_link hx]
    by_cases hyx : y = x
    · -- nothing refers to fresh memory
      have hzero : h.inEdges [] x = 0 := by
        refine List.sum_eq_zero fun c hc' => ?_
        obtain ⟨z, hz, rfl⟩ := List.mem_map.mp hc'
        rw [if_neg List.not_mem_nil, List.count_eq_zero]
        intro hmem
        rcases hc.refs z hz List.not_mem_nil x hmem with h0 | hne
        · exact hx.1 h0
        · exact hne hx.2.1
      rw [hyx, hedges x hx.1, hzero]
      exact Nat.zero_le _
    · have hlive := (List.mem_cons.mp hy).resolve_left hyx
      obtain ⟨b, hb, -⟩ := hc.exists_block hlive
      rw [Function.update_of_ne hyx, hedges y (hc.ne_zero hb)]
      exact hc.count y hlive

theorem Sound.link_weakBox (hs : h.Sound []) (h0 : p 0 = 0) (h1 : p 1 = 0) :
    (h.link x .weakBox p).Sound [] :=
  hs.link hx (fun _ => ⟨h0, h1⟩)
    (covered_link hx hs.counted fun _ hy => absurd hy List.not_mem_nil)

/-- A weak box with a target, with its node in the table. -/
theorem Sound.link_node (hs : h.Sound []) {strong : Addr} {t : Block}
    (hstrong : h.blocks strong = some t) (hweak : t.typeinfo.weakFn = true) (hn : n ≠ 0)
    (hnode : h.nodes n = none) (h0 : p 0 = strong) (h1 : p 1 = n) {buckets : Table Addr (List Addr)}
    {len : ℕ}
    (hf : ({ h.link x .weakBox p with
      weakBuckets := buckets
      weakLen := len
      nodes := Function.update h.nodes n (some ⟨strong, x⟩) } : Heap).Filed) :
    ({ h.link x .weakBox p with
      weakBuckets := buckets
      weakLen := len
      nodes := Function.update h.nodes n (some ⟨strong, x⟩) } : Heap).Sound [] := by
  have hclean := hs.link_weakBox (p := fun _ => 0) hx rfl rfl
  have hne : ∀ {y c}, h.blocks y = some c → y ≠ x := by
    rintro y c hy rfl
    rw [hx.2.1] at hy
    cases hy
  have hold : ∀ {y c}, h.blocks y = some c → (h.link x .weakBox p).blocks y = some c :=
    fun hy => (Function.update_of_ne (hne hy) _ _).trans hy
  have hnew : ∀ {y c}, (h.link x .weakBox p).blocks y = some c →
      y = x ∧ c = ⟨1, .weakBox, p⟩ ∨ h.blocks y = some c := by
    intro y c hy
    have hy' : Function.update h.blocks x _ y = some c := hy
    by_cases hyx : y = x
    · rw [hyx, Function.update_self] at hy'
      exact .inl ⟨hyx, (Option.some.inj hy').symm⟩
    · rw [Function.update_of_ne hyx] at hy'
      exact .inr hy'
  have hnodes : ∀ {m node}, h.nodes m = some node →
      Function.update h.nodes n (some ⟨strong, x⟩) m = some node := by
    intro m node hm
    rw [Function.update_of_ne, hm]
    rintro rfl
    rw [hnode] at hm
    cases hm
  have hstrong0 : strong ≠ 0 := hs.counted.ne_zero hstrong
  have hpooled : (h.link x .weakBox p).Pooled := hs.pooled.link hx
  refine ⟨hclean.counted.congr rfl fun y => ?_,
    hpooled.congr rfl fun _ => Iff.rfl, hf, ⟨fun m k o hm => ?_,
    fun y c hy hty ht => ?_, fun y c hy hty ht => ?_, fun y c hy hty ht => ?_⟩,
    fun y hy => absurd hy List.not_mem_nil, hs.fault⟩
  · show (Function.update h.blocks x _ y).map _ = (Function.update h.blocks x _ y).map _
    by_cases hyx : y = x
    · rw [hyx, Function.update_self, Function.update_self]
      rfl
    · rw [Function.update_of_ne hyx, Function.update_of_ne hyx]
  · have hm' : Function.update h.nodes n (some ⟨strong, x⟩) m = some ⟨k, o⟩ := hm
    by_cases hmn : m = n
    · rw [hmn, Function.update_self] at hm'
      cases hm'
      exact ⟨_, Function.update_self .., rfl, h0, h1.trans hmn.symm⟩
    · rw [Function.update_of_ne hmn] at hm'
      obtain ⟨c, ho, hrest⟩ := hs.boxed.owner m k o hm'
      exact ⟨c, hold ho, hrest⟩
  · rcases hnew hy with ⟨-, rfl⟩ | hy
    · exact absurd (h0.symm.trans ht) hstrong0
    · exact hs.boxed.cleared y c hy hty ht
  · rcases hnew hy with ⟨rfl, rfl⟩ | hy
    · show Function.update h.nodes n (some ⟨strong, y⟩) (p 1) = some ⟨p 0, y⟩
      rw [h0, h1, Function.update_self]
    · exact hnodes (hs.boxed.node y c hy hty ht)
  · rcases hnew hy with ⟨-, rfl⟩ | hy
    · exact ⟨t, hold ((congrArg h.blocks h0).trans hstrong), hweak⟩
    · obtain ⟨t', ht', hweak'⟩ := hs.boxed.target y c hy hty ht
      exact ⟨t', hold ht', hweak'⟩

end WeakBox

theorem Sound.weakNew {strong fresh : Addr} {roots : List Addr} (hs : h.Sound [])
    (hcross : h.crosses = false) (hfresh : h.Fresh fresh)
    (hstrong : strong = 0 ∨ ∃ t, h.blocks strong = some t ∧ t.typeinfo.weakFn = true) (hn : n ≠ 0)
    (hnode : h.nodes n = none) : (h.weakNew strong fresh n p roots).2.Sound [] := by
  obtain ⟨hs', hx, pools, hplace⟩ := place_spec 16 .weakBox hs hfresh
  generalize hp : h.place 16 .weakBox fresh = placed at hs' hx hplace
  obtain ⟨x, h'⟩ := placed
  replace hs' : h'.Sound [] := hs'
  replace hplace : h' = { h with pools := pools } := hplace
  have halloc : h.allocTyped 16 .weakBox fresh p roots = (x, h'.link x .weakBox p) := by
    rw [allocTyped_of_not_crosses hcross, hp]
  unfold Heap.weakNew
  rw [halloc]
  dsimp only
  rw [store_link, store_link]
  have hp0 : Function.update (Function.update p 0 strong) 1 0 0 = strong := by simp
  generalize hP : Function.update (Function.update p 0 strong) 1 0 = P at hp0
  split
  next h0 =>
    refine hs'.link_weakBox hx (hp0.trans h0) ?_
    rw [← hP, Function.update_self]
  next hne =>
    obtain ⟨t, ht, hweak⟩ := hstrong.resolve_left hne
    have hf : (h'.link x .weakBox P).Filed := hs'.filed.congr rfl rfl rfl
    obtain ⟨hf', hroom⟩ := weakEnsureCapacity_filed hf
    obtain ⟨buckets, len, hcap⟩ := (h'.link x .weakBox P).weakEnsureCapacity_eq
    have hnodes' : (h'.link x .weakBox P).weakEnsureCapacity.nodes = h.nodes := by
      rw [hcap, hplace]
      rfl
    obtain ⟨i, hi⟩ : ∃ i, Table.findInsert weakHash
        (h'.link x .weakBox P).weakEnsureCapacity.weakBuckets strong = some i :=
      Table.exists_findInsert hroom
    have hfiled := hf'.linkNode hne hn (by rw [hnodes']; exact hnode) hi x
    obtain ⟨buckets', len', hlink⟩ :=
      weakLinkNode_eq i strong n (h'.link x .weakBox P).weakEnsureCapacity
    rw [hi]
    dsimp only
    rw [hlink] at hfiled ⊢
    rw [hcap] at hfiled ⊢
    dsimp only at hfiled ⊢
    have hmod := store_link_table x .weakBox P 1 n h' buckets' len'
      (Function.update h'.nodes n (some ⟨strong, x⟩))
    refine (congrArg (fun g : Heap => g.Sound []) hmod).mpr ?_
    have hstrong' : h'.blocks strong = some t := by rw [hplace]; exact ht
    have hnode' : h'.nodes n = none := by rw [hplace]; exact hnode
    refine hs'.link_node hx hstrong' hweak hn hnode' ?_ (Function.update_self ..) ?_
    · rw [Function.update_of_ne Nat.zero_ne_one, hp0]
    · exact hfiled.congr rfl rfl rfl

end Heap

end Corvid.Native
