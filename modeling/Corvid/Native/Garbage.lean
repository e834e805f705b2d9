import Corvid.Native.Runs

/-!
# Garbage in the native heap

A collection frees what no root leads to, each block once, and lowers the counts of the other blocks
by the references that go. It writes to no payload but those of weak boxes whose targets it frees.
An allocation that crosses the trigger collects in the same way, with the new block among the
garbage.

## Main definitions

* `Heap.Collected`: what a collection does
* `Heap.LosesTarget`: a weak box that is cleared

## Main results

* `collected_of_careful`: a collection frees exactly the garbage
* `weak_box_cleared`: the payload of a block in use may change
-/

namespace Corvid.Native

open Probing Relation

namespace Heap

variable {h g : Heap} {x y n k o : Addr} {b : Block} {roots : List Addr} {ti : Typeinfo}
  {p : Payload}

/-- The edges to a block from those that are freed. -/
def freedEdges (h g : Heap) (y : Addr) : ℕ :=
  (h.live.map fun x => if (g.blocks x).isNone then (h.refs x).count y else 0).sum

/-- A collection frees what the roots do not lead to, each block once, and leaves the rest as it is,
but for the counts, and for the slots of some blocks. -/
structure Collected (cleared : Block → Prop) (h : Heap) (roots : List Addr) (g : Heap) : Prop where
  kept : ∀ x b, h.blocks x = some b → h.Reached roots x →
    ∃ b', g.blocks x = some b' ∧ b'.typeinfo = b.typeinfo ∧
      Word.isMarked b'.refcountWord = false ∧ g.rc x + h.freedEdges g x = h.rc x ∧
      (¬ cleared b → b'.payload = b.payload) ∧ (cleared b → b'.payload = b.clear.payload)
  literal : ∀ x b, h.blocks x = some b → b.isImmortal = true → g.blocks x = some b
  freed : ∀ x ∈ h.live, ¬ h.Reached roots x →
    g.blocks x = none ∧ g.freed.count x = h.freed.count x + 1

/-- A weak box whose target is garbage. -/
def LosesTarget (h : Heap) (roots : List Addr) (b : Block) : Prop :=
  b.typeinfo = .weakBox ∧ b.target ∈ h.live ∧ ¬ h.Reached roots b.target

theorem collected_gcFromRoots (hc : h.Counted []) (hf : h.Filed) (hp : h.Pooled) (hn : h.Noded)
    (hroots : ∀ r ∈ roots, r = 0 ∨ h.blocks r ≠ none)
    (hbox : ∀ x b, h.blocks x = some b → h.Reached roots x → b.typeinfo = .weakBox →
      b.target ≠ 0 → h.nodes b.node = some ⟨b.target, x⟩) :
    Collected (h.LosesTarget roots) h roots (h.gcFromRoots roots) := by
  obtain ⟨m, hm, hsw⟩ := gcFromRoots_swept hc hf hp hn hroots
  have hmf : ∀ x, m x = false ↔ ¬ h.Reached roots x := fun x => by
    rw [← hm, Bool.not_eq_true]
  have hlive : ∀ {x}, h.Reached roots x → x ∈ h.live := fun hx =>
    hc.toFormed.isCounted_iff.mp hx.1
  have hedges : ∀ y, h.freedEdges (h.gcFromRoots roots) y = h.lost m h.live y := by
    intro y
    refine congrArg List.sum (List.map_congr_left fun x hx => ?_)
    cases hmx : m x with
    | true =>
      obtain ⟨b, hb, -⟩ := hc.exists_block hx
      obtain ⟨b', hb', -⟩ := hsw.block x b hb fun _ => hmx
      rw [hb']
      rfl
    | false => rw [hsw.gone x hx hmx]; rfl
  constructor
  · intro x b hb hx
    obtain ⟨b', hb', hty, hw, hcleared, hsame⟩ := hsw.block x b hb fun _ => (hm x).mpr hx
    have hlt : h.rc x - h.lost m h.live x < 2 ^ 61 := (Nat.sub_le _ _).trans_lt (h.rc_lt x)
    rw [hc.toFormed.not_immortal (hlive hx) hb, decide_eq_true (hlive hx)] at hw
    simp only [Bool.false_eq_true, if_false, Bool.not_true, Bool.and_false] at hw
    have hiff : h.Cleared m h.live x ↔ h.LosesTarget roots b := by
      constructor
      · rintro ⟨n, k, hnode, hk, hmk⟩
        obtain ⟨c, hc', hty', htarget, -⟩ := hn.owner n k x hnode
        rw [hb] at hc'
        cases hc'
        exact ⟨hty', htarget ▸ hk, htarget ▸ (hmf k).mp hmk⟩
      · rintro ⟨hty', hk, hnr⟩
        obtain ⟨t, ht, -⟩ := hc.exists_block hk
        exact ⟨b.node, b.target, hbox x b hb hx hty' (hc.ne_zero ht), hk, (hmf _).mpr hnr⟩
    refine ⟨b', hb', hty, ?_, ?_, fun hnot => hsame (mt hiff.mp hnot),
      fun hl => hcleared (hiff.mpr hl)⟩
    · rw [hw, Word.isMarked_pack hlt]
    · rw [hedges, rc_of_block hb', hw, Word.rc_pack hlt]
      have hsum := lost_add_marked h m x
      have hcount := hc.count x (hlive hx)
      rw [List.count_nil] at hcount
      omega
  · intro x b hb himm
    have hnot : x ∉ h.live := fun hx => by
      rw [hc.toFormed.not_immortal hx hb] at himm
      cases himm
    obtain ⟨b', hb', hty, hw, -, hsame⟩ := hsw.block x b hb fun hx => absurd hx hnot
    have hpay := hsame fun ⟨n, k, hnode, _⟩ => by
      obtain ⟨c, hc', hty', -⟩ := hn.owner n k x hnode
      rw [hb] at hc'
      cases hc'
      rw [(hc.literal x b hb hnot).2] at hty'
      cases hty'
    rw [himm, if_pos rfl] at hw
    rw [hb']
    cases b'
    cases b
    simp_all
  · intro x hx hnr
    have hmx := (hmf x).mpr hnr
    refine ⟨hsw.gone x hx hmx, ?_⟩
    rw [hsw.freed, if_pos ⟨hx, hmx⟩]

/-! ### Collections in the middle of an allocation -/

section Crossing

theorem isCounted_link : (h.link x ti p).isCounted y = if y = x then true else h.isCounted y := by
  rw [isCounted]
  by_cases hy : y = x
  · have hself : (h.link x ti p).blocks x = some ⟨1, ti, p⟩ := Function.update_self ..
    rw [hy, hself, if_pos rfl]
    rfl
  · rw [blocks_link_of_ne hy, if_neg hy, isCounted]

theorem refs_link (hy : y ≠ x) : (h.link x ti p).refs y = h.refs y :=
  refs_congr (blocks_link_of_ne hy)

variable (hx : h.Fresh x)

include hx

/-- Roots lead nowhere else because of a new block. -/
theorem reached_link (hc : h.Counted []) (hroots : ∀ r ∈ roots, r = 0 ∨ h.blocks r ≠ none) :
    (h.link x ti p).Reached roots y ↔ h.Reached roots y := by
  have hnew : ∀ {z}, z = 0 ∨ h.blocks z ≠ none → z ≠ x := by
    rintro z (rfl | hz) heq
    · exact hx.1 heq.symm
    · exact hz (heq ▸ hx.2.1)
  have hcounted : ∀ {z}, h.isCounted z = true → h.blocks z ≠ none := by
    intro z hz hnone
    rw [isCounted, hnone] at hz
    cases hz
  constructor
  · rintro ⟨hy, r, hr, hpath⟩
    suffices hpath' : y ≠ x ∧ ReflTransGen (Mark.Edge h.isCounted h.refs) r y by
      rw [isCounted_link, if_neg hpath'.1] at hy
      exact ⟨hy, r, hr, hpath'.2⟩
    clear hy
    induction hpath with
    | refl => exact ⟨hnew (hroots r hr), .refl⟩
    | tail _ hedge ih =>
      obtain ⟨hnode, hmem⟩ := hedge
      rw [isCounted_link, if_neg ih.1] at hnode
      rw [refs_link ih.1] at hmem
      exact ⟨hnew (hc.refs _ (hc.toFormed.isCounted_iff.mp hnode) List.not_mem_nil _ hmem),
        ih.2.tail ⟨hnode, hmem⟩⟩
  · rintro ⟨hy, r, hr, hpath⟩
    refine ⟨?_, r, hr, hpath.lift id fun z w hzw => ?_⟩
    · rw [isCounted_link, if_neg (hnew (.inr (hcounted hy)))]
      exact hy
    · obtain ⟨hz, hw⟩ := hzw
      have hzx := hnew (.inr (hcounted hz))
      constructor
      · show (h.link x ti p).isCounted z = true
        rw [isCounted_link, if_neg hzx]
        exact hz
      · show w ∈ (h.link x ti p).refs z
        rw [refs_link hzx]
        exact hw

/-- A collection in the middle of an allocation. -/
theorem collected_link (hs : h.Sound []) (hroots : ∀ r ∈ roots, r = 0 ∨ h.blocks r ≠ none)
    (hnull : ∀ y ∈ ti.refs p, y = 0) :
    Collected (h.LosesTarget roots) h roots
      (gcFromRoots roots { h.link x ti p with allocsSinceGc := 0 }) := by
  have hne : ∀ {y}, h.blocks y ≠ none → y ≠ x := fun hy heq => hy (heq ▸ hx.2.1)
  have hold : ∀ {y}, y ≠ x → (h.link x ti p).blocks y = h.blocks y := fun hy =>
    Function.update_of_ne hy _ _
  have hreached : ∀ {y}, (h.link x ti p).Reached roots y ↔ h.Reached roots y :=
    reached_link hx hs.counted hroots
  have hlive : ∀ {y}, y ∈ h.live → h.blocks y ≠ none := fun hy hnone => by
    obtain ⟨b, hb, -⟩ := hs.counted.exists_block hy
    rw [hnone] at hb
    cases hb
  have hcounted := hs.counted.link hx (covered_link hx hs.counted hnull)
  have hnoded : (h.link x ti p).Noded := by
    refine ⟨fun n k o hn => ?_, fun n k o hn => ?_⟩
    · obtain ⟨b, hb, hrest⟩ := hs.boxed.owner n k o hn
      exact ⟨b, (hold (hne (hb ▸ Option.some_ne_none b))).trans hb, hrest⟩
    · obtain ⟨t, ht, hweak⟩ := hs.boxed.key_weakFn hs.filed hn
      exact ⟨t, (hold (hne (ht ▸ Option.some_ne_none t))).trans ht, hweak⟩
  have hreachedNe : ∀ {y}, h.Reached roots y → y ≠ x := fun hy =>
    hne (hlive (hs.counted.toFormed.isCounted_iff.mp hy.1))
  let k : Heap := { h.link x ti p with allocsSinceGc := 0 }
  have hcol : Collected (k.LosesTarget roots) k roots (gcFromRoots roots k) := by
    refine collected_gcFromRoots (h := k) (hcounted.congr rfl fun _ => rfl)
      (hs.filed.congr rfl rfl rfl) ?_ ⟨hnoded.owner, hnoded.key⟩
      (fun r hr => (hroots r hr).imp_right fun hr => ?_) fun y b hb hy hty ht => ?_
    · exact ⟨(hs.pooled.link hx).unused, hs.pooled.nodup, hs.pooled.disjoint⟩
    · exact fun hnone => hr ((hold (hne hr)).symm.trans hnone)
    · have hyx := hreachedNe (hreached.mp hy)
      exact hs.boxed.node y b ((hold hyx).symm.trans hb) hty ht
  have hloses : ∀ {y b}, h.blocks y = some b → (k.LosesTarget roots b ↔ h.LosesTarget roots b) := by
    intro y b hb
    refine and_congr_right fun hty => ?_
    have htarget : b.target ≠ x := by
      intro heq
      obtain ⟨t, ht, -⟩ := hs.boxed.target y b hb hty (heq ▸ hx.1)
      rw [heq, hx.2.1] at ht
      cases ht
    exact and_congr ⟨fun hmem => (List.mem_cons.mp hmem).resolve_left htarget,
      List.mem_cons_of_mem _⟩ (not_congr hreached)
  have hedges : ∀ {y}, y ≠ 0 →
      k.freedEdges (gcFromRoots roots k) y = h.freedEdges (gcFromRoots roots k) y := by
    intro y hy
    have hself : (h.link x ti p).refs x = ti.refs p :=
      refs_of_block (h := h.link x ti p) (b := ⟨1, ti, p⟩) (Function.update_self ..)
    have hzero : ((h.link x ti p).refs x).count y = 0 := by
      rw [hself]
      exact List.count_eq_zero.mpr fun hmem => hy (hnull y hmem)
    show ((x :: h.live).map _).sum = _
    rw [List.map_cons, List.sum_cons]
    show (if _ then ((h.link x ti p).refs x).count y else 0) + _ = _
    rw [hzero, ite_self, Nat.zero_add]
    refine congrArg List.sum (List.map_congr_left fun z hz => ?_)
    have hrefs : k.refs z = h.refs z := refs_link (hne (hlive hz))
    rw [hrefs]
  refine ⟨fun y b hb hy => ?_, fun y b hb himm => ?_, fun y hy hnr => ?_⟩
  · have hyx := hreachedNe hy
    obtain ⟨b', hb', hty, hmark, hrc, hsame, hcleared⟩ :=
      hcol.kept y b ((hold hyx).trans hb) (hreached.mpr hy)
    have hkrc : k.rc y = h.rc y := by
      show (h.link x ti p).rc y = _
      rw [rc_link hx, Function.update_of_ne hyx]
    rw [hedges (hs.counted.ne_zero hb), hkrc] at hrc
    exact ⟨b', hb', hty, hmark, hrc, fun hn => hsame (mt (hloses hb).mp hn),
      fun hl => hcleared ((hloses hb).mpr hl)⟩
  · exact hcol.literal y b ((hold (hne (hb ▸ Option.some_ne_none b))).trans hb) himm
  · exact hcol.freed y (List.mem_cons_of_mem _ hy) (mt hreached.mp hnr)

end Crossing

/-! ### Careful runs -/

/-- What the collector frees and keeps in careful runs, in a collection of its own and in one that
an allocation starts, and what an allocation returns. -/
theorem collected_of_careful (h : Heap) (hr : Reachable Careful h) :
    (∀ roots, h.Roots roots → Collected (h.LosesTarget roots) h roots (h.gcFromRoots roots)) ∧
      ∀ payloadBytes ti fresh memory roots, h.Fresh fresh → h.Roots roots →
        (h.crosses = true → (∀ y ∈ ti.refs memory, y = 0) →
          Collected (h.LosesTarget roots) h roots
            (h.allocTyped payloadBytes ti fresh memory roots).2) ∧
        (h.crosses = false →
          (h.allocTyped payloadBytes ti fresh memory roots).2.blocks
            (h.allocTyped payloadBytes ti fresh memory roots).1 = some ⟨1, ti, memory⟩ ∧
          (h.allocTyped payloadBytes ti fresh memory roots).2.rc
            (h.allocTyped payloadBytes ti fresh memory roots).1 = 1) := by
  have hs := hr.sound
  refine ⟨fun roots hroots => ?_, fun bytes ti fresh memory roots hfresh hroots => ⟨?_, ?_⟩⟩
  · exact collected_gcFromRoots hs.counted hs.filed hs.pooled (hs.boxed.noded hs.filed) hroots.valid
      fun x b hb _ hty ht => hs.boxed.node x b hb hty ht
  · intro hcross hnull
    obtain ⟨hs', hx, q, hplace⟩ := place_spec bytes ti hs hfresh
    have halloc : (h.allocTyped bytes ti fresh memory roots).2 =
        gcFromRoots roots { (h.place bytes ti fresh).2.link (h.place bytes ti fresh).1 ti memory with
          allocsSinceGc := 0 } := by
      unfold allocTyped
      simp only [hcross, if_true]
    rw [halloc]
    generalize h.place bytes ti fresh = placed at hs' hx hplace ⊢
    obtain ⟨x, h'⟩ := placed
    dsimp only at hs' hx hplace ⊢
    have hvalid : ∀ r ∈ roots, r = 0 ∨ h'.blocks r ≠ none := by
      rw [hplace]
      exact hroots.valid
    have hcol := collected_link (p := memory) hx hs' hvalid hnull
    rw [hplace] at hcol ⊢
    exact ⟨hcol.kept, hcol.literal, hcol.freed⟩
  · intro hcross
    rw [allocTyped_of_not_crosses hcross]
    have hb : ((h.place bytes ti fresh).2.link (h.place bytes ti fresh).1 ti memory).blocks
        (h.place bytes ti fresh).1 = some ⟨1, ti, memory⟩ := Function.update_self ..
    exact ⟨hb, (rc_of_block hb).trans (Word.rc_pack (n := 1) (m := false) (by decide))⟩

theorem collected_weakCycle :
    Collected ((after weakCycle 2).LosesTarget [0x100, 0x200]) (after weakCycle 2) [0x100, 0x200]
        ((after weakCycle 2).gcFromRoots [0x100, 0x200]) ∧
      ((after weakCycle 2).allocTyped 8 .string 0x300 (fun _ => 0) [0x100, 0x200]).2.rc
        ((after weakCycle 2).allocTyped 8 .string 0x300 (fun _ => 0) [0x100, 0x200]).1 = 1 ∧
      Collected ((init (fun _ => none) 1).LosesTarget []) (init (fun _ => none) 1) []
        ((init (fun _ => none) 1).allocTyped 8 (.struct [true]) 0x100 (fun _ => 0) []).2 := by
  obtain ⟨hcol, halloc⟩ := collected_of_careful _ reachable_weakCycle.1
  obtain ⟨-, hcross⟩ := collected_of_careful _ (.init (fun _ => none) 1 rfl)
  have hroots : (after weakCycle 2).Roots [0x100, 0x200] :=
    roots_of_holdsRoots (by decide +kernel)
  have hfresh : (after weakCycle 2).Fresh 0x300 :=
    ⟨by decide, by decide +kernel, fun i => List.not_mem_nil⟩
  refine ⟨hcol _ hroots, ((halloc 8 .string 0x300 (fun _ => 0) _ hfresh hroots).2 rfl).2, ?_⟩
  refine (hcross 8 (.struct [true]) 0x100 (fun _ => 0) [] ⟨by decide, rfl, fun i => ?_⟩ ?_).1 rfl
    fun y hy => ?_
  · exact List.not_mem_nil
  · exact roots_of_holdsRoots (by decide)
  · exact List.mem_singleton.mp hy

/-- A struct `0x100` that refers to itself, and a weak box `0x200` of it with the node `0x900`. Then
the program holds the weak box only. -/
def weakToGarbage : List Call :=
  [.alloc 8 (.struct [true]) 0x100 (fun _ => 0) (fun _ => 0) [],
    .weakNew 0x100 0x200 0x900 (fun _ => 0) [0x100],
    .store 0x100 0 0x100]

/-- A collection clears a weak box that is in use. -/
theorem weak_box_cleared : ¬ ∀ h, Reachable (fun _ _ => True) h →
    (∀ roots, h.Roots roots → Collected (fun _ => False) h roots (h.gcFromRoots roots)) ∧
      ∀ payloadBytes ti fresh memory roots, h.Fresh fresh → h.Roots roots →
        (h.allocTyped payloadBytes ti fresh memory roots).2.rc
          (h.allocTyped payloadBytes ti fresh memory roots).1 = 1 := by
  intro hall
  have h1 : Reachable (fun _ _ => True) (after weakToGarbage 1) := by
    have hlegal : (after weakToGarbage 0).Legal weakToGarbage[0] :=
      ⟨by decide, ⟨by decide, rfl, fun i => List.not_mem_nil⟩,
        roots_of_holdsRoots (by decide +kernel), covered_of_isCovered (by decide +kernel)⟩
    exact .call (.init _ _ rfl) hlegal trivial
  have h2 : Reachable (fun _ _ => True) (after weakToGarbage 2) := by
    have hlegal : (after weakToGarbage 1).Legal weakToGarbage[1] :=
      ⟨.inr ⟨_, rfl, rfl⟩, ⟨by decide, by decide +kernel, fun i => List.not_mem_nil⟩, by decide,
        rfl, roots_of_holdsRoots (by decide +kernel)⟩
    exact .call h1 hlegal trivial
  have h3 : Reachable (fun _ _ => True) (after weakToGarbage 3) := by
    have hlegal : (after weakToGarbage 2).Legal weakToGarbage[2] :=
      ⟨⟨_, rfl, by decide +kernel, by decide +kernel⟩, covered_of_isCovered (by decide +kernel)⟩
    exact .call h2 hlegal trivial
  have hcol := (hall _ h3).1 [0x200] (roots_of_holdsRoots (by decide +kernel))
  have hbox : ((after weakToGarbage 3).blocks 0x200).map (·.payload 0) = some 0x100 := by
    decide +kernel
  have hcleared : (((after weakToGarbage 3).gcFromRoots [0x200]).blocks 0x200).map (·.payload 0) =
      some 0 := by
    decide +kernel
  obtain ⟨b, hb, hpay⟩ := Option.map_eq_some_iff.mp hbox
  obtain ⟨b', hb', -, -, -, hsame, -⟩ :=
    hcol.kept 0x200 b hb (Mark.Reached.of_mem List.mem_cons_self (by decide +kernel))
  rw [hb', Option.map_some, hsame not_false, hpay] at hcleared
  cases hcleared

end Heap

end Corvid.Native
