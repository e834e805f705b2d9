import Corvid.Native.Collector

/-!
# Runs of the native heap

Compiled programs allocate, count, write and refer weakly, and collections start in between. Weak
references stay consistent as long as collections do not free weak boxes that still have a target,
and as long as no allocation starts a collection: the collector frees such a box without taking it
out of the side table, and it does not know the block that is just being allocated.

## Main definitions

* `Call`: the calls of a program, with what `malloc` and the stack maps answer
* `Heap.Legal`: the calls that respect who holds which reference
* `Heap.Careful`: the calls that avoid the two gaps
* `Heap.WeakSound`: weak references are live or null

## Main results

* `weakSound_of_careful`: in careful runs weak references are live or null
* `weak_node_dangles`: in other runs they are not
-/

namespace Corvid.Native

open Probing Relation

/-- A call of the runtime. Fresh memory comes from `malloc`, with what it happens to hold, and the
roots from the stack maps of the calling frames. A new block is filled by the program before it does
anything else. -/
inductive Call where
  | alloc (payloadBytes : ℕ) (ti : Typeinfo) (fresh : Addr) (memory init : Payload)
      (roots : List Addr)
  | retain (x : Addr)
  | release (x : Addr)
  | store (x : Addr) (i : ℕ) (v : Word)
  | weakNew (strong fresh n : Addr) (memory : Payload) (roots : List Addr)
  | weakUpgrade (w : Addr)
  | gcFromRoots (roots : List Addr)

namespace Heap

def apply (h : Heap) : Call → Heap
  | .alloc payloadBytes ti fresh memory init roots =>
    let (x, h) := h.allocTyped payloadBytes ti fresh memory roots
    h.modify x fun b => { b with payload := init }
  | .retain x => h.retain x
  | .release x => h.release x
  | .store x i v => h.modify x (.store i v)
  | .weakNew strong fresh n memory roots => (h.weakNew strong fresh n memory roots).2
  | .weakUpgrade w => (h.weakUpgrade w).2
  | .gcFromRoots roots => h.gcFromRoots roots

/-- The program holds a reference of its own. -/
def Owns (h : Heap) (x : Addr) : Prop := x ∈ h.live ∧ h.inEdges [] x < h.rc x

/-- The references of the calling frames: all that the program holds, and what it has borrowed from
them. -/
structure Roots (h : Heap) (roots : List Addr) : Prop where
  owned : ∀ x ∈ h.live, h.inEdges [] x < h.rc x → x ∈ roots
  borrowed : ∀ r ∈ roots, r = 0 ∨ h.blocks r ≠ none ∧
    (r ∈ h.live → ∃ o, h.Owns o ∧ ReflTransGen (Mark.Edge h.isCounted h.refs) o r)

/-- A program gives away what it holds and nothing else, and every reference it holds takes a word,
so that there are fewer than `2 ^ 61`. -/
def Legal (h : Heap) : Call → Prop
  | .alloc payloadBytes ti fresh _ init roots =>
    ti ≠ .weakBox ∧ h.Fresh fresh ∧ h.Roots roots ∧
      ((h.place payloadBytes ti fresh).2.link (h.place payloadBytes ti fresh).1 ti init).Covered
  | .retain x => (x = 0 ∨ h.blocks x ≠ none) ∧ h.rc x + 1 < 2 ^ 61
  | .release x => x = 0 ∨ (∃ b, h.blocks x = some b ∧ b.isImmortal = true) ∨ h.Owns x
  | .store x i v =>
    (∃ b, h.blocks x = some b ∧ b.isImmortal = false ∧ b.typeinfo ≠ .weakBox) ∧
      (h.modify x (.store i v)).Covered
  | .weakNew strong fresh n _ roots =>
    (strong = 0 ∨ ∃ t, h.blocks strong = some t ∧ t.typeinfo.weakFn = true) ∧
      h.Fresh fresh ∧ n ≠ 0 ∧ h.nodes n = none ∧ h.Roots roots
  | .weakUpgrade w =>
    w = 0 ∨ ∃ b, h.blocks w = some b ∧ b.typeinfo = .weakBox ∧ h.rc b.target + 1 < 2 ^ 61
  | .gcFromRoots roots => h.Roots roots

/-- No allocation starts a collection, and no collection frees a weak box that has a target. -/
def Careful (h : Heap) : Call → Prop
  | .alloc .. => h.crosses = false
  | .weakNew .. => h.crosses = false
  | .gcFromRoots roots =>
    ∀ x b, h.blocks x = some b → b.typeinfo = .weakBox → b.target ≠ 0 → h.Reached roots x
  | _ => True

/-- The heaps of the runs whose calls are all legal and meet a condition. -/
inductive Reachable (P : Heap → Call → Prop) : Heap → Prop
  | init (literals : Addr → Option Payload) (gcTriggerThreshold : ℕ) (h0 : literals 0 = none) :
    Reachable P (init literals gcTriggerThreshold)
  | call {h : Heap} {c : Call} : Reachable P h → h.Legal c → P h c → Reachable P (h.apply c)

/-- Weak references are live or null. -/
structure WeakSound (h : Heap) : Prop where
  /-- a node belongs to a weak box that refers to its key and to the node -/
  node : ∀ n node, h.nodes n = some node →
    ∃ b, h.blocks node.owner = some b ∧ b.typeinfo = .weakBox ∧ b.target = node.key ∧ b.node = n
  /-- the nodes are those of the buckets -/
  bucket : ∀ k head, Table.Has h.weakBuckets k head → ∀ n ∈ head, ∃ o, h.nodes n = some ⟨k, o⟩
  /-- a weak box with a target has one node, where the search finds it -/
  box : ∀ x b, h.blocks x = some b → b.typeinfo = .weakBox → b.target ≠ 0 →
    (∃! n, ∃ k, h.nodes n = some ⟨k, x⟩) ∧
      ∃ i head, h.weakFindBucket b.target = some i ∧
        h.weakBuckets[i]? = some (.full b.target head) ∧ b.node ∈ head
  /-- and the target is there -/
  target : ∀ x b, h.blocks x = some b → b.typeinfo = .weakBox → b.target ≠ 0 →
    h.blocks b.target ≠ none
  upgrade : ∀ w b, h.blocks w = some b → b.typeinfo = .weakBox →
    (h.weakUpgrade w).1 = 0 ∨ h.blocks (h.weakUpgrade w).1 ≠ none
  /-- nothing was written to memory that is not allocated -/
  fault : h.fault = none

variable {h g : Heap} {x y n k o : Addr} {b : Block} {roots : List Addr} {P Q : Heap → Call → Prop}

theorem Sound.weakSound (hs : h.Sound []) : h.WeakSound where
  node n node hn := hs.boxed.owner n node.key node.owner hn
  bucket k head hhas := (hs.filed.bucket k head hhas).2.2.2
  box x b hb hty ht := by
    have hn := hs.boxed.node x b hb hty ht
    refine ⟨⟨b.node, ⟨b.target, hn⟩, fun n ⟨k, hk⟩ => ?_⟩, ?_⟩
    · obtain ⟨b', hb', -, -, hnode⟩ := hs.boxed.owner n k x hk
      rw [hb] at hb'
      cases hb'
      exact hnode.symm
    · obtain ⟨head, ⟨i, hi⟩, hmem⟩ := hs.filed.filed _ _ _ hn
      exact ⟨i, head, (hs.filed.weakFindBucket_eq_some ht).mpr ⟨head, hi⟩, hi, hmem⟩
  target x b hb hty ht := by
    obtain ⟨t, htarget, -⟩ := hs.boxed.target x b hb hty ht
    rw [htarget]
    exact Option.some_ne_none t
  upgrade w b hb hty := by
    unfold weakUpgrade
    split
    next => exact .inl rfl
    next =>
      rw [hb]
      dsimp only
      split
      next ht =>
        obtain ⟨t, htarget, -⟩ := hs.boxed.target w b hb hty ht
        rw [htarget]
        exact .inr (Option.some_ne_none t)
      next => exact .inl rfl
  fault := hs.fault

/-! ### Collections -/

section Collect

variable {m : Addr → Bool}

/-- The references of a block are those of marked blocks and those that get lost. -/
theorem lost_add_marked (h : Heap) (m : Addr → Bool) (y : Addr) :
    h.lost m h.live y + ((h.live.filter m).map fun x => (h.refs x).count y).sum = h.inEdges [] y := by
  unfold lost inEdges
  induction h.live with
  | nil => rfl
  | cons x xs ih =>
    cases hm : m x with
    | true =>
      rw [List.filter_cons_of_pos hm]
      simp only [List.map_cons, List.sum_cons, hm, if_true, List.not_mem_nil, if_false] at ih ⊢
      omega
    | false =>
      rw [List.filter_cons_of_neg (by simp [hm])]
      simp only [List.map_cons, List.sum_cons, hm, Bool.false_eq_true, if_false,
        List.not_mem_nil] at ih ⊢
      omega

variable (hs : h.Sound []) (hm : ∀ x, m x = true ↔ h.Reached roots x)

include hs hm

theorem marked_child (hx : m x = true) (hy : y ∈ h.refs x) (hlive : y ∈ h.live) : m y = true := by
  rw [hm] at hx ⊢
  exact hx.child hy (hs.counted.toFormed.isCounted_iff.mpr hlive)

/-- A block that a marked block refers to has lost fewer references than it had. -/
theorem lost_lt_of_edge (hx : m x = true) (hy : y ∈ h.refs x) (hlive : y ∈ h.live) :
    h.lost m h.live y < h.rc y := by
  have hxlive : x ∈ h.live := hs.counted.toFormed.isCounted_iff.mp ((hm x).mp hx).1
  have hle : (h.refs x).count y ≤ ((h.live.filter m).map fun x => (h.refs x).count y).sum :=
    List.le_sum_of_mem (List.mem_map.mpr ⟨x, List.mem_filter.mpr ⟨hxlive, hx⟩, rfl⟩)
  have hpos : 0 < (h.refs x).count y := List.count_pos_iff.mpr hy
  have hsum := lost_add_marked h m y
  have hcount := hs.counted.count y hlive
  rw [List.count_nil] at hcount
  omega

/-- Something keeps a reference to what is marked. -/
theorem lost_lt_of_marked (hroots : h.Roots roots) (hx : m x = true) :
    h.lost m h.live x < h.rc x := by
  obtain ⟨hcounted, r, hr, hpath⟩ := (hm x).mp hx
  have hlive := hs.counted.toFormed.isCounted_iff.mp hcounted
  have hown : h.Owns x → h.lost m h.live x < h.rc x := fun hown => by
    have := lost_add_marked h m x
    have := hown.2
    omega
  cases hpath with
  | tail hpath hedge =>
    refine lost_lt_of_edge hs hm ((hm _).mpr ?_) hedge.2 hlive
    exact ⟨hedge.1, r, hr, hpath⟩
  | refl =>
    rcases hroots.borrowed x hr with h0 | ⟨-, hborrowed⟩
    · obtain ⟨b, hb, -⟩ := hs.counted.exists_block hlive
      exact absurd h0 (hs.counted.ne_zero hb)
    · obtain ⟨o, ho, hpath⟩ := hborrowed hlive
      cases hpath with
      | refl => exact hown ho
      | tail hpath hedge =>
        refine lost_lt_of_edge hs hm ((hm _).mpr ?_) hedge.2 hlive
        exact ⟨hedge.1, o, hroots.owned o ho.1 ho.2, hpath⟩

variable (hsw : Swept h (fun x => h.rc x - h.lost m h.live x) m h.live g)

include hsw

omit hs hm in
theorem Swept.mem_live : x ∈ g.live ↔ x ∈ h.live ∧ m x = true := by
  rw [hsw.live, List.mem_filter]
  refine and_congr_right fun hx => ?_
  rw [decide_eq_true hx, Bool.not_true, Bool.or_false]

omit hm in
/-- What becomes of a block that stays. -/
theorem Swept.kept (hx : x ∈ h.live) (hmx : m x = true) :
    ∃ b b', h.blocks x = some b ∧ g.blocks x = some b' ∧ b'.typeinfo = b.typeinfo ∧
      b'.refcountWord = Word.pack (h.rc x - h.lost m h.live x) false ∧
      (h.Cleared m h.live x → b'.payload = b.clear.payload) ∧
      (¬ h.Cleared m h.live x → b'.payload = b.payload) := by
  obtain ⟨b, hb, -⟩ := hs.counted.exists_block hx
  obtain ⟨b', hb', hty, hw, hpay⟩ := hsw.block x b hb fun _ => hmx
  refine ⟨b, b', hb, hb', hty, ?_, hpay⟩
  rw [hw, hs.counted.toFormed.not_immortal hx hb, decide_eq_true hx]
  simp

omit hm in
theorem Swept.rc_eq (hx : x ∈ h.live) (hmx : m x = true) :
    g.rc x = h.rc x - h.lost m h.live x := by
  obtain ⟨b, b', -, hb', -, hw, -⟩ := hsw.kept hs hx hmx
  rw [rc_of_block hb', hw, Word.rc_pack ((Nat.sub_le _ _).trans_lt (h.rc_lt x))]

omit hm in
/-- A cleared block is a weak box, and holds no counted reference. -/
theorem Swept.refs_eq (hx : x ∈ h.live) (hmx : m x = true) : g.refs x = h.refs x := by
  obtain ⟨b, b', hb, hb', hty, -, hcleared, hsame⟩ := hsw.kept hs hx hmx
  rw [refs_of_block hb, refs_of_block hb', hty]
  by_cases hcl : h.Cleared m h.live x
  · obtain ⟨n, k, hn, -⟩ := hcl
    rw [hs.boxed.owner_weakBox hn hb]
    rfl
  · rw [hsame hcl]

omit hs hm in
theorem Swept.allocated (hx : h.blocks x ≠ none) (hmx : x ∈ h.live → m x = true) :
    ∃ b b', h.blocks x = some b ∧ g.blocks x = some b' ∧ b'.typeinfo = b.typeinfo := by
  obtain ⟨b, hb⟩ := Option.ne_none_iff_exists'.mp hx
  obtain ⟨b', hb', hty, -⟩ := hsw.block x b hb hmx
  exact ⟨b, b', hb, hb', hty⟩

omit hm in
theorem Swept.formed : g.Formed := by
  refine ⟨?_, hsw.absent 0 hs.counted.null, fun x hx => ?_, fun x b' hb' hx => ?_⟩
  · rw [hsw.live]
    exact hs.counted.nodup.filter _
  · obtain ⟨hlive, hmx⟩ := hsw.mem_live.mp hx
    obtain ⟨-, b', -, hb', -, hw, -⟩ := hsw.kept hs hlive hmx
    exact ⟨b', _, hb', (Nat.sub_le _ _).trans_lt (h.rc_lt x), hw⟩
  · have hne : h.blocks x ≠ none := fun hnone => by
      rw [hsw.absent x hnone] at hb'
      cases hb'
    obtain ⟨b, hb⟩ := Option.ne_none_iff_exists'.mp hne
    have hlive : x ∉ h.live := by
      intro hlive
      cases hmx : m x with
      | true => exact hx (hsw.mem_live.mpr ⟨hlive, hmx⟩)
      | false =>
        rw [hsw.gone x hlive hmx] at hb'
        cases hb'
    obtain ⟨himm, hstr⟩ := hs.counted.literal x b hb hlive
    obtain ⟨b'', hb'', hty, hw, -⟩ := hsw.block x b hb fun h => absurd h hlive
    rw [hb'] at hb''
    cases hb''
    have himm' : b.isImmortal = true := decide_eq_true himm
    rw [himm', if_pos rfl] at hw
    exact ⟨hw.trans himm, hty.trans hstr⟩

theorem Swept.counted (hroots : h.Roots roots) : g.Counted [] := by
  refine (hsw.formed hs).counted (fun x hx => ?_) ⟨fun x hx y hy => ?_, fun y hy => ?_⟩
  · obtain ⟨hlive, hmx⟩ := hsw.mem_live.mp hx
    rw [hsw.rc_eq hs hlive hmx]
    have := lost_lt_of_marked hs hm hroots hmx
    omega
  · obtain ⟨hlive, hmx⟩ := hsw.mem_live.mp hx
    rw [hsw.refs_eq hs hlive hmx] at hy
    refine (hs.counted.refs x hlive List.not_mem_nil y hy).imp_right fun hne => ?_
    obtain ⟨-, b', -, hb', -⟩ := hsw.allocated hne fun hylive => marked_child hs hm hmx hy hylive
    rw [hb']
    exact Option.some_ne_none b'
  · obtain ⟨hlive, hmy⟩ := hsw.mem_live.mp hy
    have hedges : g.inEdges [] y = ((h.live.filter m).map fun x => (h.refs x).count y).sum := by
      unfold inEdges
      have hfilter : g.live = h.live.filter m := by
        rw [hsw.live]
        refine List.filter_congr fun z hz => ?_
        rw [decide_eq_true hz, Bool.not_true, Bool.or_false]
      rw [hfilter]
      refine congrArg List.sum (List.map_congr_left fun z hz => ?_)
      obtain ⟨hz, hmz⟩ := List.mem_filter.mp hz
      rw [if_neg List.not_mem_nil, hsw.refs_eq hs hz hmz]
    have hsum := lost_add_marked h m y
    have hcount := hs.counted.count y hlive
    rw [List.count_nil] at hcount
    rw [hedges, hsw.rc_eq hs hlive hmy]
    omega

omit hm in
/-- The side table stays consistent if no weak box with a target was freed. -/
theorem Swept.boxed (hcareful : ∀ x b, h.blocks x = some b → b.typeinfo = .weakBox →
    b.target ≠ 0 → m x = true) : g.Boxed := by
  -- a box that keeps its node is not cleared
  have hnot : ∀ {n k o}, h.nodes n = some ⟨k, o⟩ → (k ∈ h.live → m k = true) →
      ¬ h.Cleared m h.live o := by
    rintro n k o hn hk ⟨n', k', hn', hk', hmk'⟩
    obtain ⟨b, hb, -, htarget, -⟩ := hs.boxed.owner n k o hn
    obtain ⟨b', hb', -, htarget', -⟩ := hs.boxed.owner n' k' o hn'
    rw [hb] at hb'
    cases hb'
    obtain rfl : k' = k := htarget'.symm.trans htarget
    rw [hk hk'] at hmk'
    cases hmk'
  have hother : ∀ {x b'}, g.blocks x = some b' → ∃ b, h.blocks x = some b ∧
      b'.typeinfo = b.typeinfo ∧ (h.Cleared m h.live x → b'.payload = b.clear.payload) ∧
      (¬ h.Cleared m h.live x → b'.payload = b.payload) := by
    intro x b' hb'
    have hne : h.blocks x ≠ Option.none := fun hnone => by
      rw [hsw.absent x hnone] at hb'
      cases hb'
    obtain ⟨b, hb⟩ := Option.ne_none_iff_exists'.mp hne
    have hmx : x ∈ h.live → m x = true := by
      intro hlive
      by_contra hmx
      rw [hsw.gone x hlive (Bool.eq_false_iff.mpr hmx)] at hb'
      cases hb'
    obtain ⟨b'', hb'', hty, -, hpay⟩ := hsw.block x b hb hmx
    rw [hb'] at hb''
    cases hb''
    exact ⟨b, hb, hty, hpay⟩
  -- a box that has a target still had it before, and its target stays
  have hbox : ∀ {x b'}, g.blocks x = some b' → b'.typeinfo = .weakBox → b'.target ≠ 0 →
      ∃ b, h.blocks x = some b ∧ b.typeinfo = .weakBox ∧ b.target = b'.target ∧ b.node = b'.node ∧
        (b.target ∈ h.live → m b.target = true) := by
    intro x b' hb' hty ht
    obtain ⟨b, hb, hty', hcleared, hsame⟩ := hother hb'
    have hncl : ¬ h.Cleared m h.live x := by
      intro hcl
      rw [Block.target, hcleared hcl] at ht
      exact ht Block.target_clear
    have hpay := hsame hncl
    have htarget : b.target = b'.target := (congrFun hpay 0).symm
    have hbty : b.typeinfo = .weakBox := hty'.symm.trans hty
    refine ⟨b, hb, hbty, htarget, (congrFun hpay 1).symm, fun hlive => ?_⟩
    by_contra hmt
    refine hncl ⟨b.node, b.target, hs.boxed.node x b hb hbty ?_, hlive, Bool.eq_false_iff.mpr hmt⟩
    rwa [htarget]
  constructor
  · intro n k o hn
    obtain ⟨hn, hk⟩ := (hsw.nodes n k o).mp hn
    obtain ⟨b, hb, hty, htarget, hnode⟩ := hs.boxed.owner n k o hn
    have ht0 : b.target ≠ 0 := by
      rw [htarget]
      exact hs.filed.key_ne hn
    obtain ⟨b', hb', hty', -, -, hsame⟩ := hsw.block o b hb fun _ => hcareful o b hb hty ht0
    have hpay := hsame (hnot hn hk)
    exact ⟨b', hb', hty'.trans hty, (congrFun hpay 0).trans htarget, (congrFun hpay 1).trans hnode⟩
  · intro x b' hb' hty ht
    obtain ⟨b, hb, hty', hcleared, hsame⟩ := hother hb'
    by_cases hcl : h.Cleared m h.live x
    · rw [Block.node, hcleared hcl]
      exact Block.node_clear
    · have hpay := hsame hcl
      rw [Block.node, hpay]
      refine hs.boxed.cleared x b hb (hty'.symm.trans hty) ?_
      rw [← ht, Block.target, Block.target, hpay]
  · intro x b' hb' hty ht
    obtain ⟨b, hb, hbty, htarget, hnode, hmt⟩ := hbox hb' hty ht
    rw [← htarget, ← hnode, hsw.nodes]
    exact ⟨hs.boxed.node x b hb hbty (htarget ▸ ht), hmt⟩
  · intro x b' hb' hty ht
    obtain ⟨b, hb, hbty, htarget, -, hmt⟩ := hbox hb' hty ht
    obtain ⟨t, htb, hweak⟩ := hs.boxed.target x b hb hbty (htarget ▸ ht)
    obtain ⟨t', ht', hty', -⟩ := hsw.block _ t htb hmt
    rw [← htarget]
    exact ⟨t', ht', hty' ▸ hweak⟩

omit hs m hm hsw in
theorem Roots.valid (hroots : h.Roots roots) (r : Addr) (hr : r ∈ roots) :
    r = 0 ∨ h.blocks r ≠ none :=
  (hroots.borrowed r hr).imp_right fun h => h.1

omit m hm hsw in
/-- A collection that frees no weak box with a target. -/
theorem Sound.gcFromRoots (hroots : h.Roots roots)
    (hcareful : ∀ x b, h.blocks x = some b → b.typeinfo = .weakBox → b.target ≠ 0 →
      h.Reached roots x) : (h.gcFromRoots roots).Sound [] := by
  obtain ⟨m, hm, hsw⟩ := gcFromRoots_swept hs.counted hs.filed hs.pooled (hs.boxed.noded hs.filed)
    hroots.valid
  have hmarked : ∀ x b, h.blocks x = some b → b.typeinfo = .weakBox → b.target ≠ 0 → m x = true :=
    fun x b hb hty ht => (hm x).mpr (hcareful x b hb hty ht)
  refine ⟨hsw.counted hs hm hroots, hsw.pooled, hsw.filed, hsw.boxed hs hmarked,
    fun x hx => absurd hx List.not_mem_nil, ?_⟩
  rw [hsw.fault, hs.fault]
  intro n k o hn
  obtain ⟨b, hb, hty, htarget, -⟩ := hs.boxed.owner n k o hn
  refine hmarked o b hb hty ?_
  rw [htarget]
  exact hs.filed.key_ne hn

end Collect

/-! ### Runs -/

theorem sound_init {literals : Addr → Option Payload} {trigger : ℕ} (h0 : literals 0 = none) :
    (init literals trigger).Sound [] := by
  have hblock : ∀ {x b}, (init literals trigger).blocks x = some b →
      b.refcountWord = Word.immortal ∧ b.typeinfo = .string := by
    intro x b hb
    obtain ⟨p, -, rfl⟩ := Option.map_eq_some_iff.mp hb
    exact ⟨rfl, rfl⟩
  have hbox : ∀ {x b}, (init literals trigger).blocks x = some b → b.typeinfo ≠ .weakBox := by
    intro x b hb hty
    rw [(hblock hb).2] at hty
    cases hty
  have hempty : ∀ {k head}, ¬ Table.Has (init literals trigger).weakBuckets k head := by
    rintro k head ⟨i, hi⟩
    cases hi
  refine ⟨Formed.counted ⟨List.nodup_nil, ?_, fun x hx => absurd hx List.not_mem_nil,
    fun x b hb _ => hblock hb⟩ (fun x hx => absurd hx List.not_mem_nil)
    ⟨fun x hx => absurd hx List.not_mem_nil, fun x hx => absurd hx List.not_mem_nil⟩,
    ⟨fun i x hx => absurd hx List.not_mem_nil, fun i => List.nodup_nil,
      fun i j x hx => absurd hx List.not_mem_nil⟩,
    ⟨⟨fun i j k v w hi => ?_, fun i k v hi => ?_⟩, rfl, fun k head hhas => absurd hhas hempty,
      fun n k o hn => ?_, fun n k o hn => ?_⟩,
    ⟨fun n k o hn => ?_, fun x b hb hty => absurd hty (hbox hb),
      fun x b hb hty => absurd hty (hbox hb), fun x b hb hty => absurd hty (hbox hb)⟩,
    fun x hx => absurd hx List.not_mem_nil, rfl⟩
  · show (literals 0).map _ = none
    rw [h0]
    rfl
  all_goals first | cases hi | cases hn

/-- A reference that the program holds may be released. -/
theorem Sound.releasable (hs : h.Sound [])
    (hx : x = 0 ∨ (∃ b, h.blocks x = some b ∧ b.isImmortal = true) ∨ h.Owns x) :
    h.Sound [.release x] := by
  have hedges : ∀ y, h.inEdges [.release x] y = h.inEdges [] y := fun y => by simp [inEdges]
  have hnone : ∀ y, Task.free y ∉ [Task.release x] := fun y => by simp
  refine ⟨⟨hs.counted.toFormed, fun y hy => absurd hy (hnone y), fun y => by simp,
    fun y hy _ => hs.counted.alive y hy List.not_mem_nil,
    fun y hy _ => hs.counted.refs y hy List.not_mem_nil, fun y hy => ?_, fun y hy => ?_⟩,
    hs.pooled, hs.filed, hs.boxed, fun y hy => absurd hy (hnone y), hs.fault⟩
  · obtain rfl : y = x := by simpa using hy
    rcases hx with hx | ⟨b, hb, -⟩ | hown
    · exact .inl hx
    · rw [hb]
      exact .inr (Option.some_ne_none b)
    · obtain ⟨b, hb, -⟩ := hs.counted.exists_block hown.1
      rw [hb]
      exact .inr (Option.some_ne_none b)
  · have hcount := hs.counted.count y hy
    rw [List.count_nil] at hcount
    rw [hedges]
    by_cases hyx : y = x
    · -- a block with a count is one that the program holds
      subst hyx
      obtain ⟨b, hb, -⟩ := hs.counted.exists_block hy
      rcases hx with rfl | ⟨b', hb', himm⟩ | hown
      · exact absurd rfl (hs.counted.ne_zero hb)
      · rw [hb] at hb'
        cases hb'
        rw [hs.counted.toFormed.not_immortal hy hb] at himm
        cases himm
      · have := hown.2
        rw [List.count_cons_self, List.count_nil]
        omega
    · rw [List.count_cons_of_ne (by simpa using Ne.symm hyx), List.count_nil]
      exact hcount

theorem Sound.weakUpgrade {w : Addr} (hs : h.Sound [])
    (hw : w = 0 ∨ ∃ b, h.blocks w = some b ∧ b.typeinfo = .weakBox ∧
      h.rc b.target + 1 < 2 ^ 61) : (h.weakUpgrade w).2.Sound [] := by
  unfold Heap.weakUpgrade
  split
  next => exact hs
  next h0 =>
    obtain ⟨b, hb, hty, hlt⟩ := hw.resolve_left h0
    rw [hb]
    dsimp only
    split
    next ht =>
      obtain ⟨t, htarget, -⟩ := hs.boxed.target w b hb hty ht
      refine hs.retain (.inr ?_) hlt
      rw [htarget]
      exact Option.some_ne_none t
    next => exact hs

/-- The step lemma of runs. -/
theorem Sound.apply {c : Call} (hs : h.Sound []) (hl : h.Legal c) (hcareful : h.Careful c) :
    (h.apply c).Sound [] := by
  cases c with
  | alloc payloadBytes ti fresh memory init roots =>
    obtain ⟨hti, hfresh, -, hcovered⟩ := hl
    obtain ⟨hs', hx, -⟩ := place_spec payloadBytes ti hs hfresh
    have hfill : h.apply (.alloc payloadBytes ti fresh memory init roots) =
        (h.place payloadBytes ti fresh).2.link (h.place payloadBytes ti fresh).1 ti init := by
      dsimp only [Heap.apply]
      rw [allocTyped_of_not_crosses hcareful]
      exact fill_link ..
    rw [hfill]
    exact hs'.link hx (fun hbox => absurd hbox hti) hcovered
  | retain x => exact hs.retain hl.1 hl.2
  | release x => exact (hs.releasable hl).release
  | store x i v =>
    obtain ⟨⟨b, hb, -, hty⟩, hcovered⟩ := hl
    exact hs.store hb hty hcovered
  | weakNew strong fresh n memory roots =>
    obtain ⟨hstrong, hfresh, hn, hnode, -⟩ := hl
    exact hs.weakNew hcareful hfresh hstrong hn hnode
  | weakUpgrade w => exact hs.weakUpgrade hl
  | gcFromRoots roots => exact hs.gcFromRoots hl hcareful

theorem Reachable.sound (hr : Reachable Careful h) : h.Sound [] := by
  induction hr with
  | init literals trigger h0 => exact sound_init h0
  | call _ hl hcareful ih => exact ih.apply hl hcareful

/-- In careful runs weak references are live or null. -/
theorem weakSound_of_careful (h : Heap) (hr : Reachable Careful h) : h.WeakSound :=
  hr.sound.weakSound

/-! ### A weak box in a cycle -/

theorem Reachable.mono (hpq : ∀ h c, P h c → Q h c) (hr : Reachable P h) : Reachable Q h := by
  induction hr with
  | init literals trigger h0 => exact .init literals trigger h0
  | call _ hl hp ih => exact .call ih hl (hpq _ _ hp)

/-- The check of `Covered`. -/
def isCovered (h : Heap) : Bool :=
  (h.live.all fun x => (h.refs x).all fun y => y == 0 || (h.blocks y).isSome) &&
    h.live.all fun y => decide (h.inEdges [] y ≤ h.rc y)

theorem covered_of_isCovered (hc : h.isCovered = true) : h.Covered := by
  simp only [isCovered, Bool.and_eq_true, List.all_eq_true, Bool.or_eq_true, beq_iff_eq,
    Option.isSome_iff_ne_none, decide_eq_true_eq] at hc
  exact hc

/-- The check of `Roots`, for roots that the program holds itself. -/
def holdsRoots (h : Heap) (roots : List Addr) : Bool :=
  (h.live.all fun x => decide (h.rc x ≤ h.inEdges [] x) || roots.contains x) &&
    roots.all fun r =>
      (h.blocks r).isSome && h.live.contains r && decide (h.inEdges [] r < h.rc r)

theorem roots_of_holdsRoots (hc : h.holdsRoots roots = true) : h.Roots roots := by
  simp only [holdsRoots, Bool.and_eq_true, List.all_eq_true, Bool.or_eq_true, decide_eq_true_eq,
    List.contains_iff_mem, Option.isSome_iff_ne_none] at hc
  refine ⟨fun x hx hlt => (hc.1 x hx).resolve_left (by omega), fun r hr => .inr ?_⟩
  obtain ⟨⟨hb, hlive⟩, hlt⟩ := hc.2 r hr
  exact ⟨hb, fun _ => ⟨r, ⟨hlive, hlt⟩, .refl⟩⟩

/-- A string `0x100`, a weak box `0x200` of it with the node `0x900`, and a struct `0x300` that
refers to itself and to the weak box. Then the program holds the string only. -/
def weakCycle : List Call :=
  [.alloc 5 .string 0x100 (fun _ => 0) (fun _ => 0) [],
    .weakNew 0x100 0x200 0x900 (fun _ => 0) [0x100],
    .alloc 16 (.struct [true, true]) 0x300 (fun _ => 0) (fun i => if i = 0 then 0x300 else 0x200)
      [0x100, 0x200]]

/-- The heap after the first calls of a run without literals and automatic collections. -/
def after (calls : List Call) (n : ℕ) : Heap :=
  (calls.take n).foldl apply (init (fun _ => none) 0)

theorem reachable_weakCycle :
    Reachable Careful (after weakCycle 2) ∧ Reachable Careful (after weakCycle 3) := by
  have hpools : ∀ n ≤ 2, ∀ i, (after weakCycle n).pools i = [] := by
    intro n hn i
    obtain rfl | rfl | rfl : n = 0 ∨ n = 1 ∨ n = 2 := by omega
    all_goals rfl
  have hfresh : ∀ n ≤ 2, ∀ x, x ≠ 0 → (after weakCycle n).blocks x = none →
      (after weakCycle n).Fresh x := fun n hn x hx hnone =>
    ⟨hx, hnone, fun i => hpools n hn i ▸ List.not_mem_nil⟩
  have hlegal : (after weakCycle 0).Legal weakCycle[0] :=
    ⟨by decide, hfresh 0 (by omega) _ (by decide) rfl, roots_of_holdsRoots (by decide +kernel),
      covered_of_isCovered (by decide +kernel)⟩
  have h1 : Reachable Careful (after weakCycle 1) := .call (.init _ _ rfl) hlegal rfl
  have hlegal : (after weakCycle 1).Legal weakCycle[1] :=
    ⟨.inr ⟨_, rfl, rfl⟩, hfresh 1 (by omega) _ (by decide) (by decide +kernel), by decide, rfl,
      roots_of_holdsRoots (by decide +kernel)⟩
  have h2 : Reachable Careful (after weakCycle 2) := .call h1 hlegal rfl
  have hlegal : (after weakCycle 2).Legal weakCycle[2] :=
    ⟨by decide, hfresh 2 (by omega) _ (by decide) (by decide +kernel),
      roots_of_holdsRoots (by decide +kernel), covered_of_isCovered (by decide +kernel)⟩
  exact ⟨h2, .call h2 hlegal rfl⟩

theorem weakSound_weakCycle : ((after weakCycle 2).gcFromRoots [0x100, 0x200]).WeakSound := by
  have hr := reachable_weakCycle.1
  have hlive : (after weakCycle 2).live = [0x200, 0x100] := by decide +kernel
  refine weakSound_of_careful _ (.call (c := .gcFromRoots [0x100, 0x200]) hr
    (roots_of_holdsRoots (by decide +kernel)) fun x b hb hty _ => ?_)
  have hx : x ∈ (after weakCycle 2).live := by
    by_contra hx
    rw [(hr.sound.counted.literal x b hb hx).2] at hty
    cases hty
  refine Mark.Reached.of_mem ?_ (hr.sound.counted.toFormed.isCounted_iff.mpr hx)
  rw [hlive] at hx
  simpa [or_comm] using hx

/-- A weak box in a cycle is freed without leaving the side table. -/
theorem weak_node_dangles : ¬ ∀ h, Reachable (fun _ _ => True) h → h.WeakSound := by
  intro hall
  have hr : Reachable (fun _ _ => True) ((after weakCycle 3).gcFromRoots [0x100]) :=
    .call (c := .gcFromRoots [0x100]) (reachable_weakCycle.2.mono fun _ _ _ => trivial)
      (roots_of_holdsRoots (by decide +kernel)) trivial
  have hnode : ((after weakCycle 3).gcFromRoots [0x100]).nodes 0x900 = some ⟨0x100, 0x200⟩ := by
    decide +kernel
  obtain ⟨b, hb, -⟩ := (hall _ hr).node _ _ hnode
  have hnone : ((after weakCycle 3).gcFromRoots [0x100]).blocks 0x200 = none := by
    decide +kernel
  rw [hnone] at hb
  cases hb

end Heap

end Corvid.Native
