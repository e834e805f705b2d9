import Corvid.Native.Heap

/-!
# The side table of weak references

The side table maps a block to the weak boxes that refer to it. Clearing a block and destroying a
weak box both take nodes out of the table and null the slots of their owners. Neither of them looks
at reference counts, and as long as the owner of every node is an allocated weak box, neither of
them touches anything else.

## Main definitions

* `Heap.Filed`: the nodes are those of the buckets, and searches find the buckets
* `Heap.Boxed`: nodes and weak boxes refer to each other
* `Heap.Detached`: what taking nodes out does

## Main results

* `weakClearSelf_detached`, `weakDestroyBox_detached`: the two operations
* `Boxed.detached`: they keep nodes and boxes together
-/

namespace Corvid.Native

open Probing

namespace Block

variable {b : Block} {i : ℕ} {v w : Word}

/-- A weak box without a target. -/
def clear (b : Block) : Block := (b.store 0 0).store 1 0

@[simp]
theorem store_refcountWord : (b.store i v).refcountWord = b.refcountWord := rfl

@[simp]
theorem store_typeinfo : (b.store i v).typeinfo = b.typeinfo := rfl

@[simp]
theorem store_payload_self : (b.store i v).payload i = v := by
  show Function.update b.payload i v i = v
  rw [Function.update_self]

@[simp]
theorem setWord_typeinfo : (b.setWord w).typeinfo = b.typeinfo := rfl

@[simp]
theorem setWord_payload : (b.setWord w).payload = b.payload := rfl

theorem target_clear : b.clear.target = 0 := by
  show Function.update (Function.update b.payload 0 0) 1 0 0 = 0
  simp

theorem node_clear : b.clear.node = 0 := by
  show Function.update (Function.update b.payload 0 0) 1 0 1 = 0
  simp

theorem store_eq_self (h : b.payload i = v) : b.store i v = b := by
  subst h
  rw [store, Function.update_eq_self]

theorem clear_clear : b.clear.clear = b.clear := by
  have htarget : b.clear.store 0 0 = b.clear := store_eq_self target_clear
  rw [clear, htarget, store_eq_self node_clear]

theorem trace_eq_refs (b : Block) : b.trace = b.typeinfo.refs b.payload := by
  unfold trace Typeinfo.traceFn
  cases b.typeinfo <;> rfl

end Block

namespace Heap

variable {h h' : Heap} {x y n k o : Addr} {b : Block} {f : Block → Block} {i : ℕ}

theorem modify_eq (h : Heap) (x : Addr) (f : Block → Block) :
    h.modify x f =
      { h with
        blocks := Function.update h.blocks x ((h.blocks x).map f)
        fault := if (h.blocks x).isSome then h.fault else h.fault <|> some (.freed x) } := by
  unfold modify
  cases hx : h.blocks x with
  | some b => rfl
  | none =>
    show h.fail (.freed x) = { h with
      blocks := Function.update h.blocks x none, fault := h.fault <|> some (.freed x) }
    rw [← hx, Function.update_eq_self]
    rfl

section Frame

@[simp]
theorem modify_live : (h.modify x f).live = h.live := by rw [modify_eq]

@[simp]
theorem modify_pools : (h.modify x f).pools = h.pools := by rw [modify_eq]

@[simp]
theorem modify_nodes : (h.modify x f).nodes = h.nodes := by rw [modify_eq]

@[simp]
theorem modify_weakBuckets : (h.modify x f).weakBuckets = h.weakBuckets := by rw [modify_eq]

@[simp]
theorem modify_weakLen : (h.modify x f).weakLen = h.weakLen := by rw [modify_eq]

@[simp]
theorem modify_freed : (h.modify x f).freed = h.freed := by rw [modify_eq]

theorem modify_blocks (h : Heap) (x : Addr) (f : Block → Block) :
    (h.modify x f).blocks = Function.update h.blocks x ((h.blocks x).map f) := by
  rw [modify_eq]

@[simp]
theorem modify_blocks_self : (h.modify x f).blocks x = (h.blocks x).map f := by
  rw [modify_blocks, Function.update_self]

theorem modify_blocks_of_ne (hy : y ≠ x) : (h.modify x f).blocks y = h.blocks y := by
  rw [modify_blocks, Function.update_of_ne hy]

theorem modify_fault (hx : h.blocks x ≠ none) : (h.modify x f).fault = h.fault := by
  rw [modify_eq]
  exact if_pos (Option.isSome_iff_ne_none.mpr hx)

theorem modify_eq_self (hx : h.blocks x = some b) (hf : f b = b) : h.modify x f = h := by
  rw [modify, hx]
  dsimp only
  rw [hf, ← hx, Function.update_eq_self]

end Frame

/-! ### Consistent tables -/

/-- The nodes are those of the buckets. -/
structure Filed (h : Heap) : Prop where
  valid : Table.Valid weakHash h.weakBuckets
  len : h.weakLen = h.weakBuckets.size
  bucket : ∀ k head, Table.Has h.weakBuckets k head →
    k ≠ 0 ∧ head ≠ [] ∧ head.Nodup ∧ ∀ n ∈ head, ∃ o, h.nodes n = some ⟨k, o⟩
  filed : ∀ n k o, h.nodes n = some ⟨k, o⟩ → ∃ head, Table.Has h.weakBuckets k head ∧ n ∈ head
  node_ne : ∀ n k o, h.nodes n = some ⟨k, o⟩ → n ≠ 0

/-- Nodes and weak boxes refer to each other, and a weak box refers to an allocated block that
clears it when it dies. -/
structure Boxed (h : Heap) : Prop where
  owner : ∀ n k o, h.nodes n = some ⟨k, o⟩ →
    ∃ b, h.blocks o = some b ∧ b.typeinfo = .weakBox ∧ b.target = k ∧ b.node = n
  cleared : ∀ x b, h.blocks x = some b → b.typeinfo = .weakBox → b.target = 0 → b.node = 0
  node : ∀ x b, h.blocks x = some b → b.typeinfo = .weakBox → b.target ≠ 0 →
    h.nodes b.node = some ⟨b.target, x⟩
  target : ∀ x b, h.blocks x = some b → b.typeinfo = .weakBox → b.target ≠ 0 →
    ∃ t, h.blocks b.target = some t ∧ t.typeinfo.weakFn = true

theorem Filed.congr (hf : h.Filed) (hbuckets : h'.weakBuckets = h.weakBuckets)
    (hlen : h'.weakLen = h.weakLen) (hnodes : h'.nodes = h.nodes) : h'.Filed := by
  constructor
  · rw [hbuckets]; exact hf.valid
  · rw [hlen, hbuckets]; exact hf.len
  · rw [hbuckets, hnodes]; exact hf.bucket
  · rw [hbuckets, hnodes]; exact hf.filed
  · rw [hnodes]; exact hf.node_ne

theorem Filed.key_ne (hf : h.Filed) (hn : h.nodes n = some ⟨k, o⟩) : k ≠ 0 := by
  obtain ⟨head, hhas, -⟩ := hf.filed n k o hn
  exact (hf.bucket k head hhas).1

/-- A search finds the bucket of a key. -/
theorem Filed.weakFindBucket_eq_some (hf : h.Filed) (hk : k ≠ 0) :
    h.weakFindBucket k = some i ↔ ∃ head, h.weakBuckets[i]? = some (.full k head) := by
  unfold weakFindBucket
  split
  next hcap =>
    rcases hcap with hcap | hcap
    · exact absurd hcap hk
    · rw [List.length_eq_zero_iff.mp hcap]
      constructor
      · exact fun h => nomatch h
      · rintro ⟨head, hhead⟩
        cases hhead
  next => exact Table.find_eq_some hf.valid

theorem Filed.weakFindBucket_eq_none (hf : h.Filed) (h0 : h.weakFindBucket k = none) :
    h.nodes n ≠ some ⟨k, o⟩ := by
  intro hn
  obtain ⟨head, ⟨i, hi⟩, -⟩ := hf.filed n k o hn
  rw [(hf.weakFindBucket_eq_some (hf.key_ne hn)).mpr ⟨head, hi⟩] at h0
  cases h0

/-! ### Taking a node out -/

section Unlink

variable {head : List Addr}

theorem weakUnlinkNode_eq (h : Heap) (i : ℕ) (n : Addr) :
    ∃ t len, h.weakUnlinkNode i n = { h with weakBuckets := t, weakLen := len } := by
  unfold weakUnlinkNode
  split
  · split
    · exact ⟨_, _, rfl⟩
    · exact ⟨_, h.weakLen, rfl⟩
  · exact ⟨h.weakBuckets, h.weakLen, rfl⟩

/-- The table without one node. -/
theorem Filed.unlink (hf : h.Filed) (hcell : h.weakBuckets[i]? = some (.full k head))
    (hn : n ∈ head) : ((h.weakUnlinkNode i n).freeNode n).Filed := by
  obtain ⟨hk, -, hnodup, hhead⟩ := hf.bucket k head ⟨i, hcell⟩
  obtain ⟨o, ho⟩ := hhead n hn
  have hnodes : ((h.weakUnlinkNode i n).freeNode n).nodes = Function.update h.nodes n none := by
    obtain ⟨t, len, heq⟩ := h.weakUnlinkNode_eq i n
    rw [heq]
    rfl
  -- the other nodes stay
  have hkept : ∀ {m k' o'}, Function.update h.nodes n none m = some ⟨k', o'⟩ →
      m ≠ n ∧ h.nodes m = some ⟨k', o'⟩ := by
    intro m k' o' hm
    by_cases hmn : m = n
    · rw [hmn, Function.update_self] at hm
      cases hm
    · rw [Function.update_of_ne hmn] at hm
      exact ⟨hmn, hm⟩
  have hother : ∀ {m k' o'}, m ≠ n → h.nodes m = some ⟨k', o'⟩ →
      Function.update h.nodes n none m = some ⟨k', o'⟩ := by
    intro m k' o' hmn hm
    rw [Function.update_of_ne hmn, hm]
  have hne : ∀ m k' o', Function.update h.nodes n none m = some ⟨k', o'⟩ → m ≠ 0 :=
    fun m k' o' hm => hf.node_ne m k' o' (hkept hm).2
  by_cases hlast : (head.erase n).isEmpty = true
  · have hbuckets : ((h.weakUnlinkNode i n).freeNode n).weakBuckets =
        h.weakBuckets.set i .tombstone := by
      simp only [weakUnlinkNode, hcell, hlast, freeNode, if_true]
    have hlen : ((h.weakUnlinkNode i n).freeNode n).weakLen = h.weakLen - 1 := by
      simp only [weakUnlinkNode, hcell, hlast, freeNode, if_true]
    constructor
    · rw [hbuckets]; exact hf.valid.erase i
    · rw [hlen, hbuckets, Table.size_erase hcell, hf.len]
    · rw [hbuckets, hnodes]
      intro k' head' hhas
      obtain ⟨hk', hhas⟩ := (Table.has_erase hf.valid hcell).mp hhas
      obtain ⟨h0, hne, hnd, hall⟩ := hf.bucket k' head' hhas
      refine ⟨h0, hne, hnd, fun m hm => ?_⟩
      obtain ⟨o', ho'⟩ := hall m hm
      refine ⟨o', hother ?_ ho'⟩
      rintro rfl
      rw [ho] at ho'
      cases ho'
      exact hk' rfl
    · rw [hbuckets, hnodes]
      intro m k' o' hm
      obtain ⟨hmn, hm⟩ := hkept hm
      obtain ⟨head', hhas, hmem⟩ := hf.filed m k' o' hm
      refine ⟨head', (Table.has_erase hf.valid hcell).mpr ⟨?_, hhas⟩, hmem⟩
      -- the last node of the bucket was `n`
      rintro rfl
      obtain rfl := Table.has_unique hf.valid hhas ⟨i, hcell⟩
      have := (List.mem_erase_of_ne hmn).mpr hmem
      rw [List.isEmpty_iff.mp hlast] at this
      cases this
    · rw [hnodes]; exact hne
  · have hbuckets : ((h.weakUnlinkNode i n).freeNode n).weakBuckets =
        h.weakBuckets.set i (.full k (head.erase n)) := by
      simp only [weakUnlinkNode, hcell, hlast, freeNode, if_false, Bool.false_eq_true]
    have hlen : ((h.weakUnlinkNode i n).freeNode n).weakLen = h.weakLen := by
      simp only [weakUnlinkNode, hcell, hlast, freeNode, if_false, Bool.false_eq_true]
    have hslot := hf.valid.slot_of_full hcell
    constructor
    · rw [hbuckets]; exact hslot.valid hf.valid _
    · rw [hlen, hbuckets, Table.size_set_value hcell, hf.len]
    · rw [hbuckets, hnodes]
      intro k' head' hhas
      rw [hslot.has_set] at hhas
      split at hhas
      next hk' =>
        subst hk' hhas
        refine ⟨hk, fun hnil => hlast (List.isEmpty_iff.mpr hnil), hnodup.erase n, fun m hm => ?_⟩
        rw [hnodup.mem_erase_iff] at hm
        obtain ⟨o', ho'⟩ := hhead m hm.2
        exact ⟨o', hother hm.1 ho'⟩
      next hk' =>
        obtain ⟨h0, hne, hnd, hall⟩ := hf.bucket k' head' hhas
        refine ⟨h0, hne, hnd, fun m hm => ?_⟩
        obtain ⟨o', ho'⟩ := hall m hm
        refine ⟨o', hother ?_ ho'⟩
        rintro rfl
        rw [ho] at ho'
        cases ho'
        exact hk' rfl
    · rw [hbuckets, hnodes]
      intro m k' o' hm
      obtain ⟨hmn, hm⟩ := hkept hm
      obtain ⟨head', hhas, hmem⟩ := hf.filed m k' o' hm
      by_cases hk' : k' = k
      · subst hk'
        obtain rfl := Table.has_unique hf.valid hhas ⟨i, hcell⟩
        refine ⟨head'.erase n, ?_, (List.mem_erase_of_ne hmn).mpr hmem⟩
        rw [hslot.has_set, if_pos rfl]
      · refine ⟨head', ?_, hmem⟩
        rw [hslot.has_set, if_neg hk']
        exact hhas
    · rw [hnodes]; exact hne

theorem Filed.unlink_cell (hf : h.Filed) (hcell : h.weakBuckets[i]? = some (.full k head))
    (hne : head.erase n ≠ []) :
    (h.weakUnlinkNode i n).weakBuckets[i]? = some (.full k (head.erase n)) := by
  have hlt := (hf.valid.slot_of_full hcell).lt
  have hlast : (head.erase n).isEmpty = false := by
    rw [Bool.eq_false_iff]
    exact fun h => hne (List.isEmpty_iff.mp h)
  simp only [weakUnlinkNode, hcell, hlast, Bool.false_eq_true, if_false]
  exact List.getElem?_set_self hlt

end Unlink

/-! ### Putting a node in -/

section Link

theorem weakRehash_filed (hf : h.Filed) {cap : ℕ} (hcap : h.weakBuckets.size ≤ cap) :
    (h.weakRehash cap).Filed ∧ (h.weakRehash cap).weakBuckets.size = h.weakBuckets.size ∧
      (h.weakRehash cap).weakBuckets.length = cap := by
  have hkeep : ∀ k head, Table.Has h.weakBuckets k head → (!head.isEmpty) = true := by
    intro k head hhas
    have := (hf.bucket k head hhas).2.1
    cases head with
    | nil => exact absurd rfl this
    | cons n head => rfl
  obtain ⟨hvalid, hlen, hsize, hhas⟩ := hf.valid.rehash hkeep hcap
  refine ⟨⟨hvalid, ?_, fun k head h => hf.bucket k head ((hhas k head).mp h), fun n k o hn => ?_,
    hf.node_ne⟩, hsize, hlen⟩
  · -- no bucket is dropped
    refine Eq.trans ?_ hsize.symm
    refine List.countP_congr fun c hc => ?_
    cases c with
    | empty | tombstone => rfl
    | full k head =>
      have := hkeep k head (Table.has_iff_mem.mpr hc)
      simpa [Cell.isFull] using this
  · obtain ⟨head, h, hmem⟩ := hf.filed n k o hn
    exact ⟨head, (hhas k head).mpr h, hmem⟩

theorem weakEnsureCapacity_filed (hf : h.Filed) :
    h.weakEnsureCapacity.Filed ∧
      h.weakEnsureCapacity.weakBuckets.size < h.weakEnsureCapacity.weakBuckets.length := by
  have hle : h.weakBuckets.size ≤ h.weakBuckets.length := List.countP_le_length
  unfold weakEnsureCapacity
  split
  next hzero =>
    have hcap : h.weakBuckets.size ≤ 16 := by omega
    obtain ⟨hf', hsize, hlen⟩ := weakRehash_filed hf hcap
    exact ⟨hf', by omega⟩
  next hpos =>
    split
    next =>
      have hcap : h.weakBuckets.size ≤ h.weakBuckets.length * 2 := by omega
      obtain ⟨hf', hsize, hlen⟩ := weakRehash_filed hf hcap
      exact ⟨hf', by omega⟩
    next hroom =>
      refine ⟨hf, ?_⟩
      rw [← hf.len]
      omega

theorem weakEnsureCapacity_eq (h : Heap) :
    ∃ t len, h.weakEnsureCapacity = { h with weakBuckets := t, weakLen := len } := by
  unfold weakEnsureCapacity
  split
  · exact ⟨_, _, rfl⟩
  · split
    · exact ⟨_, _, rfl⟩
    · exact ⟨h.weakBuckets, h.weakLen, rfl⟩

theorem weakLinkNode_eq (i : ℕ) (k n : Addr) (h : Heap) :
    ∃ t len, h.weakLinkNode i k n = { h with weakBuckets := t, weakLen := len } := by
  unfold weakLinkNode
  split
  · exact ⟨_, h.weakLen, rfl⟩
  · exact ⟨_, _, rfl⟩

/-- The table with one node more. -/
theorem Filed.linkNode (hf : h.Filed) (hk : k ≠ 0) (hn : n ≠ 0) (hnode : h.nodes n = none)
    (hfind : Table.findInsert weakHash h.weakBuckets k = some i) (o : Addr) :
    ({ h.weakLinkNode i k n with nodes := Function.update h.nodes n (some ⟨k, o⟩) } : Heap).Filed := by
  have hslot := hf.valid.slot hfind
  -- the bucket of the key, with the new node
  obtain ⟨head, hbuckets, hlen, hhead⟩ : ∃ head,
      (h.weakLinkNode i k n).weakBuckets = h.weakBuckets.set i (.full k (n :: head)) ∧
      (h.weakLinkNode i k n).weakLen = (h.weakBuckets.set i (Cell.full k (n :: head))).countP Cell.isFull ∧
      (Table.Has h.weakBuckets k head ∨ head = [] ∧ ∀ w, ¬ Table.Has h.weakBuckets k w) := by
    unfold weakLinkNode
    split
    next k' head hcell =>
      obtain rfl := hslot.cell k' head hcell
      exact ⟨head, rfl, hf.len.trans (Table.size_set_value hcell _).symm, .inl ⟨i, hcell⟩⟩
    next hfree =>
      have hnew : ∀ w, ¬ Table.Has h.weakBuckets k w := by
        rintro w ⟨j, hj⟩
        obtain rfl := hslot.only j w hj
        exact hfree k w hj
      refine ⟨[], rfl, ?_, .inr ⟨rfl, hnew⟩⟩
      exact (congrArg (· + 1) hf.len).trans (hslot.size_set hnew).symm
  have hold : ∀ {m node}, h.nodes m = some node →
      Function.update h.nodes n (some ⟨k, o⟩) m = some node := by
    intro m node hm
    rw [Function.update_of_ne, hm]
    rintro rfl
    rw [hnode] at hm
    cases hm
  constructor
  · show Table.Valid weakHash (h.weakLinkNode i k n).weakBuckets
    rw [hbuckets]
    exact hslot.valid hf.valid _
  · show (h.weakLinkNode i k n).weakLen = Table.size (h.weakLinkNode i k n).weakBuckets
    rw [hlen, hbuckets]
    rfl
  · show ∀ k' head', Table.Has (h.weakLinkNode i k n).weakBuckets k' head' → _
    rw [hbuckets]
    intro k' head' hhas
    rw [hslot.has_set] at hhas
    split at hhas
    next hk' =>
      subst hk' hhas
      have hnew : ∃ o', Function.update h.nodes n (some ⟨k', o⟩) n = some ⟨k', o'⟩ :=
        ⟨o, Function.update_self ..⟩
      rcases hhead with hhas | ⟨rfl, -⟩
      · obtain ⟨-, -, hnodup, hall⟩ := hf.bucket k' head hhas
        refine ⟨hk, List.cons_ne_nil n head, List.nodup_cons.mpr ⟨fun hmem => ?_, hnodup⟩,
          fun m hm => ?_⟩
        · obtain ⟨o', ho'⟩ := hall n hmem
          rw [hnode] at ho'
          cases ho'
        · rcases List.mem_cons.mp hm with rfl | hm
          · exact hnew
          · obtain ⟨o', ho'⟩ := hall m hm
            exact ⟨o', hold ho'⟩
      · exact ⟨hk, List.cons_ne_nil n [], List.nodup_cons.mpr ⟨List.not_mem_nil, List.nodup_nil⟩,
          fun m hm => List.mem_singleton.mp hm ▸ hnew⟩
    next =>
      obtain ⟨h0, hne, hnodup, hall⟩ := hf.bucket k' head' hhas
      exact ⟨h0, hne, hnodup, fun m hm => (hall m hm).imp fun _ => hold⟩
  · intro m k' o' hm
    have hm' : Function.update h.nodes n (some ⟨k, o⟩) m = some ⟨k', o'⟩ := hm
    show ∃ head', Table.Has (h.weakLinkNode i k n).weakBuckets k' head' ∧ m ∈ head'
    rw [hbuckets]
    by_cases hmn : m = n
    · rw [hmn, Function.update_self] at hm'
      cases hm'
      exact ⟨n :: head, by rw [hslot.has_set, if_pos rfl], hmn ▸ List.mem_cons_self⟩
    · rw [Function.update_of_ne hmn] at hm'
      obtain ⟨head', hhas, hmem⟩ := hf.filed m k' o' hm'
      by_cases hk' : k' = k
      · subst hk'
        refine ⟨n :: head, by rw [hslot.has_set, if_pos rfl], List.mem_cons_of_mem _ ?_⟩
        rcases hhead with hhead | ⟨-, hnone⟩
        · rwa [Table.has_unique hf.valid hhas hhead] at hmem
        · exact absurd hhas (hnone head')
      · exact ⟨head', by rw [hslot.has_set, if_neg hk']; exact hhas, hmem⟩
  · intro m k' o' hm
    have hm' : Function.update h.nodes n (some ⟨k, o⟩) m = some ⟨k', o'⟩ := hm
    by_cases hmn : m = n
    · exact hmn ▸ hn
    · rw [Function.update_of_ne hmn] at hm'
      exact hf.node_ne m k' o' hm'

end Link

/-! ### Taking nodes out -/

/-- Some nodes are taken out of the table, and their owners are cleared. -/
structure Detached (gone : Addr → Prop) (h h' : Heap) : Prop where
  filed : h'.Filed
  removed : ∀ n, gone n → h'.nodes n = none
  kept : ∀ n, ¬ gone n → h'.nodes n = h.nodes n
  cleared : ∀ n k o, gone n → h.nodes n = some ⟨k, o⟩ → h'.blocks o = (h.blocks o).map .clear
  same : ∀ y, (∀ n k, gone n → h.nodes n ≠ some ⟨k, y⟩) → h'.blocks y = h.blocks y
  live : h'.live = h.live
  pools : h'.pools = h.pools
  freed : h'.freed = h.freed
  fault : (∀ n k o, gone n → h.nodes n = some ⟨k, o⟩ → h.blocks o ≠ none) → h'.fault = h.fault

variable {gone gone' : Addr → Prop}

theorem Detached.refl (hf : h.Filed) (hgone : ∀ n, gone n → h.nodes n = none) :
    Detached gone h h where
  filed := hf
  removed := hgone
  kept _ _ := rfl
  cleared n k o hn hnode := by rw [hgone n hn] at hnode; cases hnode
  same _ _ := rfl
  live := rfl
  pools := rfl
  freed := rfl
  fault _ := rfl

/-- Every block is the same as before, or cleared. -/
theorem Detached.block (hd : Detached gone h h') (y : Addr) :
    h'.blocks y = h.blocks y ∨
      (∃ n k, gone n ∧ h.nodes n = some ⟨k, y⟩) ∧ h'.blocks y = (h.blocks y).map .clear := by
  by_cases hy : ∃ n k, gone n ∧ h.nodes n = some ⟨k, y⟩
  · obtain ⟨n, k, hn, hnode⟩ := hy
    exact .inr ⟨⟨n, k, hn, hnode⟩, hd.cleared n k y hn hnode⟩
  · exact .inl (hd.same y fun n k hn hnode => hy ⟨n, k, hn, hnode⟩)

theorem Detached.allocated (hd : Detached gone h h') (y : Addr) :
    h'.blocks y = none ↔ h.blocks y = none := by
  rcases hd.block y with hy | ⟨-, hy⟩ <;> rw [hy]
  exact Option.map_eq_none_iff

theorem Detached.trans {h'' : Heap} (hd : Detached gone h h') (hd' : Detached gone' h' h'') :
    Detached (fun n => gone n ∨ gone' n) h h'' where
  filed := hd'.filed
  removed n hn := by
    by_cases hn' : gone' n
    · exact hd'.removed n hn'
    · rw [hd'.kept n hn']
      exact hd.removed n (hn.resolve_right hn')
  kept n hn := by
    rw [hd'.kept n fun h => hn (.inr h), hd.kept n fun h => hn (.inl h)]
  cleared n k o hn hnode := by
    -- cleared first, or later, or both
    by_cases hg : gone n
    · rcases hd'.block o with ho | ⟨-, ho⟩ <;> rw [ho, hd.cleared n k o hg hnode]
      rw [Option.map_map]
      exact congrArg (fun f => Option.map f (h.blocks o)) (funext fun _ => Block.clear_clear)
    · rw [hd'.cleared n k o (hn.resolve_left hg) ((hd.kept n hg).trans hnode)]
      rcases hd.block o with ho | ⟨-, ho⟩ <;> rw [ho]
      rw [Option.map_map]
      exact congrArg (fun f => Option.map f (h.blocks o)) (funext fun _ => Block.clear_clear)
  same y hy := by
    have hsame := hd.same y fun n k hn => hy n k (.inl hn)
    rw [hd'.same y, hsame]
    intro n k hn hnode
    by_cases hg : gone n
    · rw [hd.removed n hg] at hnode
      cases hnode
    · exact hy n k (.inr hn) ((hd.kept n hg).symm.trans hnode)
  live := hd'.live.trans hd.live
  pools := hd'.pools.trans hd.pools
  freed := hd'.freed.trans hd.freed
  fault hall := by
    rw [hd'.fault, hd.fault]
    · exact fun n k o hn => hall n k o (.inl hn)
    · intro n k o hn hnode
      by_cases hg : gone n
      · rw [hd.removed n hg] at hnode
        cases hnode
      · rw [Ne, hd.allocated]
        exact hall n k o (.inr hn) ((hd.kept n hg).symm.trans hnode)

theorem Detached.congr (hd : Detached gone h h') (heq : ∀ n, gone n ↔ gone' n) :
    Detached gone' h h' := by
  rwa [show gone' = gone from funext fun n => propext (heq n).symm]

/-- One node is taken out, after its owner has been cleared. -/
theorem Filed.detach_node (hf : h.Filed) {head : List Addr}
    (hcell : h.weakBuckets[i]? = some (.full k head)) (hn : n ∈ head)
    (hnode : h.nodes n = some ⟨k, o⟩) :
    Detached (fun m => m = n) h
      ((((h.modify o (.store 0 0)).modify o (.store 1 0)).weakUnlinkNode i n).freeNode n) := by
  have hblocks : ((h.modify o (.store 0 0)).modify o (.store 1 0)).blocks =
      Function.update h.blocks o ((h.blocks o).map .clear) := by
    rw [modify_blocks, modify_blocks, Function.update_self, Function.update_idem, Option.map_map]
    rfl
  have hf' : ((h.modify o (.store 0 0)).modify o (.store 1 0)).Filed :=
    hf.congr (by simp) (by simp) (by simp)
  have hfiled := hf'.unlink (by simpa using hcell) hn
  obtain ⟨t, len, heq⟩ :=
    ((h.modify o (.store 0 0)).modify o (.store 1 0)).weakUnlinkNode_eq i n
  rw [heq] at hfiled ⊢
  refine ⟨hfiled, ?_, ?_, ?_, ?_, by simp [freeNode], by simp [freeNode], by simp [freeNode], ?_⟩
  · rintro m rfl
    exact Function.update_self ..
  · intro m hm
    simp [freeNode, Function.update_of_ne hm]
  · rintro m k' o' rfl hnode'
    rw [hnode] at hnode'
    cases hnode'
    exact (congrFun hblocks o).trans (Function.update_self ..)
  · intro y hy
    refine (congrFun hblocks y).trans (Function.update_of_ne ?_ _ _)
    rintro rfl
    exact hy n k rfl hnode
  · intro hall
    have ho := hall n k o rfl hnode
    show ((h.modify o (.store 0 0)).modify o (.store 1 0)).fault = h.fault
    rw [modify_fault, modify_fault ho]
    rw [modify_blocks_self]
    exact fun h0 => ho (Option.map_eq_none_iff.mp h0)

theorem foldl_weakClearNode (hf : h.Filed) {head : List Addr}
    (hcell : h.weakBuckets[i]? = some (.full k head)) :
    Detached (fun n => n ∈ head) h (head.foldl (weakClearNode i) h) := by
  induction head generalizing h with
  | nil => exact .refl hf fun _ hn => nomatch hn
  | cons n rest ih =>
    obtain ⟨-, -, hnodup, hhead⟩ := hf.bucket k _ ⟨i, hcell⟩
    obtain ⟨o, hnode⟩ := hhead n List.mem_cons_self
    have hstep : weakClearNode i h n =
        (((h.modify o (.store 0 0)).modify o (.store 1 0)).weakUnlinkNode i n).freeNode n := by
      rw [weakClearNode, hnode]
    have hd := hf.detach_node hcell List.mem_cons_self hnode
    rw [← hstep] at hd
    rw [List.foldl_cons]
    cases rest with
    | nil => exact hd.congr fun m => List.mem_singleton.symm
    | cons m rest =>
      -- the bucket is still there, with the rest of the nodes
      have hcell' : (weakClearNode i h n).weakBuckets[i]? = some (.full k (m :: rest)) := by
        have hf' : ((h.modify o (.store 0 0)).modify o (.store 1 0)).Filed :=
          hf.congr (by simp) (by simp) (by simp)
        have := hf'.unlink_cell (n := n) (by simpa using hcell) (by simp)
        rw [List.erase_cons_head] at this
        rw [hstep]
        exact this
      exact (hd.trans (ih hd.filed hcell')).congr fun m' => List.mem_cons.symm

/-- `corvid_weak_clear_self` takes out the nodes of a block. -/
theorem weakClearSelf_detached (hf : h.Filed) (x : Addr) :
    Detached (fun n => ∃ o, h.nodes n = some ⟨x, o⟩) h (h.weakClearSelf x) := by
  unfold weakClearSelf
  split
  next hnone =>
    refine .refl hf fun n hn => ?_
    obtain ⟨o, hn⟩ := hn
    exact absurd hn (hf.weakFindBucket_eq_none hnone)
  next i hi =>
    have hx : x ≠ 0 := by
      rintro rfl
      simp [weakFindBucket] at hi
    obtain ⟨head, hcell⟩ := (hf.weakFindBucket_eq_some hx).mp hi
    rw [hcell]
    refine (foldl_weakClearNode hf hcell).congr fun n => ⟨(hf.bucket x head ⟨i, hcell⟩).2.2.2 n, ?_⟩
    rintro ⟨o, hn⟩
    obtain ⟨head', hhas, hmem⟩ := hf.filed n x o hn
    rwa [Table.has_unique hf.valid hhas ⟨i, hcell⟩] at hmem

/-- `corvid_weak_destroy_box` takes out the node of a weak box. -/
theorem weakDestroyBox_detached (hf : h.Filed) (hb : h.Boxed) (hx : h.blocks x = some b)
    (hbox : b.typeinfo = .weakBox) :
    Detached (fun n => ∃ k, h.nodes n = some ⟨k, x⟩) h (h.weakDestroyBox x) := by
  unfold weakDestroyBox
  rw [hx]
  by_cases htarget : b.target = 0
  · -- the box has been cleared before
    have hnode := hb.cleared x b hx hbox htarget
    dsimp only
    rw [if_pos hnode, modify_eq_self hx (Block.store_eq_self htarget)]
    refine .refl hf fun n ⟨k, hn⟩ => ?_
    obtain ⟨b', hb', -, -, hnode'⟩ := hb.owner n k x hn
    rw [hx] at hb'
    cases hb'
    exact absurd (hnode'.symm.trans hnode) (hf.node_ne n k x hn)
  · have hnode := hb.node x b hx hbox htarget
    obtain ⟨head, ⟨i, hcell⟩, hmem⟩ := hf.filed _ _ _ hnode
    have hfind : (h.modify x (.store 0 0)).weakFindBucket b.target = some i := by
      have := (hf.weakFindBucket_eq_some htarget).mpr ⟨head, hcell⟩
      simpa [weakFindBucket] using this
    have hd := hf.detach_node hcell hmem hnode
    dsimp only
    rw [if_neg (hf.node_ne _ _ _ hnode), modify_nodes, hnode]
    dsimp only
    rw [hfind]
    dsimp only
    -- the target slot is nulled twice
    have htwice : (h.modify x (.store 0 0)).modify x (.store 0 0) = h.modify x (.store 0 0) := by
      refine modify_eq_self (b := b.store 0 0) (by rw [modify_blocks_self, hx]; rfl) ?_
      exact Block.store_eq_self Block.store_payload_self
    rw [htwice]
    refine hd.congr fun n => ⟨fun hn => ⟨b.target, hn ▸ hnode⟩, fun ⟨k, hn⟩ => ?_⟩
    obtain ⟨b', hb', -, -, hnode'⟩ := hb.owner n k x hn
    rw [hx] at hb'
    cases hb'
    exact hnode'.symm

/-- Nodes and boxes stay together. -/
theorem Boxed.detached (hb : h.Boxed) (hd : Detached gone h h') : h'.Boxed := by
  have hnode : ∀ {n k o}, h'.nodes n = some ⟨k, o⟩ → ¬ gone n ∧ h.nodes n = some ⟨k, o⟩ := by
    intro n k o hn
    by_cases hg : gone n
    · rw [hd.removed n hg] at hn
      cases hn
    · exact ⟨hg, (hd.kept n hg).symm.trans hn⟩
  -- a box that still has a target is not cleared
  have hbox : ∀ {x b}, h'.blocks x = some b → b.typeinfo = .weakBox → b.target ≠ 0 →
      h.blocks x = some b ∧ ∀ n k, gone n → h.nodes n ≠ some ⟨k, x⟩ := by
    intro x b hx hty htarget
    by_cases hy : ∃ n k, gone n ∧ h.nodes n = some ⟨k, x⟩
    · obtain ⟨n, k, hg, hn⟩ := hy
      rw [hd.cleared n k x hg hn] at hx
      obtain ⟨b', -, rfl⟩ := Option.map_eq_some_iff.mp hx
      exact absurd Block.target_clear htarget
    · have hall : ∀ n k, gone n → h.nodes n ≠ some ⟨k, x⟩ := fun n k hg hn => hy ⟨n, k, hg, hn⟩
      exact ⟨(hd.same x hall).symm.trans hx, hall⟩
  constructor
  · intro n k o hn
    obtain ⟨hg, hn⟩ := hnode hn
    obtain ⟨b, hx, hty, htarget, hbn⟩ := hb.owner n k o hn
    refine ⟨b, ?_, hty, htarget, hbn⟩
    rw [hd.same o, hx]
    -- a box has no second node
    intro m k' hm hn'
    obtain ⟨b', hx', -, -, hbn'⟩ := hb.owner m k' o hn'
    rw [hx] at hx'
    cases hx'
    exact hg (hbn.symm.trans hbn' ▸ hm)
  · intro x b hx hty htarget
    rcases hd.block x with hsame | ⟨-, hclear⟩
    · exact hb.cleared x b (hsame ▸ hx) hty htarget
    · rw [hclear] at hx
      obtain ⟨b', -, rfl⟩ := Option.map_eq_some_iff.mp hx
      exact Block.node_clear
  · intro x b hx hty htarget
    obtain ⟨hx, hall⟩ := hbox hx hty htarget
    have hn := hb.node x b hx hty htarget
    rw [hd.kept, hn]
    exact fun hg => hall _ _ hg hn
  · intro x b hx hty htarget
    obtain ⟨hx, -⟩ := hbox hx hty htarget
    obtain ⟨t, ht, hweak⟩ := hb.target x b hx hty htarget
    rcases hd.block b.target with hsame | ⟨-, hclear⟩
    · exact ⟨t, hsame.trans ht, hweak⟩
    · exact ⟨t.clear, by rw [hclear, ht]; rfl, hweak⟩

end Heap

end Corvid.Native
