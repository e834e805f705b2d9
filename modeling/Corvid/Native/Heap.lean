import Corvid.Lib.Loop
import Corvid.Lib.Probing
import Corvid.Native.Word
import Mathlib.Algebra.BigOperators.Group.List.Basic
import Mathlib.Logic.Function.Basic

/-!
# The native heap

The reference-counted heap of compiled programs: blocks with a header and a payload, the list of all
heap blocks, the pools of small freed blocks, the side table of weak references, and the mark and
sweep collector over all of them. Reading or writing memory that is not allocated, and the checks
that end the process, leave a `Fault` behind.

## Main definitions

* `Typeinfo`: the types of blocks, with the slots that their trace and destroy functions visit
* `Heap`: the state of the runtime
* `Heap.retain`, `Heap.release`: counting references
* `Heap.weakNew`, `Heap.weakUpgrade`, `Heap.weakClearSelf`: weak references
* `Heap.gcFromRoots`: the collector
* `Heap.allocTyped`: allocation, which starts a collection when it crosses the trigger
-/

namespace Corvid.Native

open Probing

/-- The address of a payload. -/
abbrev Addr := Word

/-- The words of a payload, by their index. -/
abbrev Payload := ℕ → Word

/-- What `destroy_fn` does: it releases the references of the block, or takes a weak box out of the
side table. -/
inductive Destructor where
  | releaseRefs
  | weakDestroyBox
deriving DecidableEq, Repr

/-- The type of a block. Only what the runtime looks at is kept: which fields of a struct, which
branches of a result and whether the elements of a list are refcounted. -/
inductive Typeinfo where
  | string
  | struct (fields : List Bool)
  | list (elem : Bool)
  | result (ok err : Bool)
  | option (payload : Bool)
  | weakBox
deriving DecidableEq, Repr

namespace Typeinfo

/-- The size of a payload in bytes, zero if it varies. -/
def size : Typeinfo → ℕ
  | string => 0
  | struct fields => 8 * fields.length
  | list _ => 0
  | result _ _ => 16
  | option _ => 8
  | weakBox => 16

/-- The refcounted slots of a payload, in order. -/
def refs (p : Payload) : Typeinfo → List Addr
  | string => []
  | struct fields => (fields.zipIdx.filter fun f => f.1).map fun f => p f.2
  | list elem => if elem then (List.range (p 0).toInt.toNat).map fun i => p (i + 1) else []
  | result ok err => if (if p 0 = 0 then ok else err) then [p 1] else []
  | option payload => if payload then [p 0] else []
  | weakBox => []

/-- `trace_fn`: the slots it visits, or null. -/
def traceFn (p : Payload) : Typeinfo → Option (List Addr)
  | weakBox => none
  | ti => some (ti.refs p)

def destroyFn : Typeinfo → Option Destructor
  | string => none
  | struct fields => if fields.any id then some .releaseRefs else none
  | list elem => if elem then some .releaseRefs else none
  | result ok err => if ok || err then some .releaseRefs else none
  | option payload => if payload then some .releaseRefs else none
  | weakBox => some .weakDestroyBox

/-- Whether `weak_fn` is `corvid_weak_clear_self`; otherwise it is null. -/
def weakFn : Typeinfo → Bool
  | weakBox => false
  | _ => true

end Typeinfo

structure Block where
  refcountWord : Word
  typeinfo : Typeinfo
  payload : Payload

namespace Block

def isImmortal (b : Block) : Bool := b.refcountWord = Word.immortal

def setWord (w : Word) (b : Block) : Block := { b with refcountWord := w }

/-- Writes one word of the payload. -/
def store (i : ℕ) (v : Word) (b : Block) : Block :=
  { b with payload := Function.update b.payload i v }

/-- The slots that the collector follows. -/
def trace (b : Block) : List Addr := (b.typeinfo.traceFn b.payload).getD []

/-- The slots of a weak box. -/
def target (b : Block) : Addr := b.payload 0

def node (b : Block) : Addr := b.payload 1

end Block

/-- An entry of a bucket. Its `slot_addr` is the target slot of the owner. -/
structure WeakNode where
  key : Addr
  owner : Addr
deriving DecidableEq, Repr

/-- What a run must not come to. -/
inductive Fault where
  /-- memory that is not allocated is read or written -/
  | freed (a : Addr)
  /-- `corvid_release on already-freed allocation` -/
  | released (a : Addr)
  /-- `weak side-table insert failed` -/
  | insertFailed
deriving DecidableEq, Repr

structure Heap where
  /-- headers and payloads, those of static literals included -/
  blocks : Addr → Option Block
  /-- `corvid_live_head` and what it links to -/
  live : List Addr
  /-- `corvid_pool_heads` -/
  pools : ℕ → List Addr
  allocsSinceGc : ℕ
  gcTriggerThreshold : ℕ
  weakBuckets : Table Addr (List Addr)
  weakLen : ℕ
  /-- the nodes of the side table -/
  nodes : Addr → Option WeakNode
  /-- the blocks that were freed, the last one first -/
  freed : List Addr
  fault : Option Fault

namespace Heap

/-- A heap with static string literals only. -/
def init (literals : Addr → Option Payload) (gcTriggerThreshold : ℕ) : Heap where
  blocks x := (literals x).map fun p => ⟨Word.immortal, .string, p⟩
  live := []
  pools _ := []
  allocsSinceGc := 0
  gcTriggerThreshold := gcTriggerThreshold
  weakBuckets := []
  weakLen := 0
  nodes _ := none
  freed := []
  fault := none

def fail (f : Fault) (h : Heap) : Heap := { h with fault := h.fault <|> some f }

/-- Changes a block in place. -/
def modify (x : Addr) (f : Block → Block) (h : Heap) : Heap :=
  match h.blocks x with
  | some b => { h with blocks := Function.update h.blocks x (some (f b)) }
  | none => h.fail (.freed x)

/-! ### Pools -/

def poolBucketIndex (payloadBytes : ℕ) : Option ℕ :=
  if payloadBytes = 0 ∨ 256 < payloadBytes ∨ payloadBytes % 8 ≠ 0 then none
  else some (payloadBytes / 8 - 1)

/-- The header takes 16 bytes and the tracking node 48. -/
def poolCachedCap (payloadBytes : ℕ) : ℕ :=
  match poolBucketIndex payloadBytes with
  | none => 0
  | some _ => max 1 (2 * 1024 * 1024 / (48 + 16 + payloadBytes))

def poolTake (payloadBytes : ℕ) (ti : Typeinfo) (h : Heap) : Option (Addr × Heap) :=
  if ti.size = 0 then none
  else if ti.size ≠ payloadBytes then none
  else match poolBucketIndex payloadBytes with
    | none => none
    | some i =>
      match h.pools i with
      | [] => none
      | x :: rest => some (x, { h with pools := Function.update h.pools i rest })

/-- Keeps a freed block for later, or gives it back to the system. -/
def poolPut (x : Addr) (ti : Typeinfo) (h : Heap) : Heap :=
  match poolBucketIndex ti.size with
  | none => h
  | some i =>
    if poolCachedCap ti.size ≤ (h.pools i).length then h
    else { h with pools := Function.update h.pools i (x :: h.pools i) }

/-- `corvid_free_block` -/
def freeBlock (x : Addr) (h : Heap) : Heap :=
  match h.blocks x with
  | none => h.fail (.freed x)
  | some b =>
    poolPut x b.typeinfo
      { h with
        blocks := Function.update h.blocks x none
        live := h.live.erase x
        freed := x :: h.freed }

/-! ### The side table -/

def weakHashPtr (p : Addr) : Word :=
  let x := p ^^^ (p >>> 33)
  let x := x * 0xff51afd7ed558ccd#64
  x ^^^ (x >>> 33)

def weakHash (p : Addr) : ℕ := (weakHashPtr p).toNat

def weakFindBucket (key : Addr) (h : Heap) : Option ℕ :=
  if key = 0 ∨ h.weakBuckets.length = 0 then none else Table.find weakHash h.weakBuckets key

def weakRehash (newCap : ℕ) (h : Heap) : Heap :=
  { h with
    weakBuckets := Table.rehash weakHash (fun head => !head.isEmpty) newCap h.weakBuckets
    weakLen := h.weakBuckets.countP fun
      | .full _ head => !head.isEmpty
      | _ => false }

def weakEnsureCapacity (h : Heap) : Heap :=
  if h.weakBuckets.length = 0 then h.weakRehash 16
  else if h.weakBuckets.length * 3 ≤ (h.weakLen + 1) * 4 then
    h.weakRehash (h.weakBuckets.length * 2)
  else h

/-- Takes a node out of a bucket, which becomes a tombstone with its last node. -/
def weakUnlinkNode (i : ℕ) (n : Addr) (h : Heap) : Heap :=
  match h.weakBuckets[i]? with
  | some (.full key head) =>
    if (head.erase n).isEmpty then
      { h with weakBuckets := h.weakBuckets.set i .tombstone, weakLen := h.weakLen - 1 }
    else { h with weakBuckets := h.weakBuckets.set i (.full key (head.erase n)) }
  | _ => h

/-- Puts a new node into a bucket, which may have been empty or a tombstone. -/
def weakLinkNode (i : ℕ) (key n : Addr) (h : Heap) : Heap :=
  match h.weakBuckets[i]? with
  | some (.full k head) => { h with weakBuckets := h.weakBuckets.set i (.full k (n :: head)) }
  | _ => { h with weakBuckets := h.weakBuckets.set i (.full key [n]), weakLen := h.weakLen + 1 }

def freeNode (n : Addr) (h : Heap) : Heap := { h with nodes := Function.update h.nodes n none }

/-- One round of the loop of `corvid_weak_clear_self`. -/
def weakClearNode (i : ℕ) (h : Heap) (n : Addr) : Heap :=
  match h.nodes n with
  | none => h.fail (.freed n)
  | some node =>
    (((h.modify node.owner (.store 0 0)).modify node.owner (.store 1 0)).weakUnlinkNode i n).freeNode n

/-- `corvid_weak_clear_self`: all weak boxes of a block forget it. -/
def weakClearSelf (x : Addr) (h : Heap) : Heap :=
  match h.weakFindBucket x with
  | none => h
  | some i =>
    match h.weakBuckets[i]? with
    | some (.full _ head) => head.foldl (weakClearNode i) h
    | _ => h

/-- `corvid_weak_destroy_box`: a weak box leaves the side table. -/
def weakDestroyBox (x : Addr) (h : Heap) : Heap :=
  match h.blocks x with
  | none => h.fail (.freed x)
  | some box =>
    let h := h.modify x (.store 0 0)
    if box.node = 0 then h
    else match h.nodes box.node with
      | none => h.fail (.freed box.node)
      | some node =>
        let bucket := h.weakFindBucket node.key
        let h := (h.modify node.owner (.store 0 0)).modify x (.store 1 0)
        match bucket with
        | some i => (h.weakUnlinkNode i box.node).freeNode box.node
        | none => h.freeNode box.node

/-! ### Counting references -/

/-- `corvid_retain` -/
def retain (x : Addr) (h : Heap) : Heap :=
  if x = 0 then h
  else match h.blocks x with
    | none => h.fail (.freed x)
    | some b => if b.isImmortal then h else h.modify x (.setWord (b.refcountWord + 1))

/-- What is left to do of a release: to release a reference, or to free a block once its
`destroy_fn` has returned. -/
inductive Task where
  | release (x : Addr)
  | free (x : Addr)
deriving DecidableEq, Repr

/-- The last reference to a block is gone. -/
def destroy (x : Addr) (b : Block) (h : Heap) (rest : List Task) : Heap × List Task :=
  let h := if b.typeinfo.weakFn then h.weakClearSelf x else h
  match b.typeinfo.destroyFn with
  | none => (h, .free x :: rest)
  | some .weakDestroyBox => (h.weakDestroyBox x, .free x :: rest)
  | some .releaseRefs => (h, (b.typeinfo.refs b.payload).map .release ++ .free x :: rest)

/-- `corvid_release` up to the calls of itself, which come first among the tasks that are left. -/
def releaseStep : Heap × List Task → Option (Heap × List Task)
  | (_, []) => none
  | (h, .free x :: rest) => some (h.freeBlock x, rest)
  | (h, .release x :: rest) =>
    if x = 0 then some (h, rest)
    else match h.blocks x with
      | none => some (h.fail (.freed x), rest)
      | some b =>
        if b.isImmortal then some (h, rest)
        else
          let h' := h.modify x (.setWord (b.refcountWord - 1))
          if Word.rc b.refcountWord = 1 then some (h'.destroy x b rest)
          -- the process ends here
          else if Word.rc b.refcountWord = 0 then some (h'.fail (.released x), [])
          else some (h', rest)

/-- The references of a block that may be released when it dies, and the block itself. -/
def weight (h : Heap) (x : Addr) : ℕ :=
  match h.blocks x with
  | none => 0
  | some b => if Word.rc b.refcountWord = 0 then 0 else (b.typeinfo.refs b.payload).length + 2

def releasePotential (s : Heap × List Task) : ℕ := (s.1.live.map s.1.weight).sum + s.2.length

/-- `corvid_release` -/
def release (x : Addr) (h : Heap) : Heap :=
  (Loop.exhaust releaseStep releasePotential (h, [.release x])).1

/-! ### The collector -/

/-- `corvid_mark_block` and `corvid_gc_mark_marker`, which calls itself for what a block refers
to. -/
def markStep : Heap × List Addr → Option (Heap × List Addr)
  | (_, []) => none
  | (h, x :: stack) =>
    if x = 0 then some (h, stack)
    else match h.blocks x with
      | none => some (h.fail (.freed x), stack)
      | some b =>
        if b.isImmortal || Word.isMarked b.refcountWord then some (h, stack)
        else some (h.modify x (.setWord (Word.setMark b.refcountWord)), b.trace ++ stack)

/-- A block that is not marked, with what it refers to. -/
def markWeight (h : Heap) (x : Addr) : ℕ :=
  match h.blocks x with
  | none => 0
  | some b => if Word.isMarked b.refcountWord then 0 else b.trace.length + 1

def markPotential (s : Heap × List Addr) : ℕ := (s.1.live.map s.1.markWeight).sum + s.2.length

/-- Marks everything that the roots lead to. -/
def gcMark (roots : List Addr) (h : Heap) : Heap :=
  (Loop.exhaust markStep markPotential (h, roots)).1

/-- `corvid_gc_decrement_marker` -/
def gcDecrement (h : Heap) (x : Addr) : Heap :=
  if x = 0 then h
  else match h.blocks x with
    | none => h.fail (.freed x)
    | some b =>
      if b.isImmortal then h else h.modify x (.setWord (Word.decrement b.refcountWord))

/-- A block in the first walk of the sweep: one that is not marked gives up its references. -/
def gcDecrementRefs (h : Heap) (x : Addr) : Heap :=
  match h.blocks x with
  | none => h.fail (.freed x)
  | some b =>
    if b.isImmortal || Word.isMarked b.refcountWord then h else b.trace.foldl gcDecrement h

/-- A block in the second walk of the sweep: one that is not marked is freed, and no mark stays. -/
def gcSweepBlock (h : Heap) (x : Addr) : Heap :=
  match h.blocks x with
  | none => h.fail (.freed x)
  | some b =>
    if b.isImmortal then h
    else if Word.isMarked b.refcountWord then
      h.modify x (.setWord (Word.clearMark b.refcountWord))
    else (if b.typeinfo.weakFn then h.weakClearSelf x else h).freeBlock x

/-- `corvid_gc_sweep`. The second walk takes the next block before it frees one, and frees no
other. -/
def gcSweep (h : Heap) : Heap :=
  let h := h.live.foldl gcDecrementRefs h
  h.live.foldl gcSweepBlock h

/-- `corvid_gc_from_roots`. The roots of `corvid_gc` are those of the stack maps. -/
def gcFromRoots (roots : List Addr) (h : Heap) : Heap := (h.gcMark roots).gcSweep

/-! ### Allocation -/

/-- Writes the header of a block and links it into the list. The payload keeps the words that are
in its memory. -/
def link (x : Addr) (ti : Typeinfo) (memory : Payload) (h : Heap) : Heap :=
  { h with
    blocks := Function.update h.blocks x (some ⟨1, ti, memory⟩)
    live := x :: h.live
    allocsSinceGc := h.allocsSinceGc + 1 }

/-- The memory for a block: from a pool, or else where `malloc` finds it. -/
def place (payloadBytes : ℕ) (ti : Typeinfo) (fresh : Addr) (h : Heap) : Addr × Heap :=
  (h.poolTake payloadBytes ti).getD (fresh, h)

/-- The next allocation starts a collection. -/
def crosses (h : Heap) : Bool :=
  0 < h.gcTriggerThreshold && h.gcTriggerThreshold ≤ h.allocsSinceGc + 1

/-- `corvid_alloc_typed` -/
def allocTyped (payloadBytes : ℕ) (ti : Typeinfo) (fresh : Addr) (memory : Payload)
    (roots : List Addr) (h : Heap) : Addr × Heap :=
  let (x, h') := h.place payloadBytes ti fresh
  let h' := h'.link x ti memory
  if h.crosses then (x, gcFromRoots roots { h' with allocsSinceGc := 0 }) else (x, h')

/-- `corvid_weak_new` -/
def weakNew (strong fresh n : Addr) (memory : Payload) (roots : List Addr) (h : Heap) :
    Addr × Heap :=
  let (box, h) := h.allocTyped 16 .weakBox fresh memory roots
  let h := (h.modify box (.store 0 strong)).modify box (.store 1 0)
  if strong = 0 then (box, h)
  else
    let h := h.weakEnsureCapacity
    match Table.findInsert weakHash h.weakBuckets strong with
    | none => (box, h.fail .insertFailed)
    | some i =>
      let h := h.weakLinkNode i strong n
      let h := { h with nodes := Function.update h.nodes n (some ⟨strong, box⟩) }
      (box, h.modify box (.store 1 n))

/-- `corvid_weak_upgrade` -/
def weakUpgrade (w : Addr) (h : Heap) : Addr × Heap :=
  if w = 0 then (0, h)
  else match h.blocks w with
    | none => (0, h.fail (.freed w))
    | some box => if box.target ≠ 0 then (box.target, h.retain box.target) else (0, h)

end Heap

end Corvid.Native
