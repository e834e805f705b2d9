import Corvid.Vm.Collector
import Mathlib.Algebra.GroupWithZero.Nat
import Mathlib.Algebra.Order.BigOperators.Group.Finset
import Mathlib.Data.List.Perm.Subperm

/-!
# The interpreter's heap

Structs, lists and boxes are counted objects. Dropping a handle releases its object: the last
release frees the payload, which releases what it refers to, and any other release buffers the
object as a possible root of a garbage cycle. `collectCycles` runs a trial deletion from the
buffered roots and clears the payloads of the condemned objects, with releases suppressed.

Beside the count of an object there is the allocation itself, which lives as long as any handle to
the object exists, counted or not; when the last one goes, a payload that is still there is dropped.

## Main definitions

* `Heap`, `Machine`: the objects, the handles held outside of the heap, and the drops in progress
* `Machine.collectCycles`, `Machine.condemned`: a collection
* `Machine.apply`, `Machine.stepTask`: the operations of a program and the drops they cause
* `Reachable`: the states of single-threaded runs
-/

namespace Corvid.Vm

/-- A value in a payload: one without references (numbers, text, weak references), a counted
reference, or a container that holds references of its own (a partial value, a resume token). -/
inductive Value where
  | scalar
  | ref (x : ℕ)
  | container (held : List ℕ)
deriving DecidableEq, Repr

/-- The object of a value. The collector does not look into containers. -/
def Value.asObjectRef : Value → Option ℕ
  | ref x => some x
  | _ => none

/-- The references that a value owns. -/
def Value.refs : Value → List ℕ
  | scalar => []
  | ref x => [x]
  | container held => held

/-- A payload: the fields of a struct, the items of a list, the content of a box. -/
abbrev Slots := List (String × Value)

def Slots.children (slots : Slots) : List ℕ := slots.filterMap fun s => s.2.asObjectRef

def Slots.refs (slots : Slots) : List ℕ := slots.flatMap fun s => s.2.refs

/-- Inserts a field and returns the value it had. -/
def Slots.insert (field : String) (v : Value) : Slots → Slots × Value
  | [] => ([(field, v)], .scalar)
  | (f, old) :: slots =>
    if f = field then ((f, v) :: slots, old)
    else
      let (slots', old') := Slots.insert field v slots
      ((f, old) :: slots', old')

def HeapMeta.retain (o : HeapMeta) : HeapMeta := { o with strong := o.strong + 1 }

/-- The count of a released handle is positive. -/
def HeapMeta.release (o : HeapMeta) : HeapMeta := { o with strong := o.strong - 1 }

def HeapMeta.freeZeroPath (o : HeapMeta) : HeapMeta :=
  { o with buffered := false, shadow := 0, color := .black }

def HeapMeta.prepareCollect (o : HeapMeta) : HeapMeta :=
  { o with buffered := false, shadow := 0, color := .black, strong := 0 }

/-- The objects allocated so far are those below `size`. A freed object has no payload. -/
structure Heap where
  size : ℕ
  metas : Metas
  payload : ℕ → Option Slots

namespace Heap

def empty : Heap where
  size := 0
  metas _ := ⟨0, 0, .black, false⟩
  payload _ := none

variable (h : Heap)

def slots (x : ℕ) : Slots := (h.payload x).getD []

/-- The children that the collector visits. -/
def children (x : ℕ) : List ℕ := (h.slots x).children

/-- All references of the payload. -/
def refs (x : ℕ) : List ℕ := (h.slots x).refs

/-- A quantity of references, summed over all payloads. -/
def total (φ : List ℕ → ℕ) : ℕ := ∑ p ∈ Finset.range h.size, φ (h.refs p)

/-- The references to `x` in payloads. -/
def inRefs (x : ℕ) : ℕ := h.total (List.count x)

def setPayload (x : ℕ) (payload : Option Slots) : Heap :=
  { h with payload := Function.update h.payload x payload }

def modify (x : ℕ) (f : HeapMeta → HeapMeta) : Heap := { h with metas := h.metas.modify x f }

/-- Clones handles to the given objects. -/
def retain (xs : List ℕ) : Heap :=
  { h with metas := xs.foldl (fun m x => m.modify x HeapMeta.retain) h.metas }

end Heap

/-- A drop in progress. -/
inductive Task where
  /-- Releases a counted handle. -/
  | release (x : ℕ)
  /-- Collects if enough roots are buffered. -/
  | autoCollect
  /-- Gives up the allocation that a released handle still holds. -/
  | dropArc (x : ℕ)
  /-- Drops a handle while releases are suppressed. -/
  | discard (x : ℕ)
deriving DecidableEq, Repr

structure Machine where
  heap : Heap
  roots : List ℕ
  handles : List ℕ
  tasks : List Task

namespace Machine

def init : Machine := ⟨.empty, [], [], []⟩

variable (m : Machine)

/-- The counted references to `x`: handles outside of the heap, releases that have not run yet,
and references in payloads. -/
def owed (x : ℕ) : ℕ :=
  m.handles.count x + m.tasks.count (.release x) + m.heap.inRefs x

/-- The handles to `x` that exist, counted or not. -/
def arcs (x : ℕ) : ℕ :=
  m.owed x + m.tasks.count (.dropArc x) + m.tasks.count (.discard x)

/-- The trial deletion of a collection. A weak root upgrades as long as a handle exists. -/
def trial : Gather :=
  Vm.trial m.heap.size m.heap.children m.heap.metas (m.roots.filter fun r => 0 < m.arcs r)

/-- The objects that a collection frees. -/
def condemned : List ℕ := m.trial.out

/-- Condemned payloads are dropped without releasing what they refer to. -/
def collectCycles : Machine where
  heap :=
    { m.heap with
      metas := m.condemned.foldl (fun metas x => metas.modify x HeapMeta.prepareCollect) m.trial.metas
      payload := fun x => if x ∈ m.condemned then none else m.heap.payload x }
  roots := []
  handles := m.handles
  tasks := (m.condemned.flatMap m.heap.refs).map .discard ++ m.tasks

/-- The operations of a program on handles it holds. -/
inductive Op where
  | alloc (slots : Slots)
  | clone (x : ℕ)
  | read (p i : ℕ)
  | drop (x : ℕ)
  | setField (x : ℕ) (field : String) (v : Value)
  | rehash (x : ℕ) (slots : Slots)
  | upgrade (x : ℕ)
  | collect
deriving DecidableEq, Repr

/-- The program holds these handles and can move them into a payload. -/
def movable (xs : List ℕ) : Prop := xs.Subperm m.handles

instance (xs : List ℕ) : Decidable (m.movable xs) := inferInstanceAs (Decidable (xs.Subperm _))

/-- A new object. The handles in its payload move there. -/
def alloc (slots : Slots) : Machine where
  heap :=
    { size := m.heap.size + 1
      metas := Function.update m.heap.metas m.heap.size HeapMeta.new
      payload := Function.update m.heap.payload m.heap.size (some slots) }
  roots := m.roots
  handles := m.heap.size :: m.handles.diff slots.refs
  tasks := m.tasks

/-- New handles to existing objects. -/
def acquire (xs : List ℕ) : Machine :=
  { m with heap := m.heap.retain xs, handles := xs ++ m.handles }

def dropHandle (x : ℕ) : Machine :=
  { m with handles := m.handles.erase x, tasks := .release x :: m.tasks }

/-- The handles in `v` move into the payload `slots` of `x`, and the value that the field had is
dropped. -/
def setField (x : ℕ) (slots : Slots) (field : String) (v : Value) : Machine :=
  { m with
    heap := m.heap.setPayload x (some (slots.insert field v).1)
    handles := m.handles.diff v.refs
    tasks := (slots.insert field v).2.refs.map .release ++ m.tasks }

/-- An operation, if the program holds the handles it needs. A hash map may list its fields in any
order, and in another one after each insertion. -/
def apply : Op → Option Machine
  | .alloc slots => if m.movable slots.refs then some (m.alloc slots) else none
  | .clone x => if x ∈ m.handles then some (m.acquire [x]) else none
  | .read p i =>
    if p ∈ m.handles then (m.heap.slots p)[i]?.map fun s => m.acquire s.2.refs else none
  | .drop x => if x ∈ m.handles then some (m.dropHandle x) else none
  | .setField x field v =>
    if m.movable v.refs ∧ x ∈ m.handles.diff v.refs then
      (m.heap.payload x).map fun slots => m.setField x slots field v
    else none
  | .rehash x slots =>
    if (m.heap.payload x).any fun slots' => slots'.isPerm slots then
      some { m with heap := m.heap.setPayload x (some slots) }
    else none
  -- a weak reference upgrades as long as the allocation is there and the count is positive
  | .upgrade x =>
    if 0 < m.arcs x ∧ (m.heap.metas x).strong ≠ 0 then some (m.acquire [x]) else some m
  | .collect => some m.collectCycles

/-- Releases one counted handle to `x`, where `rest` are the drops after this one. The last release
frees the payload; any other one buffers the object. -/
def releaseObject (x : ℕ) (rest : List Task) : Machine :=
  if (m.heap.metas x).strong = 1 then
    { m with
      heap := (m.heap.modify x (HeapMeta.freeZeroPath ∘ HeapMeta.release)).setPayload x none
      tasks := (m.heap.refs x).map .release ++ .dropArc x :: rest }
  else if (m.heap.metas x).buffered then
    { m with
      heap := m.heap.modify x HeapMeta.release
      tasks := .autoCollect :: .dropArc x :: rest }
  else
    { m with
      heap := m.heap.modify x
        (HeapMeta.setColor .purple ∘ HeapMeta.setBuffered true ∘ HeapMeta.release)
      roots := m.roots ++ [x]
      tasks := .autoCollect :: .dropArc x :: rest }

/-- Gives up one handle to the allocation of `x`; the last one drops the payload, its values by
`drop`. -/
def giveUp (x : ℕ) (drop : ℕ → Task) (rest : List Task) : Machine :=
  if ({ m with tasks := rest } : Machine).arcs x = 0 then
    { m with heap := m.heap.setPayload x none, tasks := (m.heap.refs x).map drop ++ rest }
  else { m with tasks := rest }

/-- The state in which the next task collects, if it does: enough roots are buffered. -/
def collecting (trigger : ℕ) : Option Machine :=
  match m.tasks with
  | .autoCollect :: rest =>
    if 0 < trigger ∧ trigger ≤ m.roots.length then some { m with tasks := rest } else none
  | _ => none

/-- The next step of the drops in progress. -/
def stepTask (trigger : ℕ) (m : Machine) : Option Machine :=
  match m.tasks with
  | [] => none
  | .release x :: rest => some (m.releaseObject x rest)
  | .autoCollect :: rest =>
    some (match m.collecting trigger with
      | some c => c.collectCycles
      | none => { m with tasks := rest })
  | .dropArc x :: rest => some (m.giveUp x .release rest)
  | .discard x :: rest => some (m.giveUp x .discard rest)

end Machine

def Task.weight : Task → ℕ
  | release _ => 3
  | autoCollect | dropArc _ | discard _ => 1

namespace Machine

/-- The steps that the drops in progress can still take. Every reference is released or discarded
at most once. -/
def dropPotential (m : Machine) : ℕ :=
  (m.tasks.map Task.weight).sum + m.heap.total fun xs => 3 * xs.length

/-- Runs the drops in progress to their end. -/
def drain (trigger : ℕ) (m : Machine) : Machine :=
  Loop.exhaust (stepTask trigger) dropPotential m

/-- A sequence of operations, each with the drops it causes. -/
def run (trigger : ℕ) (ops : List Op) : Option Machine :=
  ops.foldlM (fun m op => (m.apply op).map (drain trigger)) init

end Machine

/-- The states of single-threaded runs whose collections all start in states that satisfy `P`.
An operation is applied when the drops of the one before it are done. -/
inductive Reachable (P : Machine → Prop) : Machine → Prop
  | init : Reachable P .init
  | apply {m m' : Machine} {op : Machine.Op} : Reachable P m → m.tasks = [] →
      (op = .collect → P m) → m.apply op = some m' → Reachable P m'
  | task {m m' : Machine} (trigger : ℕ) : Reachable P m →
      (∀ c, m.collecting trigger = some c → P c) → m.stepTask trigger = some m' → Reachable P m'

end Corvid.Vm
