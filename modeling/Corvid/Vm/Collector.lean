import Corvid.Lib.Loop
import Mathlib.Algebra.BigOperators.Group.Finset.Basic
import Mathlib.Algebra.GroupWithZero.Nat

/-!
# Trial deletion

The traversals of the cycle collector: marking subtracts the references inside of the marked part
from a shadow of the counts, scanning restores the part that is still referenced from elsewhere,
and collecting gathers what remains. Each traversal keeps an explicit stack. They read the children
of an object and change its color, shadow count and buffered flag.

## Main definitions

* `markGray`, `scan`, `collectWhite`: the three traversals from one object
* `condemned`: the objects that a collection of the given roots frees

## Main results

* `markStep_potential`, `scanStep_potential`, `collectStep_potential`: every traversal ends
-/

namespace Corvid.Vm

inductive Color where
  | black
  | gray
  | white
  | purple
deriving DecidableEq, Repr

structure HeapMeta where
  strong : ℕ
  shadow : ℕ
  color : Color
  buffered : Bool
deriving DecidableEq, Repr

def HeapMeta.new : HeapMeta := ⟨1, 0, .black, false⟩

/-- The metadata of all objects, by object. -/
abbrev Metas := ℕ → HeapMeta

/-- Changes the metadata of one object. -/
def Metas.modify (m : Metas) (x : ℕ) (f : HeapMeta → HeapMeta) : Metas :=
  Function.update m x (f (m x))

def HeapMeta.setColor (c : Color) (m : HeapMeta) : HeapMeta := { m with color := c }

def HeapMeta.setBuffered (b : Bool) (m : HeapMeta) : HeapMeta := { m with buffered := b }

def HeapMeta.incShadow (m : HeapMeta) : HeapMeta := { m with shadow := m.shadow + 1 }

/-- The shadow of an object is positive whenever it is decremented. -/
def HeapMeta.decShadow (m : HeapMeta) : HeapMeta := { m with shadow := m.shadow - 1 }

/-- Takes an object for trial deletion: its shadow starts at its count. -/
def HeapMeta.mark (m : HeapMeta) : HeapMeta := { m with color := .gray, shadow := m.strong }

section Traversals

variable (n : ℕ) (children : ℕ → List ℕ)

inductive MarkTask where
  | visit (x : ℕ)
  | decShadow (x : ℕ)
deriving DecidableEq, Repr

/-- One pop of the marking stack. The children of a newly marked object are pushed in reverse,
so each child is visited before its shadow is decremented. -/
def markStep : Metas × List MarkTask → Option (Metas × List MarkTask)
  | (_, []) => none
  | (m, .visit x :: stack) =>
    if (m x).color = .gray then some (m, stack)
    else some (m.modify x HeapMeta.mark,
      ((children x).flatMap fun c => [.visit c, .decShadow c]) ++ stack)
  | (m, .decShadow x :: stack) => some (m.modify x HeapMeta.decShadow, stack)

/-- Every object is marked once and then pushes two tasks for each child. -/
def markPotential (s : Metas × List MarkTask) : ℕ :=
  s.2.length + ∑ p ∈ Finset.range n, if (s.1 p).color = .gray then 0 else 2 * (children p).length

def markGray (m : Metas) (x : ℕ) : Metas :=
  (Loop.exhaust (markStep children) (markPotential n children) (m, [.visit x])).1

inductive ScanTask where
  | scan (x : ℕ)
  | scanBlack (x : ℕ)
deriving DecidableEq, Repr

/-- The children of a restored object are restored as well, after their shadows are incremented. -/
def incShadows (m : Metas) (xs : List ℕ) : Metas :=
  xs.foldl (fun m x => m.modify x HeapMeta.incShadow) m

/-- One pop of the scanning stack. -/
def scanStep : Metas × List ScanTask → Option (Metas × List ScanTask)
  | (_, []) => none
  | (m, .scan x :: stack) =>
    if (m x).color ≠ .gray then some (m, stack)
    else if 0 < (m x).shadow then some (m, .scanBlack x :: stack)
    else some (m.modify x (HeapMeta.setColor .white), (children x).map .scan ++ stack)
  | (m, .scanBlack x :: stack) =>
    if (m x).color = .black then some (m.modify x (HeapMeta.setBuffered false), stack)
    else some (incShadows (m.modify x (HeapMeta.setBuffered false ∘ HeapMeta.setColor .black))
      (children x), (children x).map .scanBlack ++ stack)

def ScanTask.weight : ScanTask → ℕ
  | scan _ => 2
  | scanBlack _ => 1

/-- What an object may still push: a gray one may turn white and then black. -/
def scanWeight (m : HeapMeta) (d : ℕ) : ℕ :=
  match m.color with
  | .gray => 3 * d
  | .white | .purple => d
  | .black => 0

def scanPotential (s : Metas × List ScanTask) : ℕ :=
  (s.2.map ScanTask.weight).sum +
    ∑ p ∈ Finset.range n, scanWeight (s.1 p) (children p).length

def scan (m : Metas) (x : ℕ) : Metas :=
  (Loop.exhaust (scanStep children) (scanPotential n children) (m, [.scan x])).1

/-- The state of a collection: the objects seen and the white ones among them, in order. -/
structure Gather where
  metas : Metas
  seen : List ℕ
  out : List ℕ

/-- One pop of the collecting stack. -/
def collectStep : Gather × List ℕ → Option (Gather × List ℕ)
  | (_, []) => none
  | (g, x :: stack) =>
    if x ∈ g.seen then some (g, stack)
    else if (g.metas x).color = .white then
      some ({ g with seen := x :: g.seen, out := g.out ++ [x] }, children x ++ stack)
    else
      some ({ g with
        metas := g.metas.modify x (HeapMeta.setBuffered false ∘ HeapMeta.setColor .black)
        seen := x :: g.seen }, stack)

def collectPotential (s : Gather × List ℕ) : ℕ :=
  s.2.length + ∑ p ∈ Finset.range n, if p ∈ s.1.seen then 0 else (children p).length

def collectWhite (g : Gather) (x : ℕ) : Gather :=
  (Loop.exhaust (collectStep children) (collectPotential n children) (g, [x])).1

/-- The three traversals over the roots that are still allocated. Only roots that are buffered and
referenced are marked; all of them are scanned and collected. -/
def trial (m : Metas) (roots : List ℕ) : Gather :=
  let marked := roots.foldl (fun m r =>
    if (m r).buffered ∧ 0 < (m r).strong then markGray n children m r else m) m
  let scanned := roots.foldl (scan n children) marked
  roots.foldl (collectWhite n children) ⟨scanned, [], []⟩

end Traversals

section Metas

variable {m : Metas} {x y : ℕ}

theorem Metas.modify_self (f : HeapMeta → HeapMeta) : m.modify x f x = f (m x) :=
  Function.update_self x _ m

theorem Metas.modify_of_ne (f : HeapMeta → HeapMeta) (h : y ≠ x) : m.modify x f y = m y :=
  Function.update_of_ne h _ m

/-- A change that keeps a field of the changed object keeps it for all objects. -/
theorem Metas.modify_field {α : Type*} (φ : HeapMeta → α) {f : HeapMeta → HeapMeta}
    (hf : φ (f (m x)) = φ (m x)) (y : ℕ) : φ (m.modify x f y) = φ (m y) := by
  by_cases h : y = x
  · rw [h, modify_self, hf]
  · rw [modify_of_ne f h]

theorem incShadows_field {α : Type*} (φ : HeapMeta → α) (hφ : ∀ a, φ a.incShadow = φ a)
    (m : Metas) (xs : List ℕ) (y : ℕ) : φ (incShadows m xs y) = φ (m y) := by
  induction xs generalizing m with
  | nil => rfl
  | cons x xs ih =>
    rw [incShadows, List.foldl_cons]
    exact (ih _).trans (Metas.modify_field φ (hφ _) y)

theorem incShadows_shadow (m : Metas) (xs : List ℕ) (y : ℕ) :
    (incShadows m xs y).shadow = (m y).shadow + xs.count y := by
  induction xs generalizing m with
  | nil => rfl
  | cons x xs ih =>
    rw [incShadows, List.foldl_cons]
    refine (ih _).trans ?_
    by_cases h : y = x
    · subst h
      rw [Metas.modify_self, List.count_cons_self]
      show (m y).shadow + 1 + _ = _
      omega
    · rw [Metas.modify_of_ne _ h, List.count_cons_of_ne (Ne.symm h)]

end Metas

/-- Two sums that differ in one term. The term counts only if it is in the range. -/
theorem sum_range_of_eq_off {n x k : ℕ} {f g : ℕ → ℕ} (hoff : ∀ p, p ≠ x → f p = g p)
    (hx : f x = g x + k) (hn : n ≤ x → k = 0) :
    ∑ p ∈ Finset.range n, f p = (∑ p ∈ Finset.range n, g p) + k := by
  have hrest : ∑ p ∈ (Finset.range n).erase x, f p = ∑ p ∈ (Finset.range n).erase x, g p :=
    Finset.sum_congr rfl fun p hp => hoff p (Finset.ne_of_mem_erase hp)
  by_cases h : x ∈ Finset.range n
  · rw [← Finset.sum_erase_add _ _ h, ← Finset.sum_erase_add _ g h, hrest, hx, Nat.add_assoc]
  · rw [Finset.erase_eq_of_notMem h] at hrest
    rw [hrest, hn (by simpa using h), Nat.add_zero]

theorem sum_weight_scan (xs : List ℕ) :
    ((xs.map ScanTask.scan).map ScanTask.weight).sum = 2 * xs.length := by
  induction xs with
  | nil => rfl
  | cons x xs ih =>
    rw [List.map_cons, List.map_cons, List.sum_cons, ih, List.length_cons]
    show 2 + _ = _
    omega

theorem sum_weight_scanBlack (xs : List ℕ) :
    ((xs.map ScanTask.scanBlack).map ScanTask.weight).sum = xs.length := by
  induction xs with
  | nil => rfl
  | cons x xs ih =>
    rw [List.map_cons, List.map_cons, List.sum_cons, ih, List.length_cons]
    exact Nat.add_comm 1 _

section Potentials

variable {n : ℕ} {children : ℕ → List ℕ} (hfresh : ∀ x, n ≤ x → children x = [])

include hfresh

theorem markStep_potential {s s' : Metas × List MarkTask} (h : markStep children s = some s') :
    markPotential n children s' < markPotential n children s := by
  obtain ⟨m, _ | ⟨⟨x⟩ | ⟨x⟩, stack⟩⟩ := s
  · cases h
  · rw [markStep] at h
    split at h
    next => cases h; simp [markPotential]
    next hx =>
      cases h
      have hsum := sum_range_of_eq_off (n := n) (x := x) (k := 2 * (children x).length)
        (f := fun p => if (m p).color = .gray then 0 else 2 * (children p).length)
        (g := fun p => if (m.modify x HeapMeta.mark p).color = .gray then 0
          else 2 * (children p).length)
        (fun p hp => by simp only [Metas.modify_of_ne _ hp])
        (by
          have hgray : (m.modify x HeapMeta.mark x).color = .gray := by
            rw [Metas.modify_self]
            rfl
          rw [if_neg hx, if_pos hgray, Nat.zero_add])
        (fun hn => by rw [hfresh x hn]; rfl)
      have hlen : ((children x).flatMap fun c =>
          [MarkTask.visit c, MarkTask.decShadow c]).length = 2 * (children x).length := by
        simp [List.length_flatMap, Nat.mul_comm]
      simp only [markPotential, List.length_append, List.length_cons, hlen, hsum]
      omega
  · cases h
    have hcolor := Metas.modify_field (m := m) (x := x) HeapMeta.color
      (f := HeapMeta.decShadow) rfl
    simp only [markPotential, hcolor, List.length_cons]
    omega

theorem scanStep_potential {s s' : Metas × List ScanTask} (h : scanStep children s = some s') :
    scanPotential n children s' < scanPotential n children s := by
  obtain ⟨m, _ | ⟨⟨x⟩ | ⟨x⟩, stack⟩⟩ := s
  · cases h
  · rw [scanStep] at h
    split at h
    next => cases h; simp [scanPotential, ScanTask.weight]
    next hx =>
      rw [not_not] at hx
      split at h
      next => cases h; simp [scanPotential, ScanTask.weight]
      next =>
        cases h
        have hsum := sum_range_of_eq_off (n := n) (x := x) (k := 2 * (children x).length)
          (f := fun p => scanWeight (m p) (children p).length)
          (g := fun p => scanWeight (m.modify x (HeapMeta.setColor .white) p) (children p).length)
          (fun p hp => by simp only [Metas.modify_of_ne _ hp])
          (by
            rw [Metas.modify_self]
            simp only [scanWeight, hx, HeapMeta.setColor]
            omega)
          (fun hn => by rw [hfresh x hn]; rfl)
        simp only [scanPotential, List.map_append, List.map_cons, List.sum_append, List.sum_cons,
          sum_weight_scan, hsum, ScanTask.weight]
        omega
  · rw [scanStep] at h
    split at h
    next hx =>
      cases h
      have hcolor : ∀ p, scanWeight (m.modify x (HeapMeta.setBuffered false) p)
          (children p).length = scanWeight (m p) (children p).length := fun p => by
        simp only [scanWeight, Metas.modify_field HeapMeta.color (f := HeapMeta.setBuffered false)
          (m := m) (x := x) rfl]
      simp [scanPotential, ScanTask.weight, hcolor]
    next hx =>
      cases h
      have hk : ∃ k, (children x).length ≤ k ∧
          scanWeight (m x) (children x).length = k ∧ (n ≤ x → k = 0) := by
        refine ⟨_, ?_, rfl, fun hn => ?_⟩
        · unfold scanWeight
          split
          next => omega
          next => exact le_rfl
          next => exact le_rfl
          next hb => exact absurd hb hx
        · rw [hfresh x hn]
          unfold scanWeight
          split <;> rfl
      obtain ⟨k, hle, hk, hkn⟩ := hk
      have hsum := sum_range_of_eq_off (n := n) (x := x) (k := k)
        (f := fun p => scanWeight (m p) (children p).length)
        (g := fun p => scanWeight (incShadows (m.modify x
          (HeapMeta.setBuffered false ∘ HeapMeta.setColor .black)) (children x) p)
          (children p).length)
        (fun p hp => by
          simp only [scanWeight, incShadows_field HeapMeta.color (fun _ => rfl),
            Metas.modify_of_ne _ hp])
        (by
          rw [hk]
          simp only [scanWeight, incShadows_field HeapMeta.color (fun _ => rfl),
            Metas.modify_self]
          exact (Nat.zero_add k).symm)
        hkn
      simp only [scanPotential, List.map_append, List.map_cons, List.sum_append, List.sum_cons,
        sum_weight_scanBlack, hsum, ScanTask.weight]
      omega

theorem collectStep_potential {s s' : Gather × List ℕ} (h : collectStep children s = some s') :
    collectPotential n children s' < collectPotential n children s := by
  obtain ⟨g, _ | ⟨x, stack⟩⟩ := s
  · cases h
  · rw [collectStep] at h
    split at h
    next => cases h; simp [collectPotential]
    next hx =>
      have hsum := sum_range_of_eq_off (n := n) (x := x) (k := (children x).length)
        (f := fun p => if p ∈ g.seen then 0 else (children p).length)
        (g := fun p => if p ∈ x :: g.seen then 0 else (children p).length)
        (fun p hp => by simp [hp])
        (by simp [hx])
        (fun hn => by rw [hfresh x hn]; rfl)
      split at h
      · cases h
        simp only [collectPotential, List.length_append, List.length_cons, hsum]
        omega
      · cases h
        simp only [collectPotential, List.length_cons, hsum]
        omega

end Potentials

end Corvid.Vm
