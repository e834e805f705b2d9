import Corvid.Lib.Loop
import Mathlib.Algebra.GroupWithZero.Nat
import Mathlib.Algebra.Order.BigOperators.Group.List
import Mathlib.Algebra.Order.Group.Nat
import Mathlib.Logic.Function.Basic
import Mathlib.Logic.Relation

/-!
# Marking a graph

A traversal with a stack. A node that is not marked yet is marked, and its children go on top of
the stack. What is no node is skipped, and so is what is marked. Once the stack is empty, the marked
nodes are those that can be reached from the values that were on the stack at the beginning.

## Main definitions

* `step`, `marks`: the traversal
* `Reached`: the nodes that can be reached from some roots
* `edges`: the edges to a node from those that are marked

## Main results

* `marks_iff`: the traversal marks what can be reached
* `edges_update`: the edges that a node adds when it is marked
-/

namespace Mark

open Relation

variable {α : Type*} [DecidableEq α] (node : α → Bool) (children : α → List α)

/-- Takes one value from the stack. -/
def step : (α → Bool) × List α → Option ((α → Bool) × List α)
  | (_, []) => none
  | (marked, x :: stack) =>
    if node x && !marked x then some (Function.update marked x true, children x ++ stack)
    else some (marked, stack)

/-- What is on the stack and what may still come to it. -/
def potential (nodes : List α) (s : (α → Bool) × List α) : ℕ :=
  (nodes.map fun x => if s.1 x then 0 else (children x).length + 1).sum + s.2.length

/-- The marks after the whole traversal. -/
def marks (nodes roots : List α) : α → Bool :=
  (Loop.exhaust (step node children) (potential children nodes) (fun _ => false, roots)).1

def Edge (x y : α) : Prop := node x = true ∧ y ∈ children x

/-- A node at the end of a path from one of the roots. -/
def Reached (roots : List α) (x : α) : Prop :=
  node x = true ∧ ∃ r ∈ roots, ReflTransGen (Edge node children) r x

variable {node children} {marked marked' : α → Bool} {stack stack' roots nodes : List α} {x y : α}

omit [DecidableEq α] in
theorem Reached.of_mem (hr : x ∈ roots) (hx : node x = true) : Reached node children roots x :=
  ⟨hx, x, hr, .refl⟩

omit [DecidableEq α] in
theorem Reached.child (h : Reached node children roots x) (hy : y ∈ children x)
    (hnode : node y = true) : Reached node children roots y := by
  obtain ⟨hx, r, hr, hpath⟩ := h
  exact ⟨hnode, r, hr, hpath.tail ⟨hx, hy⟩⟩

theorem step_cases {s' : (α → Bool) × List α} (h : step node children (marked, stack) = some s') :
    ∃ x rest, stack = x :: rest ∧
      (node x = true ∧ marked x = false ∧
          s' = (Function.update marked x true, children x ++ rest) ∨
        (node x = true → marked x = true) ∧ s' = (marked, rest)) := by
  cases stack with
  | nil => cases h
  | cons x rest =>
    rw [step] at h
    split at h
    next hx =>
      rw [Bool.and_eq_true, Bool.not_eq_true'] at hx
      exact ⟨x, rest, rfl, .inl ⟨hx.1, hx.2, (Option.some.inj h).symm⟩⟩
    next hx =>
      refine ⟨x, rest, rfl, .inr ⟨fun hnode => ?_, (Option.some.inj h).symm⟩⟩
      simpa [hnode] using hx

omit [DecidableEq α] in
/-- What can be reached from roots that can be reached. -/
theorem Reached.trans {starts : List α} (h : Reached node children starts x)
    (hstarts : ∀ s ∈ starts, node s = true → Reached node children roots s) :
    Reached node children roots x := by
  obtain ⟨hx, s, hs, hpath⟩ := h
  -- the first node of the path is one, even if the path is empty
  have hnode : node s = true := by
    rcases hpath.cases_head with rfl | ⟨y, hedge, -⟩
    · exact hx
    · exact hedge.1
  obtain ⟨-, r, hr, hpath'⟩ := hstarts s hs hnode
  exact ⟨hx, r, hr, hpath'.trans hpath⟩

variable (children) in
theorem sum_update_lt (hx : x ∈ nodes) (hmarked : marked x = false) :
    (nodes.map fun y => if Function.update marked x true y then 0 else (children y).length + 1).sum
        + (children x).length + 1 ≤
      (nodes.map fun y => if marked y then 0 else (children y).length + 1).sum := by
  -- no term grows, and that of the marked node vanishes
  have hle : ∀ y, (if Function.update marked x true y then 0 else (children y).length + 1) ≤
      if marked y then 0 else (children y).length + 1 := by
    intro y
    by_cases hy : y = x
    · rw [hy, Function.update_self, if_pos rfl]
      exact Nat.zero_le _
    · exact (congrArg (fun b : Bool => if b then 0 else (children y).length + 1)
        (Function.update_of_ne hy true marked)).le
  induction nodes with
  | nil => cases hx
  | cons z zs ih =>
    rw [List.map_cons, List.map_cons, List.sum_cons, List.sum_cons]
    by_cases hz : z = x
    · rw [hz, Function.update_self, if_pos rfl, hmarked, if_neg Bool.false_ne_true]
      have := List.sum_le_sum (l := zs) fun y _ => hle y
      omega
    · have := ih ((List.mem_cons.mp hx).resolve_left (Ne.symm hz))
      have := hle z
      omega

theorem potential_lt (hnodes : ∀ x, node x = true → x ∈ nodes)
    {s s' : (α → Bool) × List α} (h : step node children s = some s') :
    potential children nodes s' < potential children nodes s := by
  obtain ⟨marked, stack⟩ := s
  obtain ⟨x, rest, rfl, ⟨hx, hmarked, rfl⟩ | ⟨-, rfl⟩⟩ := step_cases h
  · have := sum_update_lt children (hnodes x hx) hmarked
    simp only [potential, List.length_append, List.length_cons]
    omega
  · simp only [potential, List.length_cons]
    omega

/-- A loop that is done has an empty stack. -/
theorem stack_of_done (h : step node children (marked, stack) = none) : stack = [] := by
  cases stack with
  | nil => rfl
  | cons y rest =>
    rw [step] at h
    split at h <;> cases h

/-- Marked nodes can be reached, and what is left to do is on the stack. -/
structure Inv (node : α → Bool) (children : α → List α) (roots : List α)
    (s : (α → Bool) × List α) : Prop where
  marked : ∀ x, s.1 x = true → Reached node children roots x
  stack : ∀ x ∈ s.2, node x = true → Reached node children roots x
  roots : ∀ x ∈ roots, node x = true → s.1 x = true ∨ x ∈ s.2
  closed : ∀ x, s.1 x = true → ∀ y ∈ children x, node y = true → s.1 y = true ∨ y ∈ s.2

theorem Inv.step {s s' : (α → Bool) × List α} (hinv : Inv node children roots s)
    (h : step node children s = some s') : Inv node children roots s' := by
  obtain ⟨marked, stack⟩ := s
  obtain ⟨x, rest, rfl, ⟨hx, hmarked, rfl⟩ | ⟨hskip, rfl⟩⟩ := step_cases h
  · have hreached := hinv.stack x List.mem_cons_self hx
    -- what was marked or on the stack still is
    have hkeep : ∀ y, marked y = true ∨ y ∈ x :: rest →
        Function.update marked x true y = true ∨ y ∈ children x ++ rest := by
      intro y hy
      by_cases hyx : y = x
      · exact .inl (by rw [hyx, Function.update_self])
      · rw [Function.update_of_ne hyx]
        refine hy.imp_right fun hmem => List.mem_append_right _ ?_
        exact (List.mem_cons.mp hmem).resolve_left hyx
    constructor
    · intro y hy
      by_cases hyx : y = x
      · exact hyx ▸ hreached
      · exact hinv.marked y ((Function.update_of_ne hyx true marked).symm.trans hy)
    · intro y hy hnode
      rcases List.mem_append.mp hy with hy | hy
      · exact hreached.child hy hnode
      · exact hinv.stack y (List.mem_cons_of_mem _ hy) hnode
    · exact fun y hy hnode => hkeep y (hinv.roots y hy hnode)
    · intro z hz y hy hnode
      by_cases hzx : z = x
      · exact .inr (List.mem_append_left _ (hzx ▸ hy))
      · exact hkeep y (hinv.closed z ((Function.update_of_ne hzx true marked).symm.trans hz) y hy
          hnode)
  · have hkeep : ∀ y, node y = true → marked y = true ∨ y ∈ x :: rest →
        marked y = true ∨ y ∈ rest := by
      intro y hnode hy
      rcases hy with hy | hy
      · exact .inl hy
      · rcases List.mem_cons.mp hy with rfl | hy
        · exact .inl (hskip hnode)
        · exact .inr hy
    exact ⟨hinv.marked, fun y hy => hinv.stack y (List.mem_cons_of_mem _ hy),
      fun y hy hnode => hkeep y hnode (hinv.roots y hy hnode),
      fun z hz y hy hnode => hkeep y hnode (hinv.closed z hz y hy hnode)⟩

omit [DecidableEq α] in
/-- With an empty stack, the marked nodes are those that can be reached. -/
theorem Inv.marked_iff (hinv : Inv node children roots (marked, [])) :
    marked x = true ↔ Reached node children roots x := by
  refine ⟨hinv.marked x, ?_⟩
  rintro ⟨hx, r, hr, hpath⟩
  induction hpath with
  | refl => exact (hinv.roots r hr hx).resolve_right List.not_mem_nil
  | tail _ hedge ih => exact (hinv.closed _ (ih hedge.1) _ hedge.2 hx).resolve_right List.not_mem_nil

omit [DecidableEq α] in
theorem inv_roots (roots : List α) : Inv node children roots (fun _ => false, roots) :=
  ⟨fun _ h => absurd h Bool.false_ne_true, fun _ hx hnode => .of_mem hx hnode,
    fun _ hx _ => .inr hx, fun _ h => absurd h Bool.false_ne_true⟩

omit [DecidableEq α] in
/-- One more root, which is still to be visited. -/
theorem Inv.push (hinv : Inv node children roots (marked, [])) (x : α) :
    Inv node children (roots ++ [x]) (marked, [x]) := by
  have hmono : ∀ y, Reached node children roots y → Reached node children (roots ++ [x]) y := by
    rintro y ⟨hy, r, hr, hpath⟩
    exact ⟨hy, r, List.mem_append_left _ hr, hpath⟩
  refine ⟨fun y hy => hmono y (hinv.marked y hy), fun y hy hnode => ?_, fun y hy hnode => ?_,
    fun z hz y hy hnode => .inl ((hinv.closed z hz y hy hnode).resolve_right List.not_mem_nil)⟩
  · exact .of_mem (List.mem_append_right _ hy) hnode
  · rcases List.mem_append.mp hy with hy | hy
    · exact .inl ((hinv.roots y hy hnode).resolve_right List.not_mem_nil)
    · exact .inr hy

omit [DecidableEq α] in
/-- A stack of one node that is marked already. -/
theorem Inv.pop (hinv : Inv node children roots (marked, [x])) (hx : marked x = true) :
    Inv node children roots (marked, []) := by
  have hdrop : ∀ y, marked y = true ∨ y ∈ [x] → marked y = true ∨ y ∈ ([] : List α) := by
    rintro y (hy | hy)
    · exact .inl hy
    · rw [List.mem_singleton.mp hy]
      exact .inl hx
  exact ⟨hinv.marked, fun _ h => absurd h List.not_mem_nil,
    fun y hy hnode => hdrop y (hinv.roots y hy hnode),
    fun z hz y hy hnode => hdrop y (hinv.closed z hz y hy hnode)⟩

/-- The traversal marks exactly the nodes that can be reached from the roots. -/
theorem marks_iff (hnodes : ∀ x, node x = true → x ∈ nodes) :
    marks node children nodes roots x = true ↔ Reached node children roots x := by
  have hinv : Inv node children roots (Loop.exhaust (Mark.step node children)
      (potential children nodes) (fun _ => false, roots)) :=
    Loop.exhaust_inv (fun _ _ => Inv.step) (inv_roots roots)
  have hdone : Mark.step node children (Loop.exhaust (Mark.step node children)
      (potential children nodes) (fun _ => false, roots)) = none :=
    Loop.exhaust_done (fun _ _ => potential_lt hnodes) _
  unfold marks
  generalize Loop.exhaust (Mark.step node children) (potential children nodes)
    (fun _ => false, roots) = s at hinv hdone ⊢
  obtain ⟨marked, stack⟩ := s
  obtain rfl : stack = [] := stack_of_done hdone
  exact hinv.marked_iff

/-! ### Edges -/

/-- The edges to a node from those that are marked. -/
def edges (children : α → List α) (nodes : List α) (marked : α → Bool) (x : α) : ℕ :=
  (nodes.map fun y => if marked y then (children y).count x else 0).sum

theorem edges_eq_zero (hnone : ∀ y ∈ nodes, marked y = false) : edges children nodes marked x = 0 := by
  rw [edges, List.sum_eq_zero]
  intro n hn
  obtain ⟨y, hy, rfl⟩ := List.mem_map.mp hn
  rw [hnone y hy, if_neg Bool.false_ne_true]

theorem edges_congr (h : ∀ y ∈ nodes, marked y = marked' y) :
    edges children nodes marked x = edges children nodes marked' x := by
  rw [edges, edges, List.map_congr_left fun y hy => by rw [h y hy]]

/-- A marked node has an edge to each of its children. -/
theorem edges_pos (hy : y ∈ nodes) (hmarked : marked y = true) (hx : x ∈ children y) :
    0 < edges children nodes marked x := by
  refine Nat.lt_of_lt_of_le (List.count_pos_iff.mpr hx) ?_
  refine List.single_le_sum (fun _ _ => Nat.zero_le _) _ (List.mem_map.mpr ⟨y, hy, ?_⟩)
  rw [if_pos hmarked]

theorem exists_of_edges_pos (h : 0 < edges children nodes marked x) :
    ∃ y ∈ nodes, marked y = true ∧ x ∈ children y := by
  obtain ⟨n, hn, hpos⟩ := List.exists_mem_ne_zero_of_sum_ne_zero (Nat.ne_of_gt h)
  obtain ⟨y, hy, rfl⟩ := List.mem_map.mp hn
  cases hmarked : marked y with
  | true =>
    rw [if_pos hmarked] at hpos
    exact ⟨y, hy, hmarked, List.count_pos_iff.mp (Nat.pos_of_ne_zero hpos)⟩
  | false => exact absurd (if_neg (by rw [hmarked]; exact Bool.false_ne_true)) hpos

/-- A node that is marked adds its edges. -/
theorem edges_update (hnodup : nodes.Nodup) (hx : x ∈ nodes) (hmarked : marked x = false) (y : α) :
    edges children nodes (Function.update marked x true) y =
      edges children nodes marked y + (children x).count y := by
  have hperm := List.perm_cons_erase hx
  rw [edges, edges, (hperm.map _).sum_eq, (hperm.map _).sum_eq, List.map_cons, List.map_cons,
    List.sum_cons, List.sum_cons, Function.update_self, if_pos rfl, hmarked,
    if_neg Bool.false_ne_true, Nat.zero_add, Nat.add_comm]
  congr 2
  refine List.map_congr_left fun z hz => ?_
  rw [Function.update_of_ne (hnodup.mem_erase_iff.mp hz).1]

end Mark
