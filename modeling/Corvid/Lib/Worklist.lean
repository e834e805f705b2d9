import Corvid.Lib.Loop
import Mathlib.Data.Finset.Card

/-!
# Worklists

A search that keeps the elements it has come to and a queue of those it has still to leave. Each
step takes an element off the queue and pushes those next to it that it has not come to before.
The search ends when the queue is empty, and it has then come to what is reached by one or more
steps.

## Main definitions

* `closure`: the elements that the search comes to

## Main results

* `mem_closure`: the search comes to an element just when a chain of one or more edges leads to it
-/

/-- The elements that a search has come to, and those that it has still to leave. -/
@[ext] structure Worklist (α : Type*) where
  visited : Finset α
  queue : List α

namespace Worklist

variable {α : Type*} [DecidableEq α] (next : α → List α) (nodes : Finset α)

/-- An element that the search comes to for the first time is queued. -/
def push (w : Worklist α) (a : α) : Worklist α :=
  if a ∈ w.visited then w else ⟨insert a w.visited, a :: w.queue⟩

def step (w : Worklist α) : Option (Worklist α) :=
  match w.queue with
  | [] => none
  | a :: queue => some ((next a).foldl push { w with queue })

/-- What is queued, and what the search has not come to. -/
def potential (w : Worklist α) : ℕ :=
  w.queue.length + (nodes \ w.visited).card

def start (a : α) : Worklist α := ⟨∅, [a]⟩

/-- The elements that the search comes to from `a`. -/
def closure (a : α) : Finset α :=
  (Loop.exhaust (step next) (potential nodes) (start a)).visited

variable {next nodes} {w w' : Worklist α} {a b : α} {l : List α}

/-! ### One step -/

theorem push_of_mem (h : a ∈ w.visited) : w.push a = w := if_pos h

theorem push_of_not_mem (h : a ∉ w.visited) :
    w.push a = ⟨insert a w.visited, a :: w.queue⟩ := if_neg h

@[simp] theorem mem_visited_push : b ∈ (w.push a).visited ↔ b = a ∨ b ∈ w.visited := by
  by_cases h : a ∈ w.visited
  · rw [push_of_mem h]
    exact ⟨.inr, by rintro (rfl | hb) <;> assumption⟩
  · simp [push_of_not_mem h]

theorem mem_queue_push : b ∈ (w.push a).queue ↔ b ∈ w.queue ∨ b = a ∧ a ∉ w.visited := by
  by_cases h : a ∈ w.visited
  · simp [push_of_mem h, h]
  · simp [push_of_not_mem h, h, or_comm]

theorem potential_push (h : a ∈ nodes) : (w.push a).potential nodes = w.potential nodes := by
  by_cases hmem : a ∈ w.visited
  · rw [push_of_mem hmem]
  · have hpos : 0 < (nodes \ w.visited).card := Finset.card_pos.mpr ⟨a, by simp [h, hmem]⟩
    rw [push_of_not_mem hmem, potential, potential, Finset.sdiff_insert,
      Finset.card_erase_of_mem (by simp [h, hmem]), List.length_cons]
    omega

@[simp] theorem mem_visited_foldl_push :
    b ∈ (l.foldl push w).visited ↔ b ∈ l ∨ b ∈ w.visited := by
  induction l generalizing w with
  | nil => simp
  | cons c l ih => simp [ih, or_assoc, or_left_comm]

theorem mem_queue_foldl_push :
    b ∈ (l.foldl push w).queue ↔ b ∈ w.queue ∨ b ∈ l ∧ b ∉ w.visited := by
  induction l generalizing w with
  | nil => simp
  | cons c l ih =>
    rw [List.foldl_cons, ih, mem_queue_push, mem_visited_push, List.mem_cons]
    by_cases hbc : b = c
    · subst hbc
      simp
    · simp [hbc]

theorem potential_foldl_push (h : ∀ b ∈ l, b ∈ nodes) :
    (l.foldl push w).potential nodes = w.potential nodes := by
  induction l generalizing w with
  | nil => rfl
  | cons c l ih =>
    rw [List.forall_mem_cons] at h
    rw [List.foldl_cons, ih h.2, potential_push h.1]

theorem step_eq_none : step next w = none ↔ w.queue = [] := by
  unfold step
  split <;> simp_all

theorem step_eq_some (h : step next w = some w') : ∃ a queue, w.queue = a :: queue ∧
    w' = (next a).foldl push { w with queue } := by
  unfold step at h
  split at h
  · cases h
  · next a queue hqueue => exact ⟨a, queue, hqueue, (Option.some.inj h).symm⟩

theorem potential_step (hnodes : ∀ a, ∀ b ∈ next a, b ∈ nodes) (h : step next w = some w') :
    w'.potential nodes < w.potential nodes := by
  obtain ⟨a, queue, hqueue, rfl⟩ := step_eq_some h
  rw [potential_foldl_push (hnodes a), potential, potential, hqueue, List.length_cons]
  dsimp only
  omega

/-! ### The whole search -/

/-- What the search from `a` has come to is reached from there, and what it has left has no
edges to what it has not come to. -/
structure Sound (next : α → List α) (a : α) (w : Worklist α) : Prop where
  reached : ∀ b ∈ w.visited, Relation.TransGen (fun x y => y ∈ next x) a b
  queued : ∀ b ∈ w.queue, b = a ∨ b ∈ w.visited
  left_of : ∀ b, b = a ∨ b ∈ w.visited → b ∈ w.queue ∨ ∀ c ∈ next b, c ∈ w.visited

theorem Sound.start : Sound next a (start a) where
  reached := by simp [Worklist.start]
  queued := by simp [Worklist.start]
  left_of := by simp [Worklist.start]

theorem Sound.step (h : Sound next a w) (hstep : step next w = some w') : Sound next a w' := by
  obtain ⟨c, queue, hqueue, rfl⟩ := step_eq_some hstep
  have hc : c = a ∨ c ∈ w.visited := h.queued c (by simp [hqueue])
  refine ⟨fun b hb => ?_, fun b hb => ?_, fun b hb => ?_⟩
  · rcases mem_visited_foldl_push.mp hb with hnext | hold
    · -- the edge from `c` is the first one or continues a chain
      rcases hc with rfl | hvisited
      · exact .single hnext
      · exact .tail (h.reached c hvisited) hnext
    · exact h.reached b hold
  · rcases mem_queue_foldl_push.mp hb with hold | ⟨hnext, -⟩
    · exact (h.queued b (by simp [hqueue, hold])).imp_right fun hb =>
        mem_visited_foldl_push.mpr (.inr hb)
    · exact .inr (mem_visited_foldl_push.mpr (.inl hnext))
  · by_cases hbc : b = c
    · subst hbc
      exact .inr fun d hd => mem_visited_foldl_push.mpr (.inl hd)
    by_cases hold : b = a ∨ b ∈ w.visited
    · rcases h.left_of b hold with hmem | hleft
      · rw [hqueue, List.mem_cons] at hmem
        exact .inl (mem_queue_foldl_push.mpr (.inl (hmem.resolve_left hbc)))
      · exact .inr fun d hd => mem_visited_foldl_push.mpr (.inr (hleft d hd))
    · -- the search has just come to it
      rw [mem_visited_foldl_push] at hb
      exact .inl (mem_queue_foldl_push.mpr (.inr ⟨by tauto, fun hmem => hold (.inr hmem)⟩))

/-- The search comes to an element just when a chain of one or more edges leads to it. -/
theorem mem_closure (hnodes : ∀ a, ∀ b ∈ next a, b ∈ nodes) :
    b ∈ closure next nodes a ↔ Relation.TransGen (fun x y => y ∈ next x) a b := by
  have hsound : Sound next a (Loop.exhaust (step next) (potential nodes) (start a)) :=
    Loop.exhaust_inv (fun _ _ h hstep => h.step hstep) .start
  have hempty := step_eq_none.mp
    (Loop.exhaust_done (fun _ _ => potential_step hnodes) (start a))
  have hleft : ∀ c, c = a ∨ c ∈ closure next nodes a → ∀ d ∈ next c, d ∈ closure next nodes a := by
    intro c hc
    rcases hsound.left_of c hc with hmem | h
    · rw [hempty] at hmem
      cases hmem
    · exact h
  refine ⟨hsound.reached b, fun h => ?_⟩
  induction h with
  | single hnext => exact hleft a (.inl rfl) _ hnext
  | tail _ hnext ih => exact hleft _ (.inr ih) _ hnext

end Worklist
