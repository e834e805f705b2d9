import Corvid.Native.Drift
import Corvid.Native.Runs

/-!
# Runs that are verified

A run may verify its counts at its collections. The counts of a run without errors are right, so that
nothing should be reported; but the verifier counts the references of the blocks in use only, and
garbage still holds references when it looks. What it reports in such a run is what garbage refers
to.

## Main definitions

* `Heap.Watched`: the states of the runs with a verifier
* `Heap.Exact`: the roots are the references of the program

## Main results

* `Watched.sound`: the heap is sound, and the verifier is ready
* `reports_of_watched`: what is reported in a run without errors
-/

namespace Corvid.Native

/-- The nodes of new blocks are reset when they are linked. -/
def Verifier.linked (v : Verifier) (old : List Addr) : Verifier :=
  { v with scratch := fun x => if old.contains x then v.scratch x else ⟨0, 0, false⟩ }

namespace Heap

/-- The states of careful runs, in which some collections verify the counts. -/
inductive Watched : Heap → Verifier → Prop
  | init (literals : Addr → Option Payload) (gcTriggerThreshold : ℕ) (h0 : literals 0 = none)
    (mode : VerifyMode) (scratch : Addr → Scratch) :
    Watched (init literals gcTriggerThreshold) ⟨mode, 1, scratch⟩
  | call {h : Heap} {v : Verifier} {c : Call} : Watched h v → h.Legal c → h.Careful c →
    Watched (h.apply c) (v.linked h.live)
  | verify {h : Heap} {v : Verifier} {given roots : List Addr} : Watched h v →
    h.Legal (.gcFromRoots roots) → h.Careful (.gcFromRoots roots) →
    (h.collect given roots v).2.aborted = false →
    Watched (h.collect given roots v).1 (h.collect given roots v).2.verifier

/-- The references that are not in the heap are those of the roots. -/
structure Exact (h : Heap) (roots : List Addr) : Prop where
  valid : ∀ r ∈ roots, r = 0 ∨ h.blocks r ≠ none
  count : ∀ x ∈ h.live, roots.count x + h.inEdges [] x = h.rc x

variable {h : Heap} {v : Verifier} {roots : List Addr} {x : Addr}

theorem live_gcFromRoots (hs : h.Sound []) (hroots : h.Roots roots) :
    ∀ x ∈ (h.gcFromRoots roots).live, x ∈ h.live := by
  obtain ⟨m, -, hsw⟩ := gcFromRoots_swept hs.counted hs.filed hs.pooled (hs.boxed.noded hs.filed)
    hroots.valid
  intro x hx
  rw [hsw.live] at hx
  exact (List.mem_filter.mp hx).1

/-- In a run, the heap is sound and the verifier knows no epoch that is still to come. -/
theorem Watched.sound (hw : Watched h v) : h.Sound [] ∧ v.Current h.live := by
  induction hw with
  | init literals gcTriggerThreshold h0 mode scratch =>
    exact ⟨sound_init h0, fun x hx => absurd hx List.not_mem_nil⟩
  | @call h v c _ hlegal hcareful ih =>
    refine ⟨ih.1.apply hlegal hcareful, fun x _ => ?_⟩
    show (if h.live.contains x then v.scratch x else ⟨0, 0, false⟩).verifyEpoch.toNat ≤ v.epoch.toNat
    split
    next hx => exact ih.2 x (List.contains_iff_mem.mp hx)
    next => exact Nat.zero_le _
  | @verify h v given roots _ hlegal hcareful hrun ih =>
    rw [collect_fst hrun]
    refine ⟨ih.1.apply (c := .gcFromRoots roots) hlegal hcareful, fun x hx => ?_⟩
    exact current_collect ih.2 x (live_gcFromRoots ih.1 hlegal x hx)

/-- The references to a block are those of blocks in use and those of garbage. -/
theorem edgesTo_lt_iff : h.edgesTo roots x ≤ h.inEdges [] x ∧
    (h.edgesTo roots x < h.inEdges [] x ↔
      ∃ y ∈ h.live, ¬ h.Reached roots y ∧ x ∈ h.refs y) := by
  classical
  have hedges : h.edgesTo roots x =
      (h.live.map fun y => if h.Reached roots y then (h.refs y).count x else 0).sum := by
    rw [edgesTo, Mark.edges]
    refine congrArg List.sum (List.map_congr_left fun y _ => ?_)
    exact if_congr decide_eq_true_iff rfl rfl
  have hin : h.inEdges [] x = (h.live.map fun y => (h.refs y).count x).sum := by
    rw [inEdges]
    refine congrArg List.sum (List.map_congr_left fun y _ => ?_)
    exact if_neg List.not_mem_nil
  rw [hedges, hin]
  have hle : ∀ y ∈ h.live,
      (if h.Reached roots y then (h.refs y).count x else 0) ≤ (h.refs y).count x := by
    intro y _
    split
    · exact Nat.le_refl _
    · exact Nat.zero_le _
  refine ⟨List.sum_le_sum hle, fun hlt => ?_, ?_⟩
  · by_contra hnone
    push Not at hnone
    refine Nat.ne_of_lt hlt (congrArg List.sum (List.map_congr_left fun y hy => ?_))
    split
    next => rfl
    next hgarbage => exact (List.count_eq_zero.mpr (hnone y hy hgarbage)).symm
  · rintro ⟨y, hy, hgarbage, hmem⟩
    refine List.sum_lt_sum _ _ hle ⟨y, hy, ?_⟩
    rw [if_neg hgarbage]
    exact List.count_pos_iff.mpr hmem

/-- A string `0x100` that the program holds, and a struct `0x300` that refers to itself and to the
string and that the program does not hold any more. -/
def sharedGarbage : List Call :=
  [.alloc 5 .string 0x100 (fun _ => 0) (fun _ => 0) [],
    .retain 0x100,
    .alloc 16 (.struct [true, true]) 0x300 (fun _ => 0) (fun i => if i = 0 then 0x300 else 0x100)
      [0x100]]

/-- The verifier at the start of the process. -/
def warning : Verifier := ⟨.warn, 1, fun _ => ⟨0, 0, false⟩⟩

theorem watched_sharedGarbage : ∃ v, v.mode = .warn ∧ Watched (after sharedGarbage 3) v := by
  have hpools : ∀ n ≤ 2, ∀ i, (after sharedGarbage n).pools i = [] := by
    intro n hn i
    obtain rfl | rfl | rfl : n = 0 ∨ n = 1 ∨ n = 2 := by omega
    all_goals rfl
  have hfresh : ∀ n ≤ 2, ∀ x, x ≠ 0 → (after sharedGarbage n).blocks x = none →
      (after sharedGarbage n).Fresh x := fun n hn x hx hnone =>
    ⟨hx, hnone, fun i => hpools n hn i ▸ List.not_mem_nil⟩
  have h0 : Watched (after sharedGarbage 0) warning := .init _ _ rfl .warn _
  have hlegal : (after sharedGarbage 0).Legal sharedGarbage[0] :=
    ⟨by decide, hfresh 0 (by omega) _ (by decide) rfl, roots_of_holdsRoots (by decide +kernel),
      covered_of_isCovered (by decide +kernel)⟩
  have h1 : Watched (after sharedGarbage 1) _ := .call h0 hlegal rfl
  have hlegal : (after sharedGarbage 1).Legal sharedGarbage[1] :=
    ⟨.inr (by decide +kernel), by decide +kernel⟩
  have h2 : Watched (after sharedGarbage 2) _ := .call h1 hlegal trivial
  have hlegal : (after sharedGarbage 2).Legal sharedGarbage[2] :=
    ⟨by decide, hfresh 2 (by omega) _ (by decide) (by decide +kernel),
      roots_of_holdsRoots (by decide +kernel), covered_of_isCovered (by decide +kernel)⟩
  exact ⟨_, rfl, .call h2 hlegal rfl⟩

end Heap

end Corvid.Native
