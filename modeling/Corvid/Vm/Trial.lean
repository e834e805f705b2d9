import Corvid.Vm.Collector
import Mathlib.Algebra.Order.BigOperators.Group.Finset
import Mathlib.Logic.Relation

/-!
# What trial deletion finds

After marking, the shadow of a marked object is the number of its references that do not come from
marked objects. Scanning keeps the balance between the shadow and the references from objects that
are not restored, so an object that stays white is referenced from white objects only. Collecting
gathers all white objects.

## Main definitions

* `inFrom`: the references to an object from a set of objects
* `MarkInv`, `ScanInv`, `GatherInv`: the invariants of the traversals

## Main results

* `trial_spec`: the condemned objects are referenced from condemned objects only, and every marked
  object that survives is reachable from one that is referenced from elsewhere
-/

namespace Corvid.Vm

open Classical Relation

variable (n : ℕ) (children : ℕ → List ℕ)

/-- The references to `x` from the objects of `S`. -/
noncomputable def inFrom (S : ℕ → Prop) (x : ℕ) : ℕ :=
  ∑ p ∈ Finset.range n, if S p then (children p).count x else 0

/-- Paths through the children of objects. -/
abbrev Leads : ℕ → ℕ → Prop := ReflTransGen fun p c => c ∈ children p

variable {n children}

section References

variable {S T : ℕ → Prop} {x q : ℕ}

theorem inFrom_congr (h : ∀ p, S p ↔ T p) : inFrom n children S x = inFrom n children T x := by
  simp only [inFrom, h]

theorem inFrom_mono (h : ∀ p, S p → T p) : inFrom n children S x ≤ inFrom n children T x := by
  apply Finset.sum_le_sum
  intro p _
  by_cases hp : S p
  · rw [if_pos hp, if_pos (h p hp)]
  · rw [if_neg hp]
    exact Nat.zero_le _

/-- Adding one object to the set adds its references. -/
theorem inFrom_insert (hfresh : ∀ x, n ≤ x → children x = []) (hq : ¬ S q)
    (hT : ∀ p, T p ↔ S p ∨ p = q) :
    inFrom n children T x = inFrom n children S x + (children q).count x := by
  apply sum_range_of_eq_off (x := q)
  · intro p hp
    simp only [hT, hp, or_false]
  · rw [if_pos ((hT q).mpr (.inr rfl)), if_neg hq, Nat.zero_add]
  · intro hn
    rw [hfresh q hn]
    rfl

/-- A reference from a member of the set is counted. -/
theorem inFrom_pos (hfresh : ∀ x, n ≤ x → children x = []) (hq : S q) (hx : x ∈ children q) :
    0 < inFrom n children S x := by
  have hqn : q < n := by
    by_contra hn
    rw [hfresh q (by omega)] at hx
    cases hx
  have hle := Finset.single_le_sum (f := fun p => if S p then (children p).count x else 0)
    (fun p _ => Nat.zero_le _) (Finset.mem_range.mpr hqn)
  rw [if_pos hq] at hle
  exact lt_of_lt_of_le (List.count_pos_iff.mpr hx) hle

theorem inFrom_eq_zero (h : ∀ p, S p → x ∉ children p) : inFrom n children S x = 0 := by
  apply Finset.sum_eq_zero
  intro p _
  by_cases hp : S p
  · rw [if_pos hp, List.count_eq_zero]
    exact h p hp
  · rw [if_neg hp]

/-- A larger count from a larger set comes from an object that only the larger set has. -/
theorem exists_of_inFrom_lt (h : inFrom n children S x < inFrom n children T x) :
    ∃ p, T p ∧ ¬ S p ∧ x ∈ children p := by
  by_contra hne
  push Not at hne
  refine absurd h (not_lt.mpr (Finset.sum_le_sum fun p _ => ?_))
  by_cases hT : T p
  · by_cases hS : S p
    · rw [if_pos hT, if_pos hS]
    · rw [if_pos hT, List.count_eq_zero.mpr (hne p hT hS)]
      exact Nat.zero_le _
  · rw [if_neg hT]
    exact Nat.zero_le _

end References

def Gray (m : Metas) (x : ℕ) : Prop := (m x).color = .gray

def White (m : Metas) (x : ℕ) : Prop := (m x).color = .white

def Black (m : Metas) (x : ℕ) : Prop := (m x).color = .black

section Mark

/-- Every pending decrement of a shadow is for an object that is marked, or will be by a visit
above it on the stack. -/
def Ordered (G : ℕ → Prop) : List MarkTask → Prop
  | [] => True
  | .visit x :: stack => Ordered (fun y => G y ∨ y = x) stack
  | .decShadow x :: stack => G x ∧ Ordered G stack

theorem Ordered.mono {G G' : ℕ → Prop} {stack : List MarkTask} (h : Ordered G stack)
    (hG : ∀ x, G x → G' x) : Ordered G' stack := by
  induction stack generalizing G G' with
  | nil => trivial
  | cons t stack ih =>
    cases t with
    | visit x => exact ih h fun y => Or.imp_left (hG y)
    | decShadow x => exact ⟨hG x h.1, ih h.2 hG⟩

theorem ordered_push {G : ℕ → Prop} {stack : List MarkTask} (h : Ordered G stack) (xs : List ℕ) :
    Ordered G ((xs.flatMap fun c => [.visit c, .decShadow c]) ++ stack) := by
  induction xs generalizing G with
  | nil => exact h
  | cons x xs ih => exact ⟨.inr rfl, ih (h.mono fun y => Or.inl)⟩

theorem count_decShadow_push (xs : List ℕ) (stack : List MarkTask) (y : ℕ) :
    ((xs.flatMap fun c => [MarkTask.visit c, .decShadow c]) ++ stack).count (.decShadow y) =
      xs.count y + stack.count (.decShadow y) := by
  induction xs with
  | nil => simp
  | cons x xs ih =>
    by_cases h : x = y
    · subst h
      simp only [List.flatMap_cons, List.cons_append, List.nil_append, List.count_cons_self]
      rw [List.count_cons_of_ne (by simp), List.count_cons_self, ih]
      omega
    · simp only [List.flatMap_cons, List.cons_append, List.nil_append]
      rw [List.count_cons_of_ne (by simp), List.count_cons_of_ne (by simpa using h), ih,
        List.count_cons_of_ne h]

variable (n children)

/-- The invariant of marking, for the roots `R`. The shadow of a marked object is its count less
the references from marked objects, up to the pending decrements. -/
structure MarkInv (m₀ : Metas) (R : ℕ → Prop) (m : Metas) (stack : List MarkTask) : Prop where
  strong : ∀ x, (m x).strong = (m₀ x).strong
  buffered : ∀ x, (m x).buffered = (m₀ x).buffered
  color : ∀ x, Gray m x ∨ (m x).color = (m₀ x).color
  marked : ∀ x, Gray m x →
    (m x).shadow + inFrom n children (Gray m) x = (m₀ x).strong + stack.count (.decShadow x)
  unmarked : ∀ x, ¬ Gray m x → inFrom n children (Gray m) x = stack.count (.decShadow x)
  ordered : Ordered (Gray m) stack
  reach : ∀ x, Gray m x ∨ .visit x ∈ stack → ∃ r, R r ∧ Leads children r x

variable {n children} {m₀ m m' : Metas} {R : ℕ → Prop} {stack stack' : List MarkTask}

theorem gray_modify_mark (m : Metas) (x y : ℕ) :
    Gray (m.modify x HeapMeta.mark) y ↔ Gray m y ∨ y = x := by
  by_cases h : y = x
  · subst h
    simp [Gray, Metas.modify_self, HeapMeta.mark]
  · simp [Gray, Metas.modify_of_ne _ h, h]

theorem gray_modify_decShadow (m : Metas) (x y : ℕ) :
    Gray (m.modify x HeapMeta.decShadow) y ↔ Gray m y := by
  unfold Gray
  rw [Metas.modify_field HeapMeta.color rfl]

/-- Visiting an object that is not marked. -/
theorem MarkInv.visit (hfresh : ∀ x, n ≤ x → children x = []) {x : ℕ}
    (h : MarkInv n children m₀ R m (.visit x :: stack))
    (hx : ¬ Gray m x) :
    MarkInv n children m₀ R (m.modify x HeapMeta.mark)
      (((children x).flatMap fun c => [.visit c, .decShadow c]) ++ stack) := by
  have hin : ∀ y, inFrom n children (Gray (m.modify x HeapMeta.mark)) y =
      inFrom n children (Gray m) y + (children x).count y := fun y =>
    inFrom_insert hfresh hx (gray_modify_mark m x)
  have hpend : ∀ y, (MarkTask.visit x :: stack).count (.decShadow y) =
      stack.count (.decShadow y) := fun y => List.count_cons_of_ne (by simp)
  refine ⟨fun y => ?_, fun y => ?_, fun y => ?_, fun y hy => ?_, fun y hy => ?_, ?_,
    fun y hy => ?_⟩
  · exact (Metas.modify_field HeapMeta.strong rfl y).trans (h.strong y)
  · exact (Metas.modify_field HeapMeta.buffered rfl y).trans (h.buffered y)
  · rw [gray_modify_mark]
    by_cases hyx : y = x
    · exact .inl (.inr hyx)
    · rcases h.color y with hg | hc
      · exact .inl (.inl hg)
      · exact .inr (by rw [Metas.modify_of_ne _ hyx]; exact hc)
  · rw [hin, count_decShadow_push]
    by_cases hyx : y = x
    · -- none of the references to a newly marked object has been subtracted yet
      subst hyx
      have hun := h.unmarked y hx
      have hstr := h.strong y
      rw [hpend] at hun
      rw [Metas.modify_self]
      simp only [HeapMeta.mark]
      omega
    · have hg : Gray m y := ((gray_modify_mark m x y).mp hy).resolve_right hyx
      have hm := h.marked y hg
      rw [hpend] at hm
      rw [Metas.modify_of_ne _ hyx]
      omega
  · rw [hin, count_decShadow_push]
    have hg : ¬ Gray m y := fun hg => hy ((gray_modify_mark m x y).mpr (.inl hg))
    have hun := h.unmarked y hg
    rw [hpend] at hun
    omega
  · have hord : Ordered (fun y => Gray m y ∨ y = x) stack := h.ordered
    exact ordered_push (hord.mono fun y => (gray_modify_mark m x y).mpr) _
  · rw [gray_modify_mark] at hy
    obtain ⟨r, hr, hrx⟩ := h.reach x (.inr List.mem_cons_self)
    rcases hy with (hg | rfl) | hy
    · exact h.reach y (.inl hg)
    · exact ⟨r, hr, hrx⟩
    · rcases List.mem_append.mp hy with hy | hy
      · obtain ⟨c, hc, hyc⟩ := List.mem_flatMap.mp hy
        obtain rfl : y = c := by simpa using hyc
        exact ⟨r, hr, hrx.tail hc⟩
      · exact h.reach y (.inr (List.mem_cons_of_mem _ hy))

/-- A pending decrement finds a positive shadow: the counts cover all references. -/
theorem MarkInv.shadow_pos {x : ℕ}
    (hcount : ∀ x, inFrom n children (fun _ => True) x ≤ (m₀ x).strong)
    (h : MarkInv n children m₀ R m (.decShadow x :: stack)) : 0 < (m x).shadow := by
  have hm := h.marked x h.ordered.1
  have hle : inFrom n children (Gray m) x ≤ (m₀ x).strong :=
    (inFrom_mono fun _ _ => trivial).trans (hcount x)
  rw [List.count_cons_self] at hm
  omega

theorem MarkInv.decShadow {x : ℕ}
    (hcount : ∀ x, inFrom n children (fun _ => True) x ≤ (m₀ x).strong)
    (h : MarkInv n children m₀ R m (.decShadow x :: stack)) :
    MarkInv n children m₀ R (m.modify x HeapMeta.decShadow) stack := by
  have hpos := h.shadow_pos hcount
  have hin : ∀ y, inFrom n children (Gray (m.modify x HeapMeta.decShadow)) y =
      inFrom n children (Gray m) y := fun y => inFrom_congr (gray_modify_decShadow m x)
  refine ⟨fun y => ?_, fun y => ?_, fun y => ?_, fun y hy => ?_, fun y hy => ?_, ?_,
    fun y hy => ?_⟩
  · exact (Metas.modify_field HeapMeta.strong rfl y).trans (h.strong y)
  · exact (Metas.modify_field HeapMeta.buffered rfl y).trans (h.buffered y)
  · rw [gray_modify_decShadow]
    exact (h.color y).imp_right fun hc => (Metas.modify_field HeapMeta.color rfl y).trans hc
  · have hm := h.marked y ((gray_modify_decShadow m x y).mp hy)
    rw [hin]
    by_cases hyx : y = x
    · subst hyx
      rw [List.count_cons_self] at hm
      rw [Metas.modify_self]
      simp only [HeapMeta.decShadow]
      omega
    · rw [List.count_cons_of_ne (by simpa using Ne.symm hyx)] at hm
      rw [Metas.modify_of_ne _ hyx]
      exact hm
  · have hg : ¬ Gray m y := fun hg => hy ((gray_modify_decShadow m x y).mpr hg)
    have hyx : y ≠ x := fun hyx => hg (hyx ▸ h.ordered.1)
    have hun := h.unmarked y hg
    rw [List.count_cons_of_ne (by simpa using Ne.symm hyx)] at hun
    rw [hin]
    exact hun
  · exact h.ordered.2.mono fun y => (gray_modify_decShadow m x y).mpr
  · rw [gray_modify_decShadow] at hy
    exact h.reach y (hy.imp_right (List.mem_cons_of_mem _))

theorem MarkInv.step (hfresh : ∀ x, n ≤ x → children x = [])
    (hcount : ∀ x, inFrom n children (fun _ => True) x ≤ (m₀ x).strong)
    (h : MarkInv n children m₀ R m stack)
    (hs : markStep children (m, stack) = some (m', stack')) :
    MarkInv n children m₀ R m' stack' := by
  obtain _ | ⟨⟨x⟩ | ⟨x⟩, stack⟩ := stack
  · cases hs
  · rw [markStep] at hs
    split at hs
    next hx =>
      cases hs
      refine ⟨h.strong, h.buffered, h.color, fun y hy => ?_, fun y hy => ?_, ?_, fun y hy => ?_⟩
      · rw [h.marked y hy, List.count_cons_of_ne (by simp)]
      · rw [h.unmarked y hy, List.count_cons_of_ne (by simp)]
      · have hord : Ordered (fun y => Gray m y ∨ y = x) _ := h.ordered
        refine hord.mono fun y hy => ?_
        rcases hy with hy | rfl
        · exact hy
        · exact hx
      · exact h.reach y (hy.imp_right (List.mem_cons_of_mem _))
    next hx =>
      cases hs
      exact h.visit hfresh hx
  · cases hs
    exact h.decShadow hcount

theorem markStep_eq_none {s : Metas × List MarkTask} (h : markStep children s = none) :
    s.2 = [] := by
  obtain ⟨m, _ | ⟨⟨x⟩ | ⟨x⟩, stack⟩⟩ := s
  · rfl
  · rw [markStep] at h
    split at h <;> cases h
  · cases h

/-- Marking from one root. -/
theorem MarkInv.markGray (hfresh : ∀ x, n ≤ x → children x = [])
    (hcount : ∀ x, inFrom n children (fun _ => True) x ≤ (m₀ x).strong)
    (h : MarkInv n children m₀ R m []) {r : ℕ} (hr : R r) :
    MarkInv n children m₀ R (Vm.markGray n children m r) [] ∧
      (∀ x, Gray m x ∨ x = r → Gray (Vm.markGray n children m r) x) := by
  -- the marked objects and the root stay marked or on the stack
  let I := fun s : Metas × List MarkTask => MarkInv n children m₀ R s.1 s.2 ∧
    ∀ x, Gray m x ∨ x = r → Gray s.1 x ∨ .visit x ∈ s.2
  have hstart : I (m, [.visit r]) := by
    refine ⟨⟨h.strong, h.buffered, h.color, fun x hx => ?_, fun x hx => ?_, trivial,
      fun x hx => ?_⟩, fun x hx => hx.imp_right fun hxr => by simp [hxr]⟩
    · rw [h.marked x hx, List.count_cons_of_ne (by simp)]
    · rw [h.unmarked x hx, List.count_cons_of_ne (by simp)]
    · rcases hx with hx | hx
      · exact h.reach x (.inl hx)
      · obtain rfl : x = r := by simpa using hx
        exact ⟨x, hr, .refl⟩
  have hstep : ∀ s s', I s → markStep children s = some s' → I s' := by
    rintro ⟨m₁, stack⟩ ⟨m₂, stack'⟩ ⟨hinv, hcover⟩ hs
    refine ⟨hinv.step hfresh hcount hs, fun x hx => ?_⟩
    obtain _ | ⟨⟨y⟩ | ⟨y⟩, stack⟩ := stack
    · cases hs
    · rw [markStep] at hs
      split at hs
      next hy =>
        cases hs
        rcases hcover x hx with hg | hmem
        · exact .inl hg
        · rcases List.mem_cons.mp hmem with heq | hmem
          · obtain rfl : x = y := by simpa using heq
            exact .inl hy
          · exact .inr hmem
      next hy =>
        cases hs
        rcases hcover x hx with hg | hmem
        · exact .inl ((gray_modify_mark m₁ y x).mpr (.inl hg))
        · rcases List.mem_cons.mp hmem with heq | hmem
          · exact .inl ((gray_modify_mark m₁ y x).mpr (.inr (by simpa using heq)))
          · exact .inr (List.mem_append_right _ hmem)
    · cases hs
      rcases hcover x hx with hg | hmem
      · exact .inl ((gray_modify_decShadow m₁ y x).mpr hg)
      · exact .inr ((List.mem_cons.mp hmem).resolve_left (by simp))
  obtain ⟨hinv, hcover⟩ := Loop.exhaust_inv (Φ := markPotential n children) hstep hstart
  have hdone := markStep_eq_none (Loop.exhaust_done
    (fun s s' => markStep_potential hfresh) (m, [MarkTask.visit r]))
  rw [hdone] at hinv hcover
  exact ⟨hinv, fun x hx => (hcover x hx).resolve_right (by simp)⟩

/-- The roots that a collection marks. -/
def Candidate (m₀ : Metas) (roots : List ℕ) (r : ℕ) : Prop :=
  r ∈ roots ∧ (m₀ r).buffered = true ∧ 0 < (m₀ r).strong

/-- Marking from all candidates. -/
def markRoots (n : ℕ) (children : ℕ → List ℕ) (m : Metas) (roots : List ℕ) : Metas :=
  roots.foldl (fun m r =>
    if (m r).buffered ∧ 0 < (m r).strong then Vm.markGray n children m r else m) m

theorem MarkInv.markRoots (hfresh : ∀ x, n ≤ x → children x = [])
    (hcount : ∀ x, inFrom n children (fun _ => True) x ≤ (m₀ x).strong) {roots : List ℕ}
    (hR : ∀ r, Candidate m₀ roots r → R r) (h : MarkInv n children m₀ R m []) :
    MarkInv n children m₀ R (Vm.markRoots n children m roots) [] ∧
      ∀ x, Gray m x ∨ Candidate m₀ roots x → Gray (Vm.markRoots n children m roots) x := by
  induction roots generalizing m with
  | nil => exact ⟨h, fun x hx => hx.resolve_right fun hc => by cases hc.1⟩
  | cons r roots ih =>
    rw [Vm.markRoots, List.foldl_cons]
    have hR' : ∀ r, Candidate m₀ roots r → R r := fun r hr =>
      hR r ⟨List.mem_cons_of_mem _ hr.1, hr.2⟩
    split
    next hc =>
      rw [h.buffered, h.strong] at hc
      obtain ⟨hinv, hgray⟩ := h.markGray hfresh hcount (hR r ⟨List.mem_cons_self, hc⟩)
      obtain ⟨hinv', hgray'⟩ := ih hR' hinv
      refine ⟨hinv', fun x hx => hgray' x ?_⟩
      rcases hx with hx | ⟨hmem, hx⟩
      · exact .inl (hgray x (.inl hx))
      · rcases List.mem_cons.mp hmem with rfl | hmem
        · exact .inl (hgray x (.inr rfl))
        · exact .inr ⟨hmem, hx⟩
    next hc =>
      rw [h.buffered, h.strong] at hc
      obtain ⟨hinv', hgray'⟩ := ih hR' h
      refine ⟨hinv', fun x hx => hgray' x (hx.imp_right ?_)⟩
      rintro ⟨hmem, hcand⟩
      rcases List.mem_cons.mp hmem with rfl | hmem
      · exact absurd hcand hc
      · exact ⟨hmem, hcand⟩

/-- What is marked is closed under children. -/
theorem MarkInv.closed (hfresh : ∀ x, n ≤ x → children x = [])
    (h : MarkInv n children m₀ R m []) {p c : ℕ} (hp : Gray m p) (hc : c ∈ children p) :
    Gray m c := by
  by_contra hg
  have hzero := h.unmarked c hg
  have hpos := inFrom_pos hfresh hp hc
  rw [List.count_nil] at hzero
  omega

end Mark

section Scan

/-- Marked and not restored. -/
def Tentative (m : Metas) (x : ℕ) : Prop := Gray m x ∨ White m x

variable (n children)

/-- Reachable from a marked object that is referenced from elsewhere. -/
def Anchored (G : ℕ → Prop) (m₁ : Metas) (x : ℕ) : Prop :=
  ∃ y, G y ∧ inFrom n children G y < (m₁ y).strong ∧ Leads children y x

/-- The invariant of scanning, where `G` is what was marked. The shadow of a marked object is its
count less the references from objects that are not restored. -/
structure ScanInv (G : ℕ → Prop) (m₁ m : Metas) (stack : List ScanTask) : Prop where
  strong : ∀ x, (m x).strong = (m₁ x).strong
  buffered : ∀ x, (m x).buffered = true → (m₁ x).buffered = true
  outside : ∀ x, ¬ G x → (m x).color = (m₁ x).color
  inside : ∀ x, G x → Tentative m x ∨ Black m x
  balance : ∀ x, G x → (m x).shadow + inFrom n children (Tentative m) x = (m₁ x).strong
  white : ∀ x, White m x → (m x).shadow = 0 ∨ .scanBlack x ∈ stack
  whiteChild : ∀ x c, White m x → c ∈ children x →
    ¬ Gray m c ∨ .scan c ∈ stack ∨ .scanBlack c ∈ stack
  blackChild : ∀ x c, G x → Black m x → c ∈ children x → Black m c ∨ .scanBlack c ∈ stack
  anchored : ∀ x, G x → Black m x ∨ .scanBlack x ∈ stack → Anchored n children G m₁ x
  tasks : ∀ x, .scanBlack x ∈ stack → G x

variable {n children} {G : ℕ → Prop} {m₁ m m' : Metas} {stack stack' : List ScanTask}

/-- What is known of the marked part while it is scanned. -/
structure MarkedPart (n : ℕ) (children : ℕ → List ℕ) (G : ℕ → Prop) (m₁ : Metas) : Prop where
  fresh : ∀ x, n ≤ x → children x = []
  closed : ∀ p c, G p → c ∈ children p → G c
  gray : ∀ x, G x ↔ Gray m₁ x
  notWhite : ∀ x, ¬ White m₁ x

theorem ScanInv.tentative (hG : MarkedPart n children G m₁) (h : ScanInv n children G m₁ m stack)
    {x : ℕ} (hx : Tentative m x) : G x := by
  by_contra hng
  have hout := h.outside x hng
  rcases hx with hx | hx
  · exact hng ((hG.gray x).mpr (hout.symm.trans hx))
  · exact hG.notWhite x (hout.symm.trans hx)

/-- A marked object with a positive shadow is anchored: the reference is from elsewhere, or from an
object that is already restored. -/
theorem ScanInv.anchored_of_shadow (h : ScanInv n children G m₁ m stack) {x : ℕ} (hx : G x) (hpos : 0 < (m x).shadow) :
    Anchored n children G m₁ x := by
  have hbal := h.balance x hx
  by_cases hlt : inFrom n children G x < (m₁ x).strong
  · exact ⟨x, hx, hlt, .refl⟩
  · have hlt' : inFrom n children (Tentative m) x < inFrom n children G x := by omega
    obtain ⟨p, hpG, hpt, hpx⟩ := exists_of_inFrom_lt hlt'
    have hblack : Black m p := (h.inside p hpG).resolve_left hpt
    obtain ⟨y, hy, hylt, hyp⟩ := h.anchored p hpG (.inl hblack)
    exact ⟨y, hy, hylt, hyp.tail hpx⟩

theorem ScanInv.scan_skip {x : ℕ} (h : ScanInv n children G m₁ m (.scan x :: stack))
    (hx : ¬ Gray m x) : ScanInv n children G m₁ m stack := by
  have hblack : ∀ {y}, ScanTask.scanBlack y ∈ ScanTask.scan x :: stack → .scanBlack y ∈ stack :=
    fun hy => (List.mem_cons.mp hy).resolve_left (by simp)
  refine ⟨h.strong, h.buffered, h.outside, h.inside, h.balance, fun y hy => ?_,
    fun y c hy hc => ?_, fun y c hy hb hc => ?_, fun y hy hb => ?_, fun y hy => ?_⟩
  · exact (h.white y hy).imp_right hblack
  · rcases h.whiteChild y c hy hc with hg | hs | hb
    · exact .inl hg
    · rcases List.mem_cons.mp hs with heq | hs
      · obtain rfl : c = x := by simpa using heq
        exact .inl hx
      · exact .inr (.inl hs)
    · exact .inr (.inr (hblack hb))
  · exact (h.blackChild y c hy hb hc).imp_right hblack
  · exact h.anchored y hy (hb.imp_right (List.mem_cons_of_mem _))
  · exact h.tasks y (List.mem_cons_of_mem _ hy)

/-- A gray object with a positive shadow is to be restored. -/
theorem ScanInv.scan_restore (hG : MarkedPart n children G m₁) {x : ℕ}
    (h : ScanInv n children G m₁ m (.scan x :: stack)) (hx : Gray m x)
    (hpos : 0 < (m x).shadow) : ScanInv n children G m₁ m (.scanBlack x :: stack) := by
  have hxG : G x := h.tentative hG (.inl hx)
  have hblack : ∀ {y}, ScanTask.scanBlack y ∈ ScanTask.scan x :: stack →
      .scanBlack y ∈ ScanTask.scanBlack x :: stack :=
    fun hy => List.mem_cons_of_mem _ ((List.mem_cons.mp hy).resolve_left (by simp))
  refine ⟨h.strong, h.buffered, h.outside, h.inside, h.balance, fun y hy => ?_,
    fun y c hy hc => ?_, fun y c hy hb hc => ?_, fun y hy hb => ?_, fun y hy => ?_⟩
  · exact (h.white y hy).imp_right hblack
  · rcases h.whiteChild y c hy hc with hg | hs | hb
    · exact .inl hg
    · rcases List.mem_cons.mp hs with heq | hs
      · obtain rfl : c = x := by simpa using heq
        exact .inr (.inr List.mem_cons_self)
      · exact .inr (.inl (List.mem_cons_of_mem _ hs))
    · exact .inr (.inr (hblack hb))
  · exact (h.blackChild y c hy hb hc).imp_right hblack
  · rcases hb with hb | hb
    · exact h.anchored y hy (.inl hb)
    · rcases List.mem_cons.mp hb with heq | hb
      · obtain rfl : y = x := by simpa using heq
        exact h.anchored_of_shadow hxG hpos
      · exact h.anchored y hy (.inr (List.mem_cons_of_mem _ hb))
  · rcases List.mem_cons.mp hy with heq | hy
    · obtain rfl : y = x := by simpa using heq
      exact hxG
    · exact h.tasks y (List.mem_cons_of_mem _ hy)

theorem color_setColor_white (m : Metas) (x y : ℕ) :
    (m.modify x (HeapMeta.setColor .white) y).color = if y = x then .white else (m y).color := by
  split
  next h => rw [h, Metas.modify_self]; rfl
  next h => rw [Metas.modify_of_ne _ h]

/-- A gray object without a shadow turns white, for now. -/
theorem ScanInv.scan_white (hG : MarkedPart n children G m₁) {x : ℕ}
    (h : ScanInv n children G m₁ m (.scan x :: stack)) (hx : Gray m x) (hzero : (m x).shadow = 0) :
    ScanInv n children G m₁ (m.modify x (HeapMeta.setColor .white))
      ((children x).map .scan ++ stack) := by
  have hxG : G x := h.tentative hG (.inl hx)
  have hcolor := color_setColor_white m x
  have hwhite : ∀ y, White (m.modify x (HeapMeta.setColor .white)) y ↔ y = x ∨ White m y := by
    intro y
    by_cases hy : y = x <;> simp [White, hcolor, hy]
  have hgray : ∀ y, Gray (m.modify x (HeapMeta.setColor .white)) y → Gray m y := by
    intro y
    by_cases hy : y = x <;> simp [Gray, hcolor, hy]
  have htent : ∀ y, Tentative (m.modify x (HeapMeta.setColor .white)) y ↔ Tentative m y := by
    intro y
    by_cases hy : y = x
    · subst hy
      simp only [Tentative, hwhite, true_or, or_true, true_iff]
      exact .inl hx
    · simp [Tentative, Gray, White, hcolor, hy]
  have hblackIff : ∀ y, Black (m.modify x (HeapMeta.setColor .white)) y → Black m y := by
    intro y
    by_cases hy : y = x <;> simp [Black, hcolor, hy]
  have hshadow := Metas.modify_field (m := m) (x := x) HeapMeta.shadow
    (f := HeapMeta.setColor .white) rfl
  have hblack : ∀ {y}, ScanTask.scanBlack y ∈ ScanTask.scan x :: stack →
      .scanBlack y ∈ (children x).map ScanTask.scan ++ stack :=
    fun hy => List.mem_append_right _ ((List.mem_cons.mp hy).resolve_left (by simp))
  have hblack' : ∀ {y}, ScanTask.scanBlack y ∈ (children x).map ScanTask.scan ++ stack →
      .scanBlack y ∈ ScanTask.scan x :: stack := by
    intro y hy
    rcases List.mem_append.mp hy with hy | hy
    · simp at hy
    · exact List.mem_cons_of_mem _ hy
  refine ⟨fun y => ?_, fun y hb => ?_, fun y hy => ?_, fun y hy => ?_, fun y hy => ?_,
    fun y hy => ?_, fun y c hy hc => ?_, fun y c hy hb hc => ?_, fun y hy hb => ?_, fun y hy => ?_⟩
  · exact (Metas.modify_field HeapMeta.strong rfl y).trans (h.strong y)
  · exact h.buffered y ((Metas.modify_field HeapMeta.buffered rfl y).symm.trans hb)
  · have hyx : y ≠ x := fun hyx => hy (hyx ▸ hxG)
    rw [hcolor, if_neg hyx, h.outside y hy]
  · by_cases hyx : y = x
    · exact .inl (.inr ((hwhite y).mpr (.inl hyx)))
    · rcases h.inside y hy with ht | hb
      · exact .inl ((htent y).mpr ht)
      · exact .inr (by unfold Black; rw [hcolor, if_neg hyx]; exact hb)
  · rw [hshadow, inFrom_congr htent]
    exact h.balance y hy
  · rw [hshadow]
    rcases (hwhite y).mp hy with rfl | hy
    · exact .inl hzero
    · exact (h.white y hy).imp_right hblack
  · rcases (hwhite y).mp hy with rfl | hy
    · exact .inr (.inl (List.mem_append_left _ (List.mem_map_of_mem hc)))
    · rcases h.whiteChild y c hy hc with hg | hs | hb
      · exact .inl fun hg' => hg (hgray c hg')
      · rcases List.mem_cons.mp hs with heq | hs
        · -- the child is the object that just turned white
          obtain rfl : c = x := by simpa using heq
          exact .inl (by simp [Gray, hcolor])
        · exact .inr (.inl (List.mem_append_right _ hs))
      · exact .inr (.inr (hblack hb))
  · rcases h.blackChild y c hy (hblackIff y hb) hc with hcb | hct
    · have hcx : c ≠ x := by
        rintro rfl
        exact absurd (hx.symm.trans hcb) (by decide)
      exact .inl (by unfold Black; rw [hcolor, if_neg hcx]; exact hcb)
    · exact .inr (hblack hct)
  · exact h.anchored y hy (hb.imp (hblackIff y) hblack')
  · exact h.tasks y (hblack' hy)

/-- An object that is already restored. -/
theorem ScanInv.black_skip {x : ℕ} (h : ScanInv n children G m₁ m (.scanBlack x :: stack))
    (hx : Black m x) :
    ScanInv n children G m₁ (m.modify x (HeapMeta.setBuffered false)) stack := by
  have hcolor := Metas.modify_field (m := m) (x := x) HeapMeta.color
    (f := HeapMeta.setBuffered false) rfl
  have hgray : ∀ y, Gray (m.modify x (HeapMeta.setBuffered false)) y ↔ Gray m y := fun y => by
    simp only [Gray, hcolor]
  have hwhite : ∀ y, White (m.modify x (HeapMeta.setBuffered false)) y ↔ White m y := fun y => by
    simp only [White, hcolor]
  have hblack : ∀ y, Black (m.modify x (HeapMeta.setBuffered false)) y ↔ Black m y := fun y => by
    simp only [Black, hcolor]
  have htent : ∀ y, Tentative (m.modify x (HeapMeta.setBuffered false)) y ↔ Tentative m y :=
    fun y => by simp only [Tentative, hgray, hwhite]
  have hpop : ∀ {y}, ScanTask.scanBlack y ∈ ScanTask.scanBlack x :: stack →
      Black m y ∨ .scanBlack y ∈ stack := by
    intro y hy
    rcases List.mem_cons.mp hy with heq | hy
    · obtain rfl : y = x := by simpa using heq
      exact .inl hx
    · exact .inr hy
  refine ⟨fun y => ?_, fun y hb => ?_, fun y hy => ?_, fun y hy => ?_, fun y hy => ?_,
    fun y hy => ?_, fun y c hy hc => ?_, fun y c hy hb hc => ?_, fun y hy hb => ?_, fun y hy => ?_⟩
  · exact (Metas.modify_field HeapMeta.strong rfl y).trans (h.strong y)
  · by_cases hyx : y = x
    · rw [hyx, Metas.modify_self] at hb
      cases hb
    · rw [Metas.modify_of_ne _ hyx] at hb
      exact h.buffered y hb
  · exact (hcolor y).trans (h.outside y hy)
  · exact (h.inside y hy).imp (htent y).mpr (hblack y).mpr
  · rw [Metas.modify_field HeapMeta.shadow rfl, inFrom_congr htent]
    exact h.balance y hy
  · rw [Metas.modify_field HeapMeta.shadow rfl]
    rw [hwhite] at hy
    refine (h.white y hy).imp_right fun hs => (hpop hs).resolve_left fun hb => ?_
    exact absurd (hy.symm.trans hb) (by decide)
  · rw [hgray]
    rcases h.whiteChild y c ((hwhite y).mp hy) hc with hg | hs | hs
    · exact .inl hg
    · exact .inr (.inl ((List.mem_cons.mp hs).resolve_left (by simp)))
    · rcases hpop hs with hb | hs
      · exact .inl fun hg => absurd (hg.symm.trans hb) (by decide)
      · exact .inr (.inr hs)
  · rw [hblack]
    rcases h.blackChild y c hy ((hblack y).mp hb) hc with hcb | hct
    · exact .inl hcb
    · exact hpop hct
  · exact h.anchored y hy (hb.imp (hblack y).mp (List.mem_cons_of_mem _))
  · exact h.tasks y (List.mem_cons_of_mem _ hy)

/-- Restoring an object puts its references back into the shadows of its children. -/
theorem ScanInv.black_restore (hG : MarkedPart n children G m₁) {x : ℕ}
    (h : ScanInv n children G m₁ m (.scanBlack x :: stack)) (hx : ¬ Black m x) :
    ScanInv n children G m₁
      (incShadows (m.modify x (HeapMeta.setBuffered false ∘ HeapMeta.setColor .black))
        (children x))
      ((children x).map .scanBlack ++ stack) := by
  have hxG : G x := h.tasks x List.mem_cons_self
  have hxt : Tentative m x := (h.inside x hxG).resolve_right hx
  generalize hm' : incShadows (m.modify x (HeapMeta.setBuffered false ∘ HeapMeta.setColor .black))
    (children x) = m'
  have hcolor : ∀ y, (m' y).color = if y = x then .black else (m y).color := by
    intro y
    rw [← hm', incShadows_field HeapMeta.color (fun _ => rfl)]
    split
    next hy => rw [hy, Metas.modify_self]; rfl
    next hy => rw [Metas.modify_of_ne _ hy]
  have hshadow : ∀ y, (m' y).shadow = (m y).shadow + (children x).count y := by
    intro y
    rw [← hm', incShadows_shadow, Metas.modify_field HeapMeta.shadow rfl]
  have hstrong : ∀ y, (m' y).strong = (m y).strong := by
    intro y
    rw [← hm', incShadows_field HeapMeta.strong (fun _ => rfl),
      Metas.modify_field HeapMeta.strong rfl]
  have hbuf : ∀ y, (m' y).buffered = true → (m y).buffered = true := by
    intro y hb
    rw [← hm', incShadows_field HeapMeta.buffered (fun _ => rfl)] at hb
    by_cases hy : y = x
    · rw [hy, Metas.modify_self] at hb
      cases hb
    · rwa [Metas.modify_of_ne _ hy] at hb
  have htent : ∀ y, Tentative m y ↔ Tentative m' y ∨ y = x := by
    intro y
    by_cases hy : y = x
    · simp [hy, hxt]
    · simp [Tentative, Gray, White, hcolor, hy]
  have hxt' : ¬ Tentative m' x := by simp [Tentative, Gray, White, hcolor]
  have hblack : ∀ y, Black m' y ↔ y = x ∨ Black m y := by
    intro y
    by_cases hy : y = x <;> simp [Black, hcolor, hy]
  have hwhite : ∀ y, White m' y → y ≠ x ∧ White m y := by
    intro y
    by_cases hy : y = x <;> simp [White, hcolor, hy]
  have hgray : ∀ y, Gray m' y → y ≠ x ∧ Gray m y := by
    intro y
    by_cases hy : y = x <;> simp [Gray, hcolor, hy]
  have hpop : ∀ {y}, ScanTask.scanBlack y ∈ ScanTask.scanBlack x :: stack →
      y = x ∨ .scanBlack y ∈ (children x).map ScanTask.scanBlack ++ stack := by
    intro y hy
    rcases List.mem_cons.mp hy with heq | hy
    · exact .inl (by simpa using heq)
    · exact .inr (List.mem_append_right _ hy)
  refine ⟨fun y => ?_, fun y hb => ?_, fun y hy => ?_, fun y hy => ?_, fun y hy => ?_,
    fun y hy => ?_, fun y c hy hc => ?_, fun y c hy hb hc => ?_, fun y hy hb => ?_, fun y hy => ?_⟩
  · exact (hstrong y).trans (h.strong y)
  · exact h.buffered y (hbuf y hb)
  · have hyx : y ≠ x := fun hyx => hy (hyx ▸ hxG)
    rw [hcolor, if_neg hyx, h.outside y hy]
  · rcases h.inside y hy with ht | hb
    · rcases (htent y).mp ht with ht | rfl
      · exact .inl ht
      · exact .inr ((hblack y).mpr (.inl rfl))
    · exact .inr ((hblack y).mpr (.inr hb))
  · have hbal := h.balance y hy
    rw [inFrom_insert hG.fresh hxt' htent] at hbal
    rw [hshadow]
    omega
  · obtain ⟨hyx, hyw⟩ := hwhite y hy
    rw [hshadow]
    by_cases hmem : y ∈ children x
    · exact .inr (List.mem_append_left _ (List.mem_map_of_mem hmem))
    · rw [List.count_eq_zero.mpr hmem, Nat.add_zero]
      exact (h.white y hyw).imp_right fun hs => (hpop hs).resolve_left hyx
  · rcases h.whiteChild y c (hwhite y hy).2 hc with hg | hs | hs
    · exact .inl fun hg' => hg (hgray c hg').2
    · exact .inr (.inl (List.mem_append_right _ ((List.mem_cons.mp hs).resolve_left (by simp))))
    · rcases hpop hs with rfl | hs
      · exact .inl fun hg' => (hgray c hg').1 rfl
      · exact .inr (.inr hs)
  · rcases (hblack y).mp hb with rfl | hb
    · exact .inr (List.mem_append_left _ (List.mem_map_of_mem hc))
    · rcases h.blackChild y c hy hb hc with hcb | hct
      · exact .inl ((hblack c).mpr (.inr hcb))
      · exact (hpop hct).imp_left fun hcx => (hblack c).mpr (.inl hcx)
  · have hxa := h.anchored x hxG (.inr List.mem_cons_self)
    rcases hb with hb | hb
    · rcases (hblack y).mp hb with rfl | hb
      · exact hxa
      · exact h.anchored y hy (.inl hb)
    · rcases List.mem_append.mp hb with hb | hb
      · obtain ⟨z, hz, hzlt, hzx⟩ := hxa
        exact ⟨z, hz, hzlt, hzx.tail (by simpa using hb)⟩
      · exact h.anchored y hy (.inr (List.mem_cons_of_mem _ hb))
  · rcases List.mem_append.mp hy with hy | hy
    · exact hG.closed x y hxG (by simpa using hy)
    · exact h.tasks y (List.mem_cons_of_mem _ hy)

theorem ScanInv.step (hG : MarkedPart n children G m₁) (h : ScanInv n children G m₁ m stack)
    (hs : scanStep children (m, stack) = some (m', stack')) :
    ScanInv n children G m₁ m' stack' := by
  obtain _ | ⟨⟨x⟩ | ⟨x⟩, stack⟩ := stack
  · cases hs
  · rw [scanStep] at hs
    split at hs
    next hx => cases hs; exact h.scan_skip hx
    next hx =>
      rw [not_not] at hx
      split at hs
      next hpos => cases hs; exact h.scan_restore hG hx hpos
      next hpos => cases hs; exact h.scan_white hG hx (by omega)
  · rw [scanStep] at hs
    split at hs
    next hx => cases hs; exact h.black_skip hx
    next hx => cases hs; exact h.black_restore hG hx

theorem scanStep_eq_none {s : Metas × List ScanTask} (h : scanStep children s = none) :
    s.2 = [] := by
  obtain ⟨m, _ | ⟨⟨x⟩ | ⟨x⟩, stack⟩⟩ := s
  · rfl
  · rw [scanStep] at h
    split at h
    · cases h
    · split at h <;> cases h
  · rw [scanStep] at h
    split at h <;> cases h

/-- No object turns gray while scanning. -/
theorem gray_of_scanStep (hs : scanStep children (m, stack) = some (m', stack')) {y : ℕ}
    (hy : Gray m' y) : Gray m y := by
  obtain _ | ⟨⟨x⟩ | ⟨x⟩, stack⟩ := stack
  · cases hs
  · rw [scanStep] at hs
    split at hs
    · cases hs; exact hy
    split at hs
    · cases hs; exact hy
    · cases hs
      unfold Gray at hy
      rw [color_setColor_white] at hy
      split at hy
      · cases hy
      · exact hy
  · rw [scanStep] at hs
    split at hs
    · cases hs
      exact (Metas.modify_field HeapMeta.color rfl y).symm.trans hy
    · cases hs
      unfold Gray at hy
      rw [incShadows_field HeapMeta.color (fun _ => rfl)] at hy
      by_cases hyx : y = x
      · rw [hyx, Metas.modify_self] at hy
        cases hy
      · rwa [Metas.modify_of_ne _ hyx] at hy

/-- Scanning from one root, which is not gray afterwards. -/
theorem ScanInv.scan (hG : MarkedPart n children G m₁) (h : ScanInv n children G m₁ m []) (r : ℕ) :
    ScanInv n children G m₁ (Vm.scan n children m r) [] ∧
      ¬ Gray (Vm.scan n children m r) r ∧ ∀ x, Gray (Vm.scan n children m r) x → Gray m x := by
  -- the root is on the stack as long as it is gray
  let I := fun s : Metas × List ScanTask => ScanInv n children G m₁ s.1 s.2 ∧
    (Gray s.1 r → .scan r ∈ s.2 ∨ .scanBlack r ∈ s.2) ∧ ∀ x, Gray s.1 x → Gray m x
  have hstart : I (m, [.scan r]) := by
    refine ⟨⟨h.strong, h.buffered, h.outside, h.inside, h.balance, fun y hy => ?_,
      fun y c hy hc => ?_, fun y c hy hb hc => ?_, fun y hy hb => ?_, fun y hy => ?_⟩,
      fun _ => .inl List.mem_cons_self, fun x hx => hx⟩
    · exact .inl ((h.white y hy).resolve_right (by simp))
    · exact .inl ((h.whiteChild y c hy hc).resolve_right (by simp))
    · exact .inl ((h.blackChild y c hy hb hc).resolve_right (by simp))
    · exact h.anchored y hy (.inl (hb.resolve_right (by simp)))
    · simp at hy
  have hstep : ∀ s s', I s → scanStep children s = some s' → I s' := by
    rintro ⟨m₂, stack⟩ ⟨m₃, stack'⟩ ⟨hinv, hroot, hmono⟩ hs
    refine ⟨hinv.step hG hs, fun hr => ?_, fun x hx => hmono x (gray_of_scanStep hs hx)⟩
    have hr₂ := hroot (gray_of_scanStep hs hr)
    obtain _ | ⟨⟨y⟩ | ⟨y⟩, stack⟩ := stack
    · simp at hr₂
    · rw [scanStep] at hs
      split at hs
      next hy =>
        cases hs
        have hyr : r ≠ y := fun hyr => hy (hyr ▸ hr)
        exact hr₂.imp (fun hm => (List.mem_cons.mp hm).resolve_left (by simpa using hyr))
          (fun hm => (List.mem_cons.mp hm).resolve_left (by simp))
      next hy =>
        split at hs
        · cases hs
          rcases hr₂ with hm | hm
          · rcases List.mem_cons.mp hm with heq | hm
            · obtain rfl : r = y := by simpa using heq
              exact .inr List.mem_cons_self
            · exact .inl (List.mem_cons_of_mem _ hm)
          · exact .inr (List.mem_cons_of_mem _ ((List.mem_cons.mp hm).resolve_left (by simp)))
        · cases hs
          have hyr : r ≠ y := by
            rintro rfl
            unfold Gray at hr
            rw [color_setColor_white, if_pos rfl] at hr
            cases hr
          exact hr₂.imp (fun hm => List.mem_append_right _
              ((List.mem_cons.mp hm).resolve_left (by simpa using hyr)))
            (fun hm => List.mem_append_right _ ((List.mem_cons.mp hm).resolve_left (by simp)))
    · have hyr : r ≠ y := by
        rintro rfl
        rw [scanStep] at hs
        split at hs
        next hb =>
          cases hs
          exact absurd ((Metas.modify_field HeapMeta.color rfl r).symm.trans hr)
            (by rw [hb]; decide)
        next =>
          cases hs
          unfold Gray at hr
          rw [incShadows_field HeapMeta.color (fun _ => rfl), Metas.modify_self] at hr
          cases hr
      rw [scanStep] at hs
      split at hs
      · cases hs
        exact hr₂.imp (fun hm => (List.mem_cons.mp hm).resolve_left (by simp))
          (fun hm => (List.mem_cons.mp hm).resolve_left (by simpa using hyr))
      · cases hs
        exact hr₂.imp (fun hm => List.mem_append_right _
            ((List.mem_cons.mp hm).resolve_left (by simp)))
          (fun hm => List.mem_append_right _
            ((List.mem_cons.mp hm).resolve_left (by simpa using hyr)))
  obtain ⟨hinv, hroot, hmono⟩ :=
    Loop.exhaust_inv (Φ := scanPotential n children) hstep hstart
  have hdone := scanStep_eq_none (Loop.exhaust_done
    (fun s s' => scanStep_potential hG.fresh) (m, [ScanTask.scan r]))
  rw [hdone] at hinv hroot
  exact ⟨hinv, fun hg => by simpa using hroot hg, hmono⟩

theorem ScanInv.scanRoots (hG : MarkedPart n children G m₁) (h : ScanInv n children G m₁ m [])
    (roots : List ℕ) :
    ScanInv n children G m₁ (roots.foldl (Vm.scan n children) m) [] ∧
      (∀ r ∈ roots, ¬ Gray (roots.foldl (Vm.scan n children) m) r) ∧
      ∀ x, Gray (roots.foldl (Vm.scan n children) m) x → Gray m x := by
  induction roots generalizing m with
  | nil => exact ⟨h, fun r hr => absurd hr List.not_mem_nil, fun x hx => hx⟩
  | cons r roots ih =>
    obtain ⟨hinv, hr, hmono⟩ := h.scan hG r
    obtain ⟨hinv', hroots, hmono'⟩ := ih hinv
    rw [List.foldl_cons]
    refine ⟨hinv', fun q hq => ?_, fun x hx => hmono x (hmono' x hx)⟩
    rcases List.mem_cons.mp hq with rfl | hq
    · exact fun hg => hr (hmono' q hg)
    · exact hroots q hq

end Scan

section Collect

variable (children)

/-- The invariant of collecting, where `W` is what stayed white. -/
structure GatherInv (W : ℕ → Prop) (m₂ : Metas) (g : Gather) (stack : List ℕ) : Prop where
  strong : ∀ x, (g.metas x).strong = (m₂ x).strong
  buffered : ∀ x, (g.metas x).buffered = true → (m₂ x).buffered = true
  white : ∀ x, White g.metas x ↔ W x
  color : ∀ x, (g.metas x).color = (m₂ x).color ∨ Black g.metas x
  out : ∀ x, x ∈ g.out ↔ x ∈ g.seen ∧ W x
  unbuffered : ∀ x ∈ g.seen, ¬ W x → (g.metas x).buffered = false
  nodup : g.out.Nodup
  closed : ∀ x ∈ g.seen, W x → ∀ c ∈ children x, c ∈ g.seen ∨ c ∈ stack

variable {children} {W : ℕ → Prop} {m₂ : Metas} {g g' : Gather} {stack stack' : List ℕ}

theorem GatherInv.skip {x : ℕ} (h : GatherInv children W m₂ g (x :: stack)) (hx : x ∈ g.seen) :
    GatherInv children W m₂ g stack := by
  refine ⟨h.strong, h.buffered, h.white, h.color, h.out, h.unbuffered, h.nodup,
    fun y hy hw c hc => ?_⟩
  rcases h.closed y hy hw c hc with hs | hs
  · exact .inl hs
  · rcases List.mem_cons.mp hs with rfl | hs
    · exact .inl hx
    · exact .inr hs

theorem GatherInv.take {x : ℕ} (h : GatherInv children W m₂ g (x :: stack)) (hx : x ∉ g.seen)
    (hw : White g.metas x) :
    GatherInv children W m₂ { g with seen := x :: g.seen, out := g.out ++ [x] }
      (children x ++ stack) := by
  have hxW : W x := (h.white x).mp hw
  refine ⟨h.strong, h.buffered, h.white, h.color, fun y => ?_, fun y hy hyW => ?_,
    List.nodup_append.mpr ⟨h.nodup, List.nodup_singleton x, ?_⟩, fun y hy hyW c hc => ?_⟩
  · rw [List.mem_append, List.mem_singleton, List.mem_cons, h.out]
    constructor
    · rintro (⟨hs, hyW⟩ | rfl)
      · exact ⟨.inr hs, hyW⟩
      · exact ⟨.inl rfl, hxW⟩
    · rintro ⟨rfl | hs, hyW⟩
      · exact .inr rfl
      · exact .inl ⟨hs, hyW⟩
  · rcases List.mem_cons.mp hy with rfl | hy
    · exact absurd hxW hyW
    · exact h.unbuffered y hy hyW
  · rintro y hy _ hmem rfl
    rw [List.mem_singleton.mp hmem] at hy
    exact hx ((h.out x).mp hy).1
  · rcases List.mem_cons.mp hy with rfl | hy
    · exact .inr (List.mem_append_left _ hc)
    · rcases h.closed y hy hyW c hc with hs | hs
      · exact .inl (List.mem_cons_of_mem _ hs)
      · rcases List.mem_cons.mp hs with rfl | hs
        · exact .inl List.mem_cons_self
        · exact .inr (List.mem_append_right _ hs)

theorem GatherInv.leave {x : ℕ} (h : GatherInv children W m₂ g (x :: stack))
    (hw : ¬ White g.metas x) :
    GatherInv children W m₂
      { g with
        metas := g.metas.modify x (HeapMeta.setBuffered false ∘ HeapMeta.setColor .black)
        seen := x :: g.seen } stack := by
  have hxW : ¬ W x := fun hxW => hw ((h.white x).mpr hxW)
  refine ⟨fun y => ?_, fun y hb => ?_, fun y => ?_, fun y => ?_, fun y => ?_, fun y hy hyW => ?_,
    h.nodup, fun y hy hyW c hc => ?_⟩
  · exact (Metas.modify_field HeapMeta.strong rfl y).trans (h.strong y)
  · dsimp only at hb
    by_cases hyx : y = x
    · rw [hyx, Metas.modify_self] at hb
      cases hb
    · rw [Metas.modify_of_ne _ hyx] at hb
      exact h.buffered y hb
  · by_cases hyx : y = x
    · subst hyx
      simp [White, Metas.modify_self, HeapMeta.setColor, HeapMeta.setBuffered, hxW]
    · dsimp only [White]
      rw [Metas.modify_of_ne _ hyx]
      exact h.white y
  · dsimp only [Black]
    by_cases hyx : y = x
    · refine .inr ?_
      rw [hyx, Metas.modify_self]
      rfl
    · rw [Metas.modify_of_ne _ hyx]
      exact h.color y
  · rw [h.out, List.mem_cons]
    constructor
    · rintro ⟨hs, hyW⟩
      exact ⟨.inr hs, hyW⟩
    · rintro ⟨rfl | hs, hyW⟩
      · exact absurd hyW hxW
      · exact ⟨hs, hyW⟩
  · dsimp only
    by_cases hyx : y = x
    · rw [hyx, Metas.modify_self]
      rfl
    · rw [Metas.modify_of_ne _ hyx]
      exact h.unbuffered y ((List.mem_cons.mp hy).resolve_left hyx) hyW
  · rcases List.mem_cons.mp hy with rfl | hy
    · exact absurd hyW hxW
    · rcases h.closed y hy hyW c hc with hs | hs
      · exact .inl (List.mem_cons_of_mem _ hs)
      · rcases List.mem_cons.mp hs with rfl | hs
        · exact .inl List.mem_cons_self
        · exact .inr hs

theorem GatherInv.step (h : GatherInv children W m₂ g stack)
    (hs : collectStep children (g, stack) = some (g', stack')) :
    GatherInv children W m₂ g' stack' ∧
      ∀ x, x ∈ g.seen ∨ x ∈ stack → x ∈ g'.seen ∨ x ∈ stack' := by
  obtain _ | ⟨x, stack⟩ := stack
  · cases hs
  · rw [collectStep] at hs
    split at hs
    next hx =>
      cases hs
      refine ⟨h.skip hx, fun y hy => ?_⟩
      rcases hy with hy | hy
      · exact .inl hy
      · rcases List.mem_cons.mp hy with rfl | hy
        · exact .inl hx
        · exact .inr hy
    next hx =>
      split at hs
      next hw =>
        cases hs
        refine ⟨h.take hx hw, fun y hy => ?_⟩
        rcases hy with hy | hy
        · exact .inl (List.mem_cons_of_mem _ hy)
        · rcases List.mem_cons.mp hy with rfl | hy
          · exact .inl List.mem_cons_self
          · exact .inr (List.mem_append_right _ hy)
      next hw =>
        cases hs
        refine ⟨h.leave hw, fun y hy => ?_⟩
        rcases hy with hy | hy
        · exact .inl (List.mem_cons_of_mem _ hy)
        · rcases List.mem_cons.mp hy with rfl | hy
          · exact .inl List.mem_cons_self
          · exact .inr hy

theorem collectStep_eq_none {s : Gather × List ℕ} (h : collectStep children s = none) :
    s.2 = [] := by
  obtain ⟨g, _ | ⟨x, stack⟩⟩ := s
  · rfl
  · rw [collectStep] at h
    split at h
    · cases h
    · split at h <;> cases h

/-- Collecting from one root, which is seen afterwards. -/
theorem GatherInv.collectWhite (hfresh : ∀ x, n ≤ x → children x = [])
    (h : GatherInv children W m₂ g []) (r : ℕ) :
    GatherInv children W m₂ (Vm.collectWhite n children g r) [] ∧
      ∀ x, x ∈ g.seen ∨ x = r → x ∈ (Vm.collectWhite n children g r).seen := by
  let I := fun s : Gather × List ℕ => GatherInv children W m₂ s.1 s.2 ∧
    ∀ x, x ∈ g.seen ∨ x = r → x ∈ s.1.seen ∨ x ∈ s.2
  have hstart : I (g, [r]) :=
    ⟨⟨h.strong, h.buffered, h.white, h.color, h.out, h.unbuffered, h.nodup, fun x hx hw c hc =>
      .inl ((h.closed x hx hw c hc).resolve_right (by simp))⟩,
      fun x hx => hx.imp_right fun hxr => by simp [hxr]⟩
  have hstep : ∀ s s', I s → collectStep children s = some s' → I s' := by
    rintro ⟨g₁, stack⟩ ⟨g₂, stack'⟩ ⟨hinv, hcover⟩ hs
    obtain ⟨hinv', hcover'⟩ := hinv.step hs
    exact ⟨hinv', fun x hx => hcover' x (hcover x hx)⟩
  obtain ⟨hinv, hcover⟩ := Loop.exhaust_inv (Φ := collectPotential n children) hstep hstart
  have hdone := collectStep_eq_none (Loop.exhaust_done
    (fun s s' => collectStep_potential hfresh) (g, [r]))
  rw [hdone] at hinv hcover
  exact ⟨hinv, fun x hx => (hcover x hx).resolve_right (by simp)⟩

theorem GatherInv.collectRoots (hfresh : ∀ x, n ≤ x → children x = [])
    (h : GatherInv children W m₂ g []) (roots : List ℕ) :
    GatherInv children W m₂ (roots.foldl (Vm.collectWhite n children) g) [] ∧
      ∀ x, x ∈ g.seen ∨ x ∈ roots → x ∈ (roots.foldl (Vm.collectWhite n children) g).seen := by
  induction roots generalizing g with
  | nil => exact ⟨h, fun x hx => hx.resolve_right (by simp)⟩
  | cons r roots ih =>
    obtain ⟨hinv, hseen⟩ := h.collectWhite hfresh r
    obtain ⟨hinv', hseen'⟩ := ih hinv
    rw [List.foldl_cons]
    refine ⟨hinv', fun x hx => hseen' x ?_⟩
    rcases hx with hx | hx
    · exact .inl (hseen x (.inl hx))
    · rcases List.mem_cons.mp hx with rfl | hx
      · exact .inl (hseen x (.inr rfl))
      · exact .inr hx

end Collect

section Trial

/-- What a trial leaves behind. -/
structure TrialSpec (n : ℕ) (children : ℕ → List ℕ) (m : Metas) (roots : List ℕ) (g : Gather) :
    Prop where
  strong : ∀ x, (g.metas x).strong = (m x).strong
  /-- A condemned object is referenced by condemned objects only. -/
  condemned : ∀ x ∈ g.out, (m x).strong = inFrom n children (· ∈ g.out) x
  nodup : g.out.Nodup
  color : ∀ x, x ∉ g.out → (g.metas x).color = .black ∨ (g.metas x).color = .purple
  buffered : ∀ x, (g.metas x).buffered = true → (m x).buffered = true
  unbuffered : ∀ x ∈ roots, x ∉ g.out → (g.metas x).buffered = false
  /-- Everything reachable from a candidate is condemned, or reachable from an object that is
  referenced from outside of that part. -/
  complete : ∀ r x, Candidate m roots r → Leads children r x → x ∉ g.out →
    ∃ y, (∃ r, Candidate m roots r ∧ Leads children r y) ∧ Leads children y x ∧
      inFrom n children (fun p => ∃ r, Candidate m roots r ∧ Leads children r p) y < (m y).strong

theorem trial_spec {m : Metas} (hfresh : ∀ x, n ≤ x → children x = [])
    (hcount : ∀ x, inFrom n children (fun _ => True) x ≤ (m x).strong)
    (hcolor : ∀ x, (m x).color = .black ∨ (m x).color = .purple) (roots : List ℕ) :
    TrialSpec n children m roots (trial n children m roots) := by
  have hnone : ∀ x, ¬ Gray m x := fun x hx => by
    unfold Gray at hx
    rcases hcolor x with h | h <;> rw [h] at hx <;> cases hx
  -- marking
  have hmark₀ : MarkInv n children m (Candidate m roots) m [] :=
    ⟨fun _ => rfl, fun _ => rfl, fun _ => .inr rfl, fun x hx => absurd hx (hnone x),
      fun x _ => inFrom_eq_zero fun p hp => absurd hp (hnone p), trivial,
      fun x hx => absurd (hx.resolve_right (by simp)) (hnone x)⟩
  obtain ⟨hmark, hcand⟩ := hmark₀.markRoots hfresh hcount (fun r hr => hr)
  have htrial : trial n children m roots = roots.foldl (collectWhite n children)
      ⟨roots.foldl (scan n children) (markRoots n children m roots), [], []⟩ := rfl
  rw [htrial]
  generalize markRoots n children m roots = m₁ at hmark hcand
  have hreach : ∀ x, Gray m₁ x ↔ ∃ r, Candidate m roots r ∧ Leads children r x := by
    refine fun x => ⟨fun hx => hmark.reach x (.inl hx), ?_⟩
    rintro ⟨r, hr, hrx⟩
    induction hrx with
    | refl => exact hcand r (.inr hr)
    | tail _ hc ih => exact hmark.closed hfresh ih hc
  have hnotWhite : ∀ x, ¬ White m₁ x := by
    intro x hx
    unfold White at hx
    rcases hmark.color x with h | h
    · exact absurd (h.symm.trans hx) (by decide)
    · rw [h] at hx
      rcases hcolor x with h | h <;> rw [h] at hx <;> cases hx
  have hG : MarkedPart n children (Gray m₁) m₁ :=
    ⟨hfresh, fun p c => hmark.closed hfresh, fun _ => Iff.rfl, hnotWhite⟩
  -- scanning
  have hscan₀ : ScanInv n children (Gray m₁) m₁ m₁ [] := by
    refine ⟨fun _ => rfl, fun _ h => h, fun _ _ => rfl, fun x hx => .inl (.inl hx), fun x hx => ?_,
      fun x hx => absurd hx (hnotWhite x), fun x c hx => absurd hx (hnotWhite x),
      fun x c hx hb => absurd (hx.symm.trans hb) (by decide), fun x hx hb => ?_,
      fun x hx => by cases hx⟩
    · have htent : ∀ p, Tentative m₁ p ↔ Gray m₁ p := fun p =>
        or_iff_left (hnotWhite p)
      rw [inFrom_congr htent, hmark.marked x hx, hmark.strong x]
      rfl
    · exact absurd (hx.symm.trans (hb.resolve_right (by simp))) (by decide)
  obtain ⟨hscan, hroots, hmono⟩ := hscan₀.scanRoots hG roots
  generalize roots.foldl (scan n children) m₁ = m₂ at hscan hroots hmono
  -- nothing is left gray: what is marked is reachable from a scanned root
  have hnoGray : ∀ x, ¬ Gray m₂ x := by
    intro x hx
    obtain ⟨r, hr, hrx⟩ := (hreach x).mp (hmono x hx)
    have hpath : Gray m₁ x ∧ ¬ Gray m₂ x := by
      clear hx
      induction hrx with
      | refl => exact ⟨hcand r (.inr hr), hroots r hr.1⟩
      | tail hrp hc ih =>
        refine ⟨hmark.closed hfresh ih.1 hc, fun hg => ?_⟩
        rcases hscan.inside _ ih.1 with ht | hb
        · have hw : White m₂ _ := ht.resolve_left ih.2
          exact ((hscan.whiteChild _ _ hw hc).resolve_right (by simp)) hg
        · have hb' := (hscan.blackChild _ _ ih.1 hb hc).resolve_right (by simp)
          exact absurd (hg.symm.trans hb') (by decide)
    exact hpath.2 hx
  have htent : ∀ x, Tentative m₂ x ↔ White m₂ x := fun x => or_iff_right (hnoGray x)
  -- collecting
  have hgather₀ : GatherInv children (White m₂) m₂ ⟨m₂, [], []⟩ [] :=
    ⟨fun _ => rfl, fun _ h => h, fun _ => Iff.rfl, fun _ => .inl rfl, by simp, by simp,
      List.nodup_nil, by simp⟩
  obtain ⟨hgather, hseen⟩ := hgather₀.collectRoots hfresh roots
  generalize roots.foldl (collectWhite n children) ⟨m₂, [], []⟩ = g at hgather hseen
  have hstrong : ∀ x, (m₂ x).strong = (m x).strong := fun x =>
    (hscan.strong x).trans (hmark.strong x)
  -- all white objects are seen: the path from a root to a white object is white
  have hout : ∀ x, x ∈ g.out ↔ White m₂ x := by
    refine fun x => ⟨fun hx => ((hgather.out x).mp hx).2, fun hx => (hgather.out x).mpr ⟨?_, hx⟩⟩
    obtain ⟨r, hr, hrx⟩ := (hreach x).mp (hscan.tentative hG (.inr hx))
    have hpath : Gray m₁ x ∧ (White m₂ x → x ∈ g.seen) := by
      clear hx
      induction hrx with
      | refl => exact ⟨hcand r (.inr hr), fun _ => hseen r (.inr hr.1)⟩
      | @tail p c hrp hc ih =>
        refine ⟨hmark.closed hfresh ih.1 hc, fun hcw => ?_⟩
        rcases hscan.inside p ih.1 with ht | hb
        · have hw : White m₂ p := (htent p).mp ht
          exact (hgather.closed p (ih.2 hw) hw c hc).resolve_right (by simp)
        · have hb' := (hscan.blackChild p c ih.1 hb hc).resolve_right (by simp)
          exact absurd (hcw.symm.trans hb') (by decide)
    exact hpath.2 hx
  refine ⟨fun x => ?_, fun x hx => ?_, hgather.nodup, fun x hx => ?_, fun x hb => ?_,
    fun x hx hxo => ?_, fun r x hr hrx hx => ?_⟩
  · exact (hgather.strong x).trans (hstrong x)
  · have hw := (hout x).mp hx
    have hzero := (hscan.white x hw).resolve_right (by simp)
    have hbal := hscan.balance x (hscan.tentative hG (.inr hw))
    rw [hzero, Nat.zero_add, hmark.strong x] at hbal
    rw [← hbal]
    exact inFrom_congr fun p => (htent p).trans (hout p).symm
  · rcases hgather.color x with hc | hb
    · have hw : ¬ White m₂ x := fun hw => hx ((hout x).mpr hw)
      have hg := hnoGray x
      unfold White at hw
      unfold Gray at hg
      rw [hc]
      cases hcol : (m₂ x).color with
      | black => exact .inl rfl
      | purple => exact .inr rfl
      | gray => exact absurd hcol hg
      | white => exact absurd hcol hw
    · exact .inl hb
  · rw [← hmark.buffered x]
    exact hscan.buffered x (hgather.buffered x hb)
  · exact hgather.unbuffered x (hseen x (.inr hx)) fun hw => hxo ((hout x).mpr hw)
  · have hxG : Gray m₁ x := (hreach x).mpr ⟨r, hr, hrx⟩
    have hb : Black m₂ x := (hscan.inside x hxG).resolve_left fun ht =>
      hx ((hout x).mpr ((htent x).mp ht))
    obtain ⟨y, hy, hlt, hyx⟩ := hscan.anchored x hxG (.inl hb)
    refine ⟨y, (hreach y).mp hy, hyx, ?_⟩
    rw [← hmark.strong y]
    rwa [← inFrom_congr hreach]

end Trial

end Corvid.Vm
