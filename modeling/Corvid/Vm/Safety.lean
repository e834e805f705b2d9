import Corvid.Vm.Heap
import Corvid.Vm.Trial
import Mathlib.Algebra.BigOperators.Ring.Finset

/-!
# Collections free garbage only

In every reachable state the count of an object is at least the number of its counted references.
A condemned object has no more references from condemned objects than its count, so it has no
other references at all, and nothing outside of the condemned part leads into it.

## Main definitions

* `Machine.Sound`: the invariant of all runs
* `Machine.Live`: the objects that the program can reach

## Main results

* `Reachable.sound`: every reachable state is sound
* `not_live_of_condemned`: a collection frees no live object
-/

namespace Corvid.Vm

open Relation

section Counts

variable {y : ℕ}

theorem Slots.children_sublist_refs (slots : Slots) :
    slots.children.Sublist slots.refs := by
  induction slots with
  | nil => exact List.Sublist.slnil
  | cons s slots ih =>
    obtain ⟨f, v⟩ := s
    cases v with
    | scalar => exact ih
    | ref x => exact ih.cons_cons x
    | container held => exact ih.trans (List.sublist_append_right held _)

/-- An insertion moves the new value in and the old one out. -/
theorem Slots.count_refs_insert (field : String) (v : Value) (slots : Slots) :
    (slots.insert field v).1.refs.count y + (slots.insert field v).2.refs.count y =
      slots.refs.count y + v.refs.count y := by
  induction slots with
  | nil => simp [Slots.insert, Slots.refs, Value.refs]
  | cons s slots ih =>
    obtain ⟨f, old⟩ := s
    rw [Slots.insert]
    split
    · simp only [Slots.refs, List.flatMap_cons, List.count_append]
      omega
    · simp only [Slots.refs, List.flatMap_cons, List.count_append] at ih ⊢
      omega

theorem count_diff_add {xs ys : List ℕ} (h : xs.Subperm ys) :
    (ys.diff xs).count y + xs.count y = ys.count y := by
  have := h.count_le y
  rw [List.count_diff]
  omega

theorem Task.count_release (xs : List ℕ) :
    (xs.map Task.release).count (.release y) = xs.count y :=
  List.count_map_of_injective xs _ (fun _ _ h => Task.release.inj h) y

theorem Task.count_release_discard (xs : List ℕ) :
    (xs.map Task.discard).count (.release y) = 0 := by
  simp [List.count_eq_zero]

end Counts

namespace Heap

variable {h : Heap} {x : ℕ}

theorem refs_of_payload_none (hx : h.payload x = none) : h.refs x = [] := by
  simp [refs, slots, hx, Slots.refs]

theorem children_of_payload_none (hx : h.payload x = none) : h.children x = [] := by
  simp [children, slots, hx, Slots.children]

theorem count_children_le (x y : ℕ) : (h.children x).count y ≤ (h.refs x).count y :=
  (Slots.children_sublist_refs _).count_le y

theorem refs_setPayload_self (payload : Option Slots) :
    (h.setPayload x payload).refs x = Slots.refs (payload.getD []) := by
  simp [refs, slots, setPayload]

theorem refs_setPayload_of_ne {p : ℕ} (payload : Option Slots) (hp : p ≠ x) :
    (h.setPayload x payload).refs p = h.refs p := by
  simp [refs, slots, setPayload, hp]

/-- A new payload adds its own references and takes away those of the old one. -/
theorem total_setPayload (φ : List ℕ → ℕ) {p : Option Slots}
    (hx : h.size ≤ x → h.payload x = none ∧ p = none) :
    (h.setPayload x p).total φ + φ (h.refs x) = h.total φ + φ (Slots.refs (p.getD [])) := by
  have hrest : ∀ q ∈ (Finset.range h.size).erase x,
      φ ((h.setPayload x p).refs q) = φ (h.refs q) := fun q hq => by
    rw [refs_setPayload_of_ne p (Finset.ne_of_mem_erase hq)]
  have hsize : (h.setPayload x p).size = h.size := rfl
  by_cases hn : x ∈ Finset.range h.size
  · rw [total, total, hsize, ← Finset.sum_erase_add _ _ hn, ← Finset.sum_erase_add _ _ hn,
      Finset.sum_congr rfl hrest, refs_setPayload_self]
    omega
  · obtain ⟨hold, rfl⟩ := hx (by simpa using hn)
    rw [Finset.erase_eq_of_notMem hn] at hrest
    rw [total, total, hsize, Finset.sum_congr rfl hrest, refs_of_payload_none hold]
    rfl

theorem inRefs_setPayload {p : Option Slots}
    (hx : h.size ≤ x → h.payload x = none ∧ p = none) (y : ℕ) :
    (h.setPayload x p).inRefs y + (h.refs x).count y =
      h.inRefs y + (Slots.refs (p.getD [])).count y :=
  total_setPayload (List.count y) hx

theorem count_refs_le_inRefs {p : ℕ} (hp : p < h.size) (y : ℕ) :
    (h.refs p).count y ≤ h.inRefs y :=
  Finset.single_le_sum (f := fun p => (h.refs p).count y) (fun _ _ => Nat.zero_le _)
    (Finset.mem_range.mpr hp)

theorem retain_field {α : Type*} (φ : HeapMeta → α) (hφ : ∀ o, φ o.retain = φ o) (xs : List ℕ)
    (y : ℕ) : φ ((h.retain xs).metas y) = φ (h.metas y) := by
  show φ (xs.foldl (fun m x => m.modify x HeapMeta.retain) h.metas y) = _
  induction xs generalizing h with
  | nil => rfl
  | cons x xs ih =>
    rw [List.foldl_cons]
    exact (ih (h := h.modify x HeapMeta.retain)).trans (Metas.modify_field φ (hφ _) y)

theorem retain_strong (xs : List ℕ) (y : ℕ) :
    ((h.retain xs).metas y).strong = (h.metas y).strong + xs.count y := by
  show (xs.foldl (fun m x => m.modify x HeapMeta.retain) h.metas y).strong = _
  induction xs generalizing h with
  | nil => rfl
  | cons x xs ih =>
    rw [List.foldl_cons]
    refine (ih (h := h.modify x HeapMeta.retain)).trans ?_
    show (h.metas.modify x HeapMeta.retain y).strong + _ = _
    by_cases hy : y = x
    · subst hy
      rw [Metas.modify_self, List.count_cons_self]
      show (h.metas y).strong + 1 + _ = _
      omega
    · rw [Metas.modify_of_ne _ hy, List.count_cons_of_ne (Ne.symm hy)]

end Heap

namespace Machine

/-- The counts and the counted references change by the same amounts. -/
def Balanced (m m' : Machine) : Prop :=
  ∀ y, m'.owed y + (m.heap.metas y).strong = m.owed y + (m'.heap.metas y).strong

/-- The counts cover all counted references, no traversal is in progress, and the objects that are
not allocated yet have neither. -/
structure Sound (m : Machine) : Prop where
  counted : ∀ x, m.owed x ≤ (m.heap.metas x).strong
  color : ∀ x, (m.heap.metas x).color = .black ∨ (m.heap.metas x).color = .purple
  fresh : ∀ x, m.heap.size ≤ x → (m.heap.metas x).strong = 0 ∧ m.heap.payload x = none

variable {m m' : Machine} {x : ℕ}

theorem sound_init : init.Sound := by
  refine ⟨fun x => ?_, fun x => .inl rfl, fun x _ => ⟨rfl, rfl⟩⟩
  exact Nat.le_of_eq rfl

theorem Sound.lt_of_strong (h : m.Sound) (hx : (m.heap.metas x).strong ≠ 0) : x < m.heap.size :=
  Nat.lt_of_not_le fun hn => hx (h.fresh x hn).1

theorem Sound.lt_of_owed (h : m.Sound) (hx : 0 < m.owed x) : x < m.heap.size := by
  have := h.counted x
  exact h.lt_of_strong (by omega)

theorem Sound.lt_of_payload (h : m.Sound) (hx : m.heap.payload x ≠ none) : x < m.heap.size :=
  Nat.lt_of_not_le fun hn => hx (h.fresh x hn).2

theorem Sound.lt_of_mem_handles (h : m.Sound) (hx : x ∈ m.handles) : x < m.heap.size := by
  have := List.count_pos_iff.mpr hx
  refine h.lt_of_owed ?_
  unfold owed
  omega

/-- Only allocated objects have references, and only to allocated objects. -/
theorem Sound.lt_of_mem_refs (h : m.Sound) {p : ℕ} (hx : x ∈ m.heap.refs p) :
    p < m.heap.size ∧ x < m.heap.size := by
  have hp : p < m.heap.size := by
    refine h.lt_of_payload fun hn => ?_
    rw [Heap.refs_of_payload_none hn] at hx
    cases hx
  have hcount := (List.count_pos_iff.mpr hx).trans_le (Heap.count_refs_le_inRefs hp x)
  refine ⟨hp, h.lt_of_owed ?_⟩
  unfold owed
  omega

theorem Sound.of_balanced (h : m.Sound) (hb : m.Balanced m')
    (hcolor : ∀ x, (m'.heap.metas x).color = .black ∨ (m'.heap.metas x).color = .purple)
    (hfresh : ∀ x, m'.heap.size ≤ x →
      (m'.heap.metas x).strong = 0 ∧ m'.heap.payload x = none) : m'.Sound := by
  refine ⟨fun x => ?_, hcolor, hfresh⟩
  have hx := hb x
  have := h.counted x
  omega

section Operations

theorem Sound.balanced_alloc (h : m.Sound) {slots : Slots} (hs : m.movable slots.refs) :
    m.Balanced (m.alloc slots) := by
  intro y
  have hdiff := count_diff_add (y := y) hs
  have hrefs : ∀ p, p ≠ m.heap.size → (m.alloc slots).heap.refs p = m.heap.refs p := fun p hp => by
    simp [alloc, Heap.refs, Heap.slots, hp]
  have hnew : (m.alloc slots).heap.refs m.heap.size = slots.refs := by
    simp [alloc, Heap.refs, Heap.slots]
  have hin : (m.alloc slots).heap.inRefs y = m.heap.inRefs y + slots.refs.count y := by
    show ∑ p ∈ Finset.range (m.heap.size + 1), _ = _
    rw [Finset.sum_range_succ, hnew]
    refine congrArg (· + _) (Finset.sum_congr rfl fun p hp => ?_)
    rw [hrefs p (Finset.mem_range.mp hp).ne]
  by_cases hy : y = m.heap.size
  · have hstrong : ((m.alloc slots).heap.metas y).strong = 1 := by
      rw [hy]
      show (Function.update m.heap.metas m.heap.size HeapMeta.new m.heap.size).strong = 1
      rw [Function.update_self]
      rfl
    have hhandles : (m.alloc slots).handles.count y = (m.handles.diff slots.refs).count y + 1 := by
      rw [hy]
      exact List.count_cons_self
    have hzero := (h.fresh y hy.ge).1
    rw [hstrong, hzero, owed, owed, hhandles, hin]
    show _ + m.tasks.count (.release y) + _ + 0 = _
    omega
  · have hstrong : ((m.alloc slots).heap.metas y).strong = (m.heap.metas y).strong := by
      show (Function.update m.heap.metas m.heap.size HeapMeta.new y).strong = _
      rw [Function.update_of_ne hy]
    have hhandles : (m.alloc slots).handles.count y = (m.handles.diff slots.refs).count y :=
      List.count_cons_of_ne (Ne.symm hy)
    rw [hstrong, owed, owed, hhandles, hin]
    show _ + m.tasks.count (.release y) + _ + _ = _
    omega

theorem balanced_acquire (xs : List ℕ) : m.Balanced (m.acquire xs) := by
  intro y
  have hhandles : (m.acquire xs).handles.count y = xs.count y + m.handles.count y :=
    List.count_append
  have hstrong := Heap.retain_strong (h := m.heap) xs y
  rw [owed, owed, hhandles]
  show _ + m.tasks.count (.release y) + m.heap.inRefs y + _ =
    _ + ((m.heap.retain xs).metas y).strong
  omega

theorem balanced_dropHandle (hx : x ∈ m.handles) : m.Balanced (m.dropHandle x) := by
  intro y
  show (m.handles.erase x).count y + (Task.release x :: m.tasks).count (.release y) +
    m.heap.inRefs y + _ = _
  unfold owed
  show _ = _ + (m.heap.metas y).strong
  by_cases hy : x = y
  · subst hy
    have := List.count_pos_iff.mpr hx
    rw [List.count_erase_self, List.count_cons_self]
    omega
  · rw [List.count_erase_of_ne (Ne.symm hy), List.count_cons_of_ne (fun h => hy (by cases h; rfl))]

theorem Sound.balanced_setField (h : m.Sound) {slots : Slots} {field : String} {v : Value}
    (hv : m.movable v.refs) (hx : m.heap.payload x = some slots) :
    m.Balanced (m.setField x slots field v) := by
  intro y
  have hlt : x < m.heap.size := h.lt_of_payload (by simp [hx])
  have hdiff := count_diff_add (y := y) hv
  have hinsert := Slots.count_refs_insert (y := y) field v slots
  have hin := Heap.inRefs_setPayload (p := some (slots.insert field v).1)
    (fun hn => absurd hlt (Nat.not_lt.mpr hn)) y
  have hold : m.heap.refs x = slots.refs := by simp [Heap.refs, Heap.slots, hx]
  rw [hold, Option.getD_some] at hin
  show (m.handles.diff v.refs).count y +
    ((slots.insert field v).2.refs.map Task.release ++ m.tasks).count (.release y) +
      (m.heap.setPayload x (some (slots.insert field v).1)).inRefs y + _ = _
  rw [List.count_append, Task.count_release, owed]
  show _ = _ + (m.heap.metas y).strong
  omega

theorem Sound.balanced_rehash (h : m.Sound) {slots slots' : Slots}
    (hx : m.heap.payload x = some slots) (hperm : slots.Perm slots') :
    m.Balanced { m with heap := m.heap.setPayload x (some slots') } := by
  intro y
  have hlt : x < m.heap.size := h.lt_of_payload (by simp [hx])
  have hin := Heap.inRefs_setPayload (p := some slots')
    (fun hn => absurd hlt (Nat.not_lt.mpr hn)) y
  have hold : m.heap.refs x = slots.refs := by simp [Heap.refs, Heap.slots, hx]
  have hcount : slots.refs.count y = slots'.refs.count y :=
    (hperm.flatMap_right _).count_eq y
  rw [hold, Option.getD_some] at hin
  show m.handles.count y + m.tasks.count (.release y) +
    (m.heap.setPayload x (some slots')).inRefs y + _ = _
  unfold owed
  show _ = _ + (m.heap.metas y).strong
  omega

end Operations

section Drops

variable {rest : List Task}

theorem Sound.strong_pos_of_release (h : m.Sound) (ht : m.tasks = .release x :: rest) :
    0 < (m.heap.metas x).strong := by
  have hx := h.counted x
  rw [owed, ht, List.count_cons_self] at hx
  omega

theorem releaseObject_strong (y : ℕ) :
    ((m.releaseObject x rest).heap.metas y).strong =
      (m.heap.metas y).strong - if y = x then 1 else 0 := by
  have hmodify : ∀ f : HeapMeta → HeapMeta, (∀ o, (f o).strong = o.strong - 1) →
      (m.heap.metas.modify x f y).strong = (m.heap.metas y).strong - if y = x then 1 else 0 := by
    intro f hf
    by_cases hy : y = x
    · rw [hy, Metas.modify_self, hf, if_pos rfl]
    · rw [Metas.modify_of_ne f hy, if_neg hy, Nat.sub_zero]
  unfold releaseObject
  split
  · exact hmodify _ fun _ => rfl
  · split
    · exact hmodify _ fun _ => rfl
    · exact hmodify _ fun _ => rfl

/-- The references of a freed payload turn into releases. -/
theorem Sound.releaseObject_owed (h : m.Sound) (ht : m.tasks = .release x :: rest) (y : ℕ) :
    (m.releaseObject x rest).owed y + (if y = x then 1 else 0) = m.owed y := by
  have htasks : m.tasks.count (.release y) = rest.count (.release y) + if y = x then 1 else 0 := by
    rw [ht]
    by_cases hy : y = x
    · rw [hy, List.count_cons_self, if_pos rfl]
    · rw [List.count_cons_of_ne (fun h => hy (by cases h; rfl)), if_neg hy, Nat.add_zero]
  have hin := Heap.inRefs_setPayload (h := m.heap) (x := x) (p := none)
    (fun hn => ⟨(h.fresh x hn).2, rfl⟩) y
  unfold releaseObject
  split
  · show m.handles.count y + ((m.heap.refs x).map Task.release ++ .dropArc x :: rest).count
      (.release y) + (m.heap.setPayload x none).inRefs y + _ = _
    rw [List.count_append, Task.count_release, List.count_cons_of_ne (by simp), owed, htasks]
    have hnil : (Slots.refs (Option.getD none [])).count y = 0 := rfl
    omega
  · split
    all_goals
      show m.handles.count y + (Task.autoCollect :: .dropArc x :: rest).count (.release y) +
        m.heap.inRefs y + _ = _
      rw [List.count_cons_of_ne (by simp), List.count_cons_of_ne (by simp), owed, htasks]
      omega

variable (m x rest) in
theorem releaseObject_color (y : ℕ) :
    ((m.releaseObject x rest).heap.metas y).color = (m.heap.metas y).color ∨
      ((m.releaseObject x rest).heap.metas y).color = .black ∨
      ((m.releaseObject x rest).heap.metas y).color = .purple := by
  have hmodify : ∀ (f : HeapMeta → HeapMeta) (c : Color), (∀ o, (f o).color = c) →
      (m.heap.metas.modify x f y).color = (m.heap.metas y).color ∨
        (m.heap.metas.modify x f y).color = c := by
    intro f c hf
    by_cases hy : y = x
    · rw [hy, Metas.modify_self, hf]
      exact .inr rfl
    · rw [Metas.modify_of_ne f hy]
      exact .inl rfl
  unfold releaseObject
  split
  · exact (hmodify _ .black fun _ => rfl).imp_right .inl
  · split
    · exact .inl (Metas.modify_field HeapMeta.color rfl y)
    · exact (hmodify _ .purple fun _ => rfl).imp_right .inr

theorem releaseObject_size : (m.releaseObject x rest).heap.size = m.heap.size := by
  unfold releaseObject
  split
  · rfl
  · split <;> rfl

/-- A release frees at most the payload of its object. -/
theorem releaseObject_payload (y : ℕ) :
    (m.releaseObject x rest).heap.payload y =
      if y = x ∧ (m.heap.metas x).strong = 1 then none else m.heap.payload y := by
  unfold releaseObject
  split
  next hone =>
    by_cases hy : y = x
    · subst hy
      simp [Heap.setPayload, hone]
    · simp [Heap.setPayload, Heap.modify, hy]
  next hone =>
    have hcond : ¬ (y = x ∧ (m.heap.metas x).strong = 1) := fun h => hone h.2
    rw [if_neg hcond]
    split <;> rfl

theorem Sound.balanced_releaseObject (h : m.Sound) (ht : m.tasks = .release x :: rest) :
    m.Balanced (m.releaseObject x rest) := by
  intro y
  have hpos := h.strong_pos_of_release ht
  have howed := h.releaseObject_owed ht y
  rw [releaseObject_strong]
  by_cases hy : y = x
  · subst hy
    rw [if_pos rfl] at howed ⊢
    omega
  · rw [if_neg hy] at howed ⊢
    omega

theorem Sound.releaseObject (h : m.Sound) (ht : m.tasks = .release x :: rest) :
    (m.releaseObject x rest).Sound := by
  refine h.of_balanced (h.balanced_releaseObject ht) (fun y => ?_) fun y hy => ?_
  · rcases releaseObject_color m x rest y with hc | hc
    · rw [hc]
      exact h.color y
    · exact hc
  · rw [releaseObject_size] at hy
    obtain ⟨hstrong, hpayload⟩ := h.fresh y hy
    rw [releaseObject_strong, releaseObject_payload, hstrong, hpayload]
    exact ⟨Nat.zero_sub _, ite_self _⟩

theorem giveUp_metas (drop : ℕ → Task) : (m.giveUp x drop rest).heap.metas = m.heap.metas := by
  unfold giveUp
  split <;> rfl

theorem giveUp_size (drop : ℕ → Task) : (m.giveUp x drop rest).heap.size = m.heap.size := by
  unfold giveUp
  split <;> rfl

variable (m x rest) in
/-- Payloads are dropped with their allocations only. -/
theorem giveUp_payload (drop : ℕ → Task) (y : ℕ) :
    (m.giveUp x drop rest).heap.payload y = m.heap.payload y ∨
      (m.giveUp x drop rest).heap.payload y = none := by
  unfold giveUp
  split
  · by_cases hy : y = x
    · subst hy
      exact .inr (Function.update_self y _ _)
    · exact .inl (Function.update_of_ne hy _ _)
  · exact .inl rfl

theorem Sound.giveUp_owed (h : m.Sound) {t : Task} {drop : ℕ → Task}
    (ht : m.tasks = t :: rest) (hne : ∀ y, t ≠ .release y) (y : ℕ)
    (hdrop : ((m.heap.refs x).map drop).count (.release y) ≤ (m.heap.refs x).count y) :
    (m.giveUp x drop rest).owed y ≤ m.owed y := by
  have htasks : m.tasks.count (.release y) = rest.count (.release y) := by
    rw [ht, List.count_cons_of_ne (hne y)]
  have hin := Heap.inRefs_setPayload (h := m.heap) (x := x) (p := none)
    (fun hn => ⟨(h.fresh x hn).2, rfl⟩) y
  have hnil : (Slots.refs (Option.getD none [])).count y = 0 := rfl
  unfold giveUp
  split
  · show m.handles.count y + ((m.heap.refs x).map drop ++ rest).count (.release y) +
      (m.heap.setPayload x none).inRefs y ≤ _
    rw [List.count_append, owed, htasks]
    omega
  · show m.handles.count y + rest.count (.release y) + m.heap.inRefs y ≤ _
    rw [owed, htasks]

theorem Sound.giveUp (h : m.Sound) {t : Task} {drop : ℕ → Task} (ht : m.tasks = t :: rest)
    (hne : ∀ y, t ≠ .release y) (hdrop : ∀ y,
      ((m.heap.refs x).map drop).count (.release y) ≤ (m.heap.refs x).count y) :
    (m.giveUp x drop rest).Sound := by
  refine ⟨fun y => ?_, fun y => ?_, fun y hy => ?_⟩
  · rw [giveUp_metas]
    exact (h.giveUp_owed ht hne y (hdrop y)).trans (h.counted y)
  · rw [giveUp_metas]
    exact h.color y
  · rw [giveUp_size] at hy
    rw [giveUp_metas]
    refine ⟨(h.fresh y hy).1, ?_⟩
    rcases giveUp_payload m x rest drop y with hp | hp
    · rw [hp]
      exact (h.fresh y hy).2
    · exact hp

end Drops

section Collection

theorem foldl_prepareCollect (xs : List ℕ) (metas : Metas) (y : ℕ) :
    xs.foldl (fun metas x => metas.modify x HeapMeta.prepareCollect) metas y =
      if y ∈ xs then ⟨0, 0, .black, false⟩ else metas y := by
  induction xs generalizing metas with
  | nil => rfl
  | cons x xs ih =>
    rw [List.foldl_cons, ih]
    by_cases hx : y ∈ xs
    · rw [if_pos hx, if_pos (List.mem_cons_of_mem x hx)]
    · rw [if_neg hx]
      by_cases hyx : y = x
      · rw [hyx, Metas.modify_self, if_pos List.mem_cons_self]
        rfl
      · rw [Metas.modify_of_ne _ hyx, if_neg (by simp [hx, hyx])]

theorem collectCycles_metas (y : ℕ) :
    m.collectCycles.heap.metas y =
      if y ∈ m.condemned then ⟨0, 0, .black, false⟩ else m.trial.metas y :=
  foldl_prepareCollect m.condemned m.trial.metas y

/-- A quantity of the references in payloads that are freed. -/
def lost (m : Machine) (φ : List ℕ → ℕ) : ℕ :=
  ∑ p ∈ Finset.range m.heap.size, if p ∈ m.condemned then φ (m.heap.refs p) else 0

theorem collectCycles_refs (p : ℕ) :
    m.collectCycles.heap.refs p = if p ∈ m.condemned then [] else m.heap.refs p := by
  show Slots.refs ((if p ∈ m.condemned then none else m.heap.payload p).getD []) = _
  split <;> rfl

theorem collectCycles_total (φ : List ℕ → ℕ) (hφ : φ [] = 0) :
    m.collectCycles.heap.total φ + m.lost φ = m.heap.total φ := by
  rw [Heap.total, Heap.total, lost]
  show (∑ p ∈ Finset.range m.heap.size, _) + _ = _
  rw [← Finset.sum_add_distrib]
  refine Finset.sum_congr rfl fun p _ => ?_
  rw [collectCycles_refs]
  split
  · rw [hφ, Nat.zero_add]
  · rw [Nat.add_zero]

/-- The references that a collection loses are no longer owed. -/
theorem collectCycles_owed (y : ℕ) :
    m.collectCycles.owed y + m.lost (List.count y) = m.owed y := by
  have hin : m.collectCycles.heap.inRefs y + _ = m.heap.inRefs y :=
    collectCycles_total (List.count y) rfl
  show m.handles.count y + ((m.condemned.flatMap m.heap.refs).map Task.discard ++ m.tasks).count
    (.release y) + m.collectCycles.heap.inRefs y + _ = _
  rw [List.count_append, Task.count_release_discard, owed]
  omega

theorem Sound.trial_spec (h : m.Sound) :
    TrialSpec m.heap.size m.heap.children m.heap.metas (m.roots.filter fun r => 0 < m.arcs r)
      m.trial := by
  refine Vm.trial_spec (fun x hx => Heap.children_of_payload_none (h.fresh x hx).2) (fun x => ?_)
    h.color _
  have hle : inFrom m.heap.size m.heap.children (fun _ => True) x ≤ m.heap.inRefs x := by
    refine Finset.sum_le_sum fun p _ => ?_
    rw [if_pos trivial]
    exact Heap.count_children_le p x
  have hcount := h.counted x
  unfold owed at hcount
  exact hle.trans (by omega)

/-- A condemned object has as many references from condemned objects as its count says, so it has no
others. -/
theorem Sound.collectCycles_owed_condemned (h : m.Sound) (hx : x ∈ m.condemned) :
    m.collectCycles.owed x = 0 := by
  have hcount := h.trial_spec.condemned x hx
  have hle : inFrom m.heap.size m.heap.children (· ∈ m.trial.out) x ≤ m.lost (List.count x) := by
    refine Finset.sum_le_sum fun p _ => ?_
    by_cases hp : p ∈ m.condemned
    · have hp' : p ∈ m.trial.out := hp
      rw [if_pos hp', if_pos hp]
      exact Heap.count_children_le p x
    · have hp' : p ∉ m.trial.out := hp
      rw [if_neg hp', if_neg hp]
  have howed := collectCycles_owed (m := m) x
  have hsound := h.counted x
  omega

theorem Sound.collectCycles (h : m.Sound) : m.collectCycles.Sound := by
  refine ⟨fun y => ?_, fun y => ?_, fun y hy => ?_⟩
  · rw [collectCycles_metas]
    split
    next hy => exact (h.collectCycles_owed_condemned hy).le
    next hy =>
      have howed := collectCycles_owed (m := m) y
      have hsound := h.counted y
      rw [h.trial_spec.strong y]
      omega
  · rw [collectCycles_metas]
    split
    next => exact .inl rfl
    next hy => exact h.trial_spec.color y hy
  · obtain ⟨hstrong, hpayload⟩ := h.fresh y hy
    rw [collectCycles_metas]
    refine ⟨?_, ?_⟩
    · split
      · rfl
      · exact (h.trial_spec.strong y).trans hstrong
    · show (if y ∈ m.condemned then none else m.heap.payload y) = none
      rw [hpayload, ite_self]

end Collection

/-- What an operation other than a collection does. -/
inductive Change (m : Machine) : Machine → Prop
  | alloc {slots : Slots} : m.movable slots.refs → Change m (m.alloc slots)
  | acquire {xs : List ℕ} : (∀ x ∈ xs, (m.heap.metas x).strong ≠ 0) → Change m (m.acquire xs)
  | drop {x : ℕ} : x ∈ m.handles → Change m (m.dropHandle x)
  | setField {x : ℕ} {slots : Slots} {field : String} {v : Value} : m.movable v.refs →
      x ∈ m.handles.diff v.refs → m.heap.payload x = some slots →
      Change m (m.setField x slots field v)
  | rehash {x : ℕ} {slots slots' : Slots} : m.heap.payload x = some slots → slots.Perm slots' →
      Change m { m with heap := m.heap.setPayload x (some slots') }
  | stay : Change m m

theorem Sound.strong_of_mem_handles (h : m.Sound) (hx : x ∈ m.handles) :
    (m.heap.metas x).strong ≠ 0 := by
  have hpos := List.count_pos_iff.mpr hx
  have hcount := h.counted x
  unfold owed at hcount
  omega

theorem Sound.strong_of_mem_refs (h : m.Sound) {p : ℕ} (hx : x ∈ m.heap.refs p) :
    (m.heap.metas x).strong ≠ 0 := by
  have hpos := (List.count_pos_iff.mpr hx).trans_le
    (Heap.count_refs_le_inRefs (h.lt_of_mem_refs hx).1 x)
  have hcount := h.counted x
  unfold owed at hcount
  omega

/-- Every operation is a collection or one of the changes. -/
theorem Sound.apply_cases (h : m.Sound) {op : Op} (hop : m.apply op = some m') :
    (op = .collect ∧ m' = m.collectCycles) ∨ Change m m' := by
  cases op with
  | alloc slots =>
    obtain ⟨hs, heq⟩ := Option.ite_none_right_eq_some.mp hop
    cases heq
    exact .inr (.alloc hs)
  | clone x =>
    obtain ⟨hx, heq⟩ := Option.ite_none_right_eq_some.mp hop
    cases heq
    refine .inr (.acquire fun y hy => ?_)
    rw [List.mem_singleton.mp hy]
    exact h.strong_of_mem_handles hx
  | read p i =>
    obtain ⟨hp, heq⟩ := Option.ite_none_right_eq_some.mp hop
    obtain ⟨s, hs, rfl⟩ := Option.map_eq_some_iff.mp heq
    refine .inr (.acquire fun y hy => h.strong_of_mem_refs (p := p) ?_)
    exact List.mem_flatMap.mpr ⟨s, List.mem_of_getElem? hs, hy⟩
  | drop x =>
    obtain ⟨hx, heq⟩ := Option.ite_none_right_eq_some.mp hop
    cases heq
    exact .inr (.drop hx)
  | setField x field v =>
    obtain ⟨⟨hv, hx⟩, heq⟩ := Option.ite_none_right_eq_some.mp hop
    obtain ⟨slots, hslots, rfl⟩ := Option.map_eq_some_iff.mp heq
    exact .inr (.setField hv hx hslots)
  | rehash x slots =>
    obtain ⟨hx, heq⟩ := Option.ite_none_right_eq_some.mp hop
    cases heq
    obtain ⟨slots', hslots, hperm⟩ := (Option.any_eq_true _ _).mp hx
    exact .inr (.rehash hslots (List.isPerm_iff.mp hperm))
  | upgrade x =>
    rw [Machine.apply] at hop
    split at hop
    next hx =>
      cases hop
      refine .inr (.acquire fun y hy => ?_)
      rw [List.mem_singleton.mp hy]
      exact hx.2
    next =>
      cases hop
      exact .inr .stay
  | collect =>
    cases hop
    exact .inl ⟨rfl, rfl⟩

theorem Sound.balanced (h : m.Sound) (hc : Change m m') : m.Balanced m' := by
  cases hc with
  | alloc hs => exact h.balanced_alloc hs
  | acquire => exact balanced_acquire _
  | drop hx => exact balanced_dropHandle hx
  | setField hv _ hslots => exact h.balanced_setField hv hslots
  | rehash hslots hperm => exact h.balanced_rehash hslots hperm
  | stay => exact fun _ => rfl

/-- New objects are black, and the operations change no colors otherwise. -/
theorem Change.color (hc : Change m m') (y : ℕ) :
    (m'.heap.metas y).color = (m.heap.metas y).color ∨ (m'.heap.metas y).color = .black := by
  cases hc with
  | @alloc slots =>
    show (Function.update m.heap.metas m.heap.size HeapMeta.new y).color = _ ∨
      (Function.update m.heap.metas m.heap.size HeapMeta.new y).color = _
    by_cases hy : y = m.heap.size
    · rw [hy, Function.update_self]
      exact .inr rfl
    · rw [Function.update_of_ne hy]
      exact .inl rfl
  | acquire => exact .inl (Heap.retain_field HeapMeta.color (fun _ => rfl) _ y)
  | drop | setField | rehash | stay => exact .inl rfl

theorem Change.size_le (hc : Change m m') : m.heap.size ≤ m'.heap.size := by
  cases hc with
  | alloc => exact Nat.le_succ _
  | acquire | drop | setField | rehash | stay => exact le_rfl

theorem Sound.fresh_change (h : m.Sound) (hc : Change m m') {y : ℕ} (hy : m'.heap.size ≤ y) :
    (m'.heap.metas y).strong = 0 ∧ m'.heap.payload y = none := by
  obtain ⟨hstrong, hpayload⟩ := h.fresh y (hc.size_le.trans hy)
  cases hc with
  | @alloc slots =>
    have hne : y ≠ m.heap.size := (Nat.lt_of_succ_le hy).ne'
    show (Function.update m.heap.metas m.heap.size HeapMeta.new y).strong = 0 ∧
      Function.update m.heap.payload m.heap.size (some slots) y = none
    rw [Function.update_of_ne hne, Function.update_of_ne hne]
    exact ⟨hstrong, hpayload⟩
  | @acquire xs hxs =>
    refine ⟨?_, hpayload⟩
    show ((m.heap.retain xs).metas y).strong = 0
    rw [Heap.retain_strong, hstrong, Nat.zero_add, List.count_eq_zero]
    exact fun hmem => hxs y hmem hstrong
  | drop | stay => exact ⟨hstrong, hpayload⟩
  | @setField x slots field v _ _ hslots =>
    have hne : y ≠ x := fun hyx => by simp [← hyx, hpayload] at hslots
    exact ⟨hstrong, (Function.update_of_ne hne _ _).trans hpayload⟩
  | @rehash x slots slots' hslots _ =>
    have hne : y ≠ x := fun hyx => by simp [← hyx, hpayload] at hslots
    exact ⟨hstrong, (Function.update_of_ne hne _ _).trans hpayload⟩

theorem Sound.change (h : m.Sound) (hc : Change m m') : m'.Sound := by
  refine h.of_balanced (h.balanced hc) (fun y => ?_) fun y hy => h.fresh_change hc hy
  rcases hc.color y with heq | hblack
  · rw [heq]
    exact h.color y
  · exact .inl hblack

theorem Sound.apply (h : m.Sound) {op : Op} (hop : m.apply op = some m') : m'.Sound := by
  rcases h.apply_cases hop with ⟨-, rfl⟩ | hc
  · exact h.collectCycles
  · exact h.change hc

/-- Pending drops other than releases do not count. -/
theorem Sound.skip (h : m.Sound) {rest : List Task} {t : Task} (ht : m.tasks = t :: rest)
    (hne : ∀ y, t ≠ .release y) : ({ m with tasks := rest } : Machine).Sound := by
  refine ⟨fun y => le_trans (Nat.le_of_eq ?_) (h.counted y), h.color, h.fresh⟩
  rw [owed, owed, ht, List.count_cons_of_ne (hne y)]

theorem Sound.stepTask (h : m.Sound) {trigger : ℕ} (hs : m.stepTask trigger = some m') :
    m'.Sound := by
  rw [Machine.stepTask] at hs
  split at hs
  next => cases hs
  next ht =>
    cases hs
    exact h.releaseObject ht
  next ht =>
    have hskip := h.skip ht (by simp)
    cases hs
    split
    next c hc =>
      rw [collecting, ht] at hc
      obtain ⟨-, heq⟩ := Option.ite_none_right_eq_some.mp hc
      cases heq
      exact hskip.collectCycles
    next => exact hskip
  next ht =>
    cases hs
    exact h.giveUp ht (by simp) fun y => (Task.count_release _).le
  next ht =>
    cases hs
    refine h.giveUp ht (by simp) fun y => ?_
    rw [Task.count_release_discard]
    exact Nat.zero_le _

section Termination

variable {rest : List Task}

theorem sum_weight_le {d : ℕ → Task} {k : ℕ} (hd : ∀ y, (d y).weight ≤ k) (xs : List ℕ) :
    ((xs.map d).map Task.weight).sum ≤ k * xs.length := by
  induction xs with
  | nil => exact Nat.zero_le _
  | cons x xs ih =>
    rw [List.map_cons, List.map_cons, List.sum_cons, List.length_cons, Nat.mul_succ]
    have := hd x
    omega

theorem total_setPayload_none (h : m.Sound) :
    (m.heap.setPayload x none).total (fun xs => 3 * xs.length) + 3 * (m.heap.refs x).length =
      m.heap.total fun xs => 3 * xs.length :=
  Heap.total_setPayload (fun xs => 3 * xs.length) fun hn => ⟨(h.fresh x hn).2, rfl⟩

theorem Sound.releaseObject_potential (h : m.Sound) (ht : m.tasks = .release x :: rest) :
    (m.releaseObject x rest).dropPotential < m.dropPotential := by
  have htotal := total_setPayload_none (x := x) h
  have hweight := sum_weight_le (d := .release) (k := 3) (fun _ => le_rfl) (m.heap.refs x)
  -- the total depends on the payloads only
  have hfree : ∀ f, ((m.heap.modify x f).setPayload x none).total (fun xs => 3 * xs.length) =
      (m.heap.setPayload x none).total fun xs => 3 * xs.length := fun _ => rfl
  have hkeep : ∀ f, (m.heap.modify x f).total (fun xs => 3 * xs.length) =
      m.heap.total fun xs => 3 * xs.length := fun _ => rfl
  simp only [dropPotential, ht, List.map_cons, List.sum_cons]
  unfold Machine.releaseObject
  split
  · simp only [List.map_append, List.sum_append, List.map_cons, List.sum_cons, Task.weight, hfree]
    omega
  · split
    all_goals
      simp only [List.map_cons, List.sum_cons, Task.weight, hkeep]
      omega

theorem Sound.giveUp_potential (h : m.Sound) {t : Task} {drop : ℕ → Task}
    (ht : m.tasks = t :: rest) (hpos : 0 < t.weight) (hdrop : ∀ y, (drop y).weight ≤ 3) :
    (m.giveUp x drop rest).dropPotential < m.dropPotential := by
  have htotal := total_setPayload_none (x := x) h
  have hweight := sum_weight_le hdrop (m.heap.refs x)
  rw [dropPotential, dropPotential, ht, List.map_cons, List.sum_cons]
  unfold Machine.giveUp
  split
  · simp only [List.map_append, List.sum_append]
    omega
  · dsimp only
    omega

/-- An object is condemned once, so every lost reference is discarded once. -/
theorem Sound.length_discarded_le (h : m.Sound) :
    (m.condemned.flatMap m.heap.refs).length ≤ m.lost List.length := by
  have hnodup : m.condemned.Nodup := h.trial_spec.nodup
  rw [List.length_flatMap, ← List.sum_toFinset _ hnodup, lost, ← Finset.sum_filter]
  refine Finset.sum_le_sum_of_ne_zero fun p hp hne => ?_
  rw [Finset.mem_filter, Finset.mem_range]
  refine ⟨?_, List.mem_toFinset.mp hp⟩
  obtain ⟨c, hc⟩ := List.exists_mem_of_length_pos (Nat.pos_of_ne_zero hne)
  exact (h.lt_of_mem_refs hc).1

theorem Sound.collectCycles_potential (h : m.Sound) :
    m.collectCycles.dropPotential ≤ m.dropPotential := by
  have hlen := h.length_discarded_le
  have htotal := collectCycles_total (m := m) (fun xs => 3 * xs.length) rfl
  have hlost : m.lost (fun xs => 3 * xs.length) = 3 * m.lost List.length := by
    rw [lost, lost, Finset.mul_sum]
    refine Finset.sum_congr rfl fun p _ => ?_
    split
    · rfl
    · rw [Nat.mul_zero]
  have hweight := sum_weight_le (d := .discard) (k := 1) (fun _ => le_rfl)
    (m.condemned.flatMap m.heap.refs)
  rw [dropPotential, dropPotential]
  show (((m.condemned.flatMap m.heap.refs).map Task.discard ++ m.tasks).map Task.weight).sum + _ ≤ _
  rw [List.map_append, List.sum_append]
  omega

/-- Every step of the drops in progress decreases the potential. -/
theorem Sound.stepTask_potential (h : m.Sound) {trigger : ℕ}
    (hs : Machine.stepTask trigger m = some m') : m'.dropPotential < m.dropPotential := by
  rw [Machine.stepTask] at hs
  split at hs
  next => cases hs
  next ht =>
    cases hs
    exact h.releaseObject_potential ht
  next rest ht =>
    have hskip : ({ m with tasks := rest } : Machine).dropPotential < m.dropPotential := by
      simp only [dropPotential, ht, List.map_cons, List.sum_cons, Task.weight]
      omega
    cases hs
    split
    next c hc =>
      rw [collecting, ht] at hc
      obtain ⟨-, heq⟩ := Option.ite_none_right_eq_some.mp hc
      cases heq
      exact (h.skip ht (by simp)).collectCycles_potential.trans_lt hskip
    next => exact hskip
  next ht =>
    cases hs
    exact h.giveUp_potential ht Nat.one_pos fun _ => le_rfl
  next ht =>
    cases hs
    exact h.giveUp_potential ht Nat.one_pos fun _ => Nat.le_of_ble_eq_true rfl

/-- The drops that an operation causes come to an end. -/
theorem Sound.drain_tasks (h : m.Sound) (trigger : ℕ) : (m.drain trigger).tasks = [] := by
  have hdone : Machine.stepTask trigger (m.drain trigger) = none :=
    Loop.exhaust_done_of_inv (I := Sound) (fun _ _ hm hs => hm.stepTask hs)
      (fun _ _ hm hs => hm.stepTask_potential hs) h
  generalize m.drain trigger = m' at hdone
  cases htasks : m'.tasks with
  | nil => rfl
  | cons t rest =>
    rw [Machine.stepTask, htasks] at hdone
    cases t <;> cases hdone

end Termination

end Machine

open Machine in
theorem Reachable.sound {P : Machine → Prop} {m : Machine} (h : Reachable P m) : m.Sound := by
  induction h with
  | init => exact sound_init
  | apply _ _ _ hop ih => exact ih.apply hop
  | task _ _ _ hs ih => exact ih.stepTask hs

theorem Reachable.drain {P : Machine → Prop} {m : Machine} {trigger : ℕ} (h : Reachable P m)
    (hP : 0 < trigger → ∀ m, P m) : Reachable P (m.drain trigger) := by
  refine Loop.exhaust_inv (fun _ _ hm hs => hm.task trigger (fun c hc => ?_) hs) h
  unfold Machine.collecting at hc
  split at hc
  · obtain ⟨htrigger, -⟩ := Option.ite_none_right_eq_some.mp hc
    exact hP htrigger.1 c
  · cases hc

/-- A sequence of operations reaches a state without drops in progress. -/
theorem Reachable.run {P : Machine → Prop} {trigger : ℕ} {ops : List Machine.Op} {m : Machine}
    (htrigger : 0 < trigger → ∀ m, P m) (hcollect : .collect ∈ ops → ∀ m, P m)
    (h : Machine.run trigger ops = some m) : Reachable P m ∧ m.tasks = [] := by
  have hfrom : ∀ m₀ : Machine, Reachable P m₀ → m₀.tasks = [] →
      ops.foldlM (fun m op => (m.apply op).map (Machine.drain trigger)) m₀ = some m →
      Reachable P m ∧ m.tasks = [] := by
    clear h
    induction ops with
    | nil =>
      intro m₀ hm₀ ht h
      cases h
      exact ⟨hm₀, ht⟩
    | cons op ops ih =>
      intro m₀ hm₀ ht h
      rw [List.foldlM_cons] at h
      obtain ⟨m₁, hm₁, h⟩ := Option.bind_eq_some_iff.mp h
      obtain ⟨m₂, hop, rfl⟩ := Option.map_eq_some_iff.mp hm₁
      have hm₂ : Reachable P m₂ :=
        hm₀.apply ht (fun heq => hcollect (by simp [heq]) m₀) hop
      exact ih (fun hmem => hcollect (List.mem_cons_of_mem op hmem)) _ (hm₂.drain htrigger)
        (hm₂.sound.drain_tasks trigger) h
  exact hfrom .init .init rfl h

/-- Paths through the references in payloads. -/
abbrev Heap.Path (h : Heap) : ℕ → ℕ → Prop := ReflTransGen fun p c => c ∈ h.refs p

/-- The program holds a handle to `a`, or has a value in its hands that it is about to release. -/
def Machine.Held (m : Machine) (a : ℕ) : Prop := a ∈ m.handles ∨ .release a ∈ m.tasks

/-- The objects that can be reached from handles outside of the heap. -/
def Machine.Live (m : Machine) (x : ℕ) : Prop := ∃ a, m.Held a ∧ m.heap.Path a x

namespace Machine

variable {m : Machine} {x p : ℕ}

theorem Sound.not_held_of_condemned (h : m.Sound) (hx : x ∈ m.condemned) : ¬ m.Held x := by
  have hzero := h.collectCycles_owed_condemned hx
  have htasks : m.collectCycles.tasks.count (.release x) = m.tasks.count (.release x) := by
    show ((m.condemned.flatMap m.heap.refs).map Task.discard ++ m.tasks).count _ = _
    rw [List.count_append, Task.count_release_discard, Nat.zero_add]
  rw [owed, htasks] at hzero
  rintro (hmem | hmem)
  · have hpos : 0 < m.collectCycles.handles.count x := List.count_pos_iff.mpr hmem
    omega
  · have hpos := List.count_pos_iff.mpr hmem
    omega

theorem Sound.condemned_of_mem_refs (h : m.Sound) (hx : x ∈ m.condemned)
    (hp : x ∈ m.heap.refs p) : p ∈ m.condemned := by
  by_contra hpc
  have hzero := h.collectCycles_owed_condemned hx
  rw [owed] at hzero
  have hsurvives : m.collectCycles.heap.refs p = m.heap.refs p := by
    rw [collectCycles_refs, if_neg hpc]
  have hle := Heap.count_refs_le_inRefs (h := m.collectCycles.heap) (h.lt_of_mem_refs hp).1 x
  have hpos := List.count_pos_iff.mpr hp
  rw [hsurvives] at hle
  omega

theorem Sound.not_live_of_mem_condemned (h : m.Sound) (hx : x ∈ m.condemned) : ¬ m.Live x := by
  rintro ⟨a, ha, hpath⟩
  -- walking back from a condemned object never leaves the condemned part
  have hback : a ∈ m.condemned := by
    clear ha
    induction hpath with
    | refl => exact hx
    | tail _ hc ih => exact ih (h.condemned_of_mem_refs hx hc)
  exact h.not_held_of_condemned hback ha

end Machine

/-- A collection frees no object that can be reached from a handle outside of the heap. -/
theorem not_live_of_condemned {m : Machine} (h : Reachable (fun _ => True) m) {x : ℕ}
    (hx : x ∈ m.condemned) {a : ℕ} (ha : a ∈ m.handles ∨ .release a ∈ m.tasks) :
    ¬ m.heap.Path a x :=
  fun hpath => h.sound.not_live_of_mem_condemned hx ⟨a, ha, hpath⟩

/-- Object 0 refers to itself and to object 1, and its handle is dropped. -/
def dropLoopOps : List Machine.Op :=
  [.alloc [], .clone 0, .setField 0 "self" (.ref 0), .alloc [], .clone 1,
    .setField 0 "peer" (.ref 1), .drop 0]

theorem not_path_to_droppedLoop :
    ∃ m, Machine.run 0 dropLoopOps = some m ∧ 0 ∈ m.condemned ∧ 1 ∈ m.handles ∧
      ¬ m.heap.Path 1 0 := by
  have hsome : (Machine.run 0 dropLoopOps).isSome := by decide +kernel
  obtain ⟨m, hm⟩ := Option.isSome_iff_exists.mp hsome
  have hcond : 0 ∈ m.condemned := by
    have hall : (Machine.run 0 dropLoopOps).all (fun m => 0 ∈ m.condemned) := by decide +kernel
    simpa [hm] using hall
  have hhandle : 1 ∈ m.handles := by
    have hall : (Machine.run 0 dropLoopOps).all (fun m => 1 ∈ m.handles) := by decide +kernel
    simpa [hm] using hall
  have hreach := (Reachable.run (P := fun _ => True) (fun _ _ => trivial) (fun _ _ => trivial) hm).1
  exact ⟨m, hm, hcond, hhandle, not_live_of_condemned hreach hcond (.inl hhandle)⟩

end Corvid.Vm
