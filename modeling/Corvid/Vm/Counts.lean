import Corvid.Vm.Safety

/-!
# Exact counts

A collection drops the payloads of the condemned objects with releases suppressed, so a reference
from a condemned object to one that survives stays in the count of the survivor for good. Where no
garbage refers to a live object when a collection starts, and no garbage holds references that the
collector does not visit, all counts are exact and nothing leaks.

## Main definitions

* `Machine.Clean`: the condition on the states in which collections start
* `Machine.Exact`: the invariant of runs with clean collections

## Main results

* `Reachable.exact`: the counts are exact after every step of such a run
* `exact_and_collected_of_clean`: and once all handles are dropped, one collection frees all objects
-/

namespace Corvid.Vm

open Relation

namespace Machine

/-- Garbage refers to garbage only, and not from inside of a container. -/
def Clean (m : Machine) : Prop :=
  ∀ p, ¬ m.Live p →
    (∀ c ∈ m.heap.refs p, ¬ m.Live c) ∧
      ∀ s ∈ m.heap.slots p, ∀ held, s.2 = .container held → held = []

/-- Where the traversals of a collection may start, and the objects that the program holds. -/
def Anchor (m : Machine) (a : ℕ) : Prop := m.Held a ∨ (m.heap.metas a).buffered = true

def Rooted (m : Machine) (x : ℕ) : Prop := ∃ a, m.Anchor a ∧ m.heap.Path a x

/-- All counts are right, and no object is lost: one that is not freed can be reached from the
outside or from a buffered root. -/
structure Exact (m : Machine) : Prop where
  sound : m.Sound
  strong : ∀ x, (m.heap.metas x).strong = m.owed x
  allocated : ∀ x, m.heap.payload x ≠ none → (m.heap.metas x).strong ≠ 0
  buffered : ∀ x, (m.heap.metas x).buffered = true → x ∈ m.roots ∧ (m.heap.metas x).strong ≠ 0
  rooted : ∀ x, m.heap.payload x ≠ none → m.Rooted x

variable {m m' : Machine} {x p c : ℕ}

theorem Held.rooted (h : m.Held x) : m.Rooted x := ⟨x, .inl h, .refl⟩

theorem Rooted.of_mem_refs (h : m.Rooted p) (hc : c ∈ m.heap.refs p) : m.Rooted c := by
  obtain ⟨a, ha, hpath⟩ := h
  exact ⟨a, ha, hpath.tail hc⟩

theorem Live.of_mem_refs (h : m.Live p) (hc : c ∈ m.heap.refs p) : m.Live c := by
  obtain ⟨a, ha, hpath⟩ := h
  exact ⟨a, ha, hpath.tail hc⟩

/-- A step that keeps what it anchors, and anchors what it cuts off, loses no object. -/
theorem Rooted.transfer (h : m.Rooted x)
    (hanchor : ∀ a, m.Anchor a → m'.Rooted a ∨ m'.heap.payload a = none)
    (hedge : ∀ p c, c ∈ m.heap.refs p → c ∈ m'.heap.refs p ∨ m'.Rooted c) :
    m'.Rooted x ∨ m'.heap.payload x = none := by
  obtain ⟨a, ha, hpath⟩ := h
  induction hpath with
  | refl => exact hanchor a ha
  | tail _ hc ih =>
    rcases hedge _ _ hc with hc' | hroot
    · rcases ih with hp | hnone
      · exact .inl (hp.of_mem_refs hc')
      · rw [Heap.refs_of_payload_none hnone] at hc'
        cases hc'
    · exact .inl hroot

theorem exact_init : init.Exact :=
  ⟨sound_init, fun _ => rfl, fun _ h => absurd rfl h, fun _ h => absurd h Bool.false_ne_true,
    fun _ h => absurd rfl h⟩

theorem Exact.strong_of_balanced (h : m.Exact) (hb : m.Balanced m') (x : ℕ) :
    (m'.heap.metas x).strong = m'.owed x := by
  have hx := hb x
  have hstrong := h.strong x
  omega

/-! ### Operations -/

theorem Slots.mem_refs_insert {field : String} {v : Value} (slots : Slots) (hc : c ∈ v.refs) :
    c ∈ (slots.insert field v).1.refs := by
  induction slots with
  | nil => simpa [Slots.insert, Slots.refs] using hc
  | cons s slots ih =>
    obtain ⟨f, old⟩ := s
    rw [Slots.insert]
    split
    · exact List.mem_append_left _ hc
    · exact List.mem_append_right _ ih

theorem Slots.mem_refs_insert_or {field : String} {v : Value} {slots : Slots}
    (hc : c ∈ slots.refs) :
    c ∈ (slots.insert field v).1.refs ∨ c ∈ (slots.insert field v).2.refs := by
  have hcount := Slots.count_refs_insert (y := c) field v slots
  have hpos := List.count_pos_iff.mpr hc
  rw [← List.count_pos_iff, ← List.count_pos_iff]
  omega

theorem mem_diff_or {xs ys : List ℕ} (h : xs.Subperm ys) (hx : x ∈ ys) :
    x ∈ ys.diff xs ∨ x ∈ xs := by
  have hcount := count_diff_add (y := x) h
  have hpos := List.count_pos_iff.mpr hx
  rw [← List.count_pos_iff, ← List.count_pos_iff]
  omega

theorem Change.roots (hc : Change m m') : m'.roots = m.roots := by
  cases hc <;> rfl

/-- Operations lower no count and set no flag. -/
theorem Change.metas (hc : Change m m') (x : ℕ) :
    (m'.heap.metas x).strong ≠ 0 ∧ (m'.heap.metas x).buffered = false ∨
      (m.heap.metas x).strong ≤ (m'.heap.metas x).strong ∧
        (m'.heap.metas x).buffered = (m.heap.metas x).buffered := by
  cases hc with
  | @alloc slots =>
    show (Function.update m.heap.metas m.heap.size HeapMeta.new x).strong ≠ 0 ∧
        (Function.update m.heap.metas m.heap.size HeapMeta.new x).buffered = false ∨
      (m.heap.metas x).strong ≤ (Function.update m.heap.metas m.heap.size HeapMeta.new x).strong ∧
        (Function.update m.heap.metas m.heap.size HeapMeta.new x).buffered = _
    by_cases hx : x = m.heap.size
    · rw [hx, Function.update_self]
      exact .inl ⟨Nat.one_ne_zero, rfl⟩
    · rw [Function.update_of_ne hx]
      exact .inr ⟨le_rfl, rfl⟩
  | @acquire xs =>
    refine .inr ⟨?_, Heap.retain_field HeapMeta.buffered (fun _ => rfl) xs x⟩
    show _ ≤ ((m.heap.retain xs).metas x).strong
    rw [Heap.retain_strong]
    exact Nat.le_add_right _ _
  | drop | setField | rehash | stay => exact .inr ⟨le_rfl, rfl⟩

/-- Only an allocation adds an object with a payload. -/
theorem Change.payload (hc : Change m m') (hx : m'.heap.payload x ≠ none) :
    m.heap.payload x ≠ none ∨ (m'.heap.metas x).strong ≠ 0 ∧ x ∈ m'.handles := by
  cases hc with
  | @alloc slots =>
    by_cases hne : x = m.heap.size
    · refine .inr ⟨?_, ?_⟩
      · show (Function.update m.heap.metas m.heap.size HeapMeta.new x).strong ≠ 0
        rw [hne, Function.update_self]
        exact Nat.one_ne_zero
      · rw [hne]
        exact List.mem_cons_self
    · refine .inl ?_
      change Function.update m.heap.payload m.heap.size (some slots) x ≠ none at hx
      rwa [Function.update_of_ne hne] at hx
  | acquire | drop | stay => exact .inl hx
  | @setField y slots field v _ _ hslots =>
    refine .inl ?_
    by_cases hne : x = y
    · rw [hne, hslots]
      exact Option.some_ne_none slots
    · change Function.update m.heap.payload y _ x ≠ none at hx
      rwa [Function.update_of_ne hne] at hx
  | @rehash y slots slots' hslots _ =>
    refine .inl ?_
    by_cases hne : x = y
    · rw [hne, hslots]
      exact Option.some_ne_none slots
    · change Function.update m.heap.payload y _ x ≠ none at hx
      rwa [Function.update_of_ne hne] at hx

theorem Exact.rooted_alloc (h : m.Exact) {slots : Slots} (hs : m.movable slots.refs)
    (hx : m.Rooted x) : (m.alloc slots).Rooted x ∨ (m.alloc slots).heap.payload x = none := by
  have hnew : (m.alloc slots).Rooted m.heap.size := Held.rooted (.inl List.mem_cons_self)
  have hrefs : ∀ p, p ≠ m.heap.size → (m.alloc slots).heap.refs p = m.heap.refs p := fun p hp => by
    simp [Machine.alloc, Heap.refs, Heap.slots, hp]
  refine hx.transfer (fun a ha => .inl ?_) (fun p c hc => .inl ?_)
  · rcases ha with (hmem | hmem) | hbuf
    · rcases mem_diff_or hs hmem with hd | hr
      · exact Held.rooted (.inl (List.mem_cons_of_mem _ hd))
      · -- a handle that moved into the new payload
        refine hnew.of_mem_refs ?_
        simpa [Machine.alloc, Heap.refs, Heap.slots] using hr
    · exact Held.rooted (.inr hmem)
    · refine ⟨a, .inr ?_, .refl⟩
      have hne : a ≠ m.heap.size := fun heq =>
        (h.buffered a hbuf).2 ((h.sound.fresh a heq.ge).1)
      show (Function.update m.heap.metas m.heap.size HeapMeta.new a).buffered = true
      rwa [Function.update_of_ne hne]
  · rwa [hrefs p (h.sound.lt_of_mem_refs hc).1.ne]

theorem rooted_setField {slots : Slots} {field : String} {v : Value} {y : ℕ}
    (hv : m.movable v.refs) (hy : y ∈ m.handles.diff v.refs) (hslots : m.heap.payload y = some slots)
    (hx : m.Rooted x) :
    (m.setField y slots field v).Rooted x ∨ (m.setField y slots field v).heap.payload x = none := by
  have hself : (m.setField y slots field v).heap.refs y = (slots.insert field v).1.refs :=
    Heap.refs_setPayload_self _
  have hholder : (m.setField y slots field v).Rooted y := Held.rooted (.inl hy)
  refine hx.transfer (fun a ha => .inl ?_) (fun p c hc => ?_)
  · rcases ha with (hmem | hmem) | hbuf
    · rcases mem_diff_or hv hmem with hd | hr
      · exact Held.rooted (.inl hd)
      · refine hholder.of_mem_refs ?_
        rw [hself]
        exact Slots.mem_refs_insert slots hr
    · exact Held.rooted (.inr (List.mem_append_right _ hmem))
    · exact ⟨a, .inr hbuf, .refl⟩
  · by_cases hp : p = y
    · have hc' : c ∈ slots.refs := by simpa [hp, Heap.refs, Heap.slots, hslots] using hc
      rw [hp, hself]
      refine (Slots.mem_refs_insert_or hc').imp_right fun hold => Held.rooted (.inr ?_)
      exact List.mem_append_left _ (List.mem_map_of_mem hold)
    · refine .inl ?_
      have hkeep : (m.setField y slots field v).heap.refs p = m.heap.refs p :=
        Heap.refs_setPayload_of_ne _ hp
      rwa [hkeep]

theorem Exact.rooted_change (h : m.Exact) (hc : Change m m') (hx : m.Rooted x) :
    m'.Rooted x ∨ m'.heap.payload x = none := by
  cases hc with
  | alloc hs => exact h.rooted_alloc hs hx
  | @acquire xs =>
    refine hx.transfer (fun a ha => .inl ?_) (fun p c hc => .inl hc)
    rcases ha with (hmem | hmem) | hbuf
    · exact Held.rooted (.inl (List.mem_append_right _ hmem))
    · exact Held.rooted (.inr hmem)
    · refine ⟨a, .inr ?_, .refl⟩
      exact (Heap.retain_field HeapMeta.buffered (fun _ => rfl) xs a).trans hbuf
  | @drop y hy =>
    refine hx.transfer (fun a ha => .inl ?_) (fun p c hc => .inl hc)
    rcases ha with (hmem | hmem) | hbuf
    · by_cases hay : a = y
      · exact Held.rooted (.inr (hay ▸ List.mem_cons_self))
      · exact Held.rooted (.inl ((List.mem_erase_of_ne hay).mpr hmem))
    · exact Held.rooted (.inr (List.mem_cons_of_mem _ hmem))
    · exact ⟨a, .inr hbuf, .refl⟩
  | setField hv hy hslots => exact rooted_setField hv hy hslots hx
  | @rehash y slots slots' hslots hperm =>
    refine hx.transfer (fun a ha => .inl ⟨a, ha, .refl⟩) (fun p c hc => .inl ?_)
    by_cases hp : p = y
    · rw [hp] at hc ⊢
      rw [Heap.refs_setPayload_self]
      have hc' : c ∈ slots.refs := by simpa [Heap.refs, Heap.slots, hslots] using hc
      exact (hperm.flatMap_right _).subset hc'
    · rwa [Heap.refs_setPayload_of_ne _ hp]
  | stay => exact .inl hx

theorem Exact.change (h : m.Exact) (hc : Change m m') : m'.Exact := by
  refine ⟨h.sound.change hc, h.strong_of_balanced (h.sound.balanced hc), fun x hx => ?_,
    fun x hx => ?_, fun x hx => ?_⟩
  · rcases hc.payload hx with hold | hnew
    · have hpos := h.allocated x hold
      rcases hc.metas x with hm | hm
      · exact hm.1
      · omega
    · exact hnew.1
  · rcases hc.metas x with hm | hm
    · rw [hm.2] at hx
      cases hx
    · rw [hm.2] at hx
      obtain ⟨hroot, hpos⟩ := h.buffered x hx
      rw [hc.roots]
      exact ⟨hroot, by omega⟩
  · rcases hc.payload hx with hold | hnew
    · exact (h.rooted_change hc (h.rooted x hold)).resolve_right hx
    · exact Held.rooted (.inl hnew.2)

/-! ### Drops -/

section Drops

variable {rest : List Task}

theorem Exact.skip (h : m.Exact) {t : Task} (ht : m.tasks = t :: rest)
    (hne : ∀ y, t ≠ .release y) : ({ m with tasks := rest } : Machine).Exact := by
  have howed : ∀ y, ({ m with tasks := rest } : Machine).owed y = m.owed y := fun y => by
    rw [owed, owed, ht, List.count_cons_of_ne (hne y)]
  refine ⟨h.sound.skip ht hne, fun y => (h.strong y).trans (howed y).symm, h.allocated, h.buffered,
    fun y hy => ?_⟩
  obtain ⟨a, ha, hpath⟩ := h.rooted y hy
  refine ⟨a, ?_, hpath⟩
  rcases ha with (hmem | hmem) | hbuf
  · exact .inl (.inl hmem)
  · rw [ht, List.mem_cons] at hmem
    exact .inl (.inr (hmem.resolve_left (hne a).symm))
  · exact .inr hbuf

/-- An allocation that is given up has no payload any more: its count is zero. -/
theorem Exact.giveUp_eq (h : m.Exact) {t : Task} {drop : ℕ → Task} (ht : m.tasks = t :: rest)
    (hne : ∀ y, t ≠ .release y) : m.giveUp x drop rest = { m with tasks := rest } := by
  unfold giveUp
  split
  next hzero =>
    have hstrong := (h.skip ht hne).strong x
    have hnone : m.heap.payload x = none := by
      by_contra hx
      have hpos := h.allocated x hx
      unfold arcs at hzero
      dsimp only at hstrong
      omega
    have hpayload : m.heap.setPayload x none = m.heap := by
      rw [Heap.setPayload, Function.update_eq_self_iff.mpr hnone.symm]
    rw [hpayload, Heap.refs_of_payload_none hnone, List.map_nil, List.nil_append]
  next => rfl

theorem releaseObject_roots_subset : m.roots ⊆ (m.releaseObject x rest).roots := by
  unfold releaseObject
  split
  · exact List.Subset.refl _
  · split
    · exact List.Subset.refl _
    · exact List.subset_append_left _ _

/-- After a release its object is freed, or it is buffered and in the buffer. -/
theorem Exact.buffered_releaseObject (h : m.Exact) (rest : List Task) :
    (m.releaseObject x rest).heap.payload x = none ∧
        ((m.releaseObject x rest).heap.metas x).buffered = false ∨
      (m.heap.metas x).strong ≠ 1 ∧ x ∈ (m.releaseObject x rest).roots ∧
        ((m.releaseObject x rest).heap.metas x).buffered = true := by
  unfold releaseObject
  split
  next =>
    refine .inl ⟨Function.update_self x _ _, ?_⟩
    show (m.heap.metas.modify x _ x).buffered = false
    rw [Metas.modify_self]
    rfl
  next hone =>
    refine .inr ⟨hone, ?_⟩
    split
    next hbuf =>
      refine ⟨(h.buffered x hbuf).1, ?_⟩
      show (m.heap.metas.modify x HeapMeta.release x).buffered = true
      rw [Metas.modify_self]
      exact hbuf
    next =>
      refine ⟨List.mem_append_right _ (List.mem_singleton_self x), ?_⟩
      show (m.heap.metas.modify x _ x).buffered = true
      rw [Metas.modify_self]
      rfl

theorem releaseObject_buffered_of_ne {y : ℕ} (hy : y ≠ x) :
    ((m.releaseObject x rest).heap.metas y).buffered = (m.heap.metas y).buffered := by
  have hmodify : ∀ f, (m.heap.metas.modify x f y).buffered = (m.heap.metas y).buffered := fun f => by
    rw [Metas.modify_of_ne f hy]
  unfold releaseObject
  split
  · exact hmodify _
  · split
    · exact hmodify _
    · exact hmodify _

theorem releaseObject_held {a : ℕ} (ha : m.Held a) (ht : m.tasks = .release x :: rest)
    (hne : a ≠ x ∨ a ∈ m.handles) : (m.releaseObject x rest).Held a := by
  have hrest : a ∈ m.handles ∨ .release a ∈ rest := by
    rcases ha with hmem | hmem
    · exact .inl hmem
    · rw [ht, List.mem_cons] at hmem
      rcases hmem with heq | hmem
      · cases heq
        exact .inl (hne.resolve_left fun hxx => hxx rfl)
      · exact .inr hmem
  unfold releaseObject
  split
  · exact hrest.imp_right fun hmem => List.mem_append_right _ (List.mem_cons_of_mem _ hmem)
  · split
    all_goals exact hrest.imp_right fun hmem => List.mem_cons_of_mem _ (List.mem_cons_of_mem _ hmem)

theorem releaseObject_edge (p c : ℕ) (hc : c ∈ m.heap.refs p) :
    c ∈ (m.releaseObject x rest).heap.refs p ∨ (m.releaseObject x rest).Rooted c := by
  unfold releaseObject
  split
  next =>
    by_cases hp : p = x
    · -- the references of the freed payload are released next
      refine .inr (Held.rooted (.inr (List.mem_append_left _ ?_)))
      rw [hp] at hc
      exact List.mem_map_of_mem hc
    · refine .inl ?_
      show c ∈ ((m.heap.modify x _).setPayload x none).refs p
      rw [Heap.refs_setPayload_of_ne _ hp]
      exact hc
  next => split <;> exact .inl hc

theorem Exact.rooted_releaseObject (h : m.Exact) (ht : m.tasks = .release x :: rest) {y : ℕ}
    (hy : m.Rooted y) :
    (m.releaseObject x rest).Rooted y ∨ (m.releaseObject x rest).heap.payload y = none := by
  refine hy.transfer (fun a ha => ?_) releaseObject_edge
  by_cases hax : a = x
  · subst hax
    rcases h.buffered_releaseObject rest with hfree | hbuf
    · exact .inr hfree.1
    · exact .inl ⟨a, .inr hbuf.2.2, .refl⟩
  · refine .inl ⟨a, ?_, .refl⟩
    rcases ha with hheld | hbuf
    · exact .inl (releaseObject_held hheld ht (.inl hax))
    · exact .inr ((releaseObject_buffered_of_ne hax).trans hbuf)

theorem Exact.releaseObject (h : m.Exact) (ht : m.tasks = .release x :: rest) :
    (m.releaseObject x rest).Exact := by
  have hpos := h.sound.strong_pos_of_release ht
  refine ⟨h.sound.releaseObject ht, h.strong_of_balanced (h.sound.balanced_releaseObject ht),
    fun y hy => ?_, fun y hy => ?_, fun y hy => ?_⟩
  · rw [releaseObject_payload] at hy
    rw [releaseObject_strong]
    split at hy
    next => exact absurd rfl hy
    next hne =>
      have hold := h.allocated y hy
      split
      next hyx =>
        subst hyx
        have hone : (m.heap.metas y).strong ≠ 1 := fun hone => hne ⟨rfl, hone⟩
        omega
      next => omega
  · rw [releaseObject_strong]
    by_cases hyx : y = x
    · subst hyx
      rcases h.buffered_releaseObject rest with hfree | hbuf
      · rw [hfree.2] at hy
        cases hy
      · rw [if_pos rfl]
        exact ⟨hbuf.2.1, by omega⟩
    · rw [releaseObject_buffered_of_ne hyx] at hy
      obtain ⟨hroot, hpos⟩ := h.buffered y hy
      rw [if_neg hyx]
      exact ⟨releaseObject_roots_subset hroot, hpos⟩
  · have hold : m.heap.payload y ≠ none := fun hnone => by
      rw [releaseObject_payload, hnone, ite_self] at hy
      exact hy rfl
    exact (h.rooted_releaseObject ht (h.rooted y hold)).resolve_right hy

end Drops

/-! ### Collections -/

section Collection

theorem Clean.children_eq (hclean : m.Clean) (hp : ¬ m.Live p) : m.heap.children p = m.heap.refs p := by
  have hslots := (hclean p hp).2
  rw [Heap.children, Heap.refs]
  generalize m.heap.slots p = slots at hslots
  induction slots with
  | nil => rfl
  | cons s slots ih =>
    obtain ⟨f, v⟩ := s
    have hrest := ih fun t ht => hslots t (List.mem_cons_of_mem _ ht)
    cases v with
    | scalar => exact hrest
    | ref x => exact congrArg (x :: ·) hrest
    | container held =>
      have hnil : held = [] := hslots _ List.mem_cons_self held rfl
      rw [hnil]
      exact hrest

/-- The collector visits all references on a path to garbage. -/
theorem Clean.leads_of_path (hclean : m.Clean) {a : ℕ} (hpath : m.heap.Path a x)
    (hx : ¬ m.Live x) : Leads m.heap.children a x := by
  induction hpath with
  | refl => exact .refl
  | tail _ hc ih =>
    have hp : ¬ m.Live _ := fun hlive => hx (hlive.of_mem_refs hc)
    refine (ih hp).tail ?_
    rwa [hclean.children_eq hp]

theorem path_of_leads {a : ℕ} (h : Leads m.heap.children a x) : m.heap.Path a x := by
  induction h with
  | refl => exact .refl
  | tail _ hc ih => exact ih.tail ((Slots.children_sublist_refs _).subset hc)

/-- The objects that a collection marks. -/
def Marked (m : Machine) (x : ℕ) : Prop :=
  ∃ r, Candidate m.heap.metas (m.roots.filter fun r => 0 < m.arcs r) r ∧
    Leads m.heap.children r x

theorem Exact.candidate (h : m.Exact) {r : ℕ} (hr : (m.heap.metas r).buffered = true) :
    Candidate m.heap.metas (m.roots.filter fun r => 0 < m.arcs r) r := by
  obtain ⟨hroot, hpos⟩ := h.buffered r hr
  have hstrong := h.strong r
  refine ⟨List.mem_filter.mpr ⟨hroot, decide_eq_true ?_⟩, hr, Nat.pos_of_ne_zero hpos⟩
  unfold arcs
  omega

theorem Exact.marked_of_garbage (h : m.Exact) (hclean : m.Clean) (hx : m.Rooted x)
    (hdead : ¬ m.Live x) : m.Marked x := by
  obtain ⟨a, ha | hbuf, hpath⟩ := hx
  · exact absurd ⟨a, ha, hpath⟩ hdead
  · exact ⟨a, h.candidate hbuf, hclean.leads_of_path hpath hdead⟩

/-- All references to garbage are between marked objects. -/
theorem Exact.inFrom_marked (h : m.Exact) (hclean : m.Clean) (hdead : ¬ m.Live x) :
    (m.heap.metas x).strong ≤ inFrom m.heap.size m.heap.children m.Marked x := by
  have hhandles : m.handles.count x = 0 :=
    List.count_eq_zero.mpr fun hmem => hdead ⟨x, .inl hmem, .refl⟩
  have htasks : m.tasks.count (.release x) = 0 :=
    List.count_eq_zero.mpr fun hmem => hdead ⟨x, .inr hmem, .refl⟩
  rw [h.strong x, owed, hhandles, htasks, Nat.zero_add, Heap.inRefs, Heap.total, inFrom]
  refine Finset.sum_le_sum fun p _ => ?_
  by_cases hmem : x ∈ m.heap.refs p
  · have hp : ¬ m.Live p := fun hlive => hdead (hlive.of_mem_refs hmem)
    have hpayload : m.heap.payload p ≠ none := fun hnone => by
      rw [Heap.refs_of_payload_none hnone] at hmem
      cases hmem
    rw [if_pos (h.marked_of_garbage hclean (h.rooted p hpayload) hp), hclean.children_eq hp]
  · rw [List.count_eq_zero.mpr hmem]
    exact Nat.zero_le _

/-- A clean collection condemns all garbage. -/
theorem Exact.condemned_of_garbage (h : m.Exact) (hclean : m.Clean) (hx : m.Rooted x)
    (hdead : ¬ m.Live x) : x ∈ m.condemned := by
  by_contra hn
  obtain ⟨r, hr, hrx⟩ := h.marked_of_garbage hclean hx hdead
  obtain ⟨y, -, hyx, hlt⟩ := h.sound.trial_spec.complete r x hr hrx hn
  have hydead : ¬ m.Live y := by
    rintro ⟨a, ha, hpath⟩
    exact hdead ⟨a, ha, hpath.trans (path_of_leads hyx)⟩
  exact absurd hlt (Nat.not_lt.mpr (h.inFrom_marked hclean hydead))

/-- A clean collection loses no reference to a survivor. -/
theorem Exact.lost_eq_zero (h : m.Exact) (hclean : m.Clean) (hx : x ∉ m.condemned) :
    m.lost (List.count x) = 0 := by
  refine Finset.sum_eq_zero fun p _ => ?_
  by_cases hp : p ∈ m.condemned
  · rw [if_pos hp, List.count_eq_zero]
    intro hmem
    have hpdead := h.sound.not_live_of_mem_condemned hp
    have hpayload : m.heap.payload p ≠ none := fun hnone => by
      rw [Heap.refs_of_payload_none hnone] at hmem
      cases hmem
    have hroot := (h.rooted p hpayload).of_mem_refs hmem
    exact hx (h.condemned_of_garbage hclean hroot ((hclean p hpdead).1 x hmem))
  · rw [if_neg hp]

theorem collectCycles_payload (y : ℕ) :
    m.collectCycles.heap.payload y = if y ∈ m.condemned then none else m.heap.payload y := rfl

/-- A collection cuts no path to a live object. -/
theorem Sound.live_collectCycles (h : m.Sound) (hx : m.Live x) : m.collectCycles.Live x := by
  obtain ⟨a, ha, hpath⟩ := hx
  refine ⟨a, ha.imp_right fun hmem => List.mem_append_right _ hmem, ?_⟩
  induction hpath with
  | refl => exact .refl
  | tail hap hc ih =>
    refine ih.tail ?_
    have hp : _ ∉ m.condemned := fun hp => h.not_live_of_mem_condemned hp ⟨a, ha, hap⟩
    rwa [collectCycles_refs, if_neg hp]

theorem Exact.not_buffered_collectCycles (h : m.Exact) (y : ℕ) :
    (m.collectCycles.heap.metas y).buffered = false := by
  rw [collectCycles_metas]
  split
  next => rfl
  next hy =>
    by_contra hbuf
    rw [Bool.not_eq_false] at hbuf
    have hcand := h.candidate (h.sound.trial_spec.buffered y hbuf)
    have hfalse := h.sound.trial_spec.unbuffered y hcand.1 hy
    exact absurd (hbuf.symm.trans hfalse) (by decide)

theorem Exact.collectCycles (h : m.Exact) (hclean : m.Clean) : m.collectCycles.Exact := by
  refine ⟨h.sound.collectCycles, fun y => ?_, fun y hy => ?_, fun y hy => ?_, fun y hy => ?_⟩
  · rw [collectCycles_metas]
    split
    next hy => exact (h.sound.collectCycles_owed_condemned hy).symm
    next hy =>
      have howed := collectCycles_owed (m := m) y
      have hlost := h.lost_eq_zero hclean hy
      rw [h.sound.trial_spec.strong y, h.strong y]
      omega
  · rw [collectCycles_payload] at hy
    rw [collectCycles_metas]
    split at hy
    next => exact absurd rfl hy
    next hcond =>
      rw [if_neg hcond, h.sound.trial_spec.strong y]
      exact h.allocated y hy
  · rw [h.not_buffered_collectCycles] at hy
    cases hy
  · rw [collectCycles_payload] at hy
    split at hy
    next => exact absurd rfl hy
    next hcond =>
      have hlive : m.Live y := by
        by_contra hdead
        exact hcond (h.condemned_of_garbage hclean (h.rooted y hy) hdead)
      obtain ⟨a, ha, hpath⟩ := h.sound.live_collectCycles hlive
      exact ⟨a, .inl ha, hpath⟩

end Collection

theorem Exact.stepTask (h : m.Exact) {trigger : ℕ}
    (hclean : ∀ c, m.collecting trigger = some c → c.Clean)
    (hs : Machine.stepTask trigger m = some m') : m'.Exact := by
  rw [Machine.stepTask] at hs
  split at hs
  next => cases hs
  next ht =>
    cases hs
    exact h.releaseObject ht
  next rest ht =>
    have hskip := h.skip ht (by simp)
    cases hs
    split
    next c hc =>
      have hcclean := hclean c hc
      rw [collecting, ht] at hc
      obtain ⟨-, heq⟩ := Option.ite_none_right_eq_some.mp hc
      cases heq
      exact hskip.collectCycles hcclean
    next => exact hskip
  next ht =>
    cases hs
    rw [h.giveUp_eq ht (by simp)]
    exact h.skip ht (by simp)
  next ht =>
    cases hs
    rw [h.giveUp_eq ht (by simp)]
    exact h.skip ht (by simp)

end Machine

open Machine

theorem Reachable.exact {m : Machine} (h : Reachable Clean m) : m.Exact := by
  induction h with
  | init => exact exact_init
  | apply _ _ hclean hop ih =>
    rcases ih.sound.apply_cases hop with ⟨hcollect, rfl⟩ | hc
    · exact ih.collectCycles (hclean hcollect)
    · exact ih.change hc
  | task _ _ hclean hs ih => exact ih.stepTask hclean hs

/-- Where all collections start in clean states, the count of every object is the number of its
references after every step, and a collection after the last handle is dropped frees everything. -/
theorem exact_and_collected_of_clean {m : Machine} (h : Reachable Clean m) :
    (∀ x, m.heap.payload x ≠ none → (m.heap.metas x).strong = m.owed x) ∧
      (m.handles = [] → m.tasks = [] → m.Clean →
        ∀ x, m.collectCycles.heap.payload x = none) := by
  refine ⟨fun x _ => h.exact.strong x, fun hhandles htasks hclean x => ?_⟩
  rw [collectCycles_payload]
  split
  next => rfl
  next hx =>
    by_contra hpayload
    refine hx (h.exact.condemned_of_garbage hclean (h.exact.rooted x hpayload) ?_)
    rintro ⟨a, ha | ha, -⟩
    · rw [hhandles] at ha
      cases ha
    · rw [htasks] at ha
      cases ha

/-- Object 0 refers to itself, and its handle is dropped. -/
def selfLoopOps : List Op := [.alloc [], .clone 0, .setField 0 "self" (.ref 0), .drop 0]

theorem selfLoop_collected :
    ∃ m, Machine.run 0 selfLoopOps = some m ∧ m.heap.payload 0 ≠ none ∧
      (m.heap.metas 0).strong = m.owed 0 ∧ ∀ x, m.collectCycles.heap.payload x = none := by
  have hsome : (Machine.run 0 selfLoopOps).any fun m => m.handles = [] ∧ m.heap.size = 1 ∧
      m.heap.payload 0 = some [("self", .ref 0)] := by decide +kernel
  obtain ⟨m, hm, hall⟩ := (Option.any_eq_true _ _).mp hsome
  obtain ⟨hhandles, hsize, hpayload⟩ := of_decide_eq_true hall
  obtain ⟨hreach, htasks⟩ := Reachable.run (P := Clean) (fun h => absurd h (Nat.lt_irrefl 0))
    (fun h => absurd h (by decide)) hm
  have hclean : m.Clean := by
    have hdead : ∀ x, ¬ m.Live x := by
      rintro x ⟨a, ha | ha, -⟩
      · rw [hhandles] at ha
        cases ha
      · rw [htasks] at ha
        cases ha
    refine fun p _ => ⟨fun c _ => hdead c, fun s hs held hheld => ?_⟩
    rw [Heap.slots] at hs
    by_cases hp : p = 0
    · rw [hp, hpayload, Option.getD_some, List.mem_singleton] at hs
      rw [hs] at hheld
      cases hheld
    · rw [(hreach.sound.fresh p (by omega)).2] at hs
      cases hs
  have hne : m.heap.payload 0 ≠ none := by
    rw [hpayload]
    exact Option.some_ne_none _
  obtain ⟨hexact, hcollected⟩ := exact_and_collected_of_clean hreach
  exact ⟨m, hm, hne, hexact 0 hne, hcollected hhandles htasks hclean⟩

/-- Objects 0 and 1 refer to themselves, and object 1 refers to object 0. Object 1 is collected while
object 0 is held, and then the handle to object 0 is dropped. -/
def sharedLoopOps : List Op :=
  [.alloc [], .clone 0, .setField 0 "self" (.ref 0),
    .alloc [], .clone 1, .setField 1 "self" (.ref 1), .clone 0, .setField 1 "peer" (.ref 0),
    .drop 1, .collect, .drop 0]

/-- The reference from the collected object stays in the count of object 0, which leaks. -/
theorem sharedLoop_leaks :
    ∃ m, Machine.run 0 sharedLoopOps = some m ∧ Reachable (fun _ => True) m ∧ m.tasks = [] ∧
      m.handles = [] ∧ m.heap.payload 0 ≠ none ∧ (m.heap.metas 0).strong = 2 ∧ m.owed 0 = 1 ∧
      m.collectCycles.heap.payload 0 ≠ none := by
  have hsome : (Machine.run 0 sharedLoopOps).any fun m => m.handles = [] ∧
      m.heap.payload 0 ≠ none ∧ (m.heap.metas 0).strong = 2 ∧ m.owed 0 = 1 ∧
      m.collectCycles.heap.payload 0 ≠ none := by decide +kernel
  obtain ⟨m, hm, hall⟩ := (Option.any_eq_true _ _).mp hsome
  obtain ⟨hhandles, hrest⟩ := of_decide_eq_true hall
  obtain ⟨hreach, htasks⟩ := Reachable.run (P := fun _ => True) (fun _ _ => trivial)
    (fun _ _ => trivial) hm
  exact ⟨m, hm, hreach, htasks, hhandles, hrest⟩

end Corvid.Vm
