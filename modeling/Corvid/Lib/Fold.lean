import Mathlib.Data.List.Perm.Basic
import Mathlib.Order.Lattice
import Mathlib.Tactic.Common

/-!
# Left folds that do not depend on order or repetition

A left fold is unchanged by a permutation of its list as soon as its step function is right
commutative on the accumulators that can occur, and by repeating an entry as soon as the step
absorbs a repetition there. Both conditions are asked only of the accumulators that satisfy an
invariant and of the entries of a fixed collection.

Two kinds of step functions get a characterization of their own. A step that returns the
incoming entry unless both arguments are of one class forces all entries into one class. A step
that always returns one of its two arguments is a tournament, and its folds do not depend on
order exactly when the only cycles of the tournament are those that the initial value beats.

## Main definitions

* `CommutesOn`, `AbsorbsOn`: the two conditions on a step function
* `OrderFree`, `RepetitionFree`: the two properties of its folds
* `Fallback`: a step that combines values of one class only
* `Beats`, `Cycle`: the tournament of a selective function

## Main results

* `CommutesOn.orderFree`, `AbsorbsOn.repetitionFree`: the conditions suffice
* `Fallback.eq_or_sameClass`: entries of different classes do not commute
* `orderFree_iff_of_selective`: the characterization for tournaments
-/

namespace Fold

variable {α β : Type*}

/-- Folding `f` from `b` over entries of `S` does not depend on their order. -/
def OrderFree (f : β → α → β) (b : β) (S : α → Prop) : Prop :=
  ∀ l l' : List α, (∀ a ∈ l, S a) → l.Perm l' → l'.foldl f b = l.foldl f b

/-- Repeating an entry, anywhere, does not change the fold of `f` from `b` over entries of
`S`. -/
def RepetitionFree (f : β → α → β) (b : β) (S : α → Prop) : Prop :=
  ∀ l l' : List α, ∀ a ∈ l, (∀ a ∈ l, S a) → l'.Perm (a :: l) → l'.foldl f b = l.foldl f b

/-- On the accumulators satisfying `P`, the step `f` keeps `P` and two steps commute. -/
structure CommutesOn (f : β → α → β) (P : β → Prop) (S : α → Prop) : Prop where
  step : ∀ b a, P b → S a → P (f b a)
  comm : ∀ b a a', P b → S a → S a' → f (f b a) a' = f (f b a') a

/-- Besides commuting, the step absorbs an immediate repetition. -/
structure AbsorbsOn (f : β → α → β) (P : β → Prop) (S : α → Prop) : Prop
    extends CommutesOn f P S where
  absorb : ∀ b a, P b → S a → f (f b a) a = f b a

variable {f : β → α → β} {P : β → Prop} {S : α → Prop} {b : β}

theorem CommutesOn.foldl_mem (h : CommutesOn f P S) {l : List α} (hl : ∀ a ∈ l, S a) :
    ∀ {b}, P b → P (l.foldl f b) := by
  induction l with
  | nil => exact fun hb => hb
  | cons a l ih =>
    intro b hb
    exact ih (fun x hx => hl x (List.mem_cons_of_mem _ hx))
      (h.step b a hb (hl a List.mem_cons_self))

/-- A right commutative step gives folds that do not depend on order. -/
theorem CommutesOn.orderFree (h : CommutesOn f P S) (hb : P b) : OrderFree f b S := by
  intro l l' hl hp
  induction hp generalizing b with
  | nil => rfl
  | cons a _ ih =>
    exact ih (h.step b a hb (hl a List.mem_cons_self)) fun x hx => hl x (List.mem_cons_of_mem _ hx)
  | swap x y l =>
    have hx : S x := hl x (by simp)
    have hy : S y := hl y (by simp)
    simp only [List.foldl_cons, h.comm b x y hb hx hy]
  | trans hp₁ _ ih₁ ih₂ =>
    rw [ih₂ hb fun a ha => hl a (hp₁.mem_iff.mpr ha), ih₁ hb hl]

/-- A commuting step that absorbs repetitions gives folds that ignore repetitions. -/
theorem AbsorbsOn.repetitionFree (h : AbsorbsOn f P S) (hb : P b) : RepetitionFree f b S := by
  intro l l' a ha hl hp
  obtain ⟨s, t, rfl⟩ := List.append_of_mem ha
  have hS : ∀ x ∈ a :: (s ++ a :: t), S x := by
    intro x hx
    rcases List.mem_cons.mp hx with rfl | hx
    · exact hl x ha
    · exact hl x hx
  have hfree := h.toCommutesOn.orderFree hb
  -- Move both copies of `a` to the front, where the step absorbs the second one.
  have hmid : (s ++ a :: t).Perm (a :: (s ++ t)) := List.perm_middle
  have h₁ : l'.foldl f b = (a :: a :: (s ++ t)).foldl f b :=
    ((hfree _ _ hS hp.symm).trans (hfree _ _ hS (hmid.cons a)).symm)
  have h₂ : (s ++ a :: t).foldl f b = (a :: (s ++ t)).foldl f b := (hfree _ _ hl hmid).symm
  rw [h₁, h₂]
  simp only [List.foldl_cons, h.absorb b a hb (hl a ha)]

theorem OrderFree.mono {S' : α → Prop} (h : OrderFree f b S) (hS : ∀ a, S' a → S a) :
    OrderFree f b S' := fun l l' hl hp => h l l' (fun a ha => hS a (hl a ha)) hp

/-- Two entries in either order. -/
theorem OrderFree.swap (h : OrderFree f b S) {a a' : α} (ha : S a) (ha' : S a') :
    f (f b a) a' = f (f b a') a :=
  h [a', a] [a, a'] (by simp [ha, ha']) (List.Perm.swap a a' [])

/-- One entry once or twice. -/
theorem RepetitionFree.twice (h : RepetitionFree f b S) {a : α} (ha : S a) :
    f (f b a) a = f b a :=
  h [a] [a, a] a (by simp) (by simp [ha]) (List.Perm.refl _)

/-! ## Steps that fall back to the incoming entry

Many step functions combine two values only when they belong to the same class, and return the
incoming value otherwise. -/

section Fallback

variable {ι : Type*} {f : α → α → α} {C : α → Option ι} {b : α} {S : α → Prop}

/-- `f` combines values of one class, within that class; otherwise it returns the incoming
value. -/
structure Fallback (f : α → α → α) (C : α → Option ι) : Prop where
  incoming : ∀ x a, (C x = C a → C a = none) → f x a = a
  class_eq : ∀ x a, C (f x a) = C a

/-- Folds that do not depend on order never meet two values of different classes. -/
theorem Fallback.eq_or_sameClass (h : Fallback f C) (hfree : OrderFree f b S) {v w : α}
    (hv : S v) (hw : S w) : v = w ∨ ∃ i, C v = some i ∧ C w = some i := by
  by_cases hc : ∃ i, C v = some i ∧ C w = some i
  · exact Or.inr hc
  left
  have key : ∀ {v w}, (¬ ∃ i, C v = some i ∧ C w = some i) → f (f b v) w = w := by
    intro v w hc
    refine h.incoming _ w fun heq => ?_
    rw [h.class_eq] at heq
    cases hw : C w with
    | none => rfl
    | some i => exact absurd ⟨i, heq.trans hw, hw⟩ hc
  have hswap := hfree.swap hv hw
  rw [key hc, key fun ⟨i, hi, hi'⟩ => hc ⟨i, hi', hi⟩] at hswap
  exact hswap.symm

/-- Pairwise equal or of one class: all of one class, or a single value without class. -/
theorem sameClass_or_subsingleton
    (h : ∀ v w, S v → S w → v = w ∨ ∃ i, C v = some i ∧ C w = some i) :
    (∃ i, ∀ v, S v → C v = some i) ∨ ((∀ v w, S v → S w → v = w) ∧ ∀ v, S v → C v = none) := by
  by_cases hne : ∃ v i, S v ∧ C v = some i
  · obtain ⟨v, i, hv, hi⟩ := hne
    refine Or.inl ⟨i, fun w hw => ?_⟩
    rcases h v w hv hw with rfl | ⟨j, hj, hj'⟩
    · exact hi
    · rw [hj', ← hj, hi]
  · have hnone : ∀ v, S v → C v = none := by
      intro v hv
      by_contra hv'
      obtain ⟨i, hi⟩ := Option.ne_none_iff_exists'.mp hv'
      exact hne ⟨v, i, hv, hi⟩
    refine Or.inr ⟨fun v w hv hw => ?_, hnone⟩
    rcases h v w hv hw with heq | ⟨i, hi, -⟩
    · exact heq
    · rw [hnone v hv] at hi
      cases hi

/-- A single value without class is always the result. -/
theorem Fallback.absorbsOn_of_subsingleton (h : Fallback f C) (hS : ∀ v w, S v → S w → v = w)
    (hnone : ∀ v, S v → C v = none) : AbsorbsOn f (fun _ => True) S where
  step _ _ _ _ := trivial
  comm x a a' _ ha ha' := by rw [hS a a' ha ha']
  absorb x a _ ha := by
    have hf : ∀ y, f y a = a := fun y => h.incoming y a fun _ => hnone a ha
    rw [hf, hf]

section Map

variable {γ : Type*} {φ : γ → α} {g : γ → γ → γ} {Q T : γ → Prop}

/-- Steps that commute keep commuting under another name of the values. -/
theorem CommutesOn.map (hg : CommutesOn g Q T) (hφ : ∀ c d, f (φ c) (φ d) = φ (g c d))
    (hS : ∀ a, S a → ∃ c, T c ∧ a = φ c) : CommutesOn f (fun x => ∃ c, Q c ∧ x = φ c) S where
  step := by
    rintro _ a ⟨c, hc, rfl⟩ ha
    obtain ⟨d, hd, rfl⟩ := hS a ha
    exact ⟨g c d, hg.step c d hc hd, hφ c d⟩
  comm := by
    rintro _ a a' ⟨c, hc, rfl⟩ ha ha'
    obtain ⟨d, hd, rfl⟩ := hS a ha
    obtain ⟨d', hd', rfl⟩ := hS a' ha'
    rw [hφ, hφ, hφ, hφ, hg.comm c d d' hc hd hd']

theorem AbsorbsOn.map (hg : AbsorbsOn g Q T) (hφ : ∀ c d, f (φ c) (φ d) = φ (g c d))
    (hS : ∀ a, S a → ∃ c, T c ∧ a = φ c) : AbsorbsOn f (fun x => ∃ c, Q c ∧ x = φ c) S where
  toCommutesOn := hg.toCommutesOn.map hφ hS
  absorb := by
    rintro _ a ⟨c, hc, rfl⟩ ha
    obtain ⟨d, hd, rfl⟩ := hS a ha
    rw [hφ, hφ, hg.absorb c d hc hd]

theorem foldl_map_eq (hφ : ∀ c d, f (φ c) (φ d) = φ (g c d)) (l : List γ) (c : γ) :
    (l.map φ).foldl f (φ c) = φ (l.foldl g c) := by
  induction l generalizing c with
  | nil => rfl
  | cons d l ih => rw [List.map_cons, List.foldl_cons, hφ, ih, List.foldl_cons]

/-- Folds that do not depend on order under one name of the values do not under another. -/
theorem OrderFree.comap {c : γ} (h : OrderFree f (φ c) S) (hinj : Function.Injective φ)
    (hφ : ∀ c d, f (φ c) (φ d) = φ (g c d)) : OrderFree g c fun c => S (φ c) := by
  intro l l' hl hp
  apply hinj
  rw [← foldl_map_eq hφ, ← foldl_map_eq hφ]
  refine h _ _ (fun a ha => ?_) (hp.map φ)
  obtain ⟨d, hd, rfl⟩ := List.mem_map.mp ha
  exact hl d hd

/-- Within one class, whatever the initial value is: values outside the class are replaced by
the first entry, so the entries have to commute among themselves. -/
theorem Fallback.commutesOn_map (h : Fallback f C) {i : ι} (hg : CommutesOn g Q T)
    (hφ : ∀ c d, f (φ c) (φ d) = φ (g c d)) (hC : ∀ c, C (φ c) = some i)
    (hS : ∀ a, S a → ∃ c, T c ∧ a = φ c) (hTQ : ∀ c, T c → Q c)
    (hcomm : ∀ c d, T c → T d → g c d = g d c) :
    CommutesOn f (fun x => C x = some i → ∃ c, Q c ∧ x = φ c) S := by
  have hin : ∀ {x a}, S a → C x ≠ some i → f x a = a := by
    intro x a ha hx
    obtain ⟨c, -, rfl⟩ := hS a ha
    exact h.incoming x _ fun heq => absurd (heq.trans (hC c)) hx
  refine ⟨fun x a hx ha _ => ?_, fun x a a' hx ha ha' => ?_⟩
  · by_cases hxi : C x = some i
    · exact (hg.map hφ hS).step x a (hx hxi) ha
    · rw [hin ha hxi]
      obtain ⟨c, hc, rfl⟩ := hS a ha
      exact ⟨c, hTQ c hc, rfl⟩
  · by_cases hxi : C x = some i
    · exact (hg.map hφ hS).comm x a a' (hx hxi) ha ha'
    · rw [hin ha hxi, hin ha' hxi]
      obtain ⟨c, hc, rfl⟩ := hS a ha
      obtain ⟨d, hd, rfl⟩ := hS a' ha'
      rw [hφ, hφ, hcomm c d hc hd]

theorem Fallback.absorbsOn_map (h : Fallback f C) {i : ι} (hg : AbsorbsOn g Q T)
    (hφ : ∀ c d, f (φ c) (φ d) = φ (g c d)) (hC : ∀ c, C (φ c) = some i)
    (hS : ∀ a, S a → ∃ c, T c ∧ a = φ c) (hTQ : ∀ c, T c → Q c)
    (hcomm : ∀ c d, T c → T d → g c d = g d c) (hidem : ∀ c, T c → g c c = c) :
    AbsorbsOn f (fun x => C x = some i → ∃ c, Q c ∧ x = φ c) S where
  toCommutesOn := h.commutesOn_map hg.toCommutesOn hφ hC hS hTQ hcomm
  absorb := by
    intro x a hx ha
    by_cases hxi : C x = some i
    · exact (hg.map hφ hS).absorb x a (hx hxi) ha
    · obtain ⟨c, hc, rfl⟩ := hS a ha
      have hin : f x (φ c) = φ c :=
        h.incoming x _ fun heq => absurd (heq.trans (hC c)) hxi
      rw [hin, hφ, hidem c hc]

end Map

end Fallback

/-! ## Maxima by a key -/

section MaxBy

variable {κ : Type*} [LinearOrder κ] {key : α → κ} {g : α → α → α} {P S : α → Prop}

/-- The larger of two values by a key, the first one on a tie, does not depend on order where
the key tells values apart. -/
theorem maxBy_comm (hg : ∀ a b, g a b = if key b ≤ key a then a else b) {a b : α}
    (hinj : key a = key b → a = b) : g a b = g b a := by
  rw [hg, hg]
  split <;> split
  · exact hinj (le_antisymm ‹_› ‹_›)
  · rfl
  · rfl
  · exact absurd (le_of_not_ge ‹_›) ‹_›

theorem key_maxBy (hg : ∀ a b, g a b = if key b ≤ key a then a else b) (a b : α) :
    key (g a b) = max (key a) (key b) := by
  rw [hg]
  split
  · exact (max_eq_left ‹_›).symm
  · exact (max_eq_right (le_of_not_ge ‹_›)).symm

theorem absorbsOn_maxBy (hg : ∀ a b, g a b = if key b ≤ key a then a else b)
    (hinj : ∀ a b, P a → P b → key a = key b → a = b) (hSP : ∀ a, S a → P a) :
    AbsorbsOn g P S := by
  have hP : ∀ x a, P x → P a → P (g x a) := by
    intro x a hx ha
    rw [hg]
    split
    · exact hx
    · exact ha
  refine ⟨⟨fun x a hx ha => hP x a hx (hSP a ha), fun x a a' hx ha ha' => ?_⟩,
    fun x a hx ha => ?_⟩
  · apply hinj _ _ (hP _ _ (hP _ _ hx (hSP a ha)) (hSP a' ha'))
      (hP _ _ (hP _ _ hx (hSP a' ha')) (hSP a ha))
    simp only [key_maxBy hg, sup_right_comm]
  · apply hinj _ _ (hP _ _ (hP _ _ hx (hSP a ha)) (hSP a ha)) (hP _ _ hx (hSP a ha))
    simp only [key_maxBy hg, max_assoc, max_self]

end MaxBy

theorem absorbsOn_max [LinearOrder α] (S : α → Prop) :
    AbsorbsOn (max : α → α → α) (fun _ => True) S where
  step _ _ _ _ := trivial
  comm x a a' _ _ _ := sup_right_comm x a a'
  absorb x a _ _ := by rw [max_assoc, max_self]

theorem absorbsOn_min [LinearOrder α] (S : α → Prop) :
    AbsorbsOn (min : α → α → α) (fun _ => True) S where
  step _ _ _ _ := trivial
  comm x a a' _ _ _ := inf_right_comm x a a'
  absorb x a _ _ := by rw [min_assoc, min_self]

/-! ## Tournaments -/

section Tournament

variable {g : α → α → α}

/-- A function that always returns one of its arguments. -/
def Selective (g : α → α → α) : Prop := ∀ a b, g a b = a ∨ g a b = b

/-- `a` beats `b` under `g`. -/
def Beats (g : α → α → α) (a b : α) : Prop := g a b = a ∧ a ≠ b

/-- Three values that beat each other in a circle. -/
def Cycle (g : α → α → α) (a b c : α) : Prop := Beats g a b ∧ Beats g b c ∧ Beats g c a

theorem Cycle.rotate {a b c : α} (h : Cycle g a b c) : Cycle g b c a := ⟨h.2.1, h.2.2, h.1⟩

theorem Beats.eq_right (hc : ∀ a b, g a b = g b a) {a b : α} (h : Beats g a b) : g b a = a :=
  (hc b a).trans h.1

theorem Beats.asymm (hc : ∀ a b, g a b = g b a) {a b : α} (h : Beats g a b) :
    ¬ Beats g b a := fun h' => h.2 (h.1.symm.trans ((hc a b).trans h'.1))

/-- Of two distinct values one beats the other. -/
theorem beats_total (hs : Selective g) (hc : ∀ a b, g a b = g b a) {a b : α} (hab : a ≠ b) :
    Beats g a b ∨ Beats g b a := by
  rcases hs a b with h | h
  · exact Or.inl ⟨h, hab⟩
  · exact Or.inr ⟨(hc b a).trans h, hab.symm⟩

/-- A tournament that does not depend on order does not depend on repetition either. -/
theorem CommutesOn.absorbsOn_of_selective {P : α → Prop} {S : α → Prop} (h : CommutesOn g P S)
    (hs : Selective g) : AbsorbsOn g P S where
  toCommutesOn := h
  absorb x a _ _ := by
    rcases hs x a with hx | ha
    · rw [hx, hx]
    · rw [ha]
      exact (hs a a).elim id id

theorem selective_self (hs : Selective g) (a : α) : g a a = a := (hs a a).elim id id

/-- Two steps of a tournament commute unless the three values form a cycle. -/
theorem comm_of_not_cycle (hs : Selective g) (hc : ∀ a b, g a b = g b a) {x v w : α}
    (h₁ : ¬ Cycle g x v w) (h₂ : ¬ Cycle g x w v) : g (g x v) w = g (g x w) v := by
  by_cases hxv : x = v
  · subst hxv
    rw [selective_self hs, hc (g x w) x]
    rcases hs x w with h | h <;> rw [h]
    · exact (selective_self hs x).symm
    · exact h.symm
  by_cases hxw : x = w
  · subst hxw
    rw [selective_self hs, hc (g x v) x]
    rcases hs x v with h | h <;> rw [h]
    · exact selective_self hs x
    · exact h
  by_cases hvw : v = w
  · rw [hvw]
  rcases beats_total hs hc hxv with hv | hv <;> rcases beats_total hs hc hxw with hw | hw
  · rw [hv.1, hw.1, hv.1]
  · rw [hv.1, hw.eq_right hc]
    rcases beats_total hs hc hvw with h | h
    · exact absurd ⟨hv, h, hw⟩ h₁
    · exact h.1.symm
  · rw [hv.eq_right hc, hw.1, hv.eq_right hc]
    rcases beats_total hs hc hvw with h | h
    · exact h.1
    · exact absurd ⟨hw, h, hv⟩ h₂
  · rw [hv.eq_right hc, hw.eq_right hc, hc]

/-- The accumulators a tournament can reach from `b`: `b` itself, and what beats it. -/
theorem commutesOn_of_cycles_beaten (hs : Selective g) (hc : ∀ a b, g a b = g b a)
    {S : α → Prop} {b : α}
    (h : ∀ x y z, (x = b ∨ S x) → (y = b ∨ S y) → (z = b ∨ S z) → Cycle g x y z →
      Beats g b x ∧ Beats g b y ∧ Beats g b z) :
    CommutesOn g (fun x => x = b ∨ (S x ∧ Beats g x b)) S where
  step := by
    rintro x v (rfl | ⟨hx, hxb⟩) hv
    · rcases hs x v with h' | h'
      · exact Or.inl h'
      · by_cases hxv : x = v
        · exact Or.inl (h'.trans hxv.symm)
        · exact Or.inr ⟨h'.symm ▸ hv, by rw [h']; exact ⟨(hc v x).trans h', Ne.symm hxv⟩⟩
    · rcases hs x v with h' | h'
      · exact Or.inr (h'.symm ▸ ⟨hx, hxb⟩)
      by_cases hvb : v = b
      · exact Or.inl (h'.trans hvb)
      right
      rw [h']
      refine ⟨hv, ?_⟩
      rcases beats_total hs hc hvb with hv' | hv'
      · exact hv'
      -- Otherwise `x`, `b` and `v` beat each other in a circle through `b`.
      by_cases hxv : x = v
      · exact hxv ▸ hxb
      have hcyc : Cycle g x b v := ⟨hxb, hv', (hc v x).trans h', fun e => hxv e.symm⟩
      exact absurd (h x b v (Or.inr hx) (Or.inl rfl) (Or.inr hv) hcyc).2.1 fun hbb => hbb.2 rfl
  comm := by
    intro x v w hx hv hw
    have hx' : x = b ∨ S x := hx.imp id And.left
    have key : ∀ {v w}, S v → S w → ¬ Cycle g x v w := by
      intro v w hv hw hcyc
      have hbx := (h x v w hx' (Or.inr hv) (Or.inr hw) hcyc).1
      rcases hx with rfl | ⟨-, hxb⟩
      · exact hbx.2 rfl
      · exact hxb.asymm hc hbx
    exact comm_of_not_cycle hs hc (key hv hw) (key hw hv)

/-- Without a cycle among the entries, they commute with each other. -/
theorem commutesOn_of_no_cycle (hs : Selective g) (hc : ∀ a b, g a b = g b a) {S : α → Prop}
    (h : ∀ x y z, S x → S y → S z → ¬ Cycle g x y z) : CommutesOn g S S where
  step x a hx ha := (hs x a).elim (fun e => e.symm ▸ hx) fun e => e.symm ▸ ha
  comm x a a' hx ha ha' := comm_of_not_cycle hs hc (h x a a' hx ha ha') (h x a' a hx ha' ha)

/-- **Folds of a tournament.** They do not depend on order exactly when every cycle through
the entries and the initial value consists of values that the initial value beats. -/
theorem orderFree_iff_of_selective (hs : Selective g) (hc : ∀ a b, g a b = g b a)
    {S : α → Prop} {b : α} :
    OrderFree g b S ↔ ∀ x y z, (x = b ∨ S x) → (y = b ∨ S y) → (z = b ∨ S z) →
      Cycle g x y z → Beats g b x ∧ Beats g b y ∧ Beats g b z := by
  refine ⟨fun hfree => ?_, fun h =>
    (commutesOn_of_cycles_beaten hs hc h).orderFree (Or.inl rfl)⟩
  -- No cycle goes through `b`: folding its other two values in both orders differs.
  have hb : ∀ y z, S y → S z → ¬ Cycle g b y z := by
    rintro y z hy hz ⟨hby, hyz, hzb⟩
    have h := hfree [y, z] [z, y] (by simp [hy, hz]) (List.Perm.swap z y [])
    simp only [List.foldl_cons, List.foldl_nil, hby.1, hzb.eq_right hc, hyz.eq_right hc] at h
    exact hyz.2 h
  -- Nor does a cycle consist of values that all beat `b`.
  have hW : ∀ x y z, S x → S y → S z → Cycle g x y z →
      ¬ (Beats g x b ∧ Beats g y b ∧ Beats g z b) := by
    rintro x y z hx hy hz ⟨hxy, hyz, hzx⟩ ⟨hxb, hyb, -⟩
    have h := hfree [x, y, z] [y, z, x] (by simp [hx, hy, hz])
      (((List.Perm.swap y x [z]).trans ((List.Perm.swap z x []).cons y)))
    simp only [List.foldl_cons, List.foldl_nil, hxb.eq_right hc, hyb.eq_right hc, hxy.1, hyz.1,
      hzx.eq_right hc, hxy.eq_right hc] at h
    exact hzx.2 h.symm
  -- A cycle with a value that `b` beats and one that beats `b` gives a cycle through `b`.
  have hstep : ∀ {x y z}, S x → S y → S z → Cycle g x y z → Beats g b x → Beats g b y := by
    intro x y z hx hy _ hcyc hbx
    by_cases hyb : y = b
    · exact absurd (hyb ▸ hcyc.1) (hbx.asymm hc)
    rcases beats_total hs hc hyb with h | h
    · exact absurd ⟨hbx, hcyc.1, h⟩ (hb x y hx hy)
    · exact h
  intro x y z hx hy hz hcyc
  have hxS : S x := hx.resolve_left fun e => by
    subst e
    exact hb y z (hy.resolve_left fun e => hcyc.1.2 e.symm) (hz.resolve_left hcyc.2.2.2) hcyc
  have hyS : S y := hy.resolve_left fun e => by
    subst e
    exact hb z x (hz.resolve_left fun e => hcyc.2.1.2 e.symm) hxS hcyc.rotate
  have hzS : S z := hz.resolve_left fun e => by
    subst e
    exact hb x y hxS hyS hcyc.rotate.rotate
  by_cases hxb : Beats g b x
  · have hyb := hstep hxS hyS hzS hcyc hxb
    exact ⟨hxb, hyb, hstep hyS hzS hxS hcyc.rotate hyb⟩
  by_cases hyb : Beats g b y
  · have hzb := hstep hyS hzS hxS hcyc.rotate hyb
    exact absurd (hstep hzS hxS hyS hcyc.rotate.rotate hzb) hxb
  by_cases hzb : Beats g b z
  · exact absurd (hstep hzS hxS hyS hcyc.rotate.rotate hzb) hxb
  -- Here no value is beaten by `b`, so each of them beats it unless it is `b`.
  have hbeat : ∀ {x y z}, S x → S y → S z → Cycle g x y z → ¬ Beats g b x → Beats g x b := by
    intro x y z _ hy hz hcyc hnx
    by_cases hxb : x = b
    · exact absurd (hxb ▸ hcyc) (hb y z hy hz)
    · exact (beats_total hs hc hxb).resolve_right hnx
  exact absurd ⟨hbeat hxS hyS hzS hcyc hxb, hbeat hyS hzS hxS hcyc.rotate hyb,
    hbeat hzS hxS hyS hcyc.rotate.rotate hzb⟩ (hW x y z hxS hyS hzS hcyc)

end Tournament

end Fold
