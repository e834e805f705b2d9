import Corvid.Lib.Fold
import Mathlib.Data.List.Induction

/-!
# Properties of a fold that survive further entries

A property of folded values persists when it still holds after one more entry, at either end of
the list. This is how a violation of an upper bound behaves as long as the step function only
moves up; the lemmas say exactly when it does for a step that may also fall back to the incoming
entry.

## Main definitions

* `Persists`: the property survives one more entry at either end
* `Reachable`: some list of entries folds to the property

## Main results

* `persists_iff`: a persistence proof by good entries and reachability
* `persists_of_orderFree`, `persists_of_join`, `persists_of_sim`: ways to persist
* `persists_iff_of_last`: the incoming entry alone decides
* `persists_iff_of_fallback`: the property lives in one class of values
-/

namespace Fold

variable {α : Type*} {f : α → α → α} {b : α} {S V Good : α → Prop}

/-- `V` survives adding an entry of `S` at either end. -/
def Persists (f : α → α → α) (b : α) (S V : α → Prop) : Prop :=
  ∀ l : List α, (∀ a ∈ l, S a) → V (l.foldl f b) → ∀ a, S a →
    V ((l ++ [a]).foldl f b) ∧ V ((a :: l).foldl f b)

/-- Some list of entries folds to a value of `V`. -/
def Reachable (f : α → α → α) (b : α) (S V : α → Prop) : Prop :=
  ∃ l : List α, (∀ a ∈ l, S a) ∧ V (l.foldl f b)

/-- An entry breaks `V` at some list. -/
def Breaks (f : α → α → α) (b : α) (S V : α → Prop) (a : α) : Prop :=
  ∃ l : List α, (∀ a ∈ l, S a) ∧ V (l.foldl f b) ∧
    ¬ (V ((l ++ [a]).foldl f b) ∧ V ((a :: l).foldl f b))

/-- Persistence holds exactly when all entries are good or nothing is reached, if good entries
keep `V` and each other entry breaks it as soon as something is reached. -/
theorem persists_iff {Reach : Prop} (hgood : (∀ a, S a → Good a) → Persists f b S V)
    (hbad : ∀ a, S a → ¬ Good a → Reach → Breaks f b S V a)
    (hreach : (¬ ∀ a, S a → Good a) → Reachable f b S V → Reach) :
    Persists f b S V ↔ (∀ a, S a → Good a) ∨ ¬ Reach := by
  constructor
  · intro h
    by_cases hall : ∀ a, S a → Good a
    · exact Or.inl hall
    refine Or.inr fun hr => hall fun a ha => ?_
    by_contra hna
    obtain ⟨l, hl, hV, hnot⟩ := hbad a ha hna hr
    exact hnot (h l hl hV a ha)
  · rintro (hall | hnr)
    · exact hgood hall
    · intro l hl hV a ha
      by_cases hall : ∀ a, S a → Good a
      · exact hgood hall l hl hV a ha
      · exact absurd (hreach hall ⟨l, hl, hV⟩) hnr

/-- Where order does not matter, it is enough to look at the last entry. The invariant `R`
holds of all folded values. -/
theorem persists_of_orderFree (hfree : OrderFree f b S) {R : α → Prop} (hb : R b)
    (hR : ∀ x a, R x → S a → R (f x a)) (hV : ∀ x a, R x → S a → V x → V (f x a)) :
    Persists f b S V := by
  intro l hl hVl a ha
  have hRl : R (l.foldl f b) := by
    clear hVl
    induction l using List.reverseRecOn with
    | nil => exact hb
    | append_singleton l x ih =>
      rw [List.foldl_append]
      exact hR _ x (ih fun y hy => hl y (by simp [hy])) (hl x (by simp))
  have hlast : V ((l ++ [a]).foldl f b) := by
    rw [List.foldl_append]
    exact hV _ a hRl ha hVl
  refine ⟨hlast, ?_⟩
  have hall : ∀ x ∈ l ++ [a], S x := by
    intro x hx
    rcases List.mem_append.mp hx with hx | hx
    · exact hl x hx
    · exact List.mem_singleton.mp hx ▸ ha
  rwa [hfree _ _ hall (List.perm_append_singleton a l)]

/-- A property that a step has exactly when one of its arguments has it persists. The
invariant `R` holds of all folded values. -/
theorem persists_of_join {R : α → Prop} (hb : R b) (hR : ∀ x a, R x → S a → R (f x a))
    (hV : ∀ x a, R x → S a → (V (f x a) ↔ V x ∨ V a)) : Persists f b S V := by
  have hfold : ∀ (l : List α) (x : α), R x → (∀ a ∈ l, S a) →
      (V (l.foldl f x) ↔ V x ∨ ∃ a ∈ l, V a) := by
    intro l
    induction l with
    | nil => simp
    | cons a l ih =>
      intro x hx hl
      have ha := hl a List.mem_cons_self
      rw [List.foldl_cons, ih _ (hR x a hx ha) fun y hy => hl y (List.mem_cons_of_mem _ hy),
        hV x a hx ha]
      simp [or_assoc]
  intro l hl hVl a ha
  have hl' : ∀ x ∈ a :: l, S x := by
    intro x hx
    rcases List.mem_cons.mp hx with rfl | hx
    · exact ha
    · exact hl x hx
  have hla : ∀ x ∈ l ++ [a], S x := fun x hx =>
    hl' x ((List.perm_append_singleton a l).mem_iff.mp hx)
  rw [hfold l b hb hl] at hVl
  refine ⟨(hfold _ b hb hla).mpr ?_, (hfold _ b hb hl').mpr ?_⟩
  · exact hVl.imp id fun ⟨x, hx, h⟩ => ⟨x, List.mem_append_left _ hx, h⟩
  · exact hVl.imp id fun ⟨x, hx, h⟩ => ⟨x, List.mem_cons_of_mem _ hx, h⟩

/-- A property that grows along a relation which the step increases and preserves persists. -/
theorem persists_of_sim (rel : α → α → Prop) {R : α → Prop} (hb : R b)
    (hR : ∀ x a, R x → S a → R (f x a)) (hgrow : ∀ x a, R x → S a → rel x (f x a))
    (hstep : ∀ x y a, R x → R y → S a → rel x y → rel (f x a) (f y a))
    (hV : ∀ x y, R x → R y → rel x y → V x → V y) : Persists f b S V := by
  have hfold : ∀ (l : List α) (x y : α), R x → R y → (∀ a ∈ l, S a) → rel x y →
      R (l.foldl f x) ∧ R (l.foldl f y) ∧ rel (l.foldl f x) (l.foldl f y) := by
    intro l
    induction l with
    | nil => exact fun x y hx hy _ h => ⟨hx, hy, h⟩
    | cons a l ih =>
      intro x y hx hy hl h
      have ha := hl a List.mem_cons_self
      exact ih _ _ (hR x a hx ha) (hR y a hy ha) (fun z hz => hl z (List.mem_cons_of_mem _ hz))
        (hstep x y a hx hy ha h)
  intro l hl hVl a ha
  obtain ⟨hRl, hRl', hrel⟩ := hfold l b (f b a) hb (hR b a hb ha) hl (hgrow b a hb ha)
  refine ⟨?_, hV _ _ hRl hRl' hrel hVl⟩
  rw [List.foldl_append]
  exact hV _ _ hRl (hR _ a hRl ha) (hgrow _ a hRl ha) hVl

/-- What is reached is reached by the initial value or by an entry, if a step cannot create
`V` from nothing. -/
theorem Reachable.of_prime (hprime : ∀ x a, S a → V (f x a) → V x ∨ V a)
    (h : Reachable f b S V) : V b ∨ ∃ a, S a ∧ V a := by
  obtain ⟨l, hl, hV⟩ := h
  induction l using List.reverseRecOn with
  | nil => exact Or.inl hV
  | append_singleton l x ih =>
    rw [List.foldl_append] at hV
    rcases hprime _ x (hl x (by simp)) hV with hV | hV
    · exact ih (fun a ha => hl a (by simp [ha])) hV
    · exact Or.inr ⟨x, hl x (by simp), hV⟩

/-- An entry that ends `V` wherever it comes last breaks it once it is reached. -/
theorem Breaks.of_last {a : α} (h : Reachable f b S V) (ha : ∀ x, V x → ¬ V (f x a)) :
    Breaks f b S V a := by
  obtain ⟨l, hl, hV⟩ := h
  refine ⟨l, hl, hV, fun hboth => ?_⟩
  have hlast := hboth.1
  rw [List.foldl_append] at hlast
  exact ha _ hV hlast

/-- If the incoming entry alone decides, `V` persists when all entries have it or none has. -/
theorem persists_iff_of_last (hlast : ∀ x a, S a → V (f x a) → V a)
    (hkeep : ∀ x a, S a → V x ∨ x = b → V a → V (f x a)) (hb : ¬ V b) :
    Persists f b S V ↔ (∀ a, S a → V a) ∨ ¬ (V b ∨ ∃ a, S a ∧ V a) := by
  refine persists_iff (fun hall => ?_) (fun a ha hna hr => ?_)
    fun _ h => h.of_prime fun x a ha hV => Or.inr (hlast x a ha hV)
  · -- Every nonempty list folds to `V`.
    have hfold : ∀ (l : List α) (x : α), (∀ a ∈ l, S a) → V x → V (l.foldl f x) := by
      intro l
      induction l with
      | nil => exact fun x _ hx => hx
      | cons a l ih =>
        intro x hl hx
        have ha := hl a List.mem_cons_self
        exact ih _ (fun y hy => hl y (List.mem_cons_of_mem _ hy))
          (hkeep x a ha (Or.inl hx) (hall a ha))
    intro l hl hV a ha
    refine ⟨?_, hfold l _ hl (hkeep b a ha (Or.inr rfl) (hall a ha))⟩
    rw [List.foldl_append]
    exact hkeep _ a ha (Or.inl hV) (hall a ha)
  · obtain ⟨v, hv, hVv⟩ := hr.resolve_left hb
    have hreach : Reachable f b S V :=
      ⟨[v], by simp [hv], hkeep b v hv (Or.inr rfl) hVv⟩
    exact Breaks.of_last hreach fun x _ hV => hna (hlast x a ha hV)

/-- If `V` only holds of values that the step does not combine, the incoming entry decides. -/
theorem persists_iff_of_noClass {ι : Type*} {C : α → Option ι} (h : Fallback f C)
    (hV : ∀ x, V x → C x = none) (hb : ¬ V b) :
    Persists f b S V ↔ (∀ a, S a → V a) ∨ ¬ (V b ∨ ∃ a, S a ∧ V a) := by
  refine persists_iff_of_last (fun x a _ hfa => ?_) (fun x a _ _ ha => ?_) hb
  · have hnone : C a = none := h.class_eq x a ▸ hV _ hfa
    rwa [h.incoming x a fun _ => hnone] at hfa
  · rwa [h.incoming x a fun _ => hV a ha]

/-- If `V` lives in one class of a step that falls back to the incoming entry, and the step
keeps it within the class, `V` persists when all entries are of the class or `V` is never
reached. -/
theorem persists_iff_of_fallback {ι : Type*} {C : α → Option ι} {i : ι} {R : α → Prop}
    {Q : Prop} (h : Fallback f C) (hclass : ∀ x, V x → C x = some i)
    (hfree : (∀ a, S a → C a = some i) → OrderFree f b S) (hb : R b)
    (hR : ∀ x a, R x → S a → C a = some i → R (f x a))
    (hV : ∀ x a, R x → S a → C a = some i → V x → V (f x a))
    (hreach : (¬ ∀ a, S a → C a = some i) → (Q ↔ Reachable f b S V)) :
    Persists f b S V ↔ (∀ a, S a → C a = some i) ∨ ¬ Q := by
  refine persists_iff (fun hall => ?_) (fun a ha hna hr => ?_) fun hall => (hreach hall).mpr
  · exact persists_of_orderFree (hfree hall) hb (fun x a hx ha => hR x a hx ha (hall a ha))
      fun x a hx ha => hV x a hx ha (hall a ha)
  · refine Breaks.of_last ((hreach fun hall => hna (hall a ha)).mp hr) fun x hx hV => ?_
    have hin : f x a = a := h.incoming x a fun heq => absurd (heq.symm.trans (hclass x hx)) hna
    exact hna (hclass a (hin ▸ hV))

end Fold
