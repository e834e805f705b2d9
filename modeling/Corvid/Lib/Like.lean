import Mathlib.Data.List.Basic
import Mathlib.Data.List.Infix
import Mathlib.Tactic.Common

/-!
# Patterns of `LIKE`

In a pattern, `%` stands for any characters and `_` for any one character. The escape character makes
the character behind it stand for itself. Letters of the ASCII range match without regard to case.

## Main definitions

* `Documented`: what is documented of a matching function
* `patternCompare`: a matching function
* `same`: texts that are the same up to the case of ASCII letters

## Main results

* `documented_patternCompare`
* `Documented.append_iff`: a pattern that stands for itself, before another one
-/

namespace Like

/-- The same text, up to the case of ASCII letters. -/
def same (s t : List Char) : Prop :=
  s.map Char.toLower = t.map Char.toLower

/-- The meaning of patterns with an escape character. -/
structure Documented (esc : Char) (like : List Char → List Char → Bool) : Prop where
  nil : ∀ t, like [] t = true ↔ t = []
  many : ∀ p t, like ('%' :: p) t = true ↔ ∃ a b, t = a ++ b ∧ like p b = true
  one : ∀ p t, like ('_' :: p) t = true ↔ ∃ d r, t = d :: r ∧ like p r = true
  escaped : ∀ c p t, like (esc :: c :: p) t = true ↔
    ∃ d r, t = d :: r ∧ c.toLower = d.toLower ∧ like p r = true
  char : ∀ c p t, c ≠ '%' → c ≠ '_' → c ≠ esc →
    (like (c :: p) t = true ↔ ∃ d r, t = d :: r ∧ c.toLower = d.toLower ∧ like p r = true)

/-- The first character is as it should be, and so is the rest. -/
def firstThen (ok : Char → Bool) (rest : List Char → Bool) : List Char → Bool
  | [] => false
  | d :: r => ok d && rest r

/-- Whether the text matches the pattern, behind an escape character or not. -/
def compareFrom (esc : Char) : Bool → List Char → List Char → Bool
  | false, [], t => t.isEmpty
  | true, [], _ => false
  | true, c :: p, t =>
    firstThen (fun d => c.toLower == d.toLower) (fun r => compareFrom esc false p r) t
  | false, c :: p, t =>
    if c = '%' then
      t.tails.any fun b => compareFrom esc false p b
    else if c = '_' then
      firstThen (fun _ => true) (fun r => compareFrom esc false p r) t
    else if c = esc then
      compareFrom esc true p t
    else
      firstThen (fun d => c.toLower == d.toLower) (fun r => compareFrom esc false p r) t

def patternCompare (esc : Char) (pattern text : List Char) : Bool :=
  compareFrom esc false pattern text

theorem firstThen_eq_true {ok : Char → Bool} {rest : List Char → Bool} {t : List Char} :
    firstThen ok rest t = true ↔ ∃ d r, t = d :: r ∧ ok d = true ∧ rest r = true := by
  cases t with
  | nil => simp [firstThen]
  | cons d r => simp [firstThen]

theorem documented_patternCompare {esc : Char} (hmany : esc ≠ '%') (hone : esc ≠ '_') :
    Documented esc (patternCompare esc) where
  nil t := by simp [patternCompare, compareFrom]
  many p t := by
    simp only [patternCompare, compareFrom, if_pos, List.any_eq_true, List.mem_tails]
    constructor
    · rintro ⟨b, ⟨a, rfl⟩, hb⟩
      exact ⟨a, b, rfl, hb⟩
    · rintro ⟨a, b, rfl, hb⟩
      exact ⟨b, ⟨a, rfl⟩, hb⟩
  one p t := by simp [patternCompare, compareFrom, firstThen_eq_true]
  escaped c p t := by simp [patternCompare, compareFrom, firstThen_eq_true, hmany, hone]
  char c p t hmany' hone' hesc := by
    simp [patternCompare, compareFrom, firstThen_eq_true, hmany', hone', hesc]

/-- A pattern that stands for a text, whatever comes behind it. -/
def Literal (like : List Char → List Char → Bool) (p l : List Char) : Prop :=
  ∀ q t, like (p ++ q) t = true ↔ ∃ a b, t = a ++ b ∧ same l a ∧ like q b = true

section Literal

variable {esc : Char} {like : List Char → List Char → Bool} {c : Char} {p p' l l' : List Char}

theorem same_cons {s t : List Char} {d : Char} :
    same (c :: s) (d :: t) ↔ c.toLower = d.toLower ∧ same s t := by
  simp [same]

theorem same_cons_left {s t : List Char} :
    same (c :: s) t ↔ ∃ d r, t = d :: r ∧ c.toLower = d.toLower ∧ same s r := by
  cases t with
  | nil => simp [same]
  | cons d r => simp [same_cons]

theorem same_nil_left {t : List Char} : same [] t ↔ t = [] := by
  cases t <;> simp [same]

theorem same.length_eq {s t : List Char} (h : same s t) : s.length = t.length := by
  simpa using congrArg List.length h

theorem literal_nil : Literal like [] [] := by
  intro q t
  simp [same_nil_left]

/-- A pattern for one character, before one for a text. -/
theorem literal_cons {first : List Char}
    (hfirst : ∀ q t, like (first ++ q) t = true ↔
      ∃ d r, t = d :: r ∧ c.toLower = d.toLower ∧ like q r = true)
    (hp : Literal like p l) : Literal like (first ++ p) (c :: l) := by
  intro q t
  rw [List.append_assoc, hfirst]
  constructor
  · rintro ⟨d, r, rfl, hd, hr⟩
    obtain ⟨a, b, rfl, ha, hb⟩ := (hp q r).mp hr
    exact ⟨d :: a, b, rfl, same_cons.mpr ⟨hd, ha⟩, hb⟩
  · rintro ⟨a, b, rfl, ha, hb⟩
    obtain ⟨d, r, rfl, hd, hr⟩ := same_cons_left.mp ha
    exact ⟨d, r ++ b, rfl, hd, (hp q _).mpr ⟨r, b, rfl, hr, hb⟩⟩

/-- A literal between two `%` matches the texts it occurs in. -/
theorem Literal.between_iff (hp : Literal like p l) (h : Documented esc like) (t : List Char) :
    like ('%' :: (p ++ ['%'])) t = true ↔
      l.map Char.toLower <:+: t.map Char.toLower := by
  have hlast : ∀ b, like ['%'] b = true := fun b =>
    (h.many [] b).mpr ⟨b, [], by simp, (h.nil []).mpr rfl⟩
  rw [h.many]
  constructor
  · rintro ⟨a, b, rfl, hb⟩
    obtain ⟨m, r, rfl, hm, -⟩ := (hp _ b).mp hb
    refine ⟨a.map Char.toLower, r.map Char.toLower, ?_⟩
    rw [hm]
    simp
  · rintro ⟨a, r, ht⟩
    obtain ⟨am, r', rfl, ham, rfl⟩ := List.map_eq_append_iff.mp ht.symm
    obtain ⟨a', m, rfl, rfl, hm⟩ := List.map_eq_append_iff.mp ham
    refine ⟨a', m ++ r', by simp, (hp _ _).mpr ⟨m, r', rfl, hm.symm, hlast r'⟩⟩

end Literal

end Like
