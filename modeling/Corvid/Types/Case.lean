import Corvid.Syntax.Cursor

/-!
# Snake case and Pascal case

The label that approves a tool is derived from the name of the tool, and the name is derived back from
the label. Both conversions go letter by letter. Changing the case of a letter may yield several; for
letters other than those of ASCII it is a table.

## Main definitions

* `pascalCase`, `snakeCase`: the conversions
* `IsSnakeCase`: lower case letters and digits, with single underscores before letters

## Main results

* `snakeCase_pascalCase_iff`: the names that the conversions bring back are those in snake case
-/

namespace Corvid.Types

/-- The case of letters, which is the usual one in ASCII. -/
structure CaseTable where
  isUppercase : Char → Bool
  toUppercase : Char → List Char
  toLowercase : Char → List Char
  isUppercase_ascii : ∀ c : Char, c.toNat < 128 → isUppercase c = c.isUpper
  toUppercase_ascii : ∀ c : Char, c.toNat < 128 → toUppercase c = [c.toUpper]
  toLowercase_ascii : ∀ c : Char, c.toNat < 128 → toLowercase c = [c.toLower]

/-- No letters but those of ASCII have a case. -/
def CaseTable.ascii : CaseTable where
  isUppercase := Char.isUpper
  toUppercase c := [c.toUpper]
  toLowercase c := [c.toLower]
  isUppercase_ascii _ _ := rfl
  toUppercase_ascii _ _ := rfl
  toLowercase_ascii _ _ := rfl

variable (table : CaseTable)

/-- A letter after a separator is written in upper case, and the separators are left out. -/
def pascalLetters (isSeparator : Char → Bool) : Bool → List Char → List Char
  | _, [] => []
  | capNext, c :: cs =>
    if isSeparator c then pascalLetters isSeparator true cs
    else if capNext then table.toUppercase c ++ pascalLetters isSeparator false cs
    else c :: pascalLetters isSeparator false cs

/-- The conversion of the checker. -/
def pascalCase (snake : String) : String :=
  String.ofList (pascalLetters table (· == '_') true snake.toList)

/-- The conversion of the reachability pass, to which a hyphen is a separator as well. -/
def pascalCaseReachability (s : String) : String :=
  String.ofList (pascalLetters table (fun c => c == '_' || c == '-') true s.toList)

/-- A letter in upper case is written in lower case, after an underscore unless it is the first. -/
def snakeLetters : Bool → List Char → List Char
  | _, [] => []
  | isFirst, c :: cs =>
    if table.isUppercase c then
      (if isFirst then [] else ['_']) ++ table.toLowercase c ++ snakeLetters false cs
    else c :: snakeLetters false cs

def snakeCase (pascal : String) : String :=
  String.ofList (snakeLetters table true pascal.toList)

/-! ### Names -/

/-- A name as it is lexed. -/
structure Identifier where
  text : String
  start : text.toList.head?.any Syntax.isIdentStart = true
  continues : text.toList.all Syntax.isIdentContinue = true

/-- After the first letter, an underscore stands before a lower case letter, and there is no letter in
upper case. -/
def snakeTail : List Char → Bool
  | [] => true
  | '_' :: c :: cs => c.isLower && snakeTail cs
  | c :: cs => c != '_' && !c.isUpper && snakeTail cs

/-- Words of lower case letters and digits that begin with a letter, and one underscore between two of
them. -/
def IsSnakeCase (s : String) : Prop :=
  match s.toList with
  | [] => False
  | c :: cs => c.isLower = true ∧ snakeTail cs = true

instance (s : String) : Decidable (IsSnakeCase s) := by
  unfold IsSnakeCase
  cases s.toList with
  | nil => exact inferInstanceAs (Decidable False)
  | cons c cs => exact inferInstanceAs (Decidable (_ ∧ _))

/-! ### Letters -/

variable {table} {c : Char} {l : List Char} {isFirst : Bool}

theorem toNat_lt_of_isIdentContinue (h : Syntax.isIdentContinue c = true) : c.toNat < 128 := by
  by_contra hc
  rw [Syntax.matches_identContinue.chars c hc] at h
  cases h

/-- What the conversions rely on. -/
structure AsciiCase (c : Char) : Prop where
  toUpper_isUpper : c.isLower = true → c.toUpper.isUpper = true
  toLower_toUpper : c.isLower = true → c.toUpper.toLower = c
  isUpper_of_isLower : c.isLower = true → c.isUpper = false
  toUpper_eq : c.isLower = false → c.toUpper = c
  toLower_isLower : c.isUpper = true → c.toLower.isLower = true
  toUpper_ascii : c.toUpper.toNat < 128

theorem asciiCase (h : c.toNat < 128) : AsciiCase c := by
  have hall : ∀ n < 128, ∀ c, c = Char.ofNat n →
      (c.isLower = true → c.toUpper.isUpper = true) ∧ (c.isLower = true → c.toUpper.toLower = c) ∧
      (c.isLower = true → c.isUpper = false) ∧ (c.isLower = false → c.toUpper = c) ∧
      (c.isUpper = true → c.toLower.isLower = true) ∧ c.toUpper.toNat < 128 := by
    simp only [forall_eq]
    decide +kernel
  obtain ⟨h₁, h₂, h₃, h₄, h₅, h₆⟩ := hall c.toNat h c (Char.ofNat_toNat c).symm
  exact ⟨h₁, h₂, h₃, h₄, h₅, h₆⟩

theorem ne_underscore_of_isLower (h : c.isLower = true) : c ≠ '_' := by
  rintro rfl
  cases h

theorem ne_underscore_of_isUpper (h : c.isUpper = true) : c ≠ '_' := by
  rintro rfl
  cases h

/-! ### Conversions -/

/-- The conversion of the checker, letter by letter. -/
def pascal (table : CaseTable) : Bool → List Char → List Char := pascalLetters table (· == '_')

@[simp] theorem pascal_nil {capNext : Bool} : pascal table capNext [] = [] := rfl

@[simp] theorem pascal_underscore {capNext : Bool} :
    pascal table capNext ('_' :: l) = pascal table true l := rfl

theorem pascal_false (h : c ≠ '_') : pascal table false (c :: l) = c :: pascal table false l := by
  simp [pascal, pascalLetters, h]

theorem pascal_true (hc : c.toNat < 128) (h : c ≠ '_') :
    pascal table true (c :: l) = c.toUpper :: pascal table false l := by
  simp [pascal, pascalLetters, h, table.toUppercase_ascii c hc]

@[simp] theorem snakeLetters_nil : snakeLetters table isFirst [] = [] := rfl

theorem snakeLetters_upper (hc : c.toNat < 128) (h : c.isUpper = true) :
    snakeLetters table isFirst (c :: l) =
      (if isFirst then [] else ['_']) ++ c.toLower :: snakeLetters table false l := by
  simp [snakeLetters, table.isUppercase_ascii c hc, table.toLowercase_ascii c hc, h]

theorem snakeLetters_other (hc : c.toNat < 128) (h : c.isUpper = false) :
    snakeLetters table isFirst (c :: l) = c :: snakeLetters table false l := by
  simp [snakeLetters, table.isUppercase_ascii c hc, h]

/-- The first letter of a word, there and back. -/
theorem snake_word_lower (hc : c.toNat < 128) (h : c.isLower = true) :
    snakeLetters table isFirst (pascal table true (c :: l)) =
      (if isFirst then [] else ['_']) ++ c :: snakeLetters table false (pascal table false l) := by
  have hcase := asciiCase hc
  rw [pascal_true hc (ne_underscore_of_isLower h),
    snakeLetters_upper hcase.toUpper_ascii (hcase.toUpper_isUpper h), hcase.toLower_toUpper h]

theorem snake_word_upper (hc : c.toNat < 128) (h : c.isUpper = true) :
    snakeLetters table isFirst (pascal table true (c :: l)) =
      (if isFirst then [] else ['_']) ++ c.toLower :: snakeLetters table false (pascal table false l) := by
  have hcase := asciiCase hc
  have hlower : c.isLower = false := by
    by_contra hl
    rw [hcase.isUpper_of_isLower (by simpa using hl)] at h
    cases h
  rw [pascal_true hc (ne_underscore_of_isUpper h), hcase.toUpper_eq hlower, snakeLetters_upper hc h]

theorem snake_word_other (hc : c.toNat < 128) (hne : c ≠ '_') (hlower : c.isLower = false)
    (hupper : c.isUpper = false) :
    snakeLetters table isFirst (pascal table true (c :: l)) =
      c :: snakeLetters table false (pascal table false l) := by
  rw [pascal_true hc hne, (asciiCase hc).toUpper_eq hlower, snakeLetters_other hc hupper]

/-- What is brought back never has two underscores at its start, and none if it is all of the name. -/
theorem snake_word_start (hl : ∀ c ∈ l, c.toNat < 128) :
    snakeLetters table isFirst (pascal table true l) = [] ∨ ∃ d rest, d ≠ '_' ∧
      (snakeLetters table isFirst (pascal table true l) = d :: rest ∨ isFirst = false ∧
        snakeLetters table isFirst (pascal table true l) = '_' :: d :: rest) := by
  induction l with
  | nil => simp
  | cons c l ih =>
    rw [List.forall_mem_cons] at hl
    by_cases hne : c = '_'
    · subst hne
      exact ih hl.2
    have hcase := asciiCase hl.1
    right
    cases hlower : c.isLower with
    | true =>
      rw [snake_word_lower hl.1 hlower]
      cases isFirst with
      | true => exact ⟨_, _, hne, .inl rfl⟩
      | false => exact ⟨_, _, hne, .inr ⟨rfl, rfl⟩⟩
    | false =>
      cases hupper : c.isUpper with
      | true =>
        rw [snake_word_upper hl.1 hupper]
        have hlow := ne_underscore_of_isLower (hcase.toLower_isLower hupper)
        cases isFirst with
        | true => exact ⟨_, _, hlow, .inl rfl⟩
        | false => exact ⟨_, _, hlow, .inr ⟨rfl, rfl⟩⟩
      | false =>
        rw [snake_word_other hl.1 hne hlower hupper]
        exact ⟨_, _, hne, .inl rfl⟩

theorem toLower_ne (hc : c.toNat < 128) (h : c.isUpper = true) : c.toLower ≠ c := by
  intro heq
  have hlower := (asciiCase hc).toLower_isLower h
  rw [heq] at hlower
  rw [(asciiCase hc).isUpper_of_isLower hlower] at h
  cases h

/-- What comes after the first letter is brought back just when it is in snake case. -/
theorem snake_pascal_eq_iff (hl : ∀ c ∈ l, c.toNat < 128) :
    snakeLetters table false (pascal table false l) = l ↔ snakeTail l = true := by
  induction l using snakeTail.induct with
  | case1 => simp [snakeTail]
  | case2 c l ih =>
    rw [List.forall_mem_cons, List.forall_mem_cons] at hl
    have ih := ih hl.2.2
    rw [snakeTail, Bool.and_eq_true, ← ih, pascal_underscore]
    by_cases hne : c = '_'
    · subst hne
      refine iff_of_false (fun h => ?_) (by simp)
      rw [pascal_underscore] at h
      rcases @snake_word_start table l false hl.2.2 with hnil | ⟨d, rest, hd, h' | ⟨-, h'⟩⟩
      · rw [hnil] at h
        cases h
      · rw [h'] at h
        exact hd (List.cons.inj h).1
      · rw [h'] at h
        exact hd (List.cons.inj (List.cons.inj h).2).1
    cases hlower : c.isLower with
    | true =>
      rw [snake_word_lower hl.2.1 hlower]
      simp
    | false =>
      refine iff_of_false (fun h => ?_) (by simp)
      cases hupper : c.isUpper with
      | true =>
        rw [snake_word_upper hl.2.1 hupper] at h
        exact toLower_ne hl.2.1 hupper (List.cons.inj (List.cons.inj h).2).1
      | false =>
        rw [snake_word_other hl.2.1 hne hlower hupper] at h
        exact hne (List.cons.inj h).1
  | case3 c l hshape ih =>
    rw [List.forall_mem_cons] at hl
    have ih := ih hl.2
    have htail : snakeTail (c :: l) = (c != '_' && !c.isUpper && snakeTail l) := by
      rw [snakeTail]
      exact hshape
    rw [htail]
    by_cases hne : c = '_'
    · subst hne
      cases l with
      | nil => simp
      | cons d l => exact absurd rfl (hshape d l rfl)
    cases hupper : c.isUpper with
    | true =>
      refine iff_of_false (fun h => ?_) (by simp)
      rw [pascal_false hne, snakeLetters_upper hl.1 hupper] at h
      exact hne (List.cons.inj h).1.symm
    | false =>
      rw [pascal_false hne, snakeLetters_other hl.1 hupper]
      simp [hne, ih]

theorem Identifier.ascii (t : Identifier) : ∀ c ∈ t.text.toList, c.toNat < 128 :=
  fun c hc => toNat_lt_of_isIdentContinue (List.all_eq_true.mp t.continues c hc)

/-- The two conversions of the passes agree on names. -/
theorem pascalCaseReachability_eq (t : Identifier) :
    pascalCaseReachability table t.text = pascalCase table t.text := by
  have hletters : ∀ (l : List Char) (capNext : Bool), (∀ c ∈ l, c ≠ '-') →
      pascalLetters table (fun c => c == '_' || c == '-') capNext l =
        pascalLetters table (· == '_') capNext l := by
    intro l
    induction l with
    | nil => simp [pascalLetters]
    | cons c l ih =>
      intro capNext hl
      rw [List.forall_mem_cons] at hl
      simp [pascalLetters, hl.1, ih _ hl.2]
  rw [pascalCaseReachability, pascalCase, hletters]
  rintro c hc rfl
  exact absurd (List.all_eq_true.mp t.continues '-' hc) (by decide)

/-- The names that come back from their label are those in snake case. -/
theorem snakeCase_pascalCase_iff (t : Identifier) :
    snakeCase table (pascalCase table t.text) = t.text ↔ IsSnakeCase t.text := by
  have hascii := t.ascii
  have hstart := t.start
  rw [← String.toList_inj, snakeCase, pascalCase, String.toList_ofList, String.toList_ofList,
    IsSnakeCase]
  change snakeLetters table true (pascal table true t.text.toList) = _ ↔ _
  generalize t.text.toList = l at hascii hstart ⊢
  cases l with
  | nil => cases hstart
  | cons c l =>
    rw [List.forall_mem_cons] at hascii
    dsimp only
    by_cases hne : c = '_'
    · subst hne
      refine iff_of_false (fun h => ?_) fun h => absurd h.1 (by decide)
      rw [pascal_underscore] at h
      rcases @snake_word_start table l true hascii.2 with hnil | ⟨d, rest, hd, h' | ⟨hfalse, -⟩⟩
      · rw [hnil] at h
        cases h
      · rw [h'] at h
        exact hd (List.cons.inj h).1
      · cases hfalse
    cases hlower : c.isLower with
    | true =>
      rw [snake_word_lower hascii.1 hlower]
      simpa using snake_pascal_eq_iff hascii.2
    | false =>
      refine iff_of_false (fun h => ?_) (by simp)
      cases hupper : c.isUpper with
      | true =>
        rw [snake_word_upper hascii.1 hupper] at h
        exact toLower_ne hascii.1 hupper (List.cons.inj h).1
      | false =>
        -- a name does not begin with a digit
        have halpha : c.isAlpha = false := by
          show (c.isUpper || c.isLower) = false
          rw [hlower, hupper, Bool.or_false]
        simp [Syntax.isIdentStart, hne, halpha] at hstart

end Corvid.Types
