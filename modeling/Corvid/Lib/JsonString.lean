import Mathlib.Tactic.Common

/-!
# String literals of JSON

A literal stands between quotes. A quote, a backslash and a control character are escaped in it; any
other character may stand for itself. A character beyond the first plane may be escaped as a pair of
surrogates.

## Main definitions

* `decode`: the text that a literal denotes

## Main results

* `decode_flatMap`: a text that is spelled character by character is read back
-/

namespace JsonString

def simpleEscape : Char → Option Char
  | '"' => some '"'
  | '\\' => some '\\'
  | '/' => some '/'
  | 'b' => some '\x08'
  | 'f' => some '\x0c'
  | 'n' => some '\n'
  | 'r' => some '\r'
  | 't' => some '\t'
  | _ => none

def hexValue (c : Char) : Option ℕ :=
  if '0' ≤ c ∧ c ≤ '9' then some (c.toNat - '0'.toNat)
  else if 'a' ≤ c ∧ c ≤ 'f' then some (c.toNat - 'a'.toNat + 10)
  else if 'A' ≤ c ∧ c ≤ 'F' then some (c.toNat - 'A'.toNat + 10)
  else none

def hex4 (a b c d : Char) : Option ℕ := do
  let a ← hexValue a
  let b ← hexValue b
  let c ← hexValue c
  let d ← hexValue d
  return ((a * 16 + b) * 16 + c) * 16 + d

/-- What a backslash and a `u` with four digits stand for. -/
def unicode (n : ℕ) (rest : List Char) : Option (Char × List Char) :=
  if 0xd800 ≤ n ∧ n < 0xdc00 then
    match rest with
    | '\\' :: 'u' :: a :: b :: c :: d :: rest => do
      let m ← hex4 a b c d
      if 0xdc00 ≤ m ∧ m < 0xe000 then
        some (Char.ofNat (0x10000 + (n - 0xd800) * 0x400 + (m - 0xdc00)), rest)
      else none
    | _ => none
  else if 0xdc00 ≤ n ∧ n < 0xe000 then none
  else some (Char.ofNat n, rest)

/-- The next character of a literal, and what is left of the literal. -/
def next : List Char → Option (Char × List Char)
  | '\\' :: 'u' :: a :: b :: c :: d :: rest => (hex4 a b c d).bind (unicode · rest)
  | '\\' :: e :: rest => (simpleEscape e).map (·, rest)
  | c :: rest => if c = '"' ∨ c = '\\' ∨ c.toNat < 0x20 then none else some (c, rest)
  | [] => none

/-- The characters up to the closing quote, at most `n` of them. -/
def body : ℕ → List Char → Option (List Char)
  | _, ['"'] => some []
  | 0, _ => none
  | n + 1, text => do
    let (c, rest) ← next text
    (c :: ·) <$> body n rest

/-- The text that a literal denotes. -/
def decode : List Char → Option (List Char)
  | '"' :: rest => body rest.length rest
  | _ => none

theorem next_quote (rest : List Char) : next ('"' :: rest) = none := by
  rfl

theorem next_plain {c : Char} (hquote : c ≠ '"') (hback : c ≠ '\\') (hc : 0x20 ≤ c.toNat)
    (rest : List Char) : next (c :: rest) = some (c, rest) := by
  unfold next
  split
  · next h => exact absurd (List.cons.inj h).1 hback
  · next h => exact absurd (List.cons.inj h).1 hback
  · next h =>
    obtain ⟨rfl, rfl⟩ := List.cons.inj h
    rw [if_neg]
    rintro (h | h | h)
    · exact hquote h
    · exact hback h
    · omega
  · next h => cases h

theorem body_flatMap {spell : Char → List Char}
    (hspell : ∀ c rest, next (spell c ++ rest) = some (c, rest)) (l : List Char) (n : ℕ)
    (hn : l.length ≤ n) : body n (l.flatMap spell ++ ['"']) = some l := by
  induction l generalizing n with
  | nil =>
    cases n <;> rfl
  | cons c l ih =>
    cases n with
    | zero => simp at hn
    | succ n =>
      have hnext := hspell c (l.flatMap spell ++ ['"'])
      have hquote : (c :: l).flatMap spell ++ ['"'] ≠ ['"'] := by
        intro h
        rw [List.flatMap_cons, List.append_assoc] at h
        rw [h, next_quote] at hnext
        cases hnext
      rw [body]
      · rw [List.flatMap_cons, List.append_assoc, hnext]
        simp [ih n (by simpa using hn)]
      · exact hquote

/-- A text that is spelled character by character is read back, if every character is. -/
theorem decode_flatMap {spell : Char → List Char}
    (hspell : ∀ c rest, next (spell c ++ rest) = some (c, rest)) (l : List Char) :
    decode ('"' :: (l.flatMap spell ++ ['"'])) = some l := by
  refine body_flatMap hspell l _ ?_
  have hpos : ∀ c, 1 ≤ (spell c).length := by
    intro c
    refine List.length_pos_iff.mpr fun hnil => ?_
    have hnext := hspell c ['"']
    rw [hnil, List.nil_append, next_quote] at hnext
    cases hnext
  have hlength : l.length ≤ (l.flatMap spell).length := by
    induction l with
    | nil => simp
    | cons c l ih =>
      have := hpos c
      simp only [List.length_cons, List.flatMap_cons, List.length_append]
      omega
  rw [List.length_append]
  omega

end JsonString
