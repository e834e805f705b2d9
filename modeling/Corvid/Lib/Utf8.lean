import Mathlib.Algebra.GroupWithZero.Nat
import Mathlib.Data.List.Basic
import Mathlib.Tactic.Common

/-!
# Byte offsets in text

A text is a list of characters, each of which takes one to four bytes. An offset in bytes lies on a
character boundary, or inside a character, or past the end.

## Main definitions

* `width`: the number of bytes of a text
* `cut`: the characters before and after an offset, if it is a boundary
* `encode`: the bytes of a text
* `Matches`: a predicate of bytes that is one of ASCII characters
* `Ahead`: the characters from an offset on, which is a boundary

## Main results

* `cut_eq_some`: the parts of a cut, up to their widths
* `exists_append_of_width_le`: two cuts of one text are nested
* `takeWhile_encode`: a predicate of bytes that is one of characters
* `Ahead.byte`: the byte at a boundary, to the predicates of ASCII characters, is the character
-/

namespace Utf8

/-- The number of bytes of some characters. -/
def width (l : List Char) : ℕ :=
  (l.map Char.utf8Size).sum

@[simp] theorem width_nil : width [] = 0 := rfl

@[simp] theorem width_cons (c : Char) (l : List Char) : width (c :: l) = c.utf8Size + width l := by
  simp [width]

@[simp] theorem width_append (l m : List Char) : width (l ++ m) = width l + width m := by
  simp [width]

/-- The characters before and after a byte offset. -/
def cut : ℕ → List Char → Option (List Char × List Char)
  | 0, l => some ([], l)
  | _ + 1, [] => none
  | n + 1, c :: l =>
    if c.utf8Size ≤ n + 1 then (cut (n + 1 - c.utf8Size) l).map fun (a, b) => (c :: a, b) else none

theorem cut_append (a b : List Char) : cut (width a) (a ++ b) = some (a, b) := by
  induction a with
  | nil => simp [cut]
  | cons c a ih =>
    have hpos := c.utf8Size_pos
    obtain ⟨n, hn⟩ : ∃ n, width (c :: a) = n + 1 := ⟨width (c :: a) - 1, by simp; omega⟩
    rw [hn, List.cons_append, cut, ← hn]
    simp [ih]

theorem cut_eq_some {n : ℕ} {l a b : List Char} :
    cut n l = some (a, b) ↔ l = a ++ b ∧ width a = n := by
  constructor
  · intro h
    induction n, l using cut.induct generalizing a with
    | case1 l =>
      rw [cut] at h
      obtain ⟨rfl, rfl⟩ := Prod.mk.inj (Option.some.inj h)
      simp
    | case2 n => cases h
    | case3 n c l hle ih =>
      rw [cut, if_pos hle] at h
      obtain ⟨⟨a', b'⟩, hcut, hab⟩ := Option.map_eq_some_iff.mp h
      obtain ⟨rfl, rfl⟩ := Prod.mk.inj hab
      obtain ⟨rfl, hwidth⟩ := ih hcut
      exact ⟨rfl, by rw [width_cons]; omega⟩
    | case4 n c l hlt =>
      rw [cut, if_neg hlt] at h
      cases h
  · rintro ⟨rfl, rfl⟩
    exact cut_append a b

theorem append_inj_of_width {a a' b b' : List Char} (h : a ++ b = a' ++ b')
    (hwidth : width a = width a') : a = a' ∧ b = b' := by
  have hcut := cut_append a b
  rw [h, hwidth, cut_append] at hcut
  obtain ⟨rfl, rfl⟩ := Prod.mk.inj (Option.some.inj hcut)
  exact ⟨rfl, rfl⟩

/-- Of two cuts of one text, the later one keeps what the earlier one keeps. -/
theorem exists_append_of_width_le {a a' b b' : List Char} (h : a ++ b = a' ++ b')
    (hwidth : width a ≤ width a') : ∃ m, a' = a ++ m ∧ b = m ++ b' := by
  rcases List.append_eq_append_iff.mp h with ⟨m, rfl, rfl⟩ | ⟨m, rfl, rfl⟩
  · exact ⟨m, rfl, rfl⟩
  · have hm : m = [] := by
      cases m with
      | nil => rfl
      | cons c m =>
        have hpos := c.utf8Size_pos
        simp only [width_append, width_cons] at hwidth
        omega
    subst hm
    exact ⟨[], by simp, by simp⟩

/-- An offset inside of a character is no boundary. -/
theorem cut_inside {a b : List Char} {c : Char} {n : ℕ} (hpos : 0 < n) (hn : n < c.utf8Size) :
    cut (width a + n) (a ++ c :: b) = none := by
  cases hcut : cut (width a + n) (a ++ c :: b) with
  | none => rfl
  | some parts =>
    obtain ⟨happend, hwidth⟩ := cut_eq_some.mp hcut
    obtain ⟨m, hm, hrest⟩ := exists_append_of_width_le happend (by omega)
    rw [hm, width_append] at hwidth
    cases m with
    | nil =>
      rw [width_nil] at hwidth
      omega
    | cons d m =>
      obtain rfl := (List.cons.inj hrest).1
      rw [width_cons] at hwidth
      omega

/-! ### Bytes -/

def encode (l : List Char) : List UInt8 :=
  l.flatMap String.utf8EncodeChar

@[simp] theorem encode_nil : encode [] = [] := rfl

@[simp] theorem encode_cons (c : Char) (l : List Char) :
    encode (c :: l) = String.utf8EncodeChar c ++ encode l := rfl

@[simp] theorem encode_append (l m : List Char) : encode (l ++ m) = encode l ++ encode m :=
  List.flatMap_append

@[simp] theorem length_encode (l : List Char) : (encode l).length = width l := by
  induction l with
  | nil => rfl
  | cons c l ih => simp [ih]

/-- The byte of an ASCII character. -/
def ascii (c : Char) : UInt8 :=
  UInt8.ofNat c.toNat

theorem utf8Size_eq_one_iff {c : Char} : c.utf8Size = 1 ↔ c.toNat < 128 := by
  rw [Char.utf8Size_eq_one_iff, UInt32.le_iff_toNat_le, Nat.lt_succ_iff]
  rfl

theorem encodeChar_of_ascii {c : Char} (h : c.toNat < 128) : String.utf8EncodeChar c = [ascii c] := by
  have hle : c.val.toNat ≤ 0x7f := Nat.lt_succ_iff.mp h
  unfold String.utf8EncodeChar
  rw [if_pos hle]
  rfl

/-- The bytes of other characters are not those of ASCII characters. -/
theorem le_of_mem_encodeChar {c : Char} (h : ¬ c.toNat < 128) :
    ∀ b ∈ String.utf8EncodeChar c, 128 ≤ b.toNat := by
  have hlt : ¬ c.val.toNat ≤ 0x7f := fun hle => h (Nat.lt_succ_of_le hle)
  unfold String.utf8EncodeChar
  rw [if_neg hlt]
  split
  · simp only [List.mem_cons, List.not_mem_nil, or_false, forall_eq_or_imp, forall_eq,
      UInt8.toNat_ofNat']
    omega
  · split
    · simp only [List.mem_cons, List.not_mem_nil, or_false, forall_eq_or_imp, forall_eq,
        UInt8.toNat_ofNat']
      omega
    · simp only [List.mem_cons, List.not_mem_nil, or_false, forall_eq_or_imp, forall_eq,
        UInt8.toNat_ofNat']
      omega

theorem toNat_ascii {c : Char} (h : c.toNat < 128) : (ascii c).toNat = c.toNat := by
  rw [ascii, UInt8.toNat_ofNat']
  omega

theorem ne_ascii {b : UInt8} (h : 128 ≤ b.toNat) {c : Char} (hc : c.toNat < 128) : b ≠ ascii c := by
  rintro rfl
  rw [toNat_ascii hc] at h
  omega

theorem ascii_inj {c d : Char} (hc : c.toNat < 128) (hd : d.toNat < 128) :
    ascii c = ascii d ↔ c = d := by
  refine ⟨fun h => ?_, congrArg ascii⟩
  have hnat := congrArg UInt8.toNat h
  rw [toNat_ascii hc, toNat_ascii hd] at hnat
  rw [← Char.ofNat_toNat c, ← Char.ofNat_toNat d, hnat]

/-- A text starts with the byte of an ASCII character just when it starts with the character. -/
theorem head?_encode_eq_some_iff {d : Char} (hd : d.toNat < 128) (l : List Char) :
    (encode l).head? = some (ascii d) ↔ l.head? = some d := by
  cases l with
  | nil => simp
  | cons c l =>
    by_cases hc : c.toNat < 128
    · simp [encodeChar_of_ascii hc, ascii_inj hc hd]
    · have hne : c ≠ d := fun h => hc (h ▸ hd)
      have hbytes := le_of_mem_encodeChar hc
      cases hencode : String.utf8EncodeChar c with
      | nil => exact absurd hencode String.utf8EncodeChar_ne_nil
      | cons b bs =>
        rw [hencode, List.forall_mem_cons] at hbytes
        have hb := ne_ascii hbytes.1 hd
        simp [hencode, hb, hne]

/-- A predicate of bytes that holds of all bytes of a character, or of none, is one of characters. -/
theorem takeWhile_encode {p : UInt8 → Bool} {q : Char → Bool}
    (hpos : ∀ c, q c = true → ∀ b ∈ String.utf8EncodeChar c, p b = true)
    (hneg : ∀ c, q c = false → ∀ b ∈ String.utf8EncodeChar c, p b = false) (l : List Char) :
    (encode l).takeWhile p = encode (l.takeWhile q) := by
  induction l with
  | nil => rfl
  | cons c l ih =>
    cases hq : q c with
    | true =>
      rw [encode_cons, List.takeWhile_append_of_pos (hpos c hq), ih, List.takeWhile_cons_of_pos hq,
        encode_cons]
    | false =>
      have hbytes := hneg c hq
      rw [List.takeWhile_cons_of_neg (by simp [hq]), encode_cons]
      cases hencode : String.utf8EncodeChar c with
      | nil => exact absurd hencode String.utf8EncodeChar_ne_nil
      | cons b bs =>
        rw [hencode, List.forall_mem_cons] at hbytes
        simp [hbytes.1]

theorem count_encode {d : Char} (hd : d.toNat < 128) (l : List Char) :
    (encode l).count (ascii d) = l.count d := by
  induction l with
  | nil => rfl
  | cons c l ih =>
    rw [encode_cons, List.count_append, ih, List.count_cons]
    by_cases hc : c.toNat < 128
    · rw [encodeChar_of_ascii hc, List.count_singleton, Nat.add_comm]
      simp [ascii_inj hc hd]
    · have hne : c ≠ d := fun h => hc (h ▸ hd)
      have hzero : (String.utf8EncodeChar c).count (ascii d) = 0 :=
        List.count_eq_zero.mpr fun hmem => ne_ascii (le_of_mem_encodeChar hc _ hmem) hd rfl
      simp [hzero, hne]

/-- A predicate of bytes that is one of ASCII characters. -/
structure Matches (p : UInt8 → Bool) (q : Char → Bool) : Prop where
  ascii : ∀ c : Char, c.toNat < 128 → p (ascii c) = q c
  bytes : ∀ b : UInt8, 128 ≤ b.toNat → p b = false
  chars : ∀ c : Char, ¬ c.toNat < 128 → q c = false

/-- The bytes of a character satisfy the predicate just when the character does. -/
theorem Matches.byte {p : UInt8 → Bool} {q : Char → Bool} (h : Matches p q) {c : Char} {b : UInt8}
    (hb : b ∈ String.utf8EncodeChar c) : p b = q c := by
  by_cases hc : c.toNat < 128
  · rw [encodeChar_of_ascii hc, List.mem_singleton] at hb
    rw [hb, h.ascii c hc]
  · rw [h.bytes b (le_of_mem_encodeChar hc b hb), h.chars c hc]

theorem Matches.takeWhile {p : UInt8 → Bool} {q : Char → Bool} (h : Matches p q) (l : List Char) :
    (encode l).takeWhile p = encode (l.takeWhile q) := by
  refine takeWhile_encode (fun c hq b hb => ?_) (fun c hq b hb => ?_) l
  · rw [h.byte hb, hq]
  · rw [h.byte hb, hq]

/-- So do the predicates of all other characters. -/
theorem Matches.takeWhile_not {p : UInt8 → Bool} {q : Char → Bool} (h : Matches p q)
    (l : List Char) :
    (encode l).takeWhile (fun b => !p b) = encode (l.takeWhile fun c => !q c) := by
  refine takeWhile_encode (fun c hq b hb => ?_) (fun c hq b hb => ?_) l
  · rw [h.byte hb, hq]
  · rw [h.byte hb, hq]

theorem Matches.head {p : UInt8 → Bool} {q : Char → Bool} (h : Matches p q) (l : List Char) :
    (encode l).head?.any p = l.head?.any q := by
  cases l with
  | nil => rfl
  | cons c l =>
    cases hencode : String.utf8EncodeChar c with
    | nil => exact absurd hencode String.utf8EncodeChar_ne_nil
    | cons b bs =>
      have hb : b ∈ String.utf8EncodeChar c := by simp [hencode]
      simp [hencode, h.byte hb]

theorem ascii_le {c d : Char} (hc : c.toNat < 128) (hd : d.toNat < 128) :
    ascii c ≤ ascii d ↔ c ≤ d := by
  rw [UInt8.le_iff_toNat_le, toNat_ascii hc, toNat_ascii hd]
  rfl

/-- The characters between two ASCII characters. -/
theorem matches_between {c d : Char} (hc : c.toNat < 128) (hd : d.toNat < 128) :
    Matches (fun b => ascii c ≤ b && b ≤ ascii d) (fun e => c ≤ e && e ≤ d) where
  ascii e he := by simp only [ascii_le hc he, ascii_le he hd]
  bytes b hb := by
    have hlt : ¬ b ≤ ascii d := by
      rw [UInt8.le_iff_toNat_le, toNat_ascii hd]
      omega
    simp [hlt]
  chars e he := by
    have hlt : ¬ e ≤ d := fun hle => he (Nat.lt_of_le_of_lt (show e.toNat ≤ d.toNat from hle) hd)
    simp [hlt]

theorem matches_eq {c : Char} (hc : c.toNat < 128) : Matches (· == ascii c) (· == c) where
  ascii e he := by
    rw [Bool.eq_iff_iff, beq_iff_eq, beq_iff_eq, ascii_inj he hc]
  bytes b hb := by
    rw [beq_eq_false_iff_ne]
    exact ne_ascii hb hc
  chars e he := by
    rw [beq_eq_false_iff_ne]
    rintro rfl
    exact he hc

theorem Matches.or {p p' : UInt8 → Bool} {q q' : Char → Bool} (h : Matches p q) (h' : Matches p' q') :
    Matches (fun b => p b || p' b) (fun c => q c || q' c) where
  ascii c hc := by simp only [h.ascii c hc, h'.ascii c hc]
  bytes b hb := by simp only [h.bytes b hb, h'.bytes b hb, Bool.or_self]
  chars c hc := by simp only [h.chars c hc, h'.chars c hc, Bool.or_self]

/-- The byte order mark. -/
theorem bom_prefix_iff (l : List Char) :
    [0xEF, 0xBB, 0xBF] <+: encode l ↔ l.head? = some '\uFEFF' := by
  cases l with
  | nil => simp
  | cons c l =>
    rw [List.head?_cons, Option.some.injEq, encode_cons]
    constructor
    · intro h
      have hfirst : ∀ n m : ℕ, m < 256 → UInt8.ofNat n = UInt8.ofNat m → n % 256 = m := by
        intro n m hm heq
        have hnat := congrArg UInt8.toNat heq
        rw [UInt8.toNat_ofNat', UInt8.toNat_ofNat'] at hnat
        omega
      have hval : c.val.toNat = 0xFEFF := by
        unfold String.utf8EncodeChar at h
        dsimp only at h
        split at h
        · have hlead := hfirst _ 0xEF (by decide) (List.cons_prefix_cons.mp h).1.symm
          omega
        · split at h
          · have hlead := hfirst _ 0xEF (by decide) (List.cons_prefix_cons.mp h).1.symm
            omega
          · split at h
            · -- three bytes
              obtain ⟨hlead, h⟩ := List.cons_prefix_cons.mp h
              obtain ⟨hsecond, h⟩ := List.cons_prefix_cons.mp h
              obtain ⟨hthird, -⟩ := List.cons_prefix_cons.mp h
              have hlead := hfirst _ 0xEF (by decide) hlead.symm
              have hsecond := hfirst _ 0xBB (by decide) hsecond.symm
              have hthird := hfirst _ 0xBF (by decide) hthird.symm
              omega
            · have hlead := hfirst _ 0xEF (by decide) (List.cons_prefix_cons.mp h).1.symm
              omega
      exact Char.ext (UInt32.toNat_inj.mp hval)
    · rintro rfl
      exact ⟨encode l, rfl⟩

/-- The characters from an offset on. -/
def Ahead (src : List Char) (pos : ℕ) (rest : List Char) : Prop :=
  ∃ before, before ++ rest = src ∧ width before = pos

namespace Ahead

variable {src rest : List Char} {pos : ℕ}

theorem cut (h : Ahead src pos rest) : ∃ before, Utf8.cut pos src = some (before, rest) := by
  obtain ⟨before, rfl, rfl⟩ := h
  exact ⟨before, cut_append before rest⟩

theorem append {l : List Char} (h : Ahead src pos (l ++ rest)) : Ahead src (pos + width l) rest := by
  obtain ⟨before, rfl, rfl⟩ := h
  exact ⟨before ++ l, by simp, by simp⟩

theorem cons {c : Char} (h : Ahead src pos (c :: rest)) : Ahead src (pos + c.utf8Size) rest := by
  have happend := append (l := [c]) h
  rwa [width_cons, width_nil, Nat.add_zero] at happend

theorem drop (h : Ahead src pos rest) : (encode src).drop pos = encode rest := by
  obtain ⟨before, rfl, rfl⟩ := h
  rw [encode_append, ← length_encode, List.drop_left]

theorem getElem? (h : Ahead src pos rest) (n : ℕ) :
    (encode src)[pos + n]? = (encode rest)[n]? := by
  rw [← List.getElem?_drop, h.drop]

theorem getElem?_zero (h : Ahead src pos rest) : (encode src)[pos]? = (encode rest).head? := by
  rw [← Nat.add_zero pos, h.getElem?, List.head?_eq_getElem?]

theorem takeWhile (h : Ahead src pos rest) {p : UInt8 → Bool} {q : Char → Bool} (hpq : Matches p q) :
    (((encode src).drop pos).takeWhile p).length = width (rest.takeWhile q) := by
  rw [h.drop, hpq.takeWhile, length_encode]

/-- The byte at the offset is an ASCII character just when the character there is. -/
theorem byte_eq_iff (h : Ahead src pos rest) {d : Char} (hd : d.toNat < 128) :
    (encode src)[pos]? = some (ascii d) ↔ rest.head? = some d := by
  rw [h.getElem?_zero, head?_encode_eq_some_iff hd]

/-- To the predicates of ASCII characters, the byte at the offset is the character there. -/
theorem byte {c : Char} (h : Ahead src pos (c :: rest)) :
    ∃ b, (encode src)[pos]? = some b ∧ (∀ p q, Matches p q → p b = q c) ∧
      (c.toNat < 128 → b = ascii c) ∧ (¬ c.toNat < 128 → 128 ≤ b.toNat) := by
  cases hencode : String.utf8EncodeChar c with
  | nil => exact absurd hencode String.utf8EncodeChar_ne_nil
  | cons b bs =>
    have hb : b ∈ String.utf8EncodeChar c := by simp [hencode]
    refine ⟨b, ?_, fun p q hpq => hpq.byte hb, fun hc => ?_, fun hc => le_of_mem_encodeChar hc b hb⟩
    · rw [h.getElem?_zero, encode_cons, hencode]
      rfl
    · rw [encodeChar_of_ascii hc] at hb
      exact List.mem_singleton.mp hb

theorem byte_ne {c : Char} (h : Ahead src pos (c :: rest)) {b : UInt8}
    (hb : (encode src)[pos]? = some b) {d : Char} (hd : d.toNat < 128) (hc : c ≠ d) :
    b ≠ ascii d := by
  rintro rfl
  exact hc (Option.some.inj ((h.byte_eq_iff hd).mp hb))

theorem pos_lt {c : Char} (h : Ahead src pos (c :: rest)) : pos < (encode src).length := by
  obtain ⟨b, hb, -⟩ := h.byte
  exact (List.getElem?_eq_some_iff.mp hb).1

theorem pos_eq (h : Ahead src pos []) : pos = (encode src).length := by
  obtain ⟨before, rfl, rfl⟩ := h
  simp

/-- Inside of a character, there is no boundary. -/
theorem cut_inside {c : Char} {n : ℕ} (h : Ahead src pos (c :: rest)) (hpos : 0 < n)
    (hn : n < c.utf8Size) : Utf8.cut (pos + n) src = none := by
  obtain ⟨before, rfl, rfl⟩ := h
  exact Utf8.cut_inside hpos hn

end Ahead

end Utf8
