import Corvid.Lib.Utf8
import Mathlib.Data.Char
import Mathlib.Data.List.Lex

/-!
# Characters by their bytes

The first byte of a character tells how many bytes it takes, and comparing texts byte by byte is
comparing them character by character.

## Main results

* `map_toNat_encodeChar`: the bytes of a character as numbers
* `leadWidth_encodeChar`: the first byte gives the number of bytes
* `encode_lt_encode_iff`: the order of the bytes is that of the characters
-/

namespace Utf8

/-- The bytes of the character with this number. -/
def codeUnits (v : ℕ) : List ℕ :=
  if v ≤ 0x7f then [v]
  else if v ≤ 0x7ff then [v / 64 + 0xc0, v % 64 + 0x80]
  else if v ≤ 0xffff then [v / 4096 + 0xe0, v / 64 % 64 + 0x80, v % 64 + 0x80]
  else [v / 262144 + 0xf0, v / 4096 % 64 + 0x80, v / 64 % 64 + 0x80, v % 64 + 0x80]

theorem toNat_lt_of_valid (c : Char) : c.toNat < 0x110000 := by
  rcases c.valid with h | ⟨-, h⟩
  · exact Nat.lt_trans h (by decide)
  · exact h

theorem map_toNat_encodeChar (c : Char) :
    (String.utf8EncodeChar c).map UInt8.toNat = codeUnits c.toNat := by
  have hvalid := toNat_lt_of_valid c
  change c.val.toNat < 0x110000 at hvalid
  change _ = codeUnits c.val.toNat
  simp only [String.utf8EncodeChar, codeUnits]
  split_ifs <;> simp only [List.map_cons, List.map_nil, UInt8.toNat_ofNat', List.cons.injEq, and_true] <;>
    omega

/-- The number of bytes of the character that starts with this one. -/
def leadWidth (b : ℕ) : ℕ :=
  if b < 0xc0 then 1 else if b < 0xe0 then 2 else if b < 0xf0 then 3 else 4

theorem leadWidth_codeUnits {v b : ℕ} {bs : List ℕ} (h : codeUnits v = b :: bs) (hv : v < 0x110000) :
    leadWidth b = bs.length + 1 ∧ b < 0xf8 := by
  unfold codeUnits at h
  unfold leadWidth
  split_ifs at h <;> obtain ⟨rfl, rfl⟩ := List.cons.inj h <;>
    simp only [List.length_cons, List.length_nil] <;> split_ifs <;> omega

/-- The first byte of a character tells how many there are. -/
theorem leadWidth_encodeChar {c : Char} {b : UInt8} {bs : List UInt8}
    (h : String.utf8EncodeChar c = b :: bs) : leadWidth b.toNat = bs.length + 1 ∧ b.toNat < 0xf8 := by
  have hunits := map_toNat_encodeChar c
  rw [h, List.map_cons] at hunits
  simpa using leadWidth_codeUnits hunits.symm (toNat_lt_of_valid c)

/-! ### Order -/

/-- The lists part at some place, where the first has the smaller entry. -/
def Parts {α : Type*} [LT α] (l m : List α) : Prop :=
  ∃ common x y rest rest', l = common ++ x :: rest ∧ m = common ++ y :: rest' ∧ x < y

section Parts

variable {α β : Type*} [LT α] [LT β] {l m : List α} {x y : α}

theorem Parts.head (h : x < y) : Parts (x :: l) (y :: m) := ⟨[], x, y, l, m, rfl, rfl, h⟩

theorem Parts.cons (h : Parts l m) (x : α) : Parts (x :: l) (x :: m) := by
  obtain ⟨common, a, b, rest, rest', rfl, rfl, hab⟩ := h
  exact ⟨x :: common, a, b, rest, rest', rfl, rfl, hab⟩

theorem Parts.append (h : Parts l m) (r r' : List α) : Parts (l ++ r) (m ++ r') := by
  obtain ⟨common, a, b, rest, rest', rfl, rfl, hab⟩ := h
  exact ⟨common, a, b, rest ++ r, rest' ++ r', by simp, by simp, hab⟩

theorem Parts.of_map {f : α → β} (hf : ∀ a b, f a < f b → a < b)
    (hinj : Function.Injective f) (h : Parts (l.map f) (m.map f)) : Parts l m := by
  obtain ⟨common, a, b, rest, rest', hl, hm, hab⟩ := h
  obtain ⟨l₁, l₂, rfl, hl₁, hl₂⟩ := List.map_eq_append_iff.mp hl
  obtain ⟨m₁, m₂, rfl, hm₁, hm₂⟩ := List.map_eq_append_iff.mp hm
  obtain ⟨x, l₃, rfl, rfl, -⟩ := List.map_eq_cons_iff.mp hl₂
  obtain ⟨y, m₃, rfl, rfl, -⟩ := List.map_eq_cons_iff.mp hm₂
  obtain rfl := hinj.list_map (hl₁.trans hm₁.symm)
  exact ⟨l₁, x, y, l₃, m₃, rfl, rfl, hf x y hab⟩

end Parts

theorem Parts.lt {α : Type*} [LT α] {l m : List α} (h : Parts l m) : l < m := by
  obtain ⟨common, a, b, rest, rest', rfl, rfl, hab⟩ := h
  exact List.append_left_lt (List.cons_lt_cons_iff.mpr (.inl hab))

theorem Parts.of_le {l m : List ℕ} {x y : ℕ} (hle : x ≤ y) (h : x = y → Parts l m) :
    Parts (x :: l) (y :: m) := by
  rcases Nat.lt_or_eq_of_le hle with hlt | rfl
  · exact Parts.head hlt
  · exact (h rfl).cons x

theorem codeUnits_parts {v w : ℕ} (h : v < w) : Parts (codeUnits v) (codeUnits w) := by
  unfold codeUnits
  split_ifs
  -- where the lengths differ, the first bytes do, and otherwise some byte is the first that differs
  all_goals first
    | exact Parts.head (by omega)
    | exact Parts.of_le (by omega) fun _ => Parts.head (by omega)
    | exact Parts.of_le (by omega) fun _ => Parts.of_le (by omega) fun _ => Parts.head (by omega)
    | exact Parts.of_le (by omega) fun _ => Parts.of_le (by omega) fun _ =>
        Parts.of_le (by omega) fun _ => Parts.head (by omega)

theorem encodeChar_parts {c d : Char} (h : c < d) :
    Parts (String.utf8EncodeChar c) (String.utf8EncodeChar d) := by
  have hparts : Parts (codeUnits c.toNat) (codeUnits d.toNat) := codeUnits_parts h
  rw [← map_toNat_encodeChar, ← map_toNat_encodeChar] at hparts
  exact Parts.of_map (f := UInt8.toNat) (fun _ _ h => h) (fun _ _ => UInt8.toNat_inj.mp) hparts

theorem encodeChar_injective {c d : Char} (h : String.utf8EncodeChar c = String.utf8EncodeChar d) :
    c = d := by
  rcases lt_trichotomy c d with hlt | heq | hgt
  · exact absurd (encodeChar_parts hlt).lt (by simp [h])
  · exact heq
  · exact absurd (encodeChar_parts hgt).lt (by simp [h])

theorem append_lt_append_left_iff {bs l m : List UInt8} : bs ++ l < bs ++ m ↔ l < m := by
  induction bs with
  | nil => rfl
  | cons b bs ih => simp [ih]

/-- Comparing the bytes of two texts is comparing their characters. -/
theorem encode_lt_encode_iff {l m : List Char} : encode l < encode m ↔ l < m := by
  induction l generalizing m with
  | nil =>
    cases m with
    | nil => simp
    | cons d m =>
      obtain ⟨b, bs, hd⟩ := List.exists_cons_of_ne_nil (String.utf8EncodeChar_ne_nil (c := d))
      simp [hd]
  | cons c l ih =>
    cases m with
    | nil => simp
    | cons d m =>
      rw [encode_cons, encode_cons, List.cons_lt_cons_iff]
      rcases lt_trichotomy c d with hlt | rfl | hgt
      · have hbytes := ((encodeChar_parts hlt).append (encode l) (encode m)).lt
        simp [hlt, hbytes]
      · simp [append_lt_append_left_iff, ih]
      · have hbytes := ((encodeChar_parts hgt).append (encode m) (encode l)).lt
        have hnot := List.lt_asymm hbytes
        simp [hnot, hgt.ne', hgt.not_gt]

theorem encode_injective {l m : List Char} (h : encode l = encode m) : l = m := by
  rcases lt_trichotomy l m with hlt | heq | hgt
  · exact absurd (encode_lt_encode_iff.mpr hlt) (by simp [h])
  · exact heq
  · exact absurd (encode_lt_encode_iff.mpr hgt) (by simp [h])

end Utf8
