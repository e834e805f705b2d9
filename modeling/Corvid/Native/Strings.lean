import Corvid.Lib.JsonString
import Corvid.Lib.Utf8Order

/-!
# Strings of the native runtime

A string is its bytes and their number. The loops find the characters by the first byte of each, and
quoting counts the bytes of the quoted text before it writes them. A write outside of what was reserved
for it is an overflow.

## Main definitions

* `corvidStringCmp`, `corvidStringCharLen`, `corvidStringCharAt`: order, length, characters
* `corvidStringJsonQuote`: the quoted text, written into memory reserved for it
* `corvidJsonBufferAppendString`: the quoted text, appended to a buffer that grows

## Main results

* `strings_agree`: on the bytes of a text, all of them compute what they are of its characters
-/

namespace Corvid.Native

open Utf8 (ascii encode)

/-! ### Order, length and characters -/

/-- The difference of the first bytes that differ, among the first `n`. -/
def memcmp : ℕ → List UInt8 → List UInt8 → ℤ
  | n + 1, x :: xs, y :: ys => if x = y then memcmp n xs ys else (x.toNat : ℤ) - y.toNat
  | _, _, _ => 0

def corvidStringCmp (a b : List UInt8) : ℤ :=
  let minLen := if a.length < b.length then a.length else b.length
  let rc := if minLen > 0 then memcmp minLen a b else 0
  if rc ≠ 0 then (if rc < 0 then -1 else 1)
  else if a.length < b.length then -1
  else if a.length > b.length then 1
  else 0

def corvidUtf8CharWidth (byte : UInt8) : ℕ :=
  if byte &&& 0x80 = 0 then 1
  else if byte &&& 0xE0 = 0xC0 then 2
  else if byte &&& 0xF0 = 0xE0 then 3
  else if byte &&& 0xF8 = 0xF0 then 4
  else 1

/-- The width of the character that starts here, cut at the end of the bytes. -/
def charWidth (byte : UInt8) (remaining : ℕ) : ℕ :=
  if corvidUtf8CharWidth byte > remaining then remaining else corvidUtf8CharWidth byte

theorem corvidUtf8CharWidth_pos (byte : UInt8) : 0 < corvidUtf8CharWidth byte := by
  unfold corvidUtf8CharWidth
  split_ifs <;> decide

theorem charWidth_pos {byte : UInt8} {remaining : ℕ} (h : 0 < remaining) :
    0 < charWidth byte remaining := by
  unfold charWidth
  split_ifs
  · exact h
  · exact corvidUtf8CharWidth_pos byte

def corvidStringCharLen : List UInt8 → ℕ
  | [] => 0
  | byte :: bytes =>
    corvidStringCharLen ((byte :: bytes).drop (charWidth byte (bytes.length + 1))) + 1
termination_by bytes => bytes.length
decreasing_by
  have hpos : 0 < charWidth byte (bytes.length + 1) := charWidth_pos (Nat.succ_pos _)
  simp only [List.length_drop, List.length_cons]
  omega

/-- The loop of `corvidStringCharAt`, come to the character `current`. -/
def charAtFrom (index : ℤ) (current : ℕ) : List UInt8 → List UInt8
  | [] => []
  | byte :: bytes =>
    let width := charWidth byte (bytes.length + 1)
    if (current : ℤ) = index then (byte :: bytes).take width
    else charAtFrom index (current + 1) ((byte :: bytes).drop width)
termination_by bytes => bytes.length
decreasing_by
  have hpos : 0 < charWidth byte (bytes.length + 1) := charWidth_pos (Nat.succ_pos _)
  simp only [List.length_drop, List.length_cons]
  omega

def corvidStringCharAt (bytes : List UInt8) (index : ℤ) : List UInt8 :=
  charAtFrom index 0 bytes

/-! ### Quoting -/

/-- Memory for a number of bytes, and the bytes written there so far. -/
structure Reserved where
  size : ℕ
  written : List UInt8
deriving DecidableEq, Repr

namespace Reserved

/-- The next byte; there is none behind the end. -/
def put (out : Reserved) (byte : UInt8) : Option Reserved :=
  if out.written.length < out.size then some { out with written := out.written ++ [byte] } else none

def puts (out : Reserved) (bytes : List UInt8) : Option Reserved :=
  bytes.foldlM put out

end Reserved

/-- The letter of the escape of two bytes, where a byte has one. -/
def shortEscape (ch : UInt8) : Option UInt8 :=
  if ch = ascii '"' then some (ascii '"')
  else if ch = ascii '\\' then some (ascii '\\')
  else if ch = ascii '\x08' then some (ascii 'b')
  else if ch = ascii '\x0c' then some (ascii 'f')
  else if ch = ascii '\n' then some (ascii 'n')
  else if ch = ascii '\r' then some (ascii 'r')
  else if ch = ascii '\t' then some (ascii 't')
  else none

/-- What a byte adds to the number of bytes of the quoted text. -/
def escapedWidth (ch : UInt8) : ℕ :=
  if (shortEscape ch).isSome then 2 else if ch < 0x20 then 6 else 1

def escapedLen (bytes : List UInt8) : ℕ :=
  bytes.foldl (fun len ch => len + escapedWidth ch) 2

def corvidJsonHexDigit (value : UInt8) : UInt8 :=
  if value < 10 then ascii '0' + value else ascii 'a' + (value - 10)

/-- The quoted form of one byte. -/
def putEscaped (out : Reserved) (ch : UInt8) : Option Reserved :=
  match shortEscape ch with
  | some letter => out.puts [ascii '\\', letter]
  | none =>
    if ch < 0x20 then
      out.puts [ascii '\\', ascii 'u', ascii '0', ascii '0', corvidJsonHexDigit (ch >>> 4),
        corvidJsonHexDigit (ch &&& 0x0f)]
    else out.put ch

def corvidStringJsonQuote (bytes : List UInt8) : Option Reserved := do
  let out ← Reserved.put ⟨escapedLen bytes, []⟩ (ascii '"')
  let out ← bytes.foldlM putEscaped out
  out.put (ascii '"')

/-! ### Buffers -/

/-- The bytes of a buffer, all of which it has room for. -/
structure JsonBuffer where
  bytes : List UInt8
  capacity : ℕ
  room : bytes.length ≤ capacity
deriving DecidableEq, Repr

/-- The capacity is doubled until it is enough. -/
def doubled (needed capacity : ℕ) : ℕ :=
  if 0 < capacity ∧ capacity < needed then doubled needed (capacity * 2) else capacity
termination_by needed - capacity

theorem le_doubled (needed capacity : ℕ) : capacity ≤ doubled needed capacity := by
  fun_induction doubled needed capacity with
  | case1 capacity hlt ih => omega
  | case2 capacity hle => exact Nat.le_refl _

theorem needed_le_doubled (needed capacity : ℕ) (h : 0 < capacity) :
    needed ≤ doubled needed capacity := by
  fun_induction doubled needed capacity with
  | case1 capacity hlt ih => exact ih (by omega)
  | case2 capacity hle => omega

/-- The capacity of the buffer once it has grown. -/
def grownCapacity (buf : JsonBuffer) (additional : ℕ) : ℕ :=
  let needed := buf.bytes.length + additional
  if needed ≤ buf.capacity then buf.capacity
  else doubled needed (if buf.capacity = 0 then 64 else buf.capacity * 2)

/-- A grown buffer has room for what it was grown for. -/
theorem le_grownCapacity (buf : JsonBuffer) (additional : ℕ) :
    buf.bytes.length + additional ≤ grownCapacity buf additional := by
  unfold grownCapacity
  dsimp only
  split_ifs with hroom hzero
  · exact hroom
  · exact needed_le_doubled _ _ (by decide)
  · exact needed_le_doubled _ _ (by omega)

def bufferGrow (buf : JsonBuffer) (additional : ℕ) : JsonBuffer where
  bytes := buf.bytes
  capacity := grownCapacity buf additional
  room := Nat.le_trans (Nat.le_add_right _ _) (le_grownCapacity buf additional)

/-- Bytes behind those of the buffer; there is no room past its capacity. -/
def bufferStore (buf : JsonBuffer) (src : List UInt8) : Option JsonBuffer :=
  if h : buf.bytes.length + src.length ≤ buf.capacity then
    some ⟨buf.bytes ++ src, buf.capacity, by rwa [List.length_append]⟩
  else none

def bufferAppendBytes (buf : JsonBuffer) (src : List UInt8) : Option JsonBuffer :=
  if src.length = 0 then some buf else bufferStore (bufferGrow buf src.length) src

def bufferAppendByte (buf : JsonBuffer) (ch : UInt8) : Option JsonBuffer :=
  bufferStore (bufferGrow buf 1) [ch]

/-- What `\u%04x` prints. -/
def printUnicode (ch : UInt8) : List UInt8 :=
  let digits := Nat.toDigits 16 ch.toNat
  (['\\', 'u'] ++ List.replicate (4 - digits.length) '0' ++ digits).map ascii

def appendEscaped (buf : JsonBuffer) (ch : UInt8) : Option JsonBuffer :=
  if ch = ascii '"' ∨ ch = ascii '\\' then do
    let buf ← bufferAppendByte buf (ascii '\\')
    bufferAppendByte buf ch
  else if ch = ascii '\x08' then bufferAppendBytes buf [ascii '\\', ascii 'b']
  else if ch = ascii '\t' then bufferAppendBytes buf [ascii '\\', ascii 't']
  else if ch = ascii '\n' then bufferAppendBytes buf [ascii '\\', ascii 'n']
  else if ch = ascii '\x0c' then bufferAppendBytes buf [ascii '\\', ascii 'f']
  else if ch = ascii '\r' then bufferAppendBytes buf [ascii '\\', ascii 'r']
  else if ch < 0x20 then bufferAppendBytes buf (printUnicode ch)
  else bufferAppendByte buf ch

def corvidJsonBufferAppendString (buf : JsonBuffer) (desc : List UInt8) : Option JsonBuffer := do
  let buf ← bufferAppendByte buf (ascii '"')
  let buf ← desc.foldlM appendEscaped buf
  bufferAppendByte buf (ascii '"')

/-! ### Characters -/

theorem corvidUtf8CharWidth_eq {byte : UInt8} (h : byte.toNat < 0xf8) :
    corvidUtf8CharWidth byte = Utf8.leadWidth byte.toNat := by
  have hall : ∀ n < 0xf8, corvidUtf8CharWidth (UInt8.ofNat n) = Utf8.leadWidth n := by decide +kernel
  simpa using hall byte.toNat h

/-- The loops find the whole first character. -/
theorem charWidth_encodeChar {c : Char} {byte : UInt8} {bytes rest : List UInt8}
    (h : String.utf8EncodeChar c = byte :: bytes) :
    charWidth byte ((bytes ++ rest).length + 1) = bytes.length + 1 := by
  obtain ⟨hlead, hbound⟩ := Utf8.leadWidth_encodeChar h
  have hwidth := (corvidUtf8CharWidth_eq hbound).trans hlead
  rw [charWidth, hwidth, if_neg]
  simp only [List.length_append]
  omega

theorem corvidStringCharLen_append (c : Char) (rest : List UInt8) :
    corvidStringCharLen (String.utf8EncodeChar c ++ rest) = corvidStringCharLen rest + 1 := by
  obtain ⟨byte, bytes, h⟩ := List.exists_cons_of_ne_nil (String.utf8EncodeChar_ne_nil (c := c))
  rw [h, List.cons_append, corvidStringCharLen, charWidth_encodeChar h, List.drop_succ_cons,
    List.drop_left]

theorem corvidStringCharLen_encode (l : List Char) : corvidStringCharLen (encode l) = l.length := by
  induction l with
  | nil => rw [Utf8.encode_nil, corvidStringCharLen, List.length_nil]
  | cons c l ih => rw [Utf8.encode_cons, corvidStringCharLen_append, ih, List.length_cons]

theorem charAtFrom_append (c : Char) (rest : List UInt8) (index : ℤ) (current : ℕ) :
    charAtFrom index current (String.utf8EncodeChar c ++ rest) =
      if (current : ℤ) = index then String.utf8EncodeChar c
      else charAtFrom index (current + 1) rest := by
  obtain ⟨byte, bytes, h⟩ := List.exists_cons_of_ne_nil (String.utf8EncodeChar_ne_nil (c := c))
  rw [h, List.cons_append, charAtFrom, charWidth_encodeChar h, List.drop_succ_cons, List.drop_left,
    List.take_succ_cons, List.take_left]

theorem charAtFrom_encode (l : List Char) (i : ℕ) (hi : i < l.length) (current : ℕ) :
    charAtFrom (current + i : ℕ) current (encode l) = String.utf8EncodeChar l[i] := by
  induction l generalizing i current with
  | nil => simp at hi
  | cons c l ih =>
    rw [Utf8.encode_cons, charAtFrom_append]
    cases i with
    | zero => simp
    | succ i =>
      have hnext := ih i (by simpa using hi) (current + 1)
      rw [if_neg (by push_cast; omega), List.getElem_cons_succ, ← hnext]
      congr 2
      omega

/-! ### Order -/

/-- The order by what `memcmp` finds, which is nothing where one of the strings is empty. -/
theorem corvidStringCmp_eq (xs ys : List UInt8) : corvidStringCmp xs ys =
    if memcmp (min xs.length ys.length) xs ys ≠ 0 then
      if memcmp (min xs.length ys.length) xs ys < 0 then -1 else 1
    else if xs.length < ys.length then -1
    else if xs.length > ys.length then 1
    else 0 := by
  have hmin : (if xs.length < ys.length then xs.length else ys.length) = min xs.length ys.length := by
    grind
  unfold corvidStringCmp
  rw [hmin]
  by_cases hpos : min xs.length ys.length > 0
  · simp only [if_pos hpos]
  · have hzero : min xs.length ys.length = 0 := by omega
    simp [hzero, memcmp]

theorem corvidStringCmp_cons (b : UInt8) (xs ys : List UInt8) :
    corvidStringCmp (b :: xs) (b :: ys) = corvidStringCmp xs ys := by
  have hmin : min (b :: xs).length (b :: ys).length = min xs.length ys.length + 1 := by
    simp only [List.length_cons]
    omega
  rw [corvidStringCmp_eq, corvidStringCmp_eq, hmin, memcmp, if_pos rfl]
  simp only [List.length_cons, Nat.add_lt_add_iff_right, gt_iff_lt]

theorem corvidStringCmp_cons_ne {x y : UInt8} (h : x ≠ y) (xs ys : List UInt8) :
    corvidStringCmp (x :: xs) (y :: ys) = if x < y then -1 else 1 := by
  have hmin : min (x :: xs).length (y :: ys).length = min xs.length ys.length + 1 := by
    simp only [List.length_cons]
    omega
  have hne : (x.toNat : ℤ) - y.toNat ≠ 0 := by
    intro hzero
    exact h (UInt8.toNat_inj.mp (by omega))
  have hlt : (x.toNat : ℤ) - y.toNat < 0 ↔ x < y := by
    rw [UInt8.lt_iff_toNat_lt]
    omega
  rw [corvidStringCmp_eq, hmin, memcmp, if_neg h, if_pos hne]
  simp only [hlt]

/-- The order of strings is that of their bytes. -/
theorem corvidStringCmp_eq_ite (xs ys : List UInt8) :
    corvidStringCmp xs ys = if xs < ys then -1 else if ys < xs then 1 else 0 := by
  induction xs generalizing ys with
  | nil =>
    cases ys with
    | nil => rfl
    | cons y ys =>
      rw [if_pos (List.nil_lt_cons y ys), corvidStringCmp_eq]
      simp [memcmp]
  | cons x xs ih =>
    cases ys with
    | nil =>
      rw [if_neg (List.not_lt_nil _), if_pos (List.nil_lt_cons x xs), corvidStringCmp_eq]
      simp [memcmp]
    | cons y ys =>
      by_cases heq : x = y
      · subst heq
        rw [corvidStringCmp_cons, ih]
        simp
      · rw [corvidStringCmp_cons_ne heq]
        by_cases hlt : x < y
        · simp [List.cons_lt_cons_iff, hlt]
        · have hgt : y < x := by
            rw [UInt8.lt_iff_toNat_lt] at hlt ⊢
            have hne : x.toNat ≠ y.toNat := fun h => heq (UInt8.toNat_inj.mp h)
            omega
          simp [List.cons_lt_cons_iff, hlt, hgt, heq]

/-! ### Quoting -/

/-- The quoted form of one byte. -/
def quotedByte (ch : UInt8) : List UInt8 :=
  match shortEscape ch with
  | some letter => [ascii '\\', letter]
  | none =>
    if ch < 0x20 then
      [ascii '\\', ascii 'u', ascii '0', ascii '0', corvidJsonHexDigit (ch >>> 4),
        corvidJsonHexDigit (ch &&& 0x0f)]
    else [ch]

theorem length_quotedByte (ch : UInt8) : (quotedByte ch).length = escapedWidth ch := by
  unfold quotedByte escapedWidth
  cases shortEscape ch with
  | none => dsimp only; split_ifs <;> simp_all
  | some letter => rfl

theorem escapedLen_eq (bytes : List UInt8) : escapedLen bytes = (bytes.flatMap quotedByte).length + 2 := by
  have hfold : ∀ n, bytes.foldl (fun len ch => len + escapedWidth ch) n =
      n + (bytes.flatMap quotedByte).length := by
    induction bytes with
    | nil => simp
    | cons ch bytes ih =>
      intro n
      rw [List.foldl_cons, ih, List.flatMap_cons, List.length_append, length_quotedByte, Nat.add_assoc]
  rw [escapedLen, hfold, Nat.add_comm]

namespace Reserved

/-- Bytes that there is room for are written. -/
theorem puts_eq {out : Reserved} {bytes : List UInt8}
    (h : out.written.length + bytes.length ≤ out.size) :
    out.puts bytes = some ⟨out.size, out.written ++ bytes⟩ := by
  induction bytes generalizing out with
  | nil => simp [puts]
  | cons b bytes ih =>
    rw [List.length_cons] at h
    have hput : out.put b = some ⟨out.size, out.written ++ [b]⟩ := if_pos (by omega)
    have hrest := @ih ⟨out.size, out.written ++ [b]⟩ (by simp only [List.length_append, List.length_singleton]; omega)
    rw [puts, List.foldlM_cons, hput]
    simpa [puts] using hrest

theorem put_eq_puts (out : Reserved) (b : UInt8) : out.put b = out.puts [b] := by
  simp [puts]

end Reserved

theorem putEscaped_eq (out : Reserved) (ch : UInt8) : putEscaped out ch = out.puts (quotedByte ch) := by
  unfold putEscaped quotedByte
  cases shortEscape ch with
  | some letter => rfl
  | none =>
    dsimp only
    split_ifs
    · rfl
    · exact out.put_eq_puts ch

theorem foldlM_putEscaped {out : Reserved} {bytes : List UInt8}
    (h : out.written.length + (bytes.flatMap quotedByte).length ≤ out.size) :
    bytes.foldlM putEscaped out = some ⟨out.size, out.written ++ bytes.flatMap quotedByte⟩ := by
  induction bytes generalizing out with
  | nil => simp
  | cons ch bytes ih =>
    rw [List.flatMap_cons, List.length_append] at h
    have hput := putEscaped_eq out ch
    rw [Reserved.puts_eq (by omega)] at hput
    have hrest := @ih ⟨out.size, out.written ++ quotedByte ch⟩
      (by simp only [List.length_append]; omega)
    rw [List.foldlM_cons, hput, List.flatMap_cons]
    simpa using hrest

/-- The quoted form of some bytes. -/
def quoted (bytes : List UInt8) : List UInt8 :=
  ascii '"' :: (bytes.flatMap quotedByte ++ [ascii '"'])

/-- Quoting fills the memory that it has reserved, and nothing past it. -/
theorem corvidStringJsonQuote_eq (bytes : List UInt8) :
    corvidStringJsonQuote bytes = some ⟨(quoted bytes).length, quoted bytes⟩ := by
  have hlen := escapedLen_eq bytes
  have hsize : (quoted bytes).length = escapedLen bytes := by
    simp [quoted, hlen]
  have hfirst : Reserved.put ⟨escapedLen bytes, []⟩ (ascii '"') =
      some ⟨escapedLen bytes, [ascii '"']⟩ := by
    rw [Reserved.put_eq_puts, Reserved.puts_eq (by simp [hlen])]
    rfl
  have hbody := @foldlM_putEscaped ⟨escapedLen bytes, [ascii '"']⟩ bytes (by simp [hlen]; omega)
  have hlast := @Reserved.puts_eq ⟨escapedLen bytes, [ascii '"'] ++ bytes.flatMap quotedByte⟩
    [ascii '"'] (by simp [hlen])
  rw [corvidStringJsonQuote, hfirst, Option.bind_eq_bind, Option.bind_some, hbody]
  dsimp only at hlast ⊢
  rw [Option.bind_some, Reserved.put_eq_puts, hlast, hsize]
  rfl

/-! ### Appending -/

/-- The buffer has taken these bytes. -/
def Appended (buf : JsonBuffer) (src : List UInt8) (r : Option JsonBuffer) : Prop :=
  ∃ buf', r = some buf' ∧ buf'.bytes = buf.bytes ++ src

theorem appended_store (buf : JsonBuffer) (src : List UInt8) :
    Appended buf src (bufferStore (bufferGrow buf src.length) src) := by
  refine ⟨_, dif_pos ?_, rfl⟩
  exact le_grownCapacity buf src.length

theorem appended_bufferAppendByte (buf : JsonBuffer) (ch : UInt8) :
    Appended buf [ch] (bufferAppendByte buf ch) :=
  appended_store buf [ch]

theorem appended_bufferAppendBytes (buf : JsonBuffer) (src : List UInt8) :
    Appended buf src (bufferAppendBytes buf src) := by
  unfold bufferAppendBytes
  split_ifs with hnil
  · rw [List.length_eq_zero_iff.mp hnil]
    exact ⟨buf, rfl, (List.append_nil _).symm⟩
  · exact appended_store buf src

/-- Two appends, one after the other. -/
theorem Appended.bind {buf : JsonBuffer} {src src' : List UInt8} {r : Option JsonBuffer}
    {next : JsonBuffer → Option JsonBuffer} (h : Appended buf src r)
    (hnext : ∀ buf, Appended buf src' (next buf)) : Appended buf (src ++ src') (r.bind next) := by
  obtain ⟨buf₁, rfl, hbytes₁⟩ := h
  obtain ⟨buf₂, hr, hbytes₂⟩ := hnext buf₁
  exact ⟨buf₂, hr, by rw [hbytes₂, hbytes₁, List.append_assoc]⟩

theorem printUnicode_eq {ch : UInt8} (h : ch < 0x20) : printUnicode ch =
    [ascii '\\', ascii 'u', ascii '0', ascii '0', corvidJsonHexDigit (ch >>> 4),
      corvidJsonHexDigit (ch &&& 0x0f)] := by
  have hall : ∀ n < 0x20, printUnicode (UInt8.ofNat n) =
      [ascii '\\', ascii 'u', ascii '0', ascii '0', corvidJsonHexDigit (UInt8.ofNat n >>> 4),
        corvidJsonHexDigit (UInt8.ofNat n &&& 0x0f)] := by decide +kernel
  simpa using hall ch.toNat h

/-- Both functions quote a byte alike. -/
theorem appended_appendEscaped (buf : JsonBuffer) (ch : UInt8) :
    Appended buf (quotedByte ch) (appendEscaped buf ch) := by
  by_cases hquote : ch = ascii '"'
  · subst hquote
    exact (appended_bufferAppendByte buf _).bind fun buf => appended_bufferAppendByte buf _
  by_cases hback : ch = ascii '\\'
  · subst hback
    exact (appended_bufferAppendByte buf _).bind fun buf => appended_bufferAppendByte buf _
  by_cases hb : ch = ascii '\x08'
  · subst hb
    exact appended_bufferAppendBytes buf _
  by_cases ht : ch = ascii '\t'
  · subst ht
    exact appended_bufferAppendBytes buf _
  by_cases hn : ch = ascii '\n'
  · subst hn
    exact appended_bufferAppendBytes buf _
  by_cases hf : ch = ascii '\x0c'
  · subst hf
    exact appended_bufferAppendBytes buf _
  by_cases hr : ch = ascii '\r'
  · subst hr
    exact appended_bufferAppendBytes buf _
  have hshort : shortEscape ch = none := by
    simp [shortEscape, hquote, hback, hb, ht, hn, hf, hr]
  unfold appendEscaped quotedByte
  simp only [hshort, hquote, hback, hb, ht, hn, hf, hr, or_self, if_false]
  split_ifs with hcontrol
  · rw [← printUnicode_eq hcontrol]
    exact appended_bufferAppendBytes buf _
  · exact appended_bufferAppendByte buf ch

theorem appended_foldlM (buf : JsonBuffer) (bytes : List UInt8) :
    Appended buf (bytes.flatMap quotedByte) (bytes.foldlM appendEscaped buf) := by
  induction bytes generalizing buf with
  | nil => exact ⟨buf, rfl, (List.append_nil _).symm⟩
  | cons ch bytes ih => exact (appended_appendEscaped buf ch).bind ih

/-- The buffer takes the quoted form. -/
theorem appended_corvidJsonBufferAppendString (buf : JsonBuffer) (desc : List UInt8) :
    Appended buf (quoted desc) (corvidJsonBufferAppendString buf desc) :=
  (appended_bufferAppendByte buf (ascii '"')).bind fun buf =>
    (appended_foldlM buf desc).bind fun buf => appended_bufferAppendByte buf (ascii '"')

/-! ### Reading back -/

/-- A digit of the escape of a control character. -/
def hexDigit (n : ℕ) : Char :=
  Char.ofNat (if n < 10 then '0'.toNat + n else 'a'.toNat + (n - 10))

/-- The letter of an escape, where a character has one. -/
def escapeLetter : Char → Option Char
  | '"' => some '"'
  | '\\' => some '\\'
  | '\x08' => some 'b'
  | '\x0c' => some 'f'
  | '\n' => some 'n'
  | '\r' => some 'r'
  | '\t' => some 't'
  | _ => none

/-- How a character is spelled in a quoted text. -/
def spell (c : Char) : List Char :=
  match escapeLetter c with
  | some letter => ['\\', letter]
  | none =>
    if c.toNat < 0x20 then ['\\', 'u', '0', '0', hexDigit (c.toNat / 16), hexDigit (c.toNat % 16)]
    else [c]

theorem escapeLetter_eq_none {c : Char} (h : 128 ≤ c.toNat) : escapeLetter c = none := by
  unfold escapeLetter
  split
  all_goals first
    | rfl
    | exact absurd h (by decide)

/-- The bytes of a character are quoted to those of its spelling. -/
theorem flatMap_quotedByte_encodeChar (c : Char) :
    (String.utf8EncodeChar c).flatMap quotedByte = encode (spell c) := by
  by_cases hc : c.toNat < 128
  · have hall : ∀ n < 128, quotedByte (ascii (Char.ofNat n)) = encode (spell (Char.ofNat n)) := by
      decide +kernel
    rw [Utf8.encodeChar_of_ascii hc, List.flatMap_singleton]
    simpa using hall c.toNat hc
  · have hspell : spell c = [c] := by
      rw [spell, escapeLetter_eq_none (by omega)]
      exact if_neg (by omega)
    have hbytes : ∀ b ∈ String.utf8EncodeChar c, quotedByte b = [b] := by
      intro b hb
      have hle := Utf8.le_of_mem_encodeChar hc b hb
      have hne : ∀ d : Char, d.toNat < 128 → b ≠ ascii d := fun d hd => Utf8.ne_ascii hle hd
      have hshort : shortEscape b = none := by
        simp [shortEscape, hne]
      have hcontrol : ¬ b < 0x20 := by
        rw [UInt8.lt_iff_toNat_lt]
        change ¬ b.toNat < 32
        omega
      rw [quotedByte, hshort]
      exact if_neg hcontrol
    rw [hspell, List.flatMap_congr hbytes, List.flatMap_singleton', Utf8.encode_cons, Utf8.encode_nil,
      List.append_nil]

theorem hex4_hexDigit {n : ℕ} (h : n < 0x20) :
    JsonString.hex4 '0' '0' (hexDigit (n / 16)) (hexDigit (n % 16)) = some n := by
  have hall : ∀ n < 0x20,
      JsonString.hex4 '0' '0' (hexDigit (n / 16)) (hexDigit (n % 16)) = some n := by decide +kernel
  exact hall n h

/-- The spelling of a character is read back. -/
theorem next_spell (c : Char) (rest : List Char) :
    JsonString.next (spell c ++ rest) = some (c, rest) := by
  unfold spell
  cases hletter : escapeLetter c with
  | some letter =>
    unfold escapeLetter at hletter
    split at hletter <;> cases hletter <;> rfl
  | none =>
    dsimp only
    split_ifs with hcontrol
    · have hhex := hex4_hexDigit hcontrol
      have hunicode : JsonString.unicode c.toNat rest = some (c, rest) := by
        unfold JsonString.unicode
        rw [if_neg (by omega), if_neg (by omega), Char.ofNat_toNat]
      change (JsonString.hex4 '0' '0' (hexDigit (c.toNat / 16)) (hexDigit (c.toNat % 16))).bind
        (JsonString.unicode · rest) = _
      rw [hhex, Option.bind_some, hunicode]
    · refine JsonString.next_plain ?_ ?_ (by omega) rest
      · rintro rfl
        cases hletter
      · rintro rfl
        cases hletter

theorem quoted_encode (l : List Char) :
    quoted (encode l) = encode ('"' :: (l.flatMap spell ++ ['"'])) := by
  have hbody : (encode l).flatMap quotedByte = encode (l.flatMap spell) := by
    induction l with
    | nil => rfl
    | cons c l ih =>
      rw [Utf8.encode_cons, List.flatMap_append, ih, flatMap_quotedByte_encodeChar, List.flatMap_cons,
        Utf8.encode_append]
  rw [quoted, hbody, Utf8.encode_cons, Utf8.encode_append]
  rfl

theorem decode_quoted (l : List Char) :
    ∃ literal, quoted (encode l) = encode literal ∧ JsonString.decode literal = some l :=
  ⟨_, quoted_encode l, JsonString.decode_flatMap next_spell l⟩

/-- On the bytes of a text, the length is the number of characters, each character is found whole, the
order is that of the characters, and both ways of quoting write the same literal, which denotes the text:
one fills the memory it has counted for it, the other stays within its buffer. -/
theorem strings_agree (l m : List Char) (buf : JsonBuffer) :
    corvidStringCharLen (encode l) = l.length ∧
    (∀ i (hi : i < l.length), corvidStringCharAt (encode l) i = encode [l[i]]) ∧
    corvidStringCmp (encode l) (encode m) = (if l < m then -1 else if m < l then 1 else 0) ∧
    ∃ text literal, corvidStringJsonQuote (encode l) = some ⟨text.length, text⟩ ∧
      (∃ buf', corvidJsonBufferAppendString buf (encode l) = some buf' ∧
        buf'.bytes = buf.bytes ++ text) ∧
      text = encode literal ∧ JsonString.decode literal = some l := by
  refine ⟨corvidStringCharLen_encode l, fun i hi => ?_, ?_, ?_⟩
  · have hat := charAtFrom_encode l i hi 0
    simpa [corvidStringCharAt] using hat
  · simp only [corvidStringCmp_eq_ite, Utf8.encode_lt_encode_iff]
  · obtain ⟨literal, htext, hdecode⟩ := decode_quoted l
    exact ⟨quoted (encode l), literal, corvidStringJsonQuote_eq _,
      appended_corvidJsonBufferAppendString buf _, htext, hdecode⟩

end Corvid.Native
