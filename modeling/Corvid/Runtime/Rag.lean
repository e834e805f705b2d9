import Corvid.Lib.Loop
import Corvid.Lib.Text
import Corvid.Lib.Utf8
import Corvid.Runtime.Errors
import Mathlib.Order.Bounds.Basic

/-!
# Chunking documents

A document is cut into chunks by windows of characters. The end of a window may be pulled back to the
end of a sentence, and its white space is trimmed. The next window starts some characters before the
end of the chunk, or at the unshortened end of the window when nothing was left of it.

Offsets are of type `usize`. They wrap around, as they do in a release build. Indices out of bounds and
slices off the boundaries of characters are panics, `none` in the functions below.

## Main definitions

* `chooseChunkEnd`, `trimChunkWindow`: the end of a window, and what is left of it
* `round`: one round of the loop
* `Returns`: what `chunk_document_with_config` returns
* `window`: the positions of a window that trimming keeps

## Main results

* `chooseChunkEnd_spec`, `trimChunkWindow_spec`
* `round_cases`: what a round does
-/

namespace Corvid.Rag

open Utf8 (width cut)

structure RagDocument where
  id : String
  source : String
  mediaType : String
  text : String
  /-- A string has at most `isize::MAX` bytes. -/
  fits : width text.toList < 2 ^ 63

structure RagChunk where
  docId : String
  chunkId : String
  source : String
  text : String
  startChar : ℕ
  endChar : ℕ
  provenanceKey : String
deriving DecidableEq, Repr

structure RagChunkingConfig where
  maxChars : UInt64
  overlapChars : UInt64
  trimWhitespace : Bool
  preferSentenceBoundary : Bool
deriving DecidableEq, Repr

/-- `RagChunkingConfig::new` -/
def RagChunkingConfig.new (maxChars overlapChars : UInt64) : RagChunkingConfig where
  maxChars := maxChars
  overlapChars := overlapChars
  trimWhitespace := true
  preferSentenceBoundary := true

/-- A `usize` after an operation that wraps around. -/
def wrap (n : ℕ) : ℕ := n % 2 ^ 64

/-! ## Characters and bytes -/

/-- `char_indices`, from a byte offset on. -/
def charIndices (pos : ℕ) : List Char → List (ℕ × Char)
  | [] => []
  | c :: l => (pos, c) :: charIndices (pos + c.utf8Size) l

/-- The byte offset of a character, or the end of the text. -/
def byteAt (chars : List (ℕ × Char)) (text : List Char) (index : ℕ) : Option ℕ :=
  if index = chars.length then some (width text) else chars[index]?.map Prod.fst

/-- `text[start..stop]` -/
def slice (text : List Char) (start stop : ℕ) : Option (List Char) := do
  let (front, _) ← cut stop text
  let (_, middle) ← cut start front
  return middle

@[simp] theorem length_charIndices (pos : ℕ) (l : List Char) :
    (charIndices pos l).length = l.length := by
  induction l generalizing pos with
  | nil => rfl
  | cons c l ih => simp [charIndices, ih]

theorem getElem?_charIndices (pos : ℕ) (l : List Char) (i : ℕ) :
    (charIndices pos l)[i]? = l[i]?.map fun c => (pos + width (l.take i), c) := by
  induction l generalizing pos i with
  | nil => simp [charIndices]
  | cons c l ih =>
    cases i with
    | zero => simp [charIndices]
    | succ i => simp [charIndices, ih, Nat.add_assoc]

@[simp] theorem cut_width_take (l : List Char) (i : ℕ) :
    cut (width (l.take i)) l = some (l.take i, l.drop i) := by
  have happend := Utf8.cut_append (l.take i) (l.drop i)
  rwa [List.take_append_drop] at happend

theorem byteAt_charIndices {l : List Char} {i : ℕ} (hi : i ≤ l.length) :
    byteAt (charIndices 0 l) l i = some (width (l.take i)) := by
  rw [byteAt, length_charIndices]
  split
  next heq => rw [heq, List.take_length]
  next hne =>
    have hlt : i < l.length := by omega
    rw [getElem?_charIndices, List.getElem?_eq_getElem hlt]
    simp

theorem slice_width_take {l : List Char} {a b : ℕ} (hab : a ≤ b) :
    slice l (width (l.take a)) (width (l.take b)) = some ((l.take b).drop a) := by
  have htake : l.take a = (l.take b).take a := by rw [List.take_take, Nat.min_eq_left hab]
  rw [slice, cut_width_take, htake]
  simp

theorem length_le_width (l : List Char) : l.length ≤ width l := by
  induction l with
  | nil => simp
  | cons c l ih =>
    have hpos := c.utf8Size_pos
    simp only [List.length_cons, Utf8.width_cons]
    omega

/-! ## The end of a window -/

/-- The characters that end a sentence. -/
def isBoundary (c : Char) : Bool :=
  c == '.' || c == '!' || c == '?' || c == '\n'

/-- The last of the `n` candidates from `minEnd` on that follows the end of a sentence. -/
def lastCandidate (chars : List (ℕ × Char)) (text : List Char) (minEnd : ℕ) :
    ℕ → Option (Option ℕ)
  | 0 => some none
  | n + 1 => do
    let (_, boundary) ← chars[minEnd + n - 1]?
    if isBoundary boundary then
      let (byte, _) ← chars[minEnd + n]?
      let (before, _) ← cut byte text
      if before.getLast?.isSome then
        return some (minEnd + n)
      else
        lastCandidate chars text minEnd n
    else
      lastCandidate chars text minEnd n

def chooseChunkEnd (chars : List (ℕ × Char)) (text : List Char) (start targetEnd : ℕ)
    (config : RagChunkingConfig) : Option ℕ :=
  if !config.preferSentenceBoundary || chars.length ≤ targetEnd then
    some targetEnd
  else
    let half := wrap (2 ^ 64 + targetEnd - start) / 2
    let minEnd := wrap (start + max half 1)
    (lastCandidate chars text minEnd (targetEnd - minEnd)).map (·.getD targetEnd)

/-! ## Trimming a window -/

/-- The first position from `start` on, of `n`, that holds no white space. -/
def trimStart (chars : List (ℕ × Char)) (start : ℕ) : ℕ → Option ℕ
  | 0 => some start
  | n + 1 => do
    let (_, c) ← chars[start]?
    if Text.isWhitespace c then trimStart chars (start + 1) n else return start

/-- The end of the `n` positions from `start` on, without the white space before it. -/
def trimEnd (chars : List (ℕ × Char)) (text : List Char) (start : ℕ) : ℕ → Option ℕ
  | 0 => some start
  | n + 1 => do
    let byte ← byteAt chars text (start + n + 1)
    let (before, _) ← cut byte text
    let prev := before.getLast?.getD '\x00'
    if Text.isWhitespace prev then trimEnd chars text start n else return start + n + 1

def trimChunkWindow (chars : List (ℕ × Char)) (text : List Char) (start stop : ℕ)
    (config : RagChunkingConfig) : Option (ℕ × ℕ) :=
  if !config.trimWhitespace || stop ≤ start then
    some (start, stop)
  else do
    let trimmedStart ← trimStart chars start (stop - start)
    let trimmedEnd ← trimEnd chars text trimmedStart (stop - trimmedStart)
    return (trimmedStart, trimmedEnd)

/-! ## What the windows are -/

variable {l : List Char} {config : RagChunkingConfig}

theorem lastCandidate_spec (l : List Char) {minEnd : ℕ} (hmin : 0 < minEnd) {n : ℕ}
    (hn : minEnd + n ≤ l.length) :
    ∃ found, lastCandidate (charIndices 0 l) l minEnd n = some found ∧
      ∀ c, found = some c → minEnd ≤ c ∧ c < minEnd + n := by
  induction n with
  | zero => exact ⟨none, rfl, by simp⟩
  | succ n ih =>
    obtain ⟨found, hfound, hrange⟩ := ih (by omega)
    have hprev : minEnd + n - 1 < l.length := by omega
    have hcand : minEnd + n < l.length := by omega
    have hrec : ∃ found, lastCandidate (charIndices 0 l) l minEnd n = some found ∧
        ∀ c, found = some c → minEnd ≤ c ∧ c < minEnd + (n + 1) :=
      ⟨found, hfound, fun c hc => by have := hrange c hc; omega⟩
    simp only [lastCandidate, getElem?_charIndices, List.getElem?_eq_getElem hprev,
      List.getElem?_eq_getElem hcand, Option.map_some, Option.bind_eq_bind, Option.bind_some,
      Nat.zero_add, cut_width_take]
    split
    · split
      · exact ⟨some (minEnd + n), rfl, by simp⟩
      · exact hrec
    · exact hrec

/-- The end of a window lies in it, past its start. -/
theorem chooseChunkEnd_spec (config : RagChunkingConfig) {start targetEnd : ℕ}
    (hstart : start < l.length) (htarget : targetEnd ≤ l.length) (hfits : l.length < 2 ^ 63) :
    ∃ stop, chooseChunkEnd (charIndices 0 l) l start targetEnd config = some stop ∧
      stop ≤ targetEnd ∧ (start < targetEnd → start < stop) := by
  rw [chooseChunkEnd]
  split
  · exact ⟨targetEnd, rfl, Nat.le_refl _, id⟩
  · dsimp only
    generalize hhalf : wrap (2 ^ 64 + targetEnd - start) / 2 = half
    generalize hmin : wrap (start + max half 1) = minEnd
    unfold wrap at hhalf hmin
    have hgt : start < minEnd := by omega
    have hle : start < targetEnd → minEnd ≤ targetEnd := by omega
    by_cases hempty : targetEnd ≤ minEnd
    · -- no candidates
      refine ⟨targetEnd, ?_, Nat.le_refl _, id⟩
      simp [Nat.sub_eq_zero_of_le hempty, lastCandidate]
    · obtain ⟨found, hfound, hrange⟩ :=
        lastCandidate_spec l (by omega : 0 < minEnd) (n := targetEnd - minEnd) (by omega)
      rw [hfound]
      cases found with
      | none => exact ⟨targetEnd, rfl, Nat.le_refl _, id⟩
      | some c =>
        have hc := hrange c rfl
        exact ⟨c, rfl, by omega, by omega⟩

/-- The positions that trimming keeps. -/
def Kept (config : RagChunkingConfig) (l : List Char) (i : ℕ) : Prop :=
  ∃ c, l[i]? = some c ∧ (config.trimWhitespace = true → Text.isWhitespace c = false)

theorem Kept.lt {i : ℕ} (h : Kept config l i) : i < l.length := by
  obtain ⟨c, hc, -⟩ := h
  exact (List.getElem?_eq_some_iff.mp hc).1

theorem kept_iff_of_trim (htrim : config.trimWhitespace = true) {i : ℕ} (hi : i < l.length) :
    Kept config l i ↔ Text.isWhitespace l[i] = false := by
  simp [Kept, hi, htrim]

theorem kept_of_not_trim (htrim : config.trimWhitespace = false) {i : ℕ} (hi : i < l.length) :
    Kept config l i := by
  simp [Kept, hi, htrim]

theorem trimStart_spec (htrim : config.trimWhitespace = true) (start n : ℕ)
    (hn : start + n ≤ l.length) :
    ∃ a, trimStart (charIndices 0 l) start n = some a ∧ start ≤ a ∧ a ≤ start + n ∧
      (∀ i, start ≤ i → i < a → ¬ Kept config l i) ∧ (a < start + n → Kept config l a) := by
  induction n generalizing start with
  | zero => exact ⟨start, rfl, Nat.le_refl _, Nat.le_refl _, by omega, by omega⟩
  | succ n ih =>
    have hlt : start < l.length := by omega
    simp only [trimStart, getElem?_charIndices, List.getElem?_eq_getElem hlt, Option.map_some,
      Option.bind_eq_bind, Option.bind_some]
    split
    next hspace =>
      obtain ⟨a, ha, hle, hend, hskip, hkept⟩ := ih (start + 1) (by omega)
      refine ⟨a, ha, by omega, by omega, fun i hi hia => ?_, fun h => hkept (by omega)⟩
      by_cases heq : i = start
      · subst heq
        rw [kept_iff_of_trim htrim hlt, hspace]
        simp
      · exact hskip i (by omega) hia
    next hspace =>
      refine ⟨start, rfl, Nat.le_refl _, by omega, by omega, fun _ => ?_⟩
      exact (kept_iff_of_trim htrim hlt).mpr (by simpa using hspace)

theorem trimEnd_spec (htrim : config.trimWhitespace = true) (start n : ℕ)
    (hn : start + n ≤ l.length) :
    ∃ b, trimEnd (charIndices 0 l) l start n = some b ∧ start ≤ b ∧ b ≤ start + n ∧
      (∀ i, b ≤ i → i < start + n → ¬ Kept config l i) ∧ (start < b → Kept config l (b - 1)) := by
  induction n with
  | zero => exact ⟨start, rfl, Nat.le_refl _, Nat.le_refl _, by omega, by omega⟩
  | succ n ih =>
    have hlt : start + n < l.length := by omega
    have hlast : (l.take (start + n + 1)).getLast? = some l[start + n] := by
      rw [List.take_add_one, List.getElem?_eq_getElem hlt, Option.toList_some,
        List.getLast?_concat]
    have hbyte := byteAt_charIndices (l := l) (i := start + n + 1) (by omega)
    simp only [trimEnd, hbyte, cut_width_take, hlast, Option.bind_eq_bind, Option.bind_some,
      Option.getD_some]
    split
    next hspace =>
      obtain ⟨b, hb, hle, hend, hskip, hkept⟩ := ih (by omega)
      refine ⟨b, hb, hle, by omega, fun i hi hib => ?_, hkept⟩
      by_cases heq : i = start + n
      · subst heq
        rw [kept_iff_of_trim htrim hlt, hspace]
        simp
      · exact hskip i hi (by omega)
    next hspace =>
      refine ⟨start + n + 1, rfl, by omega, by omega, by omega, fun _ => ?_⟩
      exact (kept_iff_of_trim htrim hlt).mpr (by simpa using hspace)

/-- What trimming leaves of a window: nothing, or what is between its first and its last position. -/
theorem trimChunkWindow_spec (config : RagChunkingConfig) (start : ℕ) {stop : ℕ}
    (hstop : stop ≤ l.length) :
    ∃ a b, trimChunkWindow (charIndices 0 l) l start stop config = some (a, b) ∧
      ((b ≤ a ∧ ∀ i, start ≤ i → i < stop → ¬ Kept config l i) ∨
        (a < b ∧ IsLeast {i | start ≤ i ∧ i < stop ∧ Kept config l i} a ∧
          IsGreatest {i | start ≤ i ∧ i < stop ∧ Kept config l i} (b - 1))) := by
  rw [trimChunkWindow]
  split
  next hsame =>
    refine ⟨start, stop, rfl, ?_⟩
    by_cases hempty : stop ≤ start
    · exact .inl ⟨hempty, fun i hi hlt => by omega⟩
    · have htrim : config.trimWhitespace = false := by simpa [hempty] using hsame
      have hkept : ∀ i, i < stop → Kept config l i := fun i hi =>
        kept_of_not_trim htrim (Nat.lt_of_lt_of_le hi hstop)
      refine .inr ⟨by omega, ⟨⟨Nat.le_refl _, by omega, hkept _ (by omega)⟩, fun i hi => hi.1⟩,
        ⟨by omega, by omega, hkept _ (by omega)⟩, fun i hi => ?_⟩
      have := hi.2.1
      omega
  next htrimmed =>
    obtain ⟨htrim, hlt⟩ : config.trimWhitespace = true ∧ start < stop := by
      simpa [Nat.not_le] using htrimmed
    obtain ⟨a, ha, hsa, hae, hbefore, hfirst⟩ :=
      trimStart_spec (l := l) htrim start (stop - start) (by omega)
    obtain ⟨b, hb, hab, hbe, hafter, hlast⟩ :=
      trimEnd_spec (l := l) htrim a (stop - a) (by omega)
    refine ⟨a, b, by simp [ha, hb], ?_⟩
    by_cases hempty : b ≤ a
    · refine .inl ⟨hempty, fun i hi hlt => ?_⟩
      by_cases hia : i < a
      · exact hbefore i hi hia
      · exact hafter i (by omega) (by omega)
    · have hge : ∀ i, start ≤ i → Kept config l i → a ≤ i := fun i hi hkept =>
        Nat.le_of_not_lt fun h => hbefore i hi h hkept
      have hle : ∀ i, a ≤ i → i < stop → Kept config l i → i < b := fun i hi hlt hkept =>
        Nat.lt_of_not_le fun h => hafter i h (by omega) hkept
      refine .inr ⟨by omega, ⟨⟨hsa, by omega, hfirst (by omega)⟩, fun i hi => hge i hi.1 hi.2.2⟩,
        ⟨by omega, by omega, hlast (by omega)⟩, fun i hi => ?_⟩
      have := hle i (hge i hi.1 hi.2.2) hi.2.1 hi.2.2
      omega

/-! ## The loop -/

/-- Where the loop stands: it goes on, it came to its end or it panicked. -/
inductive Status where
  | looping
  | finished
  | panicked
deriving DecidableEq, Repr

structure Progress where
  start : ℕ
  chunks : List RagChunk
  status : Status

def Progress.initial : Progress where
  start := 0
  chunks := []
  status := .looping

namespace RagDocument

/-- The characters of the text. -/
def letters (document : RagDocument) : List Char :=
  document.text.toList

def chars (document : RagDocument) : List (ℕ × Char) :=
  charIndices 0 document.letters

theorem length_lt (document : RagDocument) : document.letters.length < 2 ^ 63 :=
  Nat.lt_of_le_of_lt (length_le_width _) document.fits

end RagDocument

def overlap (config : RagChunkingConfig) : ℕ :=
  min config.overlapChars.toNat (config.maxChars.toNat - 1)

theorem overlap_lt (config : RagChunkingConfig) (h : 0 < config.maxChars.toNat) :
    overlap config < config.maxChars.toNat := by
  unfold overlap
  omega

def targetEnd (document : RagDocument) (config : RagChunkingConfig) (start : ℕ) : ℕ :=
  min (wrap (start + config.maxChars.toNat)) document.letters.length

def chosenEnd (document : RagDocument) (config : RagChunkingConfig) (start : ℕ) : Option ℕ :=
  chooseChunkEnd document.chars document.letters start (targetEnd document config start) config

/-- The little-endian bytes of a `usize`. -/
def leBytes (n : ℕ) : List UInt8 :=
  (List.range 8).map fun k => UInt8.ofNat (n / 256 ^ k)

section Rounds

-- the digest of some bytes, in hexadecimal digits
variable (sha256 : List UInt8 → String)

def provenanceKey (docId : String) (start stop : ℕ) (text : String) : String :=
  "rag_" ++ sha256 (Utf8.encode docId.toList ++ leBytes start ++ leBytes stop ++
    Utf8.encode text.toList)

/-- The chunk of a trimmed window, after `n` chunks. -/
def chunkOf (document : RagDocument) (n start stop : ℕ) (text : String) : RagChunk where
  docId := document.id
  chunkId := document.id ++ ":" ++ toString n
  source := document.source
  text := text
  startChar := start
  endChar := stop
  provenanceKey := provenanceKey sha256 document.id start stop text

/-- The body of the loop. -/
def body (document : RagDocument) (config : RagChunkingConfig) (p : Progress) : Option Progress := do
  let stop ← chosenEnd document config p.start
  let (startIdx, endIdx) ← trimChunkWindow document.chars document.letters p.start stop config
  if endIdx ≤ startIdx then
    return { p with start := targetEnd document config p.start }
  let (startByte, _) ← document.chars[startIdx]?
  let endByte ← byteAt document.chars document.letters endIdx
  let text ← slice document.letters startByte endByte
  let chunk := chunkOf sha256 document p.chunks.length startIdx endIdx (String.ofList text)
  let chunks := p.chunks ++ [chunk]
  if endIdx = document.chars.length then
    return { p with chunks := chunks, status := .finished }
  return { p with chunks := chunks, start := endIdx - overlap config }

/-- One round of the loop, unless it is over. -/
def round (document : RagDocument) (config : RagChunkingConfig) (p : Progress) : Option Progress :=
  if p.status = .looping ∧ p.start < document.chars.length then
    some ((body sha256 document config p).getD { p with status := .panicked })
  else
    none

/-- What `chunk_document_with_config` returns, when it does. -/
inductive Returns (document : RagDocument) (config : RagChunkingConfig) :
    Except RuntimeError (List RagChunk) → Prop where
  | refused : config.maxChars = 0 →
      Returns document config (.error (.other "std.rag chunk size must be greater than zero"))
  | empty : config.maxChars ≠ 0 → document.chars = [] → Returns document config (.ok [])
  | looped {p : Progress} : config.maxChars ≠ 0 → document.chars ≠ [] →
      Loop.Steps (round sha256 document config) .initial p → round sha256 document config p = none →
      p.status ≠ .panicked → Returns document config (.ok p.chunks)

end Rounds

/-! ## What a round does -/

variable {sha256 : List UInt8 → String} {document : RagDocument} {p q : Progress}

/-- The positions of a window that trimming keeps. -/
def window (document : RagDocument) (config : RagChunkingConfig) (start : ℕ) : Set ℕ :=
  {i | start ≤ i ∧ (∃ stop, chosenEnd document config start = some stop ∧ i < stop) ∧
    Kept config document.letters i}

/-- The characters of an interval. -/
def interval (document : RagDocument) (start stop : ℕ) : String :=
  String.ofList ((document.letters.take stop).drop start)

/-- A round passes over a window of white space, or adds the chunk of the window. -/
inductive Turn (sha256 : List UInt8 → String) (document : RagDocument) (config : RagChunkingConfig)
    (p : Progress) : Progress → Prop where
  | skip : window document config p.start = ∅ →
      Turn sha256 document config p { p with start := targetEnd document config p.start }
  | add {a b : ℕ} : a < b → IsLeast (window document config p.start) a →
      IsGreatest (window document config p.start) (b - 1) →
      Turn sha256 document config p
        { start := if b = document.letters.length then p.start else b - overlap config
          chunks := p.chunks ++
            [chunkOf sha256 document p.chunks.length a b (interval document a b)]
          status := if b = document.letters.length then .finished else p.status }

@[simp] theorem length_chars (document : RagDocument) :
    document.chars.length = document.letters.length :=
  length_charIndices _ _

theorem targetEnd_le (document : RagDocument) (config : RagChunkingConfig) (start : ℕ) :
    targetEnd document config start ≤ document.letters.length :=
  Nat.min_le_right _ _

theorem chosenEnd_spec (document : RagDocument) (config : RagChunkingConfig) {start : ℕ}
    (hstart : start < document.letters.length) :
    ∃ stop, chosenEnd document config start = some stop ∧
      stop ≤ targetEnd document config start ∧
      (start < targetEnd document config start → start < stop) :=
  chooseChunkEnd_spec config hstart (targetEnd_le document config start) document.length_lt

theorem body_turn (sha256 : List UInt8 → String) (config : RagChunkingConfig)
    (hstart : p.start < document.letters.length) :
    ∃ q, body sha256 document config p = some q ∧ Turn sha256 document config p q := by
  obtain ⟨stop, hstop, hle, -⟩ := chosenEnd_spec document config hstart
  have hwindow : window document config p.start =
      {i | p.start ≤ i ∧ i < stop ∧ Kept config document.letters i} := by
    ext i
    simp [window, hstop]
  have hlen : stop ≤ document.letters.length := hle.trans (targetEnd_le document config p.start)
  obtain ⟨a, b, htrim, hcases⟩ := trimChunkWindow_spec config p.start hlen
  unfold body
  rw [hstop]
  simp only [RagDocument.chars, htrim, Option.bind_eq_bind, Option.bind_some, length_charIndices]
  rcases hcases with ⟨hempty, hnone⟩ | ⟨hab, hleast, hgreatest⟩
  · refine ⟨_, if_pos hempty, .skip ?_⟩
    rw [hwindow, Set.eq_empty_iff_forall_notMem]
    exact fun i hi => hnone i hi.1 hi.2.1 hi.2.2
  · have hb : b ≤ document.letters.length := by
      have := hgreatest.1.2.1
      omega
    have ha : a < document.letters.length := by omega
    rw [if_neg (by omega), getElem?_charIndices, List.getElem?_eq_getElem ha]
    simp only [Option.map_some, Option.bind_some, Nat.zero_add, byteAt_charIndices hb,
      slice_width_take (Nat.le_of_lt hab)]
    rw [← hwindow] at hleast hgreatest
    have hturn : Turn sha256 document config p _ := .add hab hleast hgreatest
    refine ⟨_, ?_, hturn⟩
    split <;> rfl

theorem round_eq_none_iff :
    round sha256 document config p = none ↔
      p.status ≠ .looping ∨ document.letters.length ≤ p.start := by
  simp only [round, length_chars]
  grind

theorem round_turn (h : round sha256 document config p = some q) :
    p.status = .looping ∧ p.start < document.letters.length ∧ Turn sha256 document config p q := by
  simp only [round, length_chars] at h
  split at h
  next hgo =>
    obtain ⟨r, hbody, hturn⟩ := body_turn sha256 config hgo.2
    rw [hbody, Option.getD_some, Option.some.injEq] at h
    exact ⟨hgo.1, hgo.2, h ▸ hturn⟩
  next => cases h

theorem exists_round (sha256 : List UInt8 → String) (config : RagChunkingConfig)
    (hstatus : p.status = .looping) (hstart : p.start < document.letters.length) :
    ∃ q, round sha256 document config p = some q := by
  rw [round, if_pos ⟨hstatus, by rwa [length_chars]⟩]
  exact ⟨_, rfl⟩

end Corvid.Rag
