import Corvid.Lib.Utf8
import Corvid.Syntax.Layout

/-!
# The lexer on bytes

The lexer moves a cursor over the bytes of the source, and slices the source at the cursor. Slicing
inside of a character panics.

## Main definitions

* `ByteLexer`: the state, with a byte offset
* `slice`: the text between two offsets, which have to be boundaries
* `ByteLexer.consumeEscape`: an escape, whose character is taken to be one byte
* `ByteLexer.iterate`: one iteration of the main loop, which panics or goes on
-/

namespace Corvid.Syntax

open Utf8 (encode cut ascii)

structure ByteLexer where
  pos : ℕ
  tokens : List Token
  errors : List LexError
  bracketDepth : Int32
  indentStack : List ℕ
  hadContentOnLine : Bool
deriving DecidableEq

/-! ## Bytes and slices -/

def isDigitByte (b : UInt8) : Bool :=
  ascii '0' ≤ b && b ≤ ascii '9'

def isHexDigitByte (b : UInt8) : Bool :=
  isDigitByte b || (ascii 'a' ≤ b && b ≤ ascii 'f') || (ascii 'A' ≤ b && b ≤ ascii 'F')

def isAlphaByte (b : UInt8) : Bool :=
  (ascii 'a' ≤ b && b ≤ ascii 'z') || (ascii 'A' ≤ b && b ≤ ascii 'Z')

def isIdentStartByte (b : UInt8) : Bool :=
  b == ascii '_' || isAlphaByte b

def isIdentContinueByte (b : UInt8) : Bool :=
  b == ascii '_' || isAlphaByte b || isDigitByte b

/-- A byte as the character of its number. -/
def latin1 (b : UInt8) : Char :=
  Char.ofNat b.toNat

section Source

variable (src : List Char)

/-- The text between two offsets, which have to be boundaries. -/
def slice (start stop : ℕ) : Option (List Char) :=
  if stop < start then none
  else (cut start src).bind fun parts => (cut (stop - start) parts.2).map Prod.fst

/-- The first offset from `pos` on whose byte does not satisfy the predicate. -/
def skip (p : UInt8 → Bool) (pos : ℕ) : ℕ :=
  pos + (((encode src).drop pos).takeWhile p).length

namespace ByteLexer

def emit (lx : ByteLexer) (kind : TokKind) (span : Span) : ByteLexer :=
  { lx with hadContentOnLine := true, tokens := lx.tokens ++ [⟨kind, span⟩] }

def emitStructural (lx : ByteLexer) (kind : TokKind) (span : Span) : ByteLexer :=
  { lx with tokens := lx.tokens ++ [⟨kind, span⟩] }

def error (lx : ByteLexer) (kind : LexErrorKind) (span : Span) : ByteLexer :=
  { lx with errors := lx.errors ++ [⟨kind, span⟩] }

def moveTo (lx : ByteLexer) (pos : ℕ) : ByteLexer :=
  { lx with pos := pos }

/-! ## Scanners -/

def isAfterHashDigestPrefix (start : ℕ) : Option Bool :=
  (slice src 0 start).map fun before => decide ("hash:sha256:".toList <:+ before)

def lexNumber (lx : ByteLexer) : Option ByteLexer := do
  let start := lx.pos
  if ← isAfterHashDigestPrefix src start then
    let stop := skip src isHexDigitByte start
    let text ← slice src start stop
    return (lx.moveTo stop).emit (.ident (String.ofList text)) ⟨start, stop⟩
  else
    let whole := skip src isDigitByte start
    if (encode src)[whole]? = some (ascii '.') ∧ ((encode src)[whole + 1]?).any isDigitByte then
      let stop := skip src isDigitByte (whole + 1)
      let text ← slice src start stop
      return (lx.moveTo stop).emit (.float (String.ofList text)) ⟨start, stop⟩
    else
      let text ← slice src start whole
      let lx := lx.moveTo whole
      return if Nat.ofDigitChars 10 text 0 < 2 ^ 63 then
          lx.emit (.int (Nat.ofDigitChars 10 text 0)) ⟨start, whole⟩
        else lx.error (.invalidNumber (String.ofList text)) ⟨start, whole⟩

/-- The character of an escape, and the state after it. The cursor moves by one byte after the
backslash. -/
def consumeEscape (lx : ByteLexer) : Option Char × ByteLexer :=
  let escStart := lx.pos
  match (encode src)[escStart + 1]? with
  | none => (none, (lx.moveTo (escStart + 1)).error .unterminatedString ⟨escStart, escStart + 1⟩)
  | some esc =>
    match unescape (latin1 esc) with
    | some c => (some c, lx.moveTo (escStart + 2))
    | none =>
      (some (latin1 esc),
        (lx.moveTo (escStart + 2)).error (.invalidEscape (latin1 esc)) ⟨escStart, escStart + 2⟩)

theorem consumeEscape_pos (lx : ByteLexer) : lx.pos < (consumeEscape src lx).2.pos := by
  unfold consumeEscape
  dsimp only
  split
  next => exact Nat.lt_succ_self _
  next =>
    split
    next => exact Nat.lt_add_of_pos_right (by decide)
    next => exact Nat.lt_add_of_pos_right (by decide)

/-- The loop over a string on one line. -/
def singleLoop (start : ℕ) (contents : List Char) (lx : ByteLexer) : Option ByteLexer :=
  if h : lx.pos < (encode src).length then
    let c := (encode src)[lx.pos]
    if c = ascii '"' then
      some ((lx.moveTo (lx.pos + 1)).emit (.stringLit (String.ofList contents)) ⟨start, lx.pos + 1⟩)
    else if c = ascii '\n' then some (lx.error .unterminatedString ⟨start, lx.pos⟩)
    else if c = ascii '\\' then
      match hescape : consumeEscape src lx with
      | (some ch, lx') => singleLoop start (contents ++ [ch]) lx'
      | (none, lx') => some lx'
    else
      -- the rest of the source is sliced at the cursor
      match (cut lx.pos src).bind (·.2.head?) with
      | none => none
      | some ch => singleLoop start (contents ++ [ch]) (lx.moveTo (lx.pos + ch.utf8Size))
  else some (lx.error .unterminatedString ⟨start, lx.pos⟩)
termination_by (encode src).length - lx.pos
decreasing_by
  · have hpos := consumeEscape_pos src lx
    rw [hescape] at hpos
    dsimp only at hpos
    omega
  · have hpos := ch.utf8Size_pos
    dsimp only [moveTo]
    omega

def atTripleQuotes (pos : ℕ) : Bool :=
  (encode src)[pos]? = some (ascii '"') ∧ (encode src)[pos + 1]? = some (ascii '"') ∧
    (encode src)[pos + 2]? = some (ascii '"')

/-- The loop over a string over several lines. -/
def tripleLoop (start : ℕ) (contents : List Char) (lx : ByteLexer) : Option ByteLexer :=
  if h : lx.pos < (encode src).length then
    if atTripleQuotes src lx.pos then
      some ((lx.moveTo (lx.pos + 3)).emit (.stringLit (String.ofList contents)) ⟨start, lx.pos + 3⟩)
    else if (encode src)[lx.pos] = ascii '\\' then
      match hescape : consumeEscape src lx with
      | (some ch, lx') => tripleLoop start (contents ++ [ch]) lx'
      | (none, lx') => some lx'
    else
      match (cut lx.pos src).bind (·.2.head?) with
      | none => none
      | some ch => tripleLoop start (contents ++ [ch]) (lx.moveTo (lx.pos + ch.utf8Size))
  else some (lx.error .unterminatedString ⟨start, lx.pos⟩)
termination_by (encode src).length - lx.pos
decreasing_by
  · have hpos := consumeEscape_pos src lx
    rw [hescape] at hpos
    dsimp only at hpos
    omega
  · have hpos := ch.utf8Size_pos
    dsimp only [moveTo]
    omega

def lexString (lx : ByteLexer) : Option ByteLexer :=
  if (encode src)[lx.pos + 1]? = some (ascii '"') ∧ (encode src)[lx.pos + 2]? = some (ascii '"') then
    tripleLoop src lx.pos [] (lx.moveTo (lx.pos + 3))
  else singleLoop src lx.pos [] (lx.moveTo (lx.pos + 1))

def lexIdentOrKw (lx : ByteLexer) : Option ByteLexer := do
  let stop := skip src isIdentContinueByte lx.pos
  let text ← slice src lx.pos stop
  return (lx.moveTo stop).emit
    ((TokKind.keywordFrom (String.ofList text)).getD (.ident (String.ofList text))) ⟨lx.pos, stop⟩

def lexPunct (lx : ByteLexer) (c : UInt8) : Option ByteLexer :=
  match punct (latin1 c) ((encode src)[lx.pos + 1]?.map latin1) with
  | some (kind, len) =>
    let lx' := { lx with bracketDepth := lx.bracketDepth + bracketDelta kind }
    some ((lx'.moveTo (lx.pos + len)).emit kind ⟨lx.pos, lx.pos + len⟩)
  | none =>
    if c = ascii '!' then
      some ((lx.moveTo (lx.pos + 1)).error (.unexpectedChar '!') ⟨lx.pos, lx.pos + 1⟩)
    else
      (cut lx.pos src).map fun parts =>
        let ch := parts.2.headD '?'
        (lx.moveTo (lx.pos + ch.utf8Size)).error (.unexpectedChar ch) ⟨lx.pos, lx.pos + ch.utf8Size⟩

/-! ## The main loop -/

def isBlankByte (b : UInt8) : Bool :=
  b == ascii ' ' || b == ascii '\t'

def indentTo (lx : ByteLexer) (start indent : ℕ) : ByteLexer :=
  let current := lx.indentStack.headD 0
  if current < indent then
    { lx with indentStack := indent :: lx.indentStack }.emitStructural .indent ⟨start, lx.pos⟩
  else if indent < current then
    let popped := lx.indentStack.takeWhile (indent < ·)
    let left := lx.indentStack.dropWhile (indent < ·)
    { lx with
      indentStack := left
      tokens := lx.tokens ++ List.replicate popped.length ⟨.dedent, ⟨lx.pos, lx.pos⟩⟩
      errors := lx.errors ++
        if left.headD 0 = indent then [] else [⟨.inconsistentDedent, ⟨start, lx.pos⟩⟩] }
  else lx

def processLineStart (lx : ByteLexer) : ByteLexer :=
  let start := skip src (· == ascii '\r') lx.pos
  let blanks := ((encode src).drop start).takeWhile isBlankByte
  let lx := lx.moveTo (start + blanks.length)
  match (encode src)[lx.pos]? with
  | none => lx
  | some b =>
    if b = ascii '\n' ∨ b = ascii '\r' ∨ b = ascii '#' then lx
    else
      let lx := if ascii '\t' ∈ blanks then lx.error .tabIndentation ⟨start, lx.pos⟩ else lx
      lx.indentTo start (blanks.count (ascii ' '))

def endLine (lx : ByteLexer) : ByteLexer :=
  let after := lx.moveTo (lx.pos + 1)
  if lx.bracketDepth = 0 then
    if lx.hadContentOnLine then
      let ended := after.emitStructural .newline ⟨lx.pos, after.pos⟩
      processLineStart src { ended with hadContentOnLine := false }
    else processLineStart src after
  else after

/-- One iteration of the main loop, where the byte at the cursor is `c`. -/
def step (lx : ByteLexer) (c : UInt8) : Option ByteLexer :=
  if c = ascii ' ' ∨ c = ascii '\t' ∨ c = ascii '\r' then some (lx.moveTo (lx.pos + 1))
  else if c = ascii '\n' then some (lx.endLine src)
  else if c = ascii '#' then some (lx.moveTo (skip src (· != ascii '\n') lx.pos))
  else if isDigitByte c then lx.lexNumber src
  else if c = ascii '"' then lx.lexString src
  else if isIdentStartByte c then lx.lexIdentOrKw src
  else lx.lexPunct src c

/-- The main loop. `some none` is a panic, `none` the end of the loop. -/
def iterate : Option ByteLexer → Option (Option ByteLexer)
  | none => none
  | some lx => ((encode src)[lx.pos]?).map fun c => lx.step src c

def start : ByteLexer :=
  processLineStart src
    { pos := if [0xEF, 0xBB, 0xBF] <+: encode src then 3 else 0
      tokens := []
      errors := []
      bracketDepth := 0
      indentStack := [0]
      hadContentOnLine := false }

/-- The tokens at the end of the source. -/
def finish (lx : ByteLexer) : List Token :=
  let close (kind : TokKind) : Token := ⟨kind, ⟨lx.pos, lx.pos⟩⟩
  lx.tokens ++ (if lx.hadContentOnLine then [close .newline] else []) ++
    List.replicate (lx.indentStack.length - 1) (close .dedent) ++ [close .eof]

end ByteLexer

end Source

end Corvid.Syntax
