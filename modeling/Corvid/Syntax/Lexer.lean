import Corvid.Lib.Loop
import Corvid.Syntax.Token
import Mathlib.Algebra.GroupWithZero.Nat
import Mathlib.Data.List.Infix

/-!
# The lexer

The source is read character by character into tokens. At the start of each line outside brackets
the width of its indentation is compared with the stack of open widths, and `Indent` and `Dedent`
tokens are emitted for the difference.

## Main definitions

* `Lexer`: the state, as the characters read and the characters ahead
* `lexNumber`, `lexString`, `lexIdentOrKw`, `lexPunct`: the scanners, as functions of the characters
  ahead
* `Lexer.processLineStart`: the layout of a line
* `Lexer.step`: one iteration of the main loop
* `lex`: the tokens of a source, or its errors
-/

namespace Corvid.Syntax

inductive LexErrorKind where
  | unexpectedChar (c : Char)
  | unterminatedString
  | invalidEscape (c : Char)
  | tabIndentation
  | inconsistentDedent
  | invalidNumber (text : String)
deriving DecidableEq, Repr

structure LexError where
  kind : LexErrorKind
  span : Span
deriving DecidableEq, Repr

/-- The number of bytes of some characters. -/
def size (l : List Char) : ℕ :=
  (l.map Char.utf8Size).sum

@[simp] theorem size_nil : size [] = 0 := rfl

@[simp] theorem size_cons (c : Char) (l : List Char) : size (c :: l) = c.utf8Size + size l := by
  simp [size]

@[simp] theorem size_append (l m : List Char) : size (l ++ m) = size l + size m := by
  simp [size]

@[simp] theorem size_reverse (l : List Char) : size l.reverse = size l := by
  simp [size, List.sum_reverse]

/-! ## Scanners -/

/-- What a scanner reads: the characters it uses, the kind it emits and its errors. Slicing the
source inside a character panics. -/
structure Scan where
  used : List Char
  kind : Option TokKind
  errors : List LexError
  panicked : Bool
deriving DecidableEq

namespace Scan

def token (used : List Char) (kind : TokKind) : Scan :=
  ⟨used, some kind, [], false⟩

def error (used : List Char) (e : LexError) : Scan :=
  ⟨used, none, [e], false⟩

end Scan

def isHexDigit (c : Char) : Bool :=
  c.isDigit || ('a' ≤ c && c ≤ 'f') || ('A' ≤ c && c ≤ 'F')

def isIdentStart (c : Char) : Bool :=
  c == '_' || c.isAlpha

def isIdentContinue (c : Char) : Bool :=
  c == '_' || c.isAlphanum

/-- A dot with a digit after it. -/
def isFraction : List Char → Bool
  | '.' :: d :: _ => d.isDigit
  | _ => false

/-- A number. After a digest prefix, the digits of the digest as an identifier. -/
def lexNumber (isAfterHashDigestPrefix : Bool) (start : ℕ) (rest : List Char) : Scan :=
  if isAfterHashDigestPrefix then
    let text := rest.takeWhile isHexDigit
    .token text (.ident (String.ofList text))
  else
    let whole := rest.takeWhile Char.isDigit
    let after := rest.dropWhile Char.isDigit
    if isFraction after then
      let text := whole ++ '.' :: after.tail.takeWhile Char.isDigit
      .token text (.float (String.ofList text))
    else if Nat.ofDigitChars 10 whole 0 < 2 ^ 63 then
      .token whole (.int (Nat.ofDigitChars 10 whole 0))
    else
      .error whole ⟨.invalidNumber (String.ofList whole), ⟨start, start + size whole⟩⟩

def lexIdentOrKw (rest : List Char) : Scan :=
  let text := rest.takeWhile isIdentContinue
  .token text ((TokKind.keywordFrom (String.ofList text)).getD (.ident (String.ofList text)))

/-- What is read of a string after its opening quotes. -/
structure Quoted where
  used : List Char
  contents : Option (List Char)
  errors : List LexError
  panicked : Bool
deriving DecidableEq

namespace Quoted

def stop (used : List Char) (e : LexError) : Quoted :=
  ⟨used, none, [e], false⟩

/-- One more character of the contents, before what was read. -/
def push (q : Quoted) (used : List Char) (c : Char) : Quoted :=
  { q with used := used ++ q.used, contents := q.contents.map (c :: ·) }

/-- The string as a scan, with its opening quotes. -/
def scan (q : Quoted) (opening : List Char) : Scan :=
  ⟨opening ++ q.used, q.contents.map fun l => .stringLit (String.ofList l), q.errors, q.panicked⟩

end Quoted

/-- The character an escape stands for. -/
def unescape : Char → Option Char
  | 'n' => some '\n'
  | 't' => some '\t'
  | 'r' => some '\r'
  | '\\' => some '\\'
  | '"' => some '"'
  | '0' => some '\x00'
  | _ => none

/-- A backslash at `pos` with `e` after it, before what was read. The position moves by one byte
after the backslash, into the middle of a longer character. -/
def consumeEscape (pos : ℕ) (e : Char) (q : Quoted) : Quoted :=
  match unescape e with
  | some c => q.push ['\\', e] c
  | none =>
    let invalid : LexError := ⟨.invalidEscape e, ⟨pos, pos + 2⟩⟩
    if e.utf8Size = 1 then
      let pushed := q.push ['\\', e] e
      { pushed with errors := invalid :: pushed.errors }
    else ⟨['\\', e], none, [invalid], true⟩

/-- A string on one line, from after its opening quote. -/
def lexSingleString (start pos : ℕ) : List Char → Quoted
  | [] => .stop [] ⟨.unterminatedString, ⟨start, pos⟩⟩
  | c :: rest =>
    if c = '"' then ⟨[c], some [], [], false⟩
    else if c = '\n' then .stop [] ⟨.unterminatedString, ⟨start, pos⟩⟩
    else if c = '\\' then
      match rest with
      | [] => .stop [c] ⟨.unterminatedString, ⟨pos, pos + 1⟩⟩
      | e :: rest => consumeEscape pos e (lexSingleString start (pos + 2) rest)
    else (lexSingleString start (pos + c.utf8Size) rest).push [c] c

/-- The quotes that open and close a string over several lines. -/
def tripleQuotes : List Char :=
  ['"', '"', '"']

/-- A string over several lines, from after its opening quotes. -/
def lexTripleString (start pos : ℕ) : List Char → Quoted
  | [] => .stop [] ⟨.unterminatedString, ⟨start, pos⟩⟩
  | c :: rest =>
    if tripleQuotes <+: c :: rest then ⟨tripleQuotes, some [], [], false⟩
    else if c = '\\' then
      match rest with
      | [] => .stop [c] ⟨.unterminatedString, ⟨pos, pos + 1⟩⟩
      | e :: rest => consumeEscape pos e (lexTripleString start (pos + 2) rest)
    else (lexTripleString start (pos + c.utf8Size) rest).push [c] c

def lexString (start : ℕ) (rest : List Char) : Scan :=
  if tripleQuotes <+: rest then (lexTripleString start (start + 3) (rest.drop 3)).scan tripleQuotes
  else (lexSingleString start (start + 1) rest.tail).scan ['"']

/-- The token a character begins, given the character after it, and its length. -/
def punct (c : Char) (next : Option Char) : Option (TokKind × ℕ) :=
  match c with
  | '(' => some (.lParen, 1)
  | ')' => some (.rParen, 1)
  | '[' => some (.lBracket, 1)
  | ']' => some (.rBracket, 1)
  | '{' => some (.lBrace, 1)
  | '}' => some (.rBrace, 1)
  | ':' => some (.colon, 1)
  | ',' => some (.comma, 1)
  | '.' => some (.dot, 1)
  | '?' => some (.question, 1)
  | '+' => some (.plus, 1)
  | '*' => some (.star, 1)
  | '/' => some (.slash, 1)
  | '%' => some (.percent, 1)
  | '@' => some (.at, 1)
  | '\'' => some (.apostrophe, 1)
  | '$' => some (.dollar, 1)
  | '-' => some (if next = some '>' then (.arrow, 2) else (.minus, 1))
  | '=' => some (if next = some '=' then (.eq, 2) else (.assign, 1))
  | '!' => if next = some '=' then some (.notEq, 2) else none
  | '<' => some (if next = some '=' then (.ltEq, 2) else (.lt, 1))
  | '>' => some (if next = some '=' then (.gtEq, 2) else (.gt, 1))
  | _ => none

def lexPunct (start : ℕ) (c : Char) (rest : List Char) : Scan :=
  match punct c rest.head? with
  | some (kind, len) => .token ((c :: rest).take len) kind
  | none => .error [c] ⟨.unexpectedChar c, ⟨start, start + c.utf8Size⟩⟩

/-- What a token adds to the depth of the brackets. -/
def bracketDelta : TokKind → Int32
  | .lParen | .lBracket => 1
  | .rParen | .rBracket => -1
  | _ => 0

/-! ## The state -/

/-- The lexer between two iterations of its main loop. The position is the size of what was
read. -/
structure Lexer where
  /-- The characters read, the latest first. -/
  done : List Char
  /-- The characters ahead. -/
  rest : List Char
  tokens : List Token
  errors : List LexError
  bracketDepth : Int32
  /-- The open widths of indentation, the innermost first; the last is zero. -/
  indentStack : List ℕ
  hadContentOnLine : Bool
  panicked : Bool
deriving DecidableEq

namespace Lexer

/-- The byte offset of the first character ahead. -/
def pos (lx : Lexer) : ℕ :=
  size lx.done

def new (source : String) : Lexer where
  done := []
  rest := source.toList
  tokens := []
  errors := []
  bracketDepth := 0
  indentStack := [0]
  hadContentOnLine := false
  panicked := false

/-- The characters `used` are read, and `rest` is ahead. -/
def read (lx : Lexer) (used rest : List Char) : Lexer :=
  { lx with done := used.reverse ++ lx.done, rest := rest }

@[simp] theorem read_read (lx : Lexer) (used used' rest rest' : List Char) :
    (lx.read used rest).read used' rest' = lx.read (used ++ used') rest' := by
  simp [read]

@[simp] theorem rest_read (lx : Lexer) (used rest : List Char) :
    (lx.read used rest).rest = rest := rfl

@[simp] theorem pos_read (lx : Lexer) (used rest : List Char) :
    (lx.read used rest).pos = lx.pos + size used := by
  simp [pos, read, Nat.add_comm]

/-- The next `n` characters are read. -/
def advance (lx : Lexer) (n : ℕ) : Lexer :=
  lx.read (lx.rest.take n) (lx.rest.drop n)

theorem advance_eq {lx : Lexer} {c : Char} {rest : List Char} (h : lx.rest = c :: rest) :
    lx.advance 1 = lx.read [c] rest := by
  rw [advance, h]
  rfl

/-- The characters ahead are read as long as `q` holds. -/
def skipWhile (lx : Lexer) (q : Char → Bool) : Lexer :=
  lx.read (lx.rest.takeWhile q) (lx.rest.dropWhile q)

def emitStructural (lx : Lexer) (kind : TokKind) (span : Span) : Lexer :=
  { lx with tokens := lx.tokens ++ [⟨kind, span⟩] }

/-- What a scanner read is taken over into the state. -/
def accept (lx : Lexer) (scan : Scan) : Lexer :=
  { lx with
    done := scan.used.reverse ++ lx.done
    rest := lx.rest.drop scan.used.length
    tokens := lx.tokens ++
      (scan.kind.map fun kind => ⟨kind, ⟨lx.pos, lx.pos + size scan.used⟩⟩).toList
    errors := lx.errors ++ scan.errors
    bracketDepth := lx.bracketDepth + (scan.kind.map bracketDelta).getD 0
    hadContentOnLine := lx.hadContentOnLine || scan.kind.isSome
    panicked := scan.panicked }

def isSpaceOrTab (c : Char) : Bool :=
  c == ' ' || c == '\t'

/-- The end of a line without content: the end of the source or of the line, or a comment. -/
def endsBlank (rest : List Char) : Bool :=
  match rest.head? with
  | none => true
  | some c => c == '\n' || c == '\r' || c == '#'

/-- The indentation of a line with content, from `start` to the position, against the stack. -/
def indentTo (lx : Lexer) (start indent : ℕ) : Lexer :=
  let current := lx.indentStack.headD 0
  if current < indent then
    { lx with
      indentStack := indent :: lx.indentStack
      tokens := lx.tokens ++ [⟨.indent, ⟨start, lx.pos⟩⟩] }
  else if indent < current then
    let popped := lx.indentStack.takeWhile (indent < ·)
    let left := lx.indentStack.dropWhile (indent < ·)
    { lx with
      indentStack := left
      tokens := lx.tokens ++ List.replicate popped.length ⟨.dedent, ⟨lx.pos, lx.pos⟩⟩
      errors := lx.errors ++
        if left.headD 0 = indent then [] else [⟨.inconsistentDedent, ⟨start, lx.pos⟩⟩] }
  else lx

/-- The start of a line: its indentation is measured, and laid out unless the line is blank. -/
def processLineStart (lx : Lexer) : Lexer :=
  -- a carriage return may stand before the end of a blank line
  let lx := lx.skipWhile (· == '\r')
  let start := lx.pos
  let blanks := lx.rest.takeWhile isSpaceOrTab
  let lx := lx.skipWhile isSpaceOrTab
  if endsBlank lx.rest then lx
  else
    let lx := if '\t' ∈ blanks then
        { lx with errors := lx.errors ++ [⟨.tabIndentation, ⟨start, lx.pos⟩⟩] }
      else lx
    lx.indentTo start (blanks.count ' ')

/-- The end of a line. Inside brackets it is white space. -/
def endLine (lx : Lexer) : Lexer :=
  let after := lx.advance 1
  if lx.bracketDepth = 0 then
    if lx.hadContentOnLine then
      let ended := after.emitStructural .newline ⟨lx.pos, after.pos⟩
      processLineStart { ended with hadContentOnLine := false }
    else after.processLineStart
  else after

def isAfterHashDigestPrefix (lx : Lexer) : Bool :=
  "hash:sha256:".toList.reverse <+: lx.done

/-- The token that begins with `c`, with `rest` after it. -/
def scan (lx : Lexer) (c : Char) (rest : List Char) : Scan :=
  if c.isDigit then lexNumber lx.isAfterHashDigestPrefix lx.pos (c :: rest)
  else if c = '"' then lexString lx.pos (c :: rest)
  else if isIdentStart c then lexIdentOrKw (c :: rest)
  else lexPunct lx.pos c rest

/-- One iteration of the main loop. -/
def step (lx : Lexer) : Option Lexer :=
  if lx.panicked then none
  else match lx.rest with
    | [] => none
    | c :: rest =>
      some <|
        if c = ' ' ∨ c = '\t' ∨ c = '\r' then lx.advance 1
        else if c = '\n' then lx.endLine
        else if c = '#' then lx.skipWhile (· != '\n')
        else lx.accept (lx.scan c rest)

/-- Something ahead is no white space, no end of a line and no comment: a token begins. -/
def BeginsToken (c : Char) : Prop :=
  ¬ (c = ' ' ∨ c = '\t' ∨ c = '\r') ∧ c ≠ '\n' ∧ c ≠ '#'

/-- What one iteration can do. -/
theorem step_cases {lx lx' : Lexer} (h : lx.step = some lx') :
    lx.panicked = false ∧ ∃ c rest, lx.rest = c :: rest ∧
      ((c = ' ' ∨ c = '\t' ∨ c = '\r') ∧ lx' = lx.advance 1 ∨
        c = '\n' ∧ lx' = lx.endLine ∨
        c = '#' ∧ lx' = lx.skipWhile (· != '\n') ∨
        BeginsToken c ∧ lx' = lx.accept (lx.scan c rest)) := by
  unfold step at h
  split at h
  · cases h
  · rename_i hp
    refine ⟨by simpa using hp, ?_⟩
    split at h
    · cases h
    · rename_i c rest hrest
      refine ⟨c, rest, hrest, ?_⟩
      have h := (Option.some.inj h).symm
      by_cases hblank : c = ' ' ∨ c = '\t' ∨ c = '\r'
      · exact .inl ⟨hblank, by simpa only [if_pos hblank] using h⟩
      · rw [if_neg hblank] at h
        by_cases hnl : c = '\n'
        · exact .inr (.inl ⟨hnl, by simpa only [if_pos hnl] using h⟩)
        · rw [if_neg hnl] at h
          by_cases hhash : c = '#'
          · exact .inr (.inr (.inl ⟨hhash, by simpa only [if_pos hhash] using h⟩))
          · rw [if_neg hhash] at h
            exact .inr (.inr (.inr ⟨⟨hblank, hnl, hhash⟩, h⟩))

/-- The state before the main loop: a byte order mark is dropped. -/
def start (source : String) : Lexer :=
  let lx := new source
  if lx.rest.head? = some '\uFEFF' then (lx.advance 1).processLineStart
  else lx.processLineStart

def run (source : String) : Lexer :=
  Loop.exhaust step (fun lx => lx.rest.length) (start source)

/-- The tokens at the end of the source: the open line and the open indentations are closed. -/
def finish (lx : Lexer) : List Token :=
  let close (kind : TokKind) : Token := ⟨kind, ⟨lx.pos, lx.pos⟩⟩
  lx.tokens ++ (if lx.hadContentOnLine then [close .newline] else []) ++
    List.replicate (lx.indentStack.length - 1) (close .dedent) ++ [close .eof]

end Lexer

/-- The tokens of a source, or its errors; no answer where the lexer panics. -/
def lex (source : String) : Option (Except (List LexError) (List Token)) :=
  let lx := Lexer.run source
  if lx.panicked then none
  else if lx.errors = [] then some (.ok lx.finish)
  else some (.error lx.errors)

end Corvid.Syntax
