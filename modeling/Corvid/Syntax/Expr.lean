import Corvid.Lib.Parsing
import Corvid.Syntax.Token

/-!
# The parser of expressions

Recursive descent over the tokens: each level of precedence reads operands of the next level, and the
innermost level comes back to the outermost one inside of brackets. Expressions end before the first
token that does not continue them.

## Main definitions

* `Expr`: expressions, without their places
* `parseOr`, `parseAnd`, `parseNot`, `parseCmp`, `parseAdd`, `parseMul`, `parseUnary`, `parsePostfix`,
  `parsePrimary`: the levels, given the parser of expressions
* `parseReplayExpr`: replay blocks, which stand on lines of their own
* `parseExpr`: the parser of expressions
-/

namespace Corvid.Syntax

open Parsing Parsing.Parser

/-! ## Expressions -/

inductive BinaryOp where
  | add | sub | mul | div | mod
  | eq | notEq | lt | ltEq | gt | gtEq
  | and | or
deriving DecidableEq, Repr

inductive UnaryOp where
  | neg | not
deriving DecidableEq, Repr

inductive Backoff where
  | linear (ms : ℕ)
  | exponential (baseMs : ℕ)
deriving DecidableEq, Repr

inductive Literal where
  | int (value : ℕ)
  -- a float is kept as it is written
  | float (literal : String)
  | string (value : String)
  | bool (value : Bool)
  | nothing
deriving DecidableEq, Repr

inductive ToolArgPattern where
  | wildcard
  | stringLit (value : String)
  | capture (name : String)
deriving DecidableEq, Repr

inductive ReplayPattern where
  | llm (prompt : String)
  | tool (tool : String) (arg : ToolArgPattern)
  | approve (label : String)
deriving DecidableEq, Repr

mutual

inductive Expr where
  | literal (value : Literal)
  | ident (name : String)
  | call (callee : Expr) (args : List Expr)
  | fieldAccess (target : Expr) (field : String)
  | index (target index : Expr)
  | binOp (op : BinaryOp) (left right : Expr)
  | unOp (op : UnaryOp) (operand : Expr)
  | list (items : List Expr)
  | tryPropagate (inner : Expr)
  | tryRetry (body : Expr) (attempts : ℕ) (backoff : Backoff)
  | replay (trace : Expr) (arms : List ReplayArm) (elseBody : Expr)

inductive ReplayArm where
  | mk (pattern : ReplayPattern) (capture : Option String) (body : Expr)

end

/-! ## Errors -/

/-- What a message says that was found. A token is described by its kind. -/
inductive Found where
  | token (kind : TokKind)
  | text (description : String)
deriving DecidableEq, Repr

inductive ParseErrorKind where
  | unexpectedEof
  | unexpectedToken (got : Found) (expected : String)
  | chainedComparison
  | unclosedParen
  | unclosedBracket
  | emptyBlock
  | expectedBlock
deriving DecidableEq, Repr

structure ParseError where
  kind : ParseErrorKind
  span : Span
deriving DecidableEq, Repr

/-- An error, or the token after the last one was asked for. -/
inductive Fault where
  | stuck
  | error (e : ParseError)
deriving DecidableEq, Repr

instance : Inhabited Fault := ⟨.stuck⟩

/-! ## Tokens ahead -/

abbrev P := Parser Token Fault

/-- The kind of the next token; after the last one, that of the end. -/
def kindAt : List Token → TokKind
  | [] => .eof
  | t :: _ => t.kind

def spanAt : List Token → Span
  | [] => ⟨0, 0⟩
  | t :: _ => t.span

def peek : P TokKind := ahead >>= fun ts => pure (kindAt ts)

def peekSpan : P Span := ahead >>= fun ts => pure (spanAt ts)

def failWith {α : Type} (kind : ParseErrorKind) : P α :=
  fail fun ts => .error ⟨kind, spanAt ts⟩

def unexpected {α : Type} (expected : String) : P α :=
  fail fun ts => .error ⟨.unexpectedToken (.token (kindAt ts)) expected, spanAt ts⟩

def unexpectedText {α : Type} (got expected : String) : P α :=
  failWith (.unexpectedToken (.text got) expected)

def expect (kind : TokKind) (description : String) : P Unit := do
  if (← peek) = kind then bump else unexpected description

def expectIdent : P String := do
  match ← peek with
  | .ident name => bump; return name
  | _ => unexpected "an identifier"

/-- The end of a block or of the input also ends a line. -/
def expectNewline : P Unit := do
  match ← peek with
  | .newline => bump
  | .eof | .dedent => return ()
  | _ => unexpected "end of line"

def skipNewlinesStep (_ : Unit) : P (Unit ⊕ Unit) := do
  match ← peek with
  | .newline => bump; return .inl ()
  | _ => return .inr ()

def skipNewlines : P Unit := repeated skipNewlinesStep ()

def expectStringLit (description : String) : P String := do
  match ← peek with
  | .stringLit s => bump; return s
  | _ => unexpected description

def parseU64Literal (description : String) : P ℕ := do
  match ← peek with
  | .int value => bump; return value
  | _ => unexpected description

/-- Two colons and an identifier may follow. A single colon is left. -/
def parseNamespacedIdentFrom (name : String) : P String := do
  let ts ← ahead
  if kindAt ts = .colon ∧ kindAt ts.tail = .colon then
    bump
    bump
    let rest ← expectIdent
    return name ++ "::" ++ rest
  else return name

/-! ## Replay patterns -/

def parseToolArgPattern : P ToolArgPattern := do
  match ← peek with
  | .ident name => bump; return if name = "_" then .wildcard else .capture name
  | .stringLit value => bump; return .stringLit value
  | _ => unexpected "`_` wildcard, an identifier capture, or a string literal"

def parseReplayPattern : P ReplayPattern := do
  match ← peek with
  | .kwTool => do
    bump
    expect .lParen "`(` after event kind"
    let tool ← expectStringLit "tool name string literal"
    expect .comma "`,` after tool name"
    let arg ← parseToolArgPattern
    expect .rParen "`)` after `tool(\"<name>\", <arg_pattern>)`"
    return .tool tool arg
  | .kwApprove => do
    bump
    expect .lParen "`(` after event kind"
    let label ← expectStringLit "approval label string literal"
    expect .rParen "`)` after `approve(\"<label>\")`"
    return .approve label
  | .ident name =>
    if name = "llm" then do
      bump
      expect .lParen "`(` after event kind"
      let prompt ← expectStringLit "prompt name string literal"
      expect .rParen "`)` after `llm(\"<prompt>\")`"
      return .llm prompt
    else unexpected "`llm`, `tool`, or `approve`"
  | _ => unexpected "`llm`, `tool`, or `approve`"

/-! ## Levels -/

section Levels

variable (expr : P Expr)

/-- The bracket that was opened is closed. -/
def closeWith (close : TokKind) (unclosed : ParseErrorKind) : P Unit := do
  if (← peek) = close then bump else failWith unclosed

/-- One more item after a comma, unless the comma is the last. -/
def moreItemsStep (close : TokKind) (items : List Expr) : P (List Expr ⊕ List Expr) := do
  if (← peek) = .comma then
    bump
    if (← peek) = close then return .inr items
    else
      let item ← expr
      return .inl (items ++ [item])
  else return .inr items

def someItems (close : TokKind) : P (List Expr) := do
  if (← peek) = close then return []
  else
    let first ← expr
    repeated (moreItemsStep expr close) [first]

/-- Items with commas between them, up to the closing bracket. -/
def commaList (close : TokKind) (unclosed : ParseErrorKind) : P (List Expr) := do
  let items ← someItems expr close
  closeWith close unclosed
  return items

def parseBackoff : P Backoff := do
  match ← peek with
  | .kwLinear => bump; return .linear (← parseU64Literal "linear backoff delay in ms")
  | .kwExponential =>
    bump; return .exponential (← parseU64Literal "exponential backoff base delay in ms")
  | _ => unexpected "`linear <ms>` or `exponential <ms>`"

def parseTryRetryExpr : P Expr := do
  bump
  let body ← expr
  expect .kwOn "`on` after `try` body"
  expect .kwError "`error` after `on` in retry expression"
  expect .kwRetry "`retry` in retry expression"
  let attempts ← parseU64Literal "retry attempt count"
  expect .kwTimes "`times` after retry count"
  expect .kwBackoff "`backoff` after retry count"
  let backoff ← parseBackoff
  return .tryRetry body attempts backoff

/-- The name that an arm gives to the event it matches. -/
def parseCapture : P (Option String) := do
  match ← peek with
  | .kwAs => bump; return some (← expectIdent)
  | _ => return none

def parseReplayWhenArm : P ReplayArm := do
  bump
  let pattern ← parseReplayPattern
  let capture ← parseCapture
  expect .arrow "`->` after replay pattern"
  let body ← expr
  return .mk pattern capture body

/-- The arms of a replay block, and the one for all other events. -/
abbrev ReplayArms := List ReplayArm × Option Expr

def replayArmsStep (arms : ReplayArms) : P (ReplayArms ⊕ ReplayArms) := do
  skipNewlines
  match ← peek with
  | .dedent | .eof => return .inr arms
  | .kwWhen =>
    if arms.2.isSome then
      unexpectedText "`when` arm after `else`" "`else` must be the final arm of a replay block"
    else do
      let arm ← parseReplayWhenArm expr
      expectNewline
      return .inl (arms.1 ++ [arm], none)
  | .kwElse =>
    if arms.2.isSome then
      unexpectedText "second `else` arm" "a replay block has exactly one `else` arm"
    else do
      bump
      let body ← expr
      expectNewline
      return .inl (arms.1, some body)
  | _ => unexpected "`when <pattern> -> <expr>` or `else <expr>`"

def openBlock : P Unit := do
  if (← peek) = .indent then bump else failWith .expectedBlock

/-- A block is closed by its end, or by the end of the input. -/
def closeBlock : P Unit := do
  match ← peek with
  | .dedent => bump
  | _ => return ()

def parseReplayExpr : P Expr := do
  let start ← peekSpan
  bump
  let trace ← expr
  expect .colon "`:` after `replay <trace>`"
  expectNewline
  openBlock
  let arms ← repeated (replayArmsStep expr) ([], none)
  closeBlock
  match arms.2 with
  | some elseBody => return .replay trace arms.1 elseBody
  | none => fail fun _ => .error ⟨.unexpectedToken (.text "replay block without an `else` arm")
      "every replay block must end with `else <expr>` (fallback is required)", start⟩

def parsePrimary : P Expr := do
  match ← peek with
  | .int n => bump; return .literal (.int n)
  | .float f => bump; return .literal (.float f)
  | .stringLit s => bump; return .literal (.string s)
  | .kwTrue => bump; return .literal (.bool true)
  | .kwFalse => bump; return .literal (.bool false)
  | .kwNothing => bump; return .literal .nothing
  | .kwTry => parseTryRetryExpr expr
  | .kwReplay => parseReplayExpr expr
  | .ident name => do
    bump
    let name ← parseNamespacedIdentFrom name
    return .ident name
  | .lParen => do
    bump
    let inner ← expr
    closeWith .rParen .unclosedParen
    return inner
  | .lBracket => do
    bump
    let items ← commaList expr .rBracket .unclosedBracket
    return .list items
  | .eof | .newline | .indent | .dedent => failWith .unexpectedEof
  | _ => unexpected "an expression"

def parsePostfixStep (target : Expr) : P (Expr ⊕ Expr) := do
  match ← peek with
  | .dot => do
    bump
    let field ← expectIdent
    return .inl (.fieldAccess target field)
  | .lBracket => do
    bump
    let index ← expr
    closeWith .rBracket .unclosedBracket
    return .inl (.index target index)
  | .lParen => do
    bump
    let args ← commaList expr .rParen .unclosedParen
    return .inl (.call target args)
  | .question => bump; return .inl (.tryPropagate target)
  | _ => return .inr target

def parsePostfix : P Expr := parsePrimary expr >>= repeated (parsePostfixStep expr)

def parseUnaryWith (unary : P Expr) : P Expr := do
  match ← peek with
  | .minus => do
    bump
    let operand ← unary
    return .unOp .neg operand
  | _ => parsePostfix expr

def parseUnary : P Expr := fix (parseUnaryWith expr)

/-- One more operand, where an operator of the level follows. -/
def binaryStep (op : TokKind → Option BinaryOp) (operand : P Expr) (left : Expr) : P (Expr ⊕ Expr) := do
  match op (← peek) with
  | some op => do
    bump
    let right ← operand
    return .inl (.binOp op left right)
  | none => return .inr left

/-- Operands with operators of one level between them, from the left. -/
def parseBinary (op : TokKind → Option BinaryOp) (operand : P Expr) : P Expr :=
  operand >>= repeated (binaryStep op operand)

def mulOp : TokKind → Option BinaryOp
  | .star => some .mul
  | .slash => some .div
  | .percent => some .mod
  | _ => none

def parseMul : P Expr := parseBinary mulOp (parseUnary expr)

def addOp : TokKind → Option BinaryOp
  | .plus => some .add
  | .minus => some .sub
  | _ => none

def parseAdd : P Expr := parseBinary addOp (parseMul expr)

def cmpOp : TokKind → Option BinaryOp
  | .eq => some .eq
  | .notEq => some .notEq
  | .lt => some .lt
  | .ltEq => some .ltEq
  | .gt => some .gt
  | .gtEq => some .gtEq
  | _ => none

/-- There is one comparison at most. -/
def parseCmp : P Expr := do
  let left ← parseAdd expr
  match cmpOp (← peek) with
  | none => return left
  | some op => do
    bump
    let right ← parseAdd expr
    if (cmpOp (← peek)).isSome then failWith .chainedComparison
    else return .binOp op left right

def parseNotWith (not : P Expr) : P Expr := do
  match ← peek with
  | .kwNot => do
    bump
    let operand ← not
    return .unOp .not operand
  | _ => parseCmp expr

def parseNot : P Expr := fix (parseNotWith expr)

def andOp : TokKind → Option BinaryOp
  | .kwAnd => some .and
  | _ => none

def parseAnd : P Expr := parseBinary andOp (parseNot expr)

def orOp : TokKind → Option BinaryOp
  | .kwOr => some .or
  | _ => none

def parseOr : P Expr := parseBinary orOp (parseAnd expr)

end Levels

def parseExpr : P Expr := fix parseOr

end Corvid.Syntax
