import Mathlib.Data.String.Basic
import Mathlib.Tactic.Common

/-!
# Tokens

The tokens the lexer produces, and the table of keywords.

## Main definitions

* `Span`, `TokKind`, `Token`
* `TokKind.keywordFrom`: the keyword an identifier is
* `TokKind.isStructural`: the tokens of the layout
-/

namespace Corvid.Syntax

/-- A range of byte offsets of the source, without its end. -/
structure Span where
  start : ℕ
  stop : ℕ
deriving DecidableEq, Repr

inductive TokKind where
  | kwAgent | kwTool | kwPrompt | kwEval | kwTest | kwFixture | kwMock | kwServer | kwSchedule
  | kwZone | kwType | kwSession | kwMemory | kwImport | kwAs | kwPub | kwExtern | kwExtend
  | kwPublic | kwPackage | kwTry | kwOn | kwError | kwRetry | kwTimes | kwBackoff | kwLinear
  | kwExponential
  | kwApprove | kwDangerous | kwEffect | kwUses | kwAssert | kwAssertSnapshot
  | kwModel | kwRequires | kwRoute | kwProgressive | kwBelow | kwRollout | kwEnsemble | kwVote
  | kwAdversarial | kwPropose | kwChallenge | kwAdjudicate
  | kwIf | kwElse | kwFor | kwIn | kwReturn | kwYield | kwBreak | kwContinue | kwPass
  | kwReplay | kwWhen
  | kwTrue | kwFalse | kwNothing
  | kwAnd | kwOr | kwNot
  | lParen | rParen | lBracket | rBracket | lBrace | rBrace
  | colon | comma | dot | arrow | question | at | apostrophe | dollar
  | assign | eq | notEq | lt | ltEq | gt | gtEq | plus | minus | star | slash | percent
  | ident (name : String)
  | int (value : ℕ)
  -- a float is kept as its literal, which decides its value
  | float (literal : String)
  | stringLit (contents : String)
  | newline | indent | dedent
  | eof
deriving DecidableEq, Repr

structure Token where
  kind : TokKind
  span : Span
deriving DecidableEq, Repr

namespace TokKind

/-- If `s` is a keyword, its kind. -/
def keywordFrom : String → Option TokKind
  | "agent" => some kwAgent
  | "tool" => some kwTool
  | "prompt" => some kwPrompt
  | "eval" => some kwEval
  | "test" => some kwTest
  | "fixture" => some kwFixture
  | "mock" => some kwMock
  | "server" => some kwServer
  | "schedule" => some kwSchedule
  | "zone" => some kwZone
  | "type" => some kwType
  | "session" => some kwSession
  | "memory" => some kwMemory
  | "import" => some kwImport
  | "as" => some kwAs
  | "pub" => some kwPub
  | "extern" => some kwExtern
  | "extend" => some kwExtend
  | "public" => some kwPublic
  | "package" => some kwPackage
  | "try" => some kwTry
  | "on" => some kwOn
  | "error" => some kwError
  | "retry" => some kwRetry
  | "times" => some kwTimes
  | "backoff" => some kwBackoff
  | "linear" => some kwLinear
  | "exponential" => some kwExponential
  | "approve" => some kwApprove
  | "dangerous" => some kwDangerous
  | "effect" => some kwEffect
  | "uses" => some kwUses
  | "assert" => some kwAssert
  | "assert_snapshot" => some kwAssertSnapshot
  | "model" => some kwModel
  | "requires" => some kwRequires
  | "route" => some kwRoute
  | "progressive" => some kwProgressive
  | "below" => some kwBelow
  | "rollout" => some kwRollout
  | "ensemble" => some kwEnsemble
  | "vote" => some kwVote
  | "adversarial" => some kwAdversarial
  | "propose" => some kwPropose
  | "challenge" => some kwChallenge
  | "adjudicate" => some kwAdjudicate
  | "if" => some kwIf
  | "else" => some kwElse
  | "for" => some kwFor
  | "in" => some kwIn
  | "return" => some kwReturn
  | "yield" => some kwYield
  | "break" => some kwBreak
  | "continue" => some kwContinue
  | "pass" => some kwPass
  | "replay" => some kwReplay
  | "when" => some kwWhen
  | "true" => some kwTrue
  | "false" => some kwFalse
  | "nothing" => some kwNothing
  | "and" => some kwAnd
  | "or" => some kwOr
  | "not" => some kwNot
  | _ => none

/-- Is this a token of the layout, emitted outside the scanners? -/
def isStructural : TokKind → Bool
  | newline | indent | dedent | eof => true
  | _ => false

theorem not_isStructural_of_keywordFrom {s : String} {kind : TokKind}
    (h : keywordFrom s = some kind) : kind.isStructural = false := by
  unfold keywordFrom at h
  split at h <;> first | cases h; rfl | cases h

end TokKind

end Corvid.Syntax
