import Corvid.Syntax.Expr

/-!
# The grammar of expressions

The grammar in the comments of the parser, as a relation between expressions and lists of tokens, and
that the parser reads no more than it allows.

## Main definitions

* `Level`: the levels of precedence
* `Spells`: an expression of a level, and tokens that spell it

## Main results

* `spells_of_parseExpr`: what the parser reads spells the expression that it gives
* `parseExpr_eq`: the equation of the recursive parser
-/

namespace Corvid.Syntax

open Parsing Parsing.Parser

/-! ## Spelling -/

/-- The levels of precedence, from the loosest one. -/
inductive Level where
  | or | and | not | cmp | add | mul | unary | postfixed | primary
deriving DecidableEq, Repr

def ToolArgPattern.kind : ToolArgPattern → TokKind
  | wildcard => .ident "_"
  | stringLit value => .stringLit value
  | capture name => .ident name

def ReplayPattern.kinds : ReplayPattern → List TokKind
  | llm prompt => [.ident "llm", .lParen, .stringLit prompt, .rParen]
  | tool name arg => [.kwTool, .lParen, .stringLit name, .comma, arg.kind, .rParen]
  | approve label => [.kwApprove, .lParen, .stringLit label, .rParen]

/-- A capture is not the name that stands for anything. -/
def ReplayPattern.Plain : ReplayPattern → Prop
  | tool _ arg => arg ≠ .capture "_"
  | _ => True

def captureKinds : Option String → List TokKind
  | some name => [.kwAs, .ident name]
  | none => []

def Backoff.kinds : Backoff → List TokKind
  | linear ms => [.kwLinear, .int ms]
  | exponential ms => [.kwExponential, .int ms]

def newlines (n : ℕ) : List TokKind := List.replicate n .newline

mutual

/-- Tokens that spell an expression of a level. -/
inductive Spells : Level → Expr → List TokKind → Prop
  | or {l r u v} (hl : Spells .or l u) (hr : Spells .and r v) :
      Spells .or (.binOp .or l r) (u ++ .kwOr :: v)
  | orOf {e u} (h : Spells .and e u) : Spells .or e u
  | and {l r u v} (hl : Spells .and l u) (hr : Spells .not r v) :
      Spells .and (.binOp .and l r) (u ++ .kwAnd :: v)
  | andOf {e u} (h : Spells .not e u) : Spells .and e u
  | not {e u} (h : Spells .not e u) : Spells .not (.unOp .not e) (.kwNot :: u)
  | notOf {e u} (h : Spells .cmp e u) : Spells .not e u
  | cmp {k op l r u v} (hop : cmpOp k = some op) (hl : Spells .add l u) (hr : Spells .add r v) :
      Spells .cmp (.binOp op l r) (u ++ k :: v)
  | cmpOf {e u} (h : Spells .add e u) : Spells .cmp e u
  | add {k op l r u v} (hop : addOp k = some op) (hl : Spells .add l u) (hr : Spells .mul r v) :
      Spells .add (.binOp op l r) (u ++ k :: v)
  | addOf {e u} (h : Spells .mul e u) : Spells .add e u
  | mul {k op l r u v} (hop : mulOp k = some op) (hl : Spells .mul l u) (hr : Spells .unary r v) :
      Spells .mul (.binOp op l r) (u ++ k :: v)
  | mulOf {e u} (h : Spells .unary e u) : Spells .mul e u
  | neg {e u} (h : Spells .unary e u) : Spells .unary (.unOp .neg e) (.minus :: u)
  | unaryOf {e u} (h : Spells .postfixed e u) : Spells .unary e u
  | fieldAccess {e u field} (h : Spells .postfixed e u) :
      Spells .postfixed (.fieldAccess e field) (u ++ [.dot, .ident field])
  | index {e i u v} (h : Spells .postfixed e u) (hi : Spells .or i v) :
      Spells .postfixed (.index e i) (u ++ .lBracket :: (v ++ [.rBracket]))
  | call {e args u v} (h : Spells .postfixed e u) (hargs : SpellsItems args v) :
      Spells .postfixed (.call e args) (u ++ .lParen :: (v ++ [.rParen]))
  | tryPropagate {e u} (h : Spells .postfixed e u) : Spells .postfixed (.tryPropagate e) (u ++ [.question])
  | postfixOf {e u} (h : Spells .primary e u) : Spells .postfixed e u
  | int {n} : Spells .primary (.literal (.int n)) [.int n]
  | float {f} : Spells .primary (.literal (.float f)) [.float f]
  | string {s} : Spells .primary (.literal (.string s)) [.stringLit s]
  | true : Spells .primary (.literal (.bool true)) [.kwTrue]
  | false : Spells .primary (.literal (.bool false)) [.kwFalse]
  | nothing : Spells .primary (.literal .nothing) [.kwNothing]
  | ident {name} : Spells .primary (.ident name) [.ident name]
  | namespaced {a b} : Spells .primary (.ident (a ++ "::" ++ b)) [.ident a, .colon, .colon, .ident b]
  | paren {e u} (h : Spells .or e u) : Spells .primary e (.lParen :: (u ++ [.rParen]))
  | list {items u} (h : SpellsItems items u) : Spells .primary (.list items) (.lBracket :: (u ++ [.rBracket]))
  | tryRetry {e u attempts} {backoff : Backoff} (h : Spells .or e u) :
      Spells .primary (.tryRetry e attempts backoff)
        (.kwTry :: (u ++ [.kwOn, .kwError, .kwRetry, .int attempts, .kwTimes, .kwBackoff] ++ backoff.kinds))
  | replay {e arms b u v w k m} (h : Spells .or e u) (harms : SpellsArms arms v) (hb : Spells .or b w) :
      Spells .primary (.replay e arms b) (.kwReplay :: (u ++ [.colon, .newline, .indent] ++ v ++
        newlines k ++ .kwElse :: (w ++ newlines m ++ [.dedent])))

/-- Items with commas between them. -/
inductive SpellsList : List Expr → List TokKind → Prop
  | one {e u} (h : Spells .or e u) : SpellsList [e] u
  | more {es e u v} (hs : SpellsList es u) (h : Spells .or e v) : SpellsList (es ++ [e]) (u ++ .comma :: v)

/-- There may be no items, and a comma may stand after the last one. -/
inductive SpellsItems : List Expr → List TokKind → Prop
  | nil : SpellsItems [] []
  | list {es u} (h : SpellsList es u) : SpellsItems es u
  | trailing {es u} (h : SpellsList es u) : SpellsItems es (u ++ [.comma])

/-- The arms of a replay block but the last one, each with the end of its line. -/
inductive SpellsArms : List ReplayArm → List TokKind → Prop
  | nil : SpellsArms [] []
  | more {arms u k pattern capture e v} (hs : SpellsArms arms u) (hplain : pattern.Plain)
      (h : Spells .or e v) :
      SpellsArms (arms ++ [.mk pattern capture e])
        (u ++ newlines k ++ .kwWhen :: (pattern.kinds ++ captureKinds capture ++ .arrow :: v) ++ [.newline])

end

/-! ## What parsers read, as kinds -/

/-- Where no token is left. -/
def AtEnd (ts : List Token) : Prop := kindAt ts = .eof

/-- `RelAt`, of the kinds that are read. -/
def ReadsAt {α : Type} (ts : List Token) (S : α → Prop) (R : α → List TokKind → List Token → Prop)
    (p q : P α) : Prop :=
  RelAt AtEnd ts S (fun a used rest => R a (used.map Token.kind) rest) p q

/-- A token is read for every value. -/
abbrev Strict {α : Type} : α → Prop := fun _ => True

abbrev Lax {α : Type} : α → Prop := fun _ => False

/-- A loop that goes on. -/
abbrev GoesOn {σ α : Type} : σ ⊕ α → Prop := fun r => r.isLeft = true

/-- What one step of a loop reads, where `Q s` is what the loop reads from the state `s`. -/
def StepReads {σ α : Type} (Q : σ → α → List TokKind → List Token → Prop) (s : σ) :
    σ ⊕ α → List TokKind → List Token → Prop
  | .inl s', u, left => ∀ a more rest, left = more ++ rest → Q s' a (more.map Token.kind) rest →
      Q s a (u ++ more.map Token.kind) rest
  | .inr a, u, left => Q s a u left

theorem exists_of_kindAt {ts : List Token} {k : TokKind} (h : kindAt ts = k) (hne : k ≠ .eof) :
    ∃ t rest, ts = t :: rest ∧ t.kind = k := by
  cases ts with
  | nil => exact absurd h.symm hne
  | cons t rest => exact ⟨t, rest, rfl, h⟩

namespace ReadsAt

variable {α β : Type} {ts : List Token} {S : α → Prop} {T : β → Prop}
  {R : α → List TokKind → List Token → Prop} {Q : β → List TokKind → List Token → Prop}
  {p q : P α} {f g : α → P β} {k : TokKind}

theorem pure {a : α} (hS : ¬ S a) (h : kindAt ts ≠ .eof → R a [] ts) :
    ReadsAt ts S R (Pure.pure a) (Pure.pure a) := RelAt.pure hS h

theorem failWith {kind : ParseErrorKind} : ReadsAt ts S R (Syntax.failWith kind) (Syntax.failWith kind) :=
  RelAt.fail (by rintro ⟨⟩)

theorem unexpected {expected : String} :
    ReadsAt ts S R (Syntax.unexpected expected) (Syntax.unexpected expected) := RelAt.fail (by rintro ⟨⟩)

theorem mono {S' : α → Prop} {R' : α → List TokKind → List Token → Prop} (h : ReadsAt ts S R p q)
    (hS : ∀ a, S' a → S a) (hR : ∀ a u rest, R a u rest → R' a u rest) : ReadsAt ts S' R' p q :=
  RelAt.mono h hS fun a _ rest _ hr => hR a _ rest hr

theorem ahead {k k' : List Token → P α} (h : ReadsAt ts S R (k ts) (k' ts)) :
    ReadsAt ts S R (Parser.ahead >>= k) (Parser.ahead >>= k') := h

theorem peek {k k' : TokKind → P α} (h : ReadsAt ts S R (k (kindAt ts)) (k' (kindAt ts))) :
    ReadsAt ts S R (peek >>= k) (peek >>= k') := h

theorem peekSpan {k k' : Span → P α} (h : ReadsAt ts S R (k (spanAt ts)) (k' (spanAt ts))) :
    ReadsAt ts S R (peekSpan >>= k) (peekSpan >>= k') := h

theorem bump {f g : Unit → P α} (hk : kindAt ts = k) (hne : k ≠ .eof) (S' : α → Prop)
    (h : ts.tail.length < ts.length →
      ReadsAt ts.tail S' (fun a u left => R a (k :: u) left) (f ()) (g ())) :
    ReadsAt ts S R (bump >>= f) (bump >>= g) := by
  obtain ⟨t, rest, rfl, rfl⟩ := exists_of_kindAt hk hne
  exact RelAt.bump hne (h (Nat.lt_succ_self _))

theorem bumpLast {R : Unit → List TokKind → List Token → Prop} {S : Unit → Prop} (hk : kindAt ts = k)
    (hne : k ≠ .eof) (h : ∀ rest, R () [k] rest) : ReadsAt ts S R Parser.bump Parser.bump := by
  obtain ⟨t, rest, rfl, rfl⟩ := exists_of_kindAt hk hne
  exact ⟨rfl, fun _ => Nat.lt_succ_self _, fun hdead => absurd hdead hne, fun _ => ⟨[t], rfl, h rest⟩⟩

theorem bind {S' : β → Prop} (hp : ReadsAt ts S R p q)
    (hf : ∀ a rest, rest.length ≤ ts.length → (S a → rest.length < ts.length) →
      ReadsAt rest T (fun b v left => ∀ u, R a u rest → Q b (u ++ v) left) (f a) (g a))
    (hS : ∀ a b, S' b → S a ∨ T b) : ReadsAt ts S' Q (p >>= f) (q >>= g) :=
  RelAt.bind hp (fun a rest hle hlt => RelAt.mono (hf a rest hle hlt) (fun _ => id)
    fun b v left _ h u hu => by
      rw [List.map_append]
      exact h _ hu) hS

/-- A loop, by its steps. -/
theorem repeated {σ : Type} {n : ℕ} {step step' : σ → P (σ ⊕ α)}
    {Q : σ → α → List TokKind → List Token → Prop}
    (hstep : ∀ s ts, ts.length < n → ReadsAt ts GoesOn (StepReads Q s) (step s) (step' s))
    (s : σ) (hts : ts.length < n) :
    ReadsAt ts Lax (Q s) (Parser.repeated step s) (Parser.repeated step' s) := by
  have hrel := rel_repeated (Q := fun s a used rest => Q s a (used.map Token.kind) rest)
    (fun s ts hts => RelAt.mono (hstep s ts hts) (fun _ => id) fun r used left _ h => ?_) s
  · exact hrel ts hts
  · rcases r with s' | a
    · intro a more rest heq hq
      rw [List.map_append]
      exact h a more rest heq hq
    · exact h

/-- After a parser that reads a token. -/
theorem andThen {S' : β → Prop} (hp : ReadsAt ts Strict R p q)
    (hf : ∀ a rest, rest.length < ts.length →
      ReadsAt rest T (fun b v left => ∀ u, R a u rest → Q b (u ++ v) left) (f a) (g a)) :
    ReadsAt ts S' Q (p >>= f) (q >>= g) :=
  hp.bind (fun a rest _ hlt => hf a rest (hlt trivial)) fun _ _ _ => .inl trivial

end ReadsAt

/-! ## Single tokens -/

section Tokens

variable {ts : List Token}

theorem reads_expect {kind : TokKind} {description : String} (hne : kind ≠ .eof) :
    ReadsAt ts Strict (fun _ u _ => u = [kind]) (expect kind description) (expect kind description) := by
  unfold expect
  refine .peek ?_
  split
  next h => exact .bumpLast h hne fun _ => rfl
  next => exact .unexpected

theorem reads_expectIdent :
    ReadsAt ts Strict (fun name u _ => u = [.ident name]) expectIdent expectIdent := by
  unfold expectIdent
  refine .peek ?_
  split
  next name h => exact .bump h nofun Lax fun _ => .pure id fun _ => rfl
  next => exact .unexpected

theorem reads_expectStringLit {description : String} :
    ReadsAt ts Strict (fun s u _ => u = [.stringLit s]) (expectStringLit description)
      (expectStringLit description) := by
  unfold expectStringLit
  refine .peek ?_
  split
  next s h => exact .bump h nofun Lax fun _ => .pure id fun _ => rfl
  next => exact .unexpected

theorem reads_parseU64Literal {description : String} :
    ReadsAt ts Strict (fun n u _ => u = [.int n]) (parseU64Literal description)
      (parseU64Literal description) := by
  unfold parseU64Literal
  refine .peek ?_
  split
  next n h => exact .bump h nofun Lax fun _ => .pure id fun _ => rfl
  next => exact .unexpected

theorem reads_expectNewline :
    ReadsAt ts Lax (fun _ u rest => u = [.newline] ∨ u = [] ∧ kindAt rest = .dedent) expectNewline
      expectNewline := by
  unfold expectNewline
  refine .peek ?_
  split
  next h => exact .bumpLast h nofun fun _ => .inl rfl
  next h => exact .pure id fun hlive => absurd h hlive
  next h => exact .pure id fun _ => .inr ⟨rfl, h⟩
  next => exact .unexpected

/-- Ends of lines are read up to another token. -/
def NewlinesRead {σ α : Type} (_ : σ) (_ : α) (u : List TokKind) (rest : List Token) : Prop :=
  ∃ k, u = newlines k ∧ kindAt rest ≠ .newline

theorem reads_skipNewlinesStep (s : Unit) :
    ReadsAt ts GoesOn (StepReads NewlinesRead s) (skipNewlinesStep s) (skipNewlinesStep s) := by
  unfold skipNewlinesStep
  refine .peek ?_
  split
  next h =>
    refine .bump h nofun Lax fun _ => .pure id fun _ a more rest' _ hq => ?_
    obtain ⟨k, hk, hne⟩ := hq
    exact ⟨k + 1, congrArg (TokKind.newline :: ·) hk, hne⟩
  next h => exact .pure nofun fun _ => ⟨0, rfl, h⟩

theorem reads_skipNewlines :
    ReadsAt ts Lax (fun _ u rest => ∃ k, u = newlines k ∧ kindAt rest ≠ .newline) skipNewlines
      skipNewlines :=
  ReadsAt.repeated (fun s _ _ => reads_skipNewlinesStep s) () (Nat.lt_succ_self _)

theorem reads_parseNamespacedIdentFrom {name : String} :
    ReadsAt ts Lax (fun e u _ => Spells .primary (.ident e) (.ident name :: u))
      (parseNamespacedIdentFrom name) (parseNamespacedIdentFrom name) := by
  unfold parseNamespacedIdentFrom
  refine ReadsAt.ahead ?_
  split
  next h =>
    refine .bump h.1 nofun Lax fun _ => .bump h.2 nofun Lax fun _ => ?_
    refine reads_expectIdent.andThen (T := Lax) fun b rest _ => .pure id ?_
    rintro _ _ rfl
    exact .namespaced
  next => exact .pure id fun _ => .ident

theorem reads_parseToolArgPattern :
    ReadsAt ts Strict (fun arg u _ => u = [arg.kind] ∧ arg ≠ .capture "_") parseToolArgPattern
      parseToolArgPattern := by
  unfold parseToolArgPattern
  refine .peek ?_
  split
  next name h =>
    refine .bump h nofun Lax fun _ => .pure id fun _ => ?_
    split
    next hname =>
      rw [hname]
      exact ⟨rfl, nofun⟩
    next hname => exact ⟨rfl, fun heq => hname (ToolArgPattern.capture.inj heq)⟩
  next value h => exact .bump h nofun Lax fun _ => .pure id fun _ => ⟨rfl, nofun⟩
  next => exact .unexpected

theorem reads_parseReplayPattern :
    ReadsAt ts Strict (fun pattern u _ => u = pattern.kinds ∧ pattern.Plain) parseReplayPattern
      parseReplayPattern := by
  unfold parseReplayPattern
  refine .peek ?_
  split
  next h =>
    refine .bump h nofun Strict fun _ => ?_
    refine (reads_expect (by rintro ⟨⟩)).andThen (T := Lax) fun _ rest _ => ?_
    refine reads_expectStringLit.andThen (T := Lax) fun tool rest _ => ?_
    refine (reads_expect (by rintro ⟨⟩)).andThen (T := Lax) fun _ rest _ => ?_
    refine reads_parseToolArgPattern.andThen (T := Lax) fun arg rest _ => ?_
    refine (reads_expect (by rintro ⟨⟩)).andThen (T := Lax) fun _ rest _ => ?_
    refine .pure id ?_
    rintro _ _ rfl _ ⟨rfl, harg⟩ _ rfl _ rfl _ rfl
    exact ⟨rfl, harg⟩
  next h =>
    refine .bump h nofun Strict fun _ => ?_
    refine (reads_expect (by rintro ⟨⟩)).andThen (T := Lax) fun _ rest _ => ?_
    refine reads_expectStringLit.andThen (T := Lax) fun label rest _ => ?_
    refine (reads_expect (by rintro ⟨⟩)).andThen (T := Lax) fun _ rest _ => ?_
    refine .pure id ?_
    rintro _ _ rfl _ rfl _ rfl
    exact ⟨rfl, trivial⟩
  next name h =>
    split
    next hname =>
      refine .bump h nofun Strict fun _ => ?_
      refine (reads_expect (by rintro ⟨⟩)).andThen (T := Lax) fun _ rest _ => ?_
      refine reads_expectStringLit.andThen (T := Lax) fun prompt rest _ => ?_
      refine (reads_expect (by rintro ⟨⟩)).andThen (T := Lax) fun _ rest _ => ?_
      refine .pure id ?_
      rintro _ _ rfl _ rfl _ rfl
      exact ⟨by rw [hname]; rfl, trivial⟩
    next => exact .unexpected
  next => exact .unexpected

theorem reads_parseCapture :
    ReadsAt ts Lax (fun capture u _ => u = captureKinds capture) parseCapture parseCapture := by
  unfold parseCapture
  refine .peek ?_
  split
  next h =>
    refine .bump h nofun Lax fun _ => ?_
    refine reads_expectIdent.andThen (T := Lax) fun name rest _ => .pure id ?_
    rintro _ _ rfl
    rfl
  next => exact .pure id fun _ => rfl

theorem reads_parseBackoff :
    ReadsAt ts Strict (fun backoff u _ => u = backoff.kinds) parseBackoff parseBackoff := by
  unfold parseBackoff
  refine .peek ?_
  split
  next h =>
    refine .bump h nofun Lax fun _ => ?_
    refine reads_parseU64Literal.andThen (T := Lax) fun ms rest _ => .pure id ?_
    rintro _ _ rfl
    rfl
  next h =>
    refine .bump h nofun Lax fun _ => ?_
    refine reads_parseU64Literal.andThen (T := Lax) fun ms rest _ => .pure id ?_
    rintro _ _ rfl
    rfl
  next => exact .unexpected

theorem reads_closeWith {close : TokKind} {unclosed : ParseErrorKind} (hne : close ≠ .eof) :
    ReadsAt ts Strict (fun _ u _ => u = [close]) (closeWith close unclosed) (closeWith close unclosed) := by
  unfold closeWith
  refine .peek ?_
  split
  next h => exact .bumpLast h hne fun _ => rfl
  next => exact .failWith

theorem reads_openBlock :
    ReadsAt ts Strict (fun _ u _ => u = [.indent] ∧ kindAt ts = .indent) openBlock openBlock := by
  unfold openBlock
  refine .peek ?_
  split
  next h => exact .bumpLast h nofun fun _ => ⟨rfl, h⟩
  next => exact .failWith

theorem reads_closeBlock :
    ReadsAt ts Lax (fun _ u _ => kindAt ts = .dedent → u = [.dedent]) closeBlock closeBlock := by
  unfold closeBlock
  refine .peek ?_
  split
  next h => exact .bumpLast h nofun fun _ _ => rfl
  next h => exact .pure id fun _ hdedent => absurd hdedent h

end Tokens

/-! ## Levels -/

section Levels

/-- Tokens that spell an expression of the level are read. -/
def Reads (n : ℕ) (ℓ : Level) (p q : P Expr) : Prop :=
  ∀ ts, ts.length < n → ReadsAt ts Strict (fun e u _ => Spells ℓ e u) p q

variable {n : ℕ} {expr expr' : P Expr}

/-- More items follow those that were read. -/
def ItemsRead (items es : List Expr) (u : List TokKind) (_ : List Token) : Prop :=
  ∀ v, SpellsList items v → SpellsItems es (v ++ u)

theorem reads_moreItemsStep (hexpr : Reads n .or expr expr') (close : TokKind) (items : List Expr)
    {ts : List Token} (hts : ts.length < n) :
    ReadsAt ts GoesOn (StepReads ItemsRead items) (moreItemsStep expr close items)
      (moreItemsStep expr' close items) := by
  unfold moreItemsStep
  refine .peek ?_
  split
  next h =>
    refine .bump h nofun GoesOn fun hlt => .peek ?_
    split
    next => exact .pure nofun fun _ v hv => .trailing hv
    next =>
      refine (hexpr _ (by omega)).andThen (T := Lax) fun item rest _ => .pure id ?_
      intro _ w hw es more rest' _ hes v hv
      have hnext := hes _ (.more hv hw)
      simpa using hnext
  next =>
    refine .pure nofun fun _ v hv => ?_
    rw [List.append_nil]
    exact .list hv

theorem reads_commaList (hexpr : Reads n .or expr expr') {close : TokKind} {unclosed : ParseErrorKind}
    (hne : close ≠ .eof) {ts : List Token} (hts : ts.length < n) :
    ReadsAt ts Strict (fun items u _ => ∃ v, u = v ++ [close] ∧ SpellsItems items v)
      (commaList expr close unclosed) (commaList expr' close unclosed) := by
  have hitems : ReadsAt ts Lax (fun items u _ => SpellsItems items u) (someItems expr close)
      (someItems expr' close) := by
    unfold someItems
    refine .peek ?_
    split
    next => exact .pure id fun _ => .nil
    next =>
      refine (hexpr ts hts).andThen (T := Lax) fun first rest hlt => ?_
      have hmore := ReadsAt.repeated (fun items _ => reads_moreItemsStep hexpr close items)
        [first] (show rest.length < n by omega)
      exact hmore.mono (fun _ => id) fun es u _ h v hv => h v (.one hv)
  unfold commaList
  refine hitems.bind (T := Strict) (fun items rest _ _ => ?_) fun _ _ _ => .inr trivial
  refine (reads_closeWith hne).andThen (T := Lax) fun _ rest _ => .pure id ?_
  rintro _ _ rfl v hv
  exact ⟨v, by simp, hv⟩

theorem reads_parseTryRetryExpr (hexpr : Reads n .or expr expr') {ts : List Token}
    (hk : kindAt ts = .kwTry) (hts : ts.length < n + 1) :
    ReadsAt ts Strict (fun e u _ => Spells .primary e u) (parseTryRetryExpr expr)
      (parseTryRetryExpr expr') := by
  unfold parseTryRetryExpr
  refine .bump hk nofun Strict fun hlt => ?_
  refine (hexpr _ (by omega)).andThen (T := Lax) fun body rest _ => ?_
  refine (reads_expect (by rintro ⟨⟩)).andThen (T := Lax) fun _ rest _ => ?_
  refine (reads_expect (by rintro ⟨⟩)).andThen (T := Lax) fun _ rest _ => ?_
  refine (reads_expect (by rintro ⟨⟩)).andThen (T := Lax) fun _ rest _ => ?_
  refine reads_parseU64Literal.andThen (T := Lax) fun attempts rest _ => ?_
  refine (reads_expect (by rintro ⟨⟩)).andThen (T := Lax) fun _ rest _ => ?_
  refine (reads_expect (by rintro ⟨⟩)).andThen (T := Lax) fun _ rest _ => ?_
  refine reads_parseBackoff.andThen (T := Lax) fun backoff rest _ => .pure id ?_
  rintro _ _ rfl _ rfl _ rfl _ rfl _ rfl _ rfl _ rfl u hu
  simpa using Spells.tryRetry hu

theorem reads_parseReplayWhenArm (hexpr : Reads n .or expr expr') {ts : List Token}
    (hk : kindAt ts = .kwWhen) (hts : ts.length < n + 1) :
    ReadsAt ts Strict (fun arm u _ => (∀ arms v k, SpellsArms arms v →
      SpellsArms (arms ++ [arm]) (v ++ newlines k ++ u ++ [.newline])) ∧ u.head? = some .kwWhen)
      (parseReplayWhenArm expr) (parseReplayWhenArm expr') := by
  unfold parseReplayWhenArm
  refine .bump hk nofun Strict fun hlt => ?_
  refine reads_parseReplayPattern.andThen (T := Lax) fun pattern rest hlt' => ?_
  refine reads_parseCapture.bind (T := Strict) (fun capture rest hle _ => ?_) fun _ _ _ => .inr trivial
  refine (reads_expect (by rintro ⟨⟩)).andThen (T := Lax) fun _ rest hlt'' => ?_
  refine (hexpr _ (by omega)).andThen (T := Lax) fun body rest _ => .pure id ?_
  rintro _ w hw _ rfl _ rfl _ ⟨rfl, hplain⟩
  refine ⟨fun arms v k harms => ?_, rfl⟩
  simpa using @SpellsArms.more _ _ k _ capture _ _ harms hplain hw

/-- What is left of a replay block inside of it, given the arms so far. After the last arm there are only
ends of lines; before it, the last arm still comes, unless the block ends. -/
def ReplayRest (before after : ReplayArms) (u : List TokKind) (rest : List Token) : Prop :=
  kindAt rest = .dedent ∧
    match before.2 with
    | none => ((u ++ rest.map Token.kind).head? = some .dedent → after.2 = none) ∧
        ∀ b, after.2 = some b → ∀ v, SpellsArms before.1 v → ∃ v' k w m,
          v ++ u = v' ++ newlines k ++ .kwElse :: (w ++ newlines m) ∧ SpellsArms after.1 v' ∧
            Spells .or b w
    | some b => after = (before.1, some b) ∧ ∃ m, u = newlines m

/-- One more arm, with the end of its line. -/
theorem ReplayRest.more {arms : List ReplayArm} {arm : ReplayArm} {after : ReplayArms} {k : ℕ}
    {u v : List TokKind} {more rest : List Token}
    (harm : ∀ arms v k, SpellsArms arms v → SpellsArms (arms ++ [arm]) (v ++ newlines k ++ u ++ [.newline]))
    (hu : u.head? = some .kwWhen)
    (hv : v = [.newline] ∨ v = [] ∧ kindAt (more ++ rest) = .dedent)
    (h : ReplayRest (arms ++ [arm], none) after (more.map Token.kind) rest) :
    ReplayRest (arms, none) after (newlines k ++ u ++ v ++ more.map Token.kind) rest := by
  obtain ⟨hdedent, hnone, hsome⟩ := h
  refine ⟨hdedent, fun hhead => ?_, fun b hb w hw => ?_⟩
  · exfalso
    cases k with
    | zero =>
      cases u with
      | nil => cases hu
      | cons t u =>
        obtain rfl := Option.some.inj hu
        cases hhead
    | succ k => cases hhead
  · rcases hv with rfl | ⟨rfl, hnext⟩
    · obtain ⟨v', k', w', m, heq, hspells⟩ := hsome b hb _ (harm arms w k hw)
      exact ⟨v', k', w', m, by simpa using heq, hspells⟩
    · -- the block ends here, without the last arm
      have hend : (more.map Token.kind ++ rest.map Token.kind).head? = some .dedent := by
        obtain ⟨t, ts, hts, hkind⟩ := exists_of_kindAt hnext nofun
        rw [← List.map_append, hts, ← hkind]
        rfl
      rw [hnone hend] at hb
      cases hb

/-- The last arm, with the end of its line. -/
theorem ReplayRest.last {arms : List ReplayArm} {b : Expr} {after : ReplayArms} {k : ℕ}
    {u v more : List TokKind} {rest : List Token} (hb : Spells .or b u)
    (hv : v = [.newline] ∨ v = []) (h : ReplayRest (arms, some b) after more rest) :
    ReplayRest (arms, none) after (newlines k ++ .kwElse :: u ++ v ++ more) rest := by
  obtain ⟨hdedent, rfl, m, rfl⟩ := h
  refine ⟨hdedent, fun hhead => ?_, fun b' hb' w hw => ?_⟩
  · exfalso
    cases k <;> cases hhead
  · obtain rfl := Option.some.inj hb'
    rcases hv with rfl | rfl
    · exact ⟨w, k, u, m + 1, by simp [newlines, List.replicate_succ], hw, hb⟩
    · exact ⟨w, k, u, m, by simp, hw, hb⟩

theorem reads_replayArmsStep (hexpr : Reads n .or expr expr') (arms : ReplayArms) {ts : List Token}
    (hts : ts.length < n) :
    ReadsAt ts GoesOn (StepReads ReplayRest arms) (replayArmsStep expr arms)
      (replayArmsStep expr' arms) := by
  unfold replayArmsStep
  refine reads_skipNewlines.bind (T := GoesOn) (fun _ rest hle _ => ?_) fun _ _ h => .inr h
  refine .peek ?_
  split
  next h =>
    refine .pure nofun fun _ => ?_
    rintro _ ⟨k, rfl, -⟩
    rw [List.append_nil]
    refine ⟨h, ?_⟩
    obtain ⟨arms, _ | b⟩ := arms
    · exact ⟨fun _ => rfl, fun b hb => nomatch hb⟩
    · exact ⟨rfl, k, rfl⟩
  next h => exact .pure nofun fun hlive => absurd h hlive
  next h =>
    obtain ⟨arms, _ | b⟩ := arms
    · refine (reads_parseReplayWhenArm hexpr h (by omega)).andThen (T := Lax) fun arm rest' hlt => ?_
      refine reads_expectNewline.bind (T := Lax) (fun _ rest'' _ _ => .pure id ?_) fun _ _ => False.elim
      rintro hlive v hv u ⟨harm, hu⟩ _ ⟨k, rfl, -⟩ after more left rfl hmore
      simpa using ReplayRest.more (k := k) harm hu hv hmore
    · exact .failWith
  next h =>
    obtain ⟨arms, _ | b⟩ := arms
    · refine .bump h nofun Strict fun hlt => ?_
      refine (hexpr _ (by omega)).andThen (T := Lax) fun body rest' hlt' => ?_
      refine reads_expectNewline.bind (T := Lax) (fun _ rest'' _ _ => .pure id ?_) fun _ _ => False.elim
      rintro hlive v hv u hu _ ⟨k, rfl, -⟩ after more left rfl hmore
      simpa using ReplayRest.last (k := k) hu (hv.imp_right And.left) hmore
    · exact .failWith
  next => exact .unexpected

theorem reads_parseReplayExpr (hexpr : Reads n .or expr expr') {ts : List Token}
    (hk : kindAt ts = .kwReplay) (hts : ts.length < n + 1) :
    ReadsAt ts Strict (fun e u _ => Spells .primary e u) (parseReplayExpr expr)
      (parseReplayExpr expr') := by
  unfold parseReplayExpr
  refine .peekSpan (.bump hk nofun Strict fun hlt => ?_)
  refine (hexpr _ (by omega)).andThen (T := Lax) fun trace rest hlt₁ => ?_
  refine (reads_expect (by rintro ⟨⟩)).andThen (T := Lax) fun _ rest hlt₂ => ?_
  refine reads_expectNewline.bind (T := Lax) (fun _ rest hle₃ _ => ?_) fun _ _ => False.elim
  refine reads_openBlock.andThen (T := Lax) fun _ rest hlt₄ => ?_
  have harms := ReadsAt.repeated (fun arms _ => reads_replayArmsStep hexpr arms) ([], none)
    (show rest.length < n by omega)
  refine harms.bind (T := Lax) (fun arms rest hle₅ _ => ?_) fun _ _ => False.elim
  refine reads_closeBlock.bind (T := Lax) (fun _ rest hle₆ _ => ?_) fun _ _ => False.elim
  obtain ⟨arms, _ | b⟩ := arms
  · exact RelAt.fail (by rintro ⟨⟩)
  · refine .pure id fun _ => ?_
    rintro _ hclose _ ⟨hdedent, -, hsome⟩ _ ⟨rfl, hindent⟩ _ hline _ rfl u hu
    obtain ⟨v, k, w, m, rfl, harms, hb⟩ := hsome b rfl [] .nil
    obtain rfl : _ = [TokKind.newline] := hline.resolve_right fun h => by
      rw [h.2] at hindent
      cases hindent
    rw [hclose hdedent]
    simpa using Spells.replay (k := k) (m := m) hu harms hb

theorem reads_parsePrimary (hexpr : Reads n .or expr expr') :
    Reads (n + 1) .primary (parsePrimary expr) (parsePrimary expr') := by
  intro ts hts
  unfold parsePrimary
  refine .peek ?_
  split
  next h => exact .bump h nofun Lax fun _ => .pure id fun _ => .int
  next h => exact .bump h nofun Lax fun _ => .pure id fun _ => .float
  next h => exact .bump h nofun Lax fun _ => .pure id fun _ => .string
  next h => exact .bump h nofun Lax fun _ => .pure id fun _ => .true
  next h => exact .bump h nofun Lax fun _ => .pure id fun _ => .false
  next h => exact .bump h nofun Lax fun _ => .pure id fun _ => .nothing
  next h => exact reads_parseTryRetryExpr hexpr h hts
  next h => exact reads_parseReplayExpr hexpr h hts
  next name h =>
    refine .bump h nofun Lax fun _ => ?_
    refine reads_parseNamespacedIdentFrom.bind (T := Lax) (fun name rest _ _ => .pure id fun _ u hu => ?_)
      fun _ _ => False.elim
    rwa [List.append_nil]
  next h =>
    refine .bump h nofun Strict fun hlt => ?_
    refine (hexpr _ (by omega)).andThen (T := Lax) fun inner rest _ => ?_
    refine (reads_closeWith (by rintro ⟨⟩)).andThen (T := Lax) fun _ rest _ => .pure id ?_
    rintro _ _ rfl u hu
    simpa using Spells.paren hu
  next h =>
    refine .bump h nofun Strict fun hlt => ?_
    refine (reads_commaList hexpr (by rintro ⟨⟩) (by omega)).andThen (T := Lax) fun items rest _ => .pure id ?_
    rintro _ _ ⟨v, rfl, hv⟩
    simpa using Spells.list hv
  next => exact .failWith
  next => exact .failWith
  next => exact .failWith
  next => exact .failWith
  next => exact .unexpected

/-- What stands to the right of an expression of the level. -/
def Extends (ℓ : Level) (left e : Expr) (u : List TokKind) (_ : List Token) : Prop :=
  ∀ v, Spells ℓ left v → Spells ℓ e (v ++ u)

theorem extends_refl {ℓ : Level} {e : Expr} (rest : List Token) : Extends ℓ e e [] rest := by
  intro v hv
  rwa [List.append_nil]

theorem Extends.stepReads {ℓ : Level} {left e : Expr} {u : List TokKind} {rest : List Token}
    (h : Extends ℓ left e u rest) : StepReads (Extends ℓ) left (.inl e) u rest := by
  intro a more rest' _ ha v hv
  simpa using ha _ (h v hv)

/-- A loop over what stands to the right of an expression. -/
theorem reads_extending {ℓ inner : Level} {step step' : Expr → P (Expr ⊕ Expr)} {p q : P Expr}
    (hp : Reads (n + 1) inner p q) (hinner : ∀ e u, Spells inner e u → Spells ℓ e u)
    (hstep : ∀ left ts, ts.length < n →
      ReadsAt ts GoesOn (StepReads (Extends ℓ) left) (step left) (step' left)) :
    Reads (n + 1) ℓ (p >>= repeated step) (q >>= repeated step') := by
  intro ts hts
  refine (hp ts hts).andThen (T := Lax) fun left rest hlt => ?_
  have hloop := ReadsAt.repeated hstep left (show rest.length < n by omega)
  exact hloop.mono (fun _ => id) fun e u _ h v hv => h v (hinner _ _ hv)

theorem reads_parsePostfixStep (hexpr : Reads n .or expr expr') (target : Expr) {ts : List Token}
    (hts : ts.length < n) :
    ReadsAt ts GoesOn (StepReads (Extends .postfixed) target) (parsePostfixStep expr target)
      (parsePostfixStep expr' target) := by
  unfold parsePostfixStep
  refine .peek ?_
  split
  next h =>
    refine .bump h nofun Strict fun hlt => ?_
    refine reads_expectIdent.andThen (T := Lax) fun field rest _ => .pure id ?_
    rintro _ _ rfl
    exact Extends.stepReads fun v hv => .fieldAccess hv
  next h =>
    refine .bump h nofun Strict fun hlt => ?_
    refine (hexpr _ (by omega)).andThen (T := Lax) fun index rest _ => ?_
    refine (reads_closeWith (by rintro ⟨⟩)).andThen (T := Lax) fun _ rest _ => .pure id ?_
    rintro _ _ rfl u hu
    exact Extends.stepReads fun v hv => .index hv hu
  next h =>
    refine .bump h nofun Strict fun hlt => ?_
    refine (reads_commaList hexpr (by rintro ⟨⟩) (by omega)).andThen (T := Lax) fun args rest _ =>
      .pure id ?_
    rintro _ _ ⟨u, rfl, hu⟩
    refine Extends.stepReads fun v hv => ?_
    simpa using Spells.call hv hu
  next h =>
    exact .bump h nofun Lax fun _ => .pure id fun _ => Extends.stepReads fun v hv => .tryPropagate hv
  next => exact .pure nofun fun _ => extends_refl ts

theorem reads_parsePostfix (hexpr : Reads n .or expr expr') :
    Reads (n + 1) .postfixed (parsePostfix expr) (parsePostfix expr') :=
  reads_extending (reads_parsePrimary hexpr) (fun _ _ => .postfixOf) fun target _ =>
    reads_parsePostfixStep hexpr target

theorem reads_parseUnaryWith (hexpr : Reads n .or expr expr') {m : ℕ} {unary unary' : P Expr}
    (hunary : Reads m .unary unary unary') (ts : List Token) (hm : ts.length < m + 1)
    (hn : ts.length < n + 1) :
    ReadsAt ts Strict (fun e u _ => Spells .unary e u) (parseUnaryWith expr unary)
      (parseUnaryWith expr' unary') := by
  unfold parseUnaryWith
  refine .peek ?_
  split
  next h =>
    refine .bump h nofun Strict fun hlt => ?_
    refine (hunary _ (by omega)).andThen (T := Lax) fun operand rest _ => .pure id fun _ u hu => ?_
    rw [List.append_nil]
    exact .neg hu
  next => exact (reads_parsePostfix hexpr ts hn).mono (fun _ => id) fun _ _ _ => .unaryOf

theorem reads_parseUnary (hexpr : Reads n .or expr expr') :
    Reads (n + 1) .unary (parseUnary expr) (parseUnary expr') := by
  refine rel_fix fun m hm unary unary' hunary ts hts => ?_
  refine reads_parseUnaryWith hexpr hunary ts hts (by omega)

/-- A level whose operators stand between expressions of the next level. -/
structure Binary (ℓ inner : Level) (op : TokKind → Option BinaryOp) : Prop where
  of : ∀ e u, Spells inner e u → Spells ℓ e u
  eof : op .eof = none
  spells : ∀ k o l r u v, op k = some o → Spells ℓ l u → Spells inner r v →
    Spells ℓ (.binOp o l r) (u ++ k :: v)

theorem reads_binaryStep {ℓ inner : Level} {op : TokKind → Option BinaryOp} {p q : P Expr}
    (h : Binary ℓ inner op) (hp : Reads n inner p q) (left : Expr) {ts : List Token}
    (hts : ts.length < n) :
    ReadsAt ts GoesOn (StepReads (Extends ℓ) left) (binaryStep op p left) (binaryStep op q left) := by
  unfold binaryStep
  refine .peek ?_
  split
  next o ho =>
    refine .bump rfl (fun hend => ?_) Strict fun hlt => ?_
    · rw [hend, h.eof] at ho
      cases ho
    · refine (hp _ (by omega)).andThen (T := Lax) fun right rest _ => .pure id fun _ v hv => ?_
      refine Extends.stepReads fun u hu => ?_
      simpa using h.spells _ _ _ _ _ _ ho hu hv
  next => exact .pure nofun fun _ => extends_refl ts

theorem reads_parseBinary {ℓ inner : Level} {op : TokKind → Option BinaryOp} {p q : P Expr}
    (h : Binary ℓ inner op) (hp : Reads (n + 1) inner p q) :
    Reads (n + 1) ℓ (parseBinary op p) (parseBinary op q) :=
  reads_extending hp h.of fun left _ hts => reads_binaryStep h hp left (Nat.lt_succ_of_lt hts)

theorem binary_mul : Binary .mul .unary mulOp :=
  ⟨fun _ _ => .mulOf, rfl, fun _ _ _ _ _ _ => .mul⟩

theorem binary_add : Binary .add .mul addOp :=
  ⟨fun _ _ => .addOf, rfl, fun _ _ _ _ _ _ => .add⟩

theorem eq_of_andOp {k : TokKind} {o : BinaryOp} (h : andOp k = some o) : k = .kwAnd ∧ o = .and := by
  unfold andOp at h
  split at h
  next => exact ⟨rfl, (Option.some.inj h).symm⟩
  next => cases h

theorem eq_of_orOp {k : TokKind} {o : BinaryOp} (h : orOp k = some o) : k = .kwOr ∧ o = .or := by
  unfold orOp at h
  split at h
  next => exact ⟨rfl, (Option.some.inj h).symm⟩
  next => cases h

theorem binary_and : Binary .and .not andOp where
  of _ _ := .andOf
  eof := rfl
  spells k o l r u v ho hl hr := by
    obtain ⟨rfl, rfl⟩ := eq_of_andOp ho
    exact .and hl hr

theorem binary_or : Binary .or .and orOp where
  of _ _ := .orOf
  eof := rfl
  spells k o l r u v ho hl hr := by
    obtain ⟨rfl, rfl⟩ := eq_of_orOp ho
    exact .or hl hr

theorem reads_parseMul (hexpr : Reads n .or expr expr') :
    Reads (n + 1) .mul (parseMul expr) (parseMul expr') :=
  reads_parseBinary binary_mul (reads_parseUnary hexpr)

theorem reads_parseAdd (hexpr : Reads n .or expr expr') :
    Reads (n + 1) .add (parseAdd expr) (parseAdd expr') :=
  reads_parseBinary binary_add (reads_parseMul hexpr)

theorem reads_parseCmp (hexpr : Reads n .or expr expr') :
    Reads (n + 1) .cmp (parseCmp expr) (parseCmp expr') := by
  intro ts hts
  unfold parseCmp
  refine (reads_parseAdd hexpr ts hts).andThen (T := Lax) fun left rest hlt => .peek ?_
  split
  next => exact .pure id fun _ u hu => by rw [List.append_nil]; exact .cmpOf hu
  next op hop =>
    refine .bump rfl (fun h => ?_) Strict fun hlt' => ?_
    · rw [h] at hop
      cases hop
    · refine (reads_parseAdd hexpr _ (by omega)).andThen (T := Lax) fun right rest' _ => .peek ?_
      split
      next => exact .failWith
      next =>
        refine .pure id fun _ v hv u hu => ?_
        rw [List.append_nil]
        exact .cmp hop hu hv

theorem reads_parseNotWith (hexpr : Reads n .or expr expr') {m : ℕ} {not not' : P Expr}
    (hnot : Reads m .not not not') (ts : List Token) (hm : ts.length < m + 1) (hn : ts.length < n + 1) :
    ReadsAt ts Strict (fun e u _ => Spells .not e u) (parseNotWith expr not)
      (parseNotWith expr' not') := by
  unfold parseNotWith
  refine .peek ?_
  split
  next h =>
    refine .bump h nofun Strict fun hlt => ?_
    refine (hnot _ (by omega)).andThen (T := Lax) fun operand rest _ => .pure id fun _ u hu => ?_
    rw [List.append_nil]
    exact .not hu
  next => exact (reads_parseCmp hexpr ts hn).mono (fun _ => id) fun _ _ _ => .notOf

theorem reads_parseNot (hexpr : Reads n .or expr expr') :
    Reads (n + 1) .not (parseNot expr) (parseNot expr') := by
  refine rel_fix fun m hm not not' hnot ts hts => ?_
  exact reads_parseNotWith hexpr hnot ts hts (by omega)

theorem reads_parseAnd (hexpr : Reads n .or expr expr') :
    Reads (n + 1) .and (parseAnd expr) (parseAnd expr') :=
  reads_parseBinary binary_and (reads_parseNot hexpr)

theorem reads_parseOr (hexpr : Reads n .or expr expr') :
    Reads (n + 1) .or (parseOr expr) (parseOr expr') :=
  reads_parseBinary binary_or (reads_parseAnd hexpr)

end Levels

/-- The parser of expressions calls itself, with the levels in between. -/
theorem parseExpr_eq : parseExpr = parseOr parseExpr :=
  fix_eq fun _ _ _ => reads_parseOr

theorem reads_parseExpr (n : ℕ) : Reads n .or parseExpr parseExpr :=
  rel_fix fun _ _ _ _ => reads_parseOr

theorem parseUnary_eq : parseUnary parseExpr = parseUnaryWith parseExpr (parseUnary parseExpr) :=
  fix_eq fun n _ _ hunary ts hts => reads_parseUnaryWith (reads_parseExpr n) hunary ts hts hts

theorem parseNot_eq : parseNot parseExpr = parseNotWith parseExpr (parseNot parseExpr) :=
  fix_eq fun n _ _ hnot ts hts => reads_parseNotWith (reads_parseExpr n) hnot ts hts hts

/-- The parser is never stuck. -/
theorem parseExpr_ne_stuck (ts : List Token) : (parseExpr.run ts).1 ≠ .error .stuck := by
  have hout := (reads_parseExpr (ts.length + 1) ts (Nat.lt_succ_self _)).2
  rcases hrun : parseExpr.run ts with ⟨e | e, rest⟩
  · rw [hrun] at hout
    exact fun h => hout (Except.error.inj h)
  · exact nofun

/-- What is read up to another token spells the expression. -/
theorem spells_of_parseExpr {ts rest : List Token} {e : Expr} (h : parseExpr.run ts = (.ok e, rest))
    (hlive : kindAt rest ≠ .eof) : ∃ used, ts = used ++ rest ∧ Spells .or e (used.map Token.kind) := by
  have hout := (reads_parseExpr (ts.length + 1) ts (Nat.lt_succ_self _)).2
  rw [h] at hout
  exact hout.2.2 hlive

end Corvid.Syntax
