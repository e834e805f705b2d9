import Corvid.Syntax.Lexer
import Mathlib.Algebra.Order.Group.Nat

/-!
# Well formed layout

At every point of a run the tokens emitted so far stand one after another before the position, and
the indentations they leave open are those of the stack. At the end of the source all of them are
closed.

## Main definitions

* `Spans`: tokens one after another in a range of the source
* `nest`: the indentations a sequence of kinds leaves open
* `Lexer.Sound`: the invariant of the main loop
* `WellFormed`: the tokens of a whole source

## Main results

* `Sound.step`: the invariant is kept by one iteration
* `Lexer.run_rest`: a run reaches the end of the source, or panics
* `wellFormed_of_lex`: the tokens of a source are well formed
-/

namespace Corvid.Syntax

/-! ## Spans -/

/-- The tokens stand one after another between the offsets `n` and `m`; only the tokens of the
layout may be empty. -/
structure Spans (n m : ℕ) (tokens : List Token) : Prop where
  mem : ∀ t ∈ tokens, n ≤ t.span.start ∧ t.span.start ≤ t.span.stop ∧ t.span.stop ≤ m
  full : ∀ t ∈ tokens, t.kind.isStructural = false → t.span.start < t.span.stop
  ordered : tokens.Pairwise fun t u => t.span.stop ≤ u.span.start

namespace Spans

variable {n m k : ℕ} {tokens more : List Token}

theorem nil (n m : ℕ) : Spans n m [] :=
  ⟨by simp, by simp, List.Pairwise.nil⟩

theorem mono {k' : ℕ} (h : Spans n m tokens) (hk : m ≤ k') : Spans n k' tokens :=
  ⟨fun t ht => ⟨(h.mem t ht).1, (h.mem t ht).2.1, (h.mem t ht).2.2.trans hk⟩, h.full, h.ordered⟩

theorem append (h : Spans n m tokens) (h' : Spans m k more) (hn : n ≤ m) (hk : m ≤ k) :
    Spans n k (tokens ++ more) where
  mem t ht := by
    rcases List.mem_append.mp ht with ht | ht
    · have := h.mem t ht
      omega
    · have := h'.mem t ht
      omega
  full t ht := (List.mem_append.mp ht).elim (h.full t) (h'.full t)
  ordered := by
    refine List.pairwise_append.mpr ⟨h.ordered, h'.ordered, fun t ht u hu => ?_⟩
    exact (h.mem t ht).2.2.trans (h'.mem u hu).1

theorem single {kind : TokKind} (hn : n ≤ m) (hk : kind.isStructural = false → n < m) :
    Spans n m [⟨kind, ⟨n, m⟩⟩] :=
  ⟨by simp [hn], by simpa using hk, List.pairwise_singleton _ _⟩

/-- Empty tokens of the layout at one offset. -/
theorem replicate {kind : TokKind} (hk : kind.isStructural = true) (i : ℕ) :
    Spans n n (List.replicate i ⟨kind, ⟨n, n⟩⟩) where
  mem t ht := by simp [List.eq_of_mem_replicate ht]
  full t ht hf := by
    rw [List.eq_of_mem_replicate ht, hk] at hf
    cases hf
  ordered := List.pairwise_replicate.mpr (Or.inr (Nat.le_refl n))

end Spans

/-! ## Nesting -/

/-- The open indentations after one more token; a dedent closes one. -/
def nestStep (d : ℕ) : TokKind → Option ℕ
  | .indent => some (d + 1)
  | .dedent => if 0 < d then some (d - 1) else none
  | _ => some d

/-- The indentations that are open after some tokens, where none is closed that is not open. -/
def nest (d : ℕ) (kinds : List TokKind) : Option ℕ :=
  kinds.foldlM nestStep d

theorem nest_append {d e : ℕ} {kinds more : List TokKind} (h : nest d kinds = some e) :
    nest d (kinds ++ more) = nest e more := by
  rw [nest, List.foldlM_append]
  change (nest d kinds >>= fun e => nest e more) = _
  rw [h]
  rfl

theorem nest_single {kind : TokKind} (hi : kind ≠ .indent) (hd : kind ≠ .dedent) (d : ℕ) :
    nest d [kind] = some d := by
  have hstep : nestStep d kind = some d := by
    unfold nestStep
    split <;> simp_all
  simp [nest, hstep]

theorem nest_indent (d : ℕ) : nest d [.indent] = some (d + 1) := rfl

theorem nest_replicate_dedent (d i : ℕ) :
    nest (d + i) (List.replicate i .dedent) = some d := by
  induction i with
  | zero => rfl
  | succ i ih =>
    rw [List.replicate_succ, nest, List.foldlM_cons]
    change (nestStep (d + (i + 1)) .dedent >>= fun e => nest e _) = _
    simp only [nestStep, show 0 < d + (i + 1) by omega, if_true]
    exact ih

/-- The open indentations are the indents less the dedents. -/
theorem count_of_nest {d e : ℕ} {kinds : List TokKind} (h : nest d kinds = some e) :
    d + kinds.count .indent = kinds.count .dedent + e := by
  induction kinds generalizing d with
  | nil =>
    obtain rfl : d = e := Option.some.inj h
    simp
  | cons kind kinds ih =>
    rw [nest, List.foldlM_cons] at h
    obtain ⟨e', he, h⟩ := Option.bind_eq_some_iff.mp h
    have ih := ih h
    rw [List.count_cons, List.count_cons]
    unfold nestStep at he
    split at he
    · obtain rfl := Option.some.inj he
      simp
      omega
    · split at he
      · obtain rfl := Option.some.inj he
        simp
        omega
      · cases he
    · rename_i hi hd
      obtain rfl := Option.some.inj he
      have hi' : (kind == TokKind.indent) = false := beq_eq_false_iff_ne.mpr hi
      have hd' : (kind == TokKind.dedent) = false := beq_eq_false_iff_ne.mpr hd
      simp only [hi', hd', Bool.false_eq_true, if_false, Nat.add_zero]
      exact ih

/-- No prefix closes more indentations than it opens. -/
theorem count_prefix_of_nest {e : ℕ} {kinds first : List TokKind} (h : nest 0 kinds = some e)
    (hfirst : first <+: kinds) : first.count .dedent ≤ first.count .indent := by
  obtain ⟨more, rfl⟩ := hfirst
  rw [nest, List.foldlM_append] at h
  obtain ⟨d, hd, -⟩ := Option.bind_eq_some_iff.mp h
  have := count_of_nest hd
  omega

/-! ## What the scanners read -/

/-- A scanner reads at least one character, and emits no token of the layout. -/
structure Scan.Reads (scan : Scan) (rest : List Char) : Prop where
  isPrefix : scan.used <+: rest
  used : scan.used ≠ []
  kind : ∀ kind ∈ scan.kind, kind.isStructural = false

theorem reads_token {used rest : List Char} {kind : TokKind} (hpre : used <+: rest)
    (hne : used ≠ []) (hk : kind.isStructural = false) : (Scan.token used kind).Reads rest :=
  ⟨hpre, hne, by simpa [Scan.token] using hk⟩

theorem reads_error {used rest : List Char} {e : LexError} (hpre : used <+: rest)
    (hne : used ≠ []) : (Scan.error used e).Reads rest :=
  ⟨hpre, hne, by simp [Scan.error]⟩

theorem takeWhile_ne_nil {q : Char → Bool} {c : Char} (rest : List Char) (hq : q c = true) :
    (c :: rest).takeWhile q ≠ [] := by
  simp [hq]

theorem isFraction_eq {rest : List Char} (h : isFraction rest = true) :
    rest = '.' :: rest.tail := by
  unfold isFraction at h
  split at h
  · rfl
  · cases h

/-- The digits, the dot and the digits after it. -/
theorem fraction_isPrefix {rest : List Char} (h : isFraction (rest.dropWhile Char.isDigit) = true) :
    rest.takeWhile Char.isDigit ++
      '.' :: (rest.dropWhile Char.isDigit).tail.takeWhile Char.isDigit <+: rest := by
  conv_rhs => rw [← List.takeWhile_append_dropWhile (p := Char.isDigit) (l := rest),
    isFraction_eq h]
  exact (List.prefix_append_right_inj _).mpr
    (List.cons_prefix_cons.mpr ⟨rfl, List.takeWhile_prefix _⟩)

theorem lexNumber_reads (after : Bool) (start : ℕ) {c : Char} (rest : List Char)
    (hc : c.isDigit = true) : (lexNumber after start (c :: rest)).Reads (c :: rest) := by
  have hdigits := takeWhile_ne_nil rest hc
  unfold lexNumber
  split
  · exact reads_token (List.takeWhile_prefix _) (takeWhile_ne_nil rest (by simp [isHexDigit, hc])) rfl
  · dsimp only
    split
    next hfrac => exact reads_token (fraction_isPrefix hfrac) (by simp) rfl
    next =>
      split
      · exact reads_token (List.takeWhile_prefix _) hdigits rfl
      · exact reads_error (List.takeWhile_prefix _) hdigits

theorem lexIdentOrKw_reads {c : Char} (rest : List Char) (hc : isIdentStart c = true) :
    (lexIdentOrKw (c :: rest)).Reads (c :: rest) := by
  have hcont : isIdentContinue c = true := by
    unfold isIdentStart at hc
    unfold isIdentContinue
    rcases Bool.or_eq_true _ _ ▸ hc with h | h
    · simp [h]
    · simp [Char.isAlphanum, h]
  refine reads_token (List.takeWhile_prefix _) (takeWhile_ne_nil rest hcont) ?_
  cases hk : TokKind.keywordFrom (String.ofList ((c :: rest).takeWhile isIdentContinue)) with
  | none => rfl
  | some kind => exact TokKind.not_isStructural_of_keywordFrom hk

theorem punct_spec {c : Char} {next : Option Char} {kind : TokKind} {len : ℕ}
    (h : punct c next = some (kind, len)) : kind.isStructural = false ∧ 0 < len := by
  unfold punct at h
  split at h <;>
    first
    | (cases h; exact ⟨rfl, by decide⟩)
    | (split at h <;> cases h <;> exact ⟨rfl, by decide⟩)
    | cases h

theorem lexPunct_reads (start : ℕ) (c : Char) (rest : List Char) :
    (lexPunct start c rest).Reads (c :: rest) := by
  unfold lexPunct
  split
  next kind len hp =>
    obtain ⟨hk, hlen⟩ := punct_spec hp
    refine reads_token (List.take_prefix _ _) ?_ hk
    rw [Ne, List.take_eq_nil_iff]
    simp
    omega
  next => exact reads_error ⟨rest, rfl⟩ (by simp)

theorem consumeEscape_used (pos : ℕ) {e : Char} {q : Quoted} {rest : List Char}
    (h : q.used <+: rest) : (consumeEscape pos e q).used <+: '\\' :: e :: rest := by
  unfold consumeEscape
  split
  · exact List.cons_prefix_cons.mpr ⟨rfl, List.cons_prefix_cons.mpr ⟨rfl, h⟩⟩
  · dsimp only
    split
    · exact List.cons_prefix_cons.mpr ⟨rfl, List.cons_prefix_cons.mpr ⟨rfl, h⟩⟩
    · exact ⟨rest, rfl⟩

theorem lexSingleString_used (start pos : ℕ) (rest : List Char) :
    (lexSingleString start pos rest).used <+: rest := by
  fun_induction lexSingleString start pos rest with
  | case1 => exact List.nil_prefix
  | case2 pos rest => exact ⟨rest, rfl⟩
  | case3 => exact List.nil_prefix
  | case4 => exact List.prefix_rfl
  | case5 pos e rest _ _ ih => exact consumeEscape_used _ ih
  | case6 pos c rest _ _ _ ih => exact List.cons_prefix_cons.mpr ⟨rfl, ih⟩

theorem lexTripleString_used (start pos : ℕ) (rest : List Char) :
    (lexTripleString start pos rest).used <+: rest := by
  fun_induction lexTripleString start pos rest with
  | case1 => exact List.nil_prefix
  | case2 pos c rest hq => exact hq
  | case3 => exact List.prefix_rfl
  | case4 pos e rest _ ih => exact consumeEscape_used _ ih
  | case5 pos c rest _ _ ih => exact List.cons_prefix_cons.mpr ⟨rfl, ih⟩

theorem Quoted.scan_reads {q : Quoted} {opening rest : List Char} (hne : opening ≠ [])
    (h : q.used <+: rest) : (q.scan opening).Reads (opening ++ rest) where
  isPrefix := (List.prefix_append_right_inj _).mpr h
  used := by simp [Quoted.scan, hne]
  kind kind hk := by
    obtain ⟨contents, -, rfl⟩ := Option.map_eq_some_iff.mp hk
    rfl

theorem lexString_reads (start : ℕ) (rest : List Char) :
    (lexString start ('"' :: rest)).Reads ('"' :: rest) := by
  unfold lexString
  split
  next hq =>
    obtain ⟨rest', h⟩ := hq
    rw [← h]
    exact Quoted.scan_reads (by simp [tripleQuotes])
      (by simpa [tripleQuotes] using lexTripleString_used start (start + 3) rest')
  next => exact Quoted.scan_reads (by simp) (lexSingleString_used start (start + 1) rest)

theorem Lexer.scan_reads (lx : Lexer) (c : Char) (rest : List Char) :
    (lx.scan c rest).Reads (c :: rest) := by
  unfold Lexer.scan
  split
  next hdigit => exact lexNumber_reads _ _ rest hdigit
  next =>
    split
    next hquote =>
      rw [hquote]
      exact lexString_reads _ rest
    next =>
      split
      next hident => exact lexIdentOrKw_reads rest hident
      next => exact lexPunct_reads _ c rest

/-! ## The invariant -/

namespace Lexer

/-- The tokens stand one after another before the position, and leave open the indentations of the
stack. -/
structure Sound (source : List Char) (lx : Lexer) : Prop where
  whole : lx.done.reverse ++ lx.rest = source
  spans : Spans 0 lx.pos lx.tokens
  nested : nest 0 (lx.tokens.map Token.kind) = some (lx.indentStack.length - 1)
  bottom : lx.indentStack.getLast? = some 0
  open_ : ∀ t ∈ lx.tokens, t.kind ≠ .eof

variable {source : List Char} {lx : Lexer}

/-- More is read, and no token is emitted. -/
theorem Sound.read {used rest : List Char} (h : Sound source lx) (hrest : used ++ rest = lx.rest) :
    Sound source (lx.read used rest) where
  whole := by
    rw [← h.whole, ← hrest]
    simp [Lexer.read]
  spans := h.spans.mono (by simp [pos, Lexer.read])
  nested := h.nested
  bottom := h.bottom
  open_ := h.open_

theorem Sound.advance (h : Sound source lx) (n : ℕ) : Sound source (lx.advance n) :=
  h.read (List.take_append_drop n lx.rest)

theorem Sound.skipWhile (h : Sound source lx) (q : Char → Bool) : Sound source (lx.skipWhile q) :=
  h.read List.takeWhile_append_dropWhile

/-- A token is emitted that stands before the position and changes no indentation. -/
theorem Sound.emit {lx : Lexer} (h : Sound source lx) (n : ℕ) (kind : TokKind)
    (hspans : Spans 0 n lx.tokens) (hn : n ≤ lx.pos) (hlt : kind.isStructural = false → n < lx.pos)
    (hi : kind ≠ .indent) (hd : kind ≠ .dedent) (he : kind ≠ .eof) :
    Sound source (lx.emitStructural kind ⟨n, lx.pos⟩) where
  whole := h.whole
  spans := hspans.append (.single hn hlt) (Nat.zero_le n) hn
  nested := by
    simp only [emitStructural, List.map_append, List.map_cons, List.map_nil]
    rw [nest_append h.nested, nest_single hi hd]
  bottom := h.bottom
  open_ t ht := by
    rcases List.mem_append.mp ht with ht | ht
    · exact h.open_ t ht
    · rw [List.mem_singleton.mp ht]
      exact he

/-- The invariant is about the text read, the tokens and the stack. -/
theorem Sound.congr {lx lx' : Lexer} (h : Sound source lx) (hdone : lx'.done = lx.done)
    (hrest : lx'.rest = lx.rest) (htokens : lx'.tokens = lx.tokens)
    (hstack : lx'.indentStack = lx.indentStack) : Sound source lx' where
  whole := by rw [hdone, hrest, h.whole]
  spans := by rw [htokens, pos, hdone]; exact h.spans
  nested := by rw [htokens, hstack]; exact h.nested
  bottom := by rw [hstack]; exact h.bottom
  open_ := by rw [htokens]; exact h.open_

theorem Sound.accept {scan : Scan} (h : Sound source lx) (hscan : scan.Reads lx.rest) :
    Sound source (lx.accept scan) := by
  obtain ⟨rest, hrest⟩ := hscan.isPrefix
  have hread := h.read hrest
  have hdrop : lx.rest.drop scan.used.length = rest := by rw [← hrest, List.drop_left]
  have hlen : 0 < size scan.used := by
    obtain ⟨c, l, hc⟩ := List.exists_cons_of_ne_nil hscan.used
    rw [hc, size_cons]
    have := Char.utf8Size_pos c
    omega
  cases hk : scan.kind with
  | none =>
    refine hread.congr rfl hdrop ?_ rfl
    simp [Lexer.accept, Lexer.read, hk]
  | some kind =>
    have hstruct := hscan.kind kind hk
    have hpos : (lx.read scan.used rest).pos = lx.pos + size scan.used := by
      rw [pos, Lexer.read, size_append, size_reverse, Nat.add_comm, pos]
    refine (hread.emit lx.pos kind h.spans ?_ ?_ ?_ ?_ ?_).congr rfl hdrop ?_ rfl
    · omega
    · intro _
      omega
    · rintro rfl; cases hstruct
    · rintro rfl; cases hstruct
    · rintro rfl; cases hstruct
    · simp only [Lexer.accept, hk, emitStructural, Option.map_some, Option.toList_some]
      rw [show lx.pos + size scan.used = _ from hpos.symm]
      rfl

theorem size_le_pos_of_skip (lx : Lexer) (q : Char → Bool) : lx.pos ≤ (lx.skipWhile q).pos := by
  simp [pos, Lexer.skipWhile, Lexer.read]

/-- The widths that a line closes lie above the bottom of the stack. -/
theorem getLast?_dropWhile (indent : ℕ) {stack : List ℕ} (h : stack.getLast? = some 0) :
    (stack.dropWhile (indent < ·)).getLast? = some 0 := by
  obtain ⟨front, rfl⟩ := List.getLast?_eq_some_iff.mp h
  induction front with
  | nil => simp
  | cons w front ih =>
    rw [List.cons_append, List.dropWhile_cons]
    split
    · exact ih (by simp)
    · simp [List.getLast?_cons]

theorem Sound.indentTo {start indent : ℕ} (h : Sound source lx) (hspans : Spans 0 start lx.tokens)
    (hstart : start ≤ lx.pos) : Sound source (lx.indentTo start indent) := by
  have hpos : 0 < lx.indentStack.length := by
    rw [List.length_pos_iff]
    intro hnil
    have hbottom := h.bottom
    rw [hnil] at hbottom
    cases hbottom
  unfold Lexer.indentTo
  dsimp only
  split
  next => -- the line opens an indentation
    refine ⟨h.whole, ?_, ?_, ?_, ?_⟩
    · exact hspans.append (.single hstart (by simp [TokKind.isStructural])) (Nat.zero_le _) hstart
    · simp only [List.map_append, List.map_cons, List.map_nil]
      rw [nest_append h.nested, nest_indent]
      simp
      omega
    · rw [List.getLast?_cons, h.bottom]
      rfl
    · intro t ht
      rcases List.mem_append.mp ht with ht | ht
      · exact h.open_ t ht
      · rw [List.mem_singleton.mp ht]
        simp
  next =>
    split
    next => -- the line closes those that are wider
      have hleft := getLast?_dropWhile indent h.bottom
      have hleft_pos : 0 < (lx.indentStack.dropWhile (indent < ·)).length := by
        rw [List.length_pos_iff]
        intro hnil
        rw [hnil] at hleft
        cases hleft
      have hlen := congrArg List.length
        (List.takeWhile_append_dropWhile (p := (indent < ·)) (l := lx.indentStack))
      rw [List.length_append] at hlen
      refine ⟨h.whole, ?_, ?_, hleft, ?_⟩
      · exact h.spans.append (.replicate rfl _) (Nat.zero_le _) (Nat.le_refl _)
      · simp only [List.map_append, List.map_replicate]
        rw [nest_append h.nested, ← nest_replicate_dedent _
          (lx.indentStack.takeWhile (indent < ·)).length]
        congr 1
        omega
      · intro t ht
        rcases List.mem_append.mp ht with ht | ht
        · exact h.open_ t ht
        · rw [List.eq_of_mem_replicate ht]
          simp
    next => exact h

theorem Sound.processLineStart (h : Sound source lx) : Sound source lx.processLineStart := by
  have hcr := h.skipWhile (· == '\r')
  have hws := hcr.skipWhile isSpaceOrTab
  have hle := size_le_pos_of_skip (lx.skipWhile (· == '\r')) isSpaceOrTab
  unfold Lexer.processLineStart
  dsimp only
  split
  · exact hws
  · split
    · exact Sound.indentTo (hws.congr rfl rfl rfl rfl) hcr.spans hle
    · exact Sound.indentTo hws hcr.spans hle

theorem Sound.endLine (h : Sound source lx) : Sound source lx.endLine := by
  have hadv := h.advance 1
  unfold Lexer.endLine
  dsimp only
  split
  · split
    · have hle : lx.pos ≤ (lx.advance 1).pos := by simp [pos, Lexer.advance, Lexer.read]
      have hemit := hadv.emit lx.pos .newline h.spans hle
        (by simp [TokKind.isStructural]) (by simp) (by simp) (by simp)
      exact Sound.processLineStart (hemit.congr rfl rfl rfl rfl)
    · exact hadv.processLineStart
  · exact hadv

/-- **One iteration keeps the invariant.** -/
theorem Sound.step {lx' : Lexer} (h : Sound source lx) (hs : lx.step = some lx') :
    Sound source lx' := by
  obtain ⟨-, c, rest, hrest, hcase⟩ := step_cases hs
  rcases hcase with ⟨-, rfl⟩ | ⟨-, rfl⟩ | ⟨-, rfl⟩ | ⟨-, rfl⟩
  · exact h.advance 1
  · exact h.endLine
  · exact h.skipWhile _
  · exact h.accept (by rw [hrest]; exact scan_reads lx c rest)

/-! ## Whole runs -/

theorem Sound.new (source : String) : Sound source.toList (Lexer.new source) where
  whole := by simp [Lexer.new]
  spans := .nil _ _
  nested := rfl
  bottom := rfl
  open_ := by simp [Lexer.new]

theorem Sound.start (source : String) : Sound source.toList (Lexer.start source) := by
  have hnew := Sound.new source
  unfold Lexer.start
  dsimp only
  split
  · exact (hnew.advance 1).processLineStart
  · exact hnew.processLineStart

theorem Sound.run (source : String) : Sound source.toList (Lexer.run source) :=
  Loop.exhaust_inv (I := Sound source.toList) (fun _ _ h hs => h.step hs) (Sound.start source)

theorem rest_skipWhile_le (lx : Lexer) (q : Char → Bool) :
    (lx.skipWhile q).rest.length ≤ lx.rest.length :=
  (List.dropWhile_suffix q).length_le

@[simp] theorem rest_indentTo (lx : Lexer) (start indent : ℕ) :
    (lx.indentTo start indent).rest = lx.rest := by
  unfold indentTo
  dsimp only
  split
  · rfl
  · split <;> rfl

theorem rest_processLineStart_le (lx : Lexer) :
    lx.processLineStart.rest.length ≤ lx.rest.length := by
  have hcr := rest_skipWhile_le lx (· == '\r')
  have hws := rest_skipWhile_le (lx.skipWhile (· == '\r')) isSpaceOrTab
  unfold processLineStart
  dsimp only
  split
  · omega
  · rw [rest_indentTo]
    split <;> exact hws.trans hcr

theorem rest_accept_lt {scan : Scan} (h : scan.Reads lx.rest) :
    (lx.accept scan).rest.length < lx.rest.length := by
  have hle := h.isPrefix.length_le
  have hpos := List.length_pos_iff.mpr h.used
  simp only [Lexer.accept, List.length_drop]
  omega

/-- Every iteration reads on. -/
theorem rest_step_lt {lx lx' : Lexer} (hs : lx.step = some lx') :
    lx'.rest.length < lx.rest.length := by
  obtain ⟨-, c, rest, hrest, hcase⟩ := step_cases hs
  have hadv : (lx.advance 1).rest.length < lx.rest.length := by simp [Lexer.advance, Lexer.read, hrest]
  rcases hcase with ⟨-, rfl⟩ | ⟨-, rfl⟩ | ⟨rfl, rfl⟩ | ⟨-, rfl⟩
  · exact hadv
  · refine Nat.lt_of_le_of_lt ?_ hadv
    unfold Lexer.endLine
    dsimp only
    split
    · split
      · exact rest_processLineStart_le _
      · exact rest_processLineStart_le _
    · exact Nat.le_refl _
  · -- the comment has at least its hash
    have := (List.dropWhile_suffix (l := rest) (· != '\n')).length_le
    simp only [Lexer.skipWhile, Lexer.read, hrest]
    simp
    omega
  · exact rest_accept_lt (by rw [hrest]; exact scan_reads lx c rest)

theorem step_run (source : String) : (Lexer.run source).step = none :=
  Loop.exhaust_done (fun _ _ hs => rest_step_lt hs) _

/-- There is nothing to read on at the end of the source only, unless the lexer panics. -/
theorem rest_of_step_none {lx : Lexer} (h : lx.step = none) (hp : lx.panicked = false) :
    lx.rest = [] := by
  unfold Lexer.step at h
  rw [hp] at h
  split at h
  · contradiction
  · split at h
    · assumption
    · cases h

end Lexer

/-- The tokens of a source of `n` bytes: one `Eof` at the end, no prefix with more dedents than
indents and equally many of both in all, and spans one after another inside the source. -/
structure WellFormed (n : ℕ) (tokens : List Token) : Prop where
  eof : ∃ front span, tokens = front ++ [⟨.eof, span⟩] ∧ ∀ t ∈ front, t.kind ≠ .eof
  nested : ∀ first, first <+: tokens.map Token.kind → first.count .dedent ≤ first.count .indent
  balanced : (tokens.map Token.kind).count .indent = (tokens.map Token.kind).count .dedent
  spans : Spans 0 n tokens

theorem Lexer.Sound.finish {source : List Char} {lx : Lexer} (h : lx.Sound source)
    (hrest : lx.rest = []) : WellFormed (size source) lx.finish := by
  have hwhole : lx.pos = size source := by
    have := h.whole
    rw [hrest, List.append_nil] at this
    rw [← this, size_reverse]
    rfl
  rw [← hwhole]
  let line := if lx.hadContentOnLine then [(⟨.newline, ⟨lx.pos, lx.pos⟩⟩ : Token)] else []
  let dedents := List.replicate (lx.indentStack.length - 1) (⟨.dedent, ⟨lx.pos, lx.pos⟩⟩ : Token)
  have hline_spans : Spans lx.pos lx.pos line := by
    simp only [line]
    split
    · exact .single (Nat.le_refl _) (by simp [TokKind.isStructural])
    · exact .nil _ _
  have hline_nest : ∀ d, nest d (line.map Token.kind) = some d := by
    intro d
    simp only [line]
    split
    · exact nest_single (by simp) (by simp) d
    · rfl
  have hclosed : nest 0 (lx.finish.map Token.kind) = some 0 := by
    simp only [Lexer.finish, List.map_append, List.append_assoc]
    rw [nest_append h.nested, nest_append (hline_nest _)]
    rw [nest_append (e := 0) (by
      rw [List.map_replicate]
      simpa using nest_replicate_dedent 0 (lx.indentStack.length - 1))]
    exact nest_single (by simp) (by simp) 0
  have hle := Nat.le_refl lx.pos
  refine ⟨⟨lx.tokens ++ line ++ dedents, ⟨lx.pos, lx.pos⟩, rfl, ?_⟩, fun first hfirst =>
    count_prefix_of_nest hclosed hfirst, ?_, ?_⟩
  · intro t ht
    simp only [List.mem_append] at ht
    rcases ht with (ht | ht) | ht
    · exact h.open_ t ht
    · simp only [line] at ht
      split at ht
      · rw [List.mem_singleton.mp ht]
        simp
      · cases ht
    · rw [List.eq_of_mem_replicate ht]
      simp
  · have := count_of_nest hclosed
    omega
  · exact ((h.spans.append hline_spans (Nat.zero_le _) hle).append (.replicate rfl _)
      (Nat.zero_le _) hle).append (.single hle (by simp [TokKind.isStructural])) (Nat.zero_le _) hle

/-- Where the source lexes, the run read it to its end. -/
theorem lex_eq_ok {source : String} {tokens : List Token} (h : lex source = some (.ok tokens)) :
    (Lexer.run source).rest = [] ∧ (Lexer.run source).errors = [] ∧
      (Lexer.run source).panicked = false ∧ tokens = (Lexer.run source).finish := by
  unfold lex at h
  dsimp only at h
  split at h
  · cases h
  · rename_i hp
    have hp : (Lexer.run source).panicked = false := by simpa using hp
    split at h
    · rename_i he
      simp only [Option.some.injEq, Except.ok.injEq] at h
      exact ⟨Lexer.rest_of_step_none (Lexer.step_run source) hp, he, hp, h.symm⟩
    · simp at h

theorem wellFormed_of_lex {source : String} {tokens : List Token}
    (h : lex source = some (.ok tokens)) : WellFormed (size source.toList) tokens := by
  obtain ⟨hrest, -, -, rfl⟩ := lex_eq_ok h
  exact (Lexer.Sound.run source).finish hrest

end Corvid.Syntax
