import Corvid.Syntax.Cursor

/-!
# Character boundaries

The lexer comes to the end of any source whose escapes are ASCII characters, and all spans end on
character boundaries. An escape of more than one byte leaves the cursor inside of its character, and
the next slice panics.

## Main definitions

* `Total`: the lexer comes to its end, and all spans end on boundaries
* `asciiEscapes`: the escapes in the strings of a source are ASCII characters

## Main results

* `Lexer.Marked.run`: the spans of a run without a panic end on boundaries
* `asciiEscapes_run`: a run panics just when an escape is no ASCII character
* `total_iff`: the lexer is total on the sources whose escapes are ASCII characters
-/

namespace Corvid.Syntax

open Utf8 (Ahead)

/-! ## Spans -/

/-- Both ends of a span are character boundaries. -/
def Span.OnBoundaries (src : List Char) (span : Span) : Prop :=
  (Utf8.cut span.start src).isSome ∧ (Utf8.cut span.stop src).isSome

section Spans

variable {src rest : List Char} {start pos : ℕ}

theorem onBoundaries_ahead {rest' : List Char} (h : Ahead src start rest) (h' : Ahead src pos rest') :
    Span.OnBoundaries src ⟨start, pos⟩ := by
  obtain ⟨before, hcut⟩ := h.cut
  obtain ⟨before', hcut'⟩ := h'.cut
  exact ⟨by rw [hcut]; rfl, by rw [hcut']; rfl⟩

/-- The errors of a scan end on boundaries. -/
def Scan.Marked (src : List Char) (scan : Scan) : Prop :=
  ∀ e ∈ scan.errors, e.span.OnBoundaries src

theorem marked_token (used : List Char) (kind : TokKind) : (Scan.token used kind).Marked src :=
  fun _ he => absurd he List.not_mem_nil

theorem marked_error {used after : List Char} {kind : LexErrorKind} (h : Ahead src start (used ++ after)) :
    (Scan.error used ⟨kind, ⟨start, start + size used⟩⟩).Marked src := by
  intro e he
  obtain rfl := List.mem_singleton.mp he
  exact onBoundaries_ahead h h.append

theorem lexNumber_marked (after : Bool) (h : Ahead src start rest) :
    (lexNumber after start rest).Marked src := by
  unfold lexNumber
  split
  · exact marked_token _ _
  · dsimp only
    split
    · exact marked_token _ _
    · split
      · exact marked_token _ _
      · rw [← List.takeWhile_append_dropWhile (p := Char.isDigit) (l := rest)] at h
        exact marked_error h

theorem lexPunct_marked {c : Char} (h : Ahead src start (c :: rest)) :
    (lexPunct start c rest).Marked src := by
  unfold lexPunct
  split
  · exact marked_token _ _
  · intro e he
    obtain rfl := List.mem_singleton.mp he
    exact onBoundaries_ahead h h.cons

/-- An escape that does not panic is an ASCII character, and its error ends after it. -/
theorem consumeEscape_marked {e : Char} {q : Quoted} (h : Ahead src pos ('\\' :: e :: rest))
    (hp : (consumeEscape pos e q).panicked = false)
    (hq : ∀ x ∈ q.errors, x.span.OnBoundaries src) :
    ∀ x ∈ (consumeEscape pos e q).errors, x.span.OnBoundaries src := by
  unfold consumeEscape at hp ⊢
  split at hp
  next => exact hq
  next =>
    dsimp only at hp ⊢
    split at hp
    next hone =>
      rw [if_pos hone]
      refine List.forall_mem_cons.mpr ⟨?_, hq⟩
      have hesc : Ahead src (pos + 1) (e :: rest) := h.cons
      have hafter := hesc.cons
      rw [hone] at hafter
      exact onBoundaries_ahead h hafter
    next => cases hp

theorem not_panicked_of_consumeEscape {e : Char} {q : Quoted}
    (hp : (consumeEscape pos e q).panicked = false) : e.utf8Size = 1 ∧ q.panicked = false := by
  unfold consumeEscape at hp
  cases hu : unescape e with
  | some c =>
    rw [hu] at hp
    refine ⟨Utf8.utf8Size_eq_one_iff.mpr ?_, hp⟩
    by_contra he
    rw [ByteLexer.unescape_eq_none (Nat.not_lt.mp he)] at hu
    cases hu
  | none =>
    rw [hu] at hp
    dsimp only at hp
    split at hp
    next hone => exact ⟨hone, hp⟩
    next => cases hp

theorem lexSingleString_marked (hstart : ∃ l, Ahead src start l) (h : Ahead src pos rest)
    (hp : (lexSingleString start pos rest).panicked = false) :
    ∀ x ∈ (lexSingleString start pos rest).errors, x.span.OnBoundaries src := by
  obtain ⟨before, hstart⟩ := hstart
  have hstop : ∀ {pos' : ℕ} {l used : List Char}, Ahead src pos' l →
      ∀ x ∈ (Quoted.stop used ⟨.unterminatedString, ⟨start, pos'⟩⟩).errors,
        x.span.OnBoundaries src := by
    intro pos' l used hl x hx
    obtain rfl := List.mem_singleton.mp hx
    exact onBoundaries_ahead hstart hl
  fun_induction lexSingleString start pos rest with
  | case1 => exact hstop h
  | case2 => exact fun _ hx => absurd hx List.not_mem_nil
  | case3 => exact hstop h
  | case4 =>
    intro x hx
    obtain rfl := List.mem_singleton.mp hx
    exact onBoundaries_ahead h h.cons
  | case5 pos e rest _ _ ih =>
    obtain ⟨hone, hq⟩ := not_panicked_of_consumeEscape hp
    have hesc : Ahead src (pos + 1) (e :: rest) := h.cons
    have hafter := hesc.cons
    rw [hone] at hafter
    exact consumeEscape_marked h hp (ih hafter hq)
  | case6 pos c rest _ _ _ ih => exact ih h.cons hp

theorem lexTripleString_marked (hstart : ∃ l, Ahead src start l) (h : Ahead src pos rest)
    (hp : (lexTripleString start pos rest).panicked = false) :
    ∀ x ∈ (lexTripleString start pos rest).errors, x.span.OnBoundaries src := by
  obtain ⟨before, hstart⟩ := hstart
  fun_induction lexTripleString start pos rest with
  | case1 =>
    intro x hx
    obtain rfl := List.mem_singleton.mp hx
    exact onBoundaries_ahead hstart h
  | case2 => exact fun _ hx => absurd hx List.not_mem_nil
  | case3 =>
    intro x hx
    obtain rfl := List.mem_singleton.mp hx
    exact onBoundaries_ahead h h.cons
  | case4 pos e rest _ ih =>
    obtain ⟨hone, hq⟩ := not_panicked_of_consumeEscape hp
    have hesc : Ahead src (pos + 1) (e :: rest) := h.cons
    have hafter := hesc.cons
    rw [hone] at hafter
    exact consumeEscape_marked h hp (ih hafter hq)
  | case5 pos c rest _ _ ih => exact ih h.cons hp

theorem lexString_marked (h : Ahead src start ('"' :: rest))
    (hp : (lexString start ('"' :: rest)).panicked = false) :
    (lexString start ('"' :: rest)).Marked src := by
  unfold lexString at hp ⊢
  split
  next hquotes =>
    rw [if_pos hquotes] at hp
    obtain ⟨after, hafter⟩ := hquotes
    have htail : Ahead src (start + 3) (('"' :: rest).drop 3) := by
      rw [← hafter] at h ⊢
      exact h.append
    exact lexTripleString_marked ⟨_, h⟩ htail hp
  next hquotes =>
    rw [if_neg hquotes] at hp
    exact lexSingleString_marked ⟨_, h⟩ h.cons hp

theorem Lexer.scan_marked {lx : Lexer} {c : Char} (h : Ahead src lx.pos (c :: rest))
    (hp : (lx.scan c rest).panicked = false) : (lx.scan c rest).Marked src := by
  unfold Lexer.scan at hp ⊢
  split
  next => exact lexNumber_marked _ h
  next hdigit =>
    rw [if_neg hdigit] at hp
    split
    next hquote =>
      rw [if_pos hquote] at hp
      subst hquote
      exact lexString_marked h hp
    next =>
      split
      next => exact marked_token _ _
      next => exact lexPunct_marked h

end Spans

/-! ## Runs -/

namespace Lexer

variable {src : List Char} {lx lx' : Lexer}

/-- The spans end on boundaries. -/
structure Marked (src : List Char) (lx : Lexer) : Prop where
  tokens : ∀ t ∈ lx.tokens, t.span.OnBoundaries src
  errors : ∀ e ∈ lx.errors, e.span.OnBoundaries src

theorem Marked.token {t : Token} (h : lx.Marked src) (ht : t.span.OnBoundaries src) :
    ∀ x ∈ lx.tokens ++ [t], x.span.OnBoundaries src := by
  intro x hx
  rcases List.mem_append.mp hx with hx | hx
  · exact h.tokens x hx
  · rw [List.mem_singleton.mp hx]
    exact ht

theorem Marked.error {e : LexError} (h : lx.Marked src) (he : e.span.OnBoundaries src) :
    ∀ x ∈ lx.errors ++ [e], x.span.OnBoundaries src := by
  intro x hx
  rcases List.mem_append.mp hx with hx | hx
  · exact h.errors x hx
  · rw [List.mem_singleton.mp hx]
    exact he

theorem Marked.indentTo {start indent : ℕ} {l : List Char} (h : lx.Marked src)
    (hstart : Ahead src start l) (hpos : Ahead src lx.pos lx.rest) :
    (lx.indentTo start indent).Marked src := by
  have hspan := onBoundaries_ahead hstart hpos
  unfold Lexer.indentTo
  dsimp only
  split
  next => exact ⟨h.token hspan, h.errors⟩
  next =>
    split
    next =>
      refine ⟨fun t ht => ?_, ?_⟩
      · rcases List.mem_append.mp ht with ht | ht
        · exact h.tokens t ht
        · rw [List.eq_of_mem_replicate ht]
          exact onBoundaries_ahead hpos hpos
      · dsimp only
        split
        · rw [List.append_nil]
          exact h.errors
        · exact h.error hspan
    next => exact h

theorem Marked.processLineStart (h : lx.Marked src) (hpos : Ahead src lx.pos lx.rest) :
    lx.processLineStart.Marked src := by
  have hcr := skipWhile_ahead hpos (· == '\r')
  have hws := skipWhile_ahead hcr isSpaceOrTab
  unfold Lexer.processLineStart
  dsimp only
  split
  · exact ⟨h.tokens, h.errors⟩
  · split
    · exact Marked.indentTo ⟨h.tokens, h.error (onBoundaries_ahead hcr hws)⟩ hcr hws
    · exact Marked.indentTo ⟨h.tokens, h.errors⟩ hcr hws

theorem Marked.endLine (h : lx.Marked src) (hpos : Ahead src lx.pos lx.rest) :
    lx.endLine.Marked src := by
  have hadv := advance_ahead hpos
  unfold Lexer.endLine
  dsimp only
  split
  · split
    · let ended := (lx.advance 1).emitStructural .newline ⟨lx.pos, (lx.advance 1).pos⟩
      have hended : Lexer.Marked src { ended with hadContentOnLine := false } :=
        ⟨h.token (onBoundaries_ahead hpos hadv), h.errors⟩
      exact hended.processLineStart hadv
    · exact Marked.processLineStart ⟨h.tokens, h.errors⟩ hadv
  · exact ⟨h.tokens, h.errors⟩

theorem Marked.accept {scan : Scan} (h : lx.Marked src) (hpos : Ahead src lx.pos lx.rest)
    (hreads : scan.Reads lx.rest) (hscan : scan.Marked src) : (lx.accept scan).Marked src := by
  obtain ⟨after, hafter⟩ := hreads.isPrefix
  have hspan : Span.OnBoundaries src ⟨lx.pos, lx.pos + size scan.used⟩ := by
    rw [← hafter] at hpos
    exact onBoundaries_ahead hpos hpos.append
  refine ⟨fun t ht => ?_, fun e he => ?_⟩
  · rcases List.mem_append.mp ht with ht | ht
    · exact h.tokens t ht
    · obtain ⟨kind, -, rfl⟩ := Option.map_eq_some_iff.mp (Option.mem_toList.mp ht)
      exact hspan
  · rcases List.mem_append.mp he with he | he
    · exact h.errors e he
    · exact hscan e he

/-- **One iteration without a panic keeps the spans on boundaries.** -/
theorem Marked.step (h : lx.Marked src) (hsound : lx.Sound src) (hs : lx.step = some lx')
    (hp : lx'.panicked = false) : lx'.Marked src := by
  obtain ⟨-, c, rest, hrest, hcase⟩ := step_cases hs
  have hpos := hsound.ahead
  rcases hcase with ⟨-, rfl⟩ | ⟨-, rfl⟩ | ⟨-, rfl⟩ | ⟨-, rfl⟩
  · exact ⟨h.tokens, h.errors⟩
  · exact h.endLine hpos
  · exact ⟨h.tokens, h.errors⟩
  · refine h.accept hpos (by rw [hrest]; exact scan_reads lx c rest) ?_
    exact scan_marked (hrest ▸ hpos) hp

theorem Marked.start (source : String) : (Lexer.start source).Marked source.toList := by
  have hnew : (Lexer.new source).Marked source.toList :=
    ⟨fun t ht => absurd ht List.not_mem_nil, fun e he => absurd he List.not_mem_nil⟩
  have hahead := (Sound.new source).ahead
  unfold Lexer.start
  dsimp only
  split
  · exact Marked.processLineStart ⟨hnew.tokens, hnew.errors⟩ (advance_ahead hahead)
  · exact hnew.processLineStart hahead

theorem Marked.run {source : String} (hp : (Lexer.run source).panicked = false) :
    (Lexer.run source).Marked source.toList := by
  have hinv : (Lexer.run source).Sound source.toList ∧
      ((Lexer.run source).panicked = false → (Lexer.run source).Marked source.toList) :=
    Loop.exhaust_inv (I := fun lx : Lexer => lx.Sound source.toList ∧
        (lx.panicked = false → lx.Marked source.toList))
      (fun lx lx' h hs => ⟨h.1.step hs, (h.2 (step_cases hs).1).step h.1 hs⟩)
      ⟨Sound.start source, fun _ => Marked.start source⟩
  exact hinv.2 hp

theorem Marked.finish (h : lx.Marked src) (hpos : Ahead src lx.pos lx.rest) :
    ∀ t ∈ lx.finish, t.span.OnBoundaries src := by
  have hclose := onBoundaries_ahead hpos hpos
  intro t ht
  simp only [Lexer.finish, List.mem_append, List.mem_replicate, List.mem_singleton] at ht
  rcases ht with ((ht | ht) | ⟨-, rfl⟩) | rfl
  · exact h.tokens t ht
  · split at ht
    · rw [List.mem_singleton.mp ht]
      exact hclose
    · cases ht
  · exact hclose
  · exact hclose

/-! ## Runs on bytes -/

theorem start_toBytes (source : String) :
    ByteLexer.start source.toList = (Lexer.start source).toBytes := by
  have hahead := (Sound.new source).ahead
  unfold ByteLexer.start Lexer.start
  dsimp only
  have hbom : _ ↔ (new source).rest.head? = some '\uFEFF' := Utf8.bom_prefix_iff source.toList
  split
  next h =>
    rw [if_pos (hbom.mp h), ← processLineStart_toBytes (advance_ahead hahead)]
    obtain ⟨rest, hrest⟩ := List.head?_eq_some_iff.mp (hbom.mp h)
    rw [advance_eq hrest, toBytes_read]
    rfl
  next h =>
    rw [if_neg (mt hbom.mpr h), ← processLineStart_toBytes hahead]
    rfl

theorem panicked_start (source : String) : (Lexer.start source).panicked = false := by
  unfold Lexer.start
  dsimp only
  split
  · exact panicked_processLineStart _
  · exact panicked_processLineStart _

/-- The run on bytes goes where the run on characters goes, up to a panic. -/
theorem steps_toBytes (source : String) {lx : Lexer} (h : Loop.Steps step (Lexer.start source) lx) :
    Loop.Steps (ByteLexer.iterate source.toList) (some (ByteLexer.start source.toList))
      lx.unpanicked ∧ lx.Sound source.toList := by
  induction h with
  | refl =>
    refine ⟨?_, Sound.start source⟩
    rw [start_toBytes, unpanicked, if_neg (by rw [panicked_start]; exact Bool.false_ne_true)]
    exact .refl
  | tail _ hs ih =>
    obtain ⟨hsteps, hsound⟩ := ih
    have hp := (step_cases hs).1
    refine ⟨hsteps.tail ?_, hsound.step hs⟩
    rw [unpanicked, if_neg (by rw [hp]; exact Bool.false_ne_true), iterate_toBytes hsound hp, hs]
    rfl

end Lexer

/-! ## Escapes -/

/-- What the text is at some place: outside of strings, in a comment, or in a string. -/
inductive Mode where
  | code | comment | single | triple
deriving DecidableEq, Repr

/-- The escapes in the strings of a text are ASCII characters. -/
@[simp] def asciiEscapes : Mode → List Char → Bool
  | .code, '"' :: '"' :: '"' :: rest => asciiEscapes .triple rest
  | .code, '"' :: rest => asciiEscapes .single rest
  | .code, '#' :: rest => asciiEscapes .comment rest
  | .comment, '\n' :: rest => asciiEscapes .code rest
  | .single, '\\' :: e :: rest => e.toNat < 128 && asciiEscapes .single rest
  | .single, '"' :: rest => asciiEscapes .code rest
  | .single, '\n' :: rest => asciiEscapes .code rest
  | .triple, '"' :: '"' :: '"' :: rest => asciiEscapes .code rest
  | .triple, '\\' :: e :: rest => e.toNat < 128 && asciiEscapes .triple rest
  | mode, _ :: rest => asciiEscapes mode rest
  | _, [] => true

theorem asciiEscapes_code {c : Char} {rest : List Char} (hq : c ≠ '"') (hh : c ≠ '#') :
    asciiEscapes .code (c :: rest) = asciiEscapes .code rest := by
  rw [asciiEscapes] <;> simp_all

theorem asciiEscapes_code_append {used : List Char} (hq : '"' ∉ used) (hh : '#' ∉ used) (rest : List Char) :
    asciiEscapes .code (used ++ rest) = asciiEscapes .code rest := by
  induction used with
  | nil => rfl
  | cons c used ih =>
    rw [List.mem_cons, not_or] at hq hh
    rw [List.cons_append, asciiEscapes_code (Ne.symm hq.1) (Ne.symm hh.1), ih hq.2 hh.2]

theorem asciiEscapes_comment (rest : List Char) :
    asciiEscapes .comment rest = asciiEscapes .code (rest.dropWhile (· != '\n')) := by
  induction rest with
  | nil => rfl
  | cons c rest ih =>
    by_cases hc : c = '\n'
    · subst hc
      rfl
    · rw [List.dropWhile_cons_of_pos (by simpa using hc), ← ih]
      rw [asciiEscapes] <;> simp_all

theorem consumeEscape_rest {pos : ℕ} {e : Char} {q : Quoted} {rest : List Char} (escapes : List Char → Bool) :
    (!(consumeEscape pos e q).panicked &&
        escapes (('\\' :: e :: rest).drop (consumeEscape pos e q).used.length)) =
      (decide (e.toNat < 128) && (!q.panicked && escapes (rest.drop q.used.length))) := by
  unfold consumeEscape
  cases hu : unescape e with
  | some c =>
    have he : e.toNat < 128 := by
      by_contra he
      rw [ByteLexer.unescape_eq_none (Nat.not_lt.mp he)] at hu
      cases hu
    simp [Quoted.push, he]
  | none =>
    dsimp only
    split
    next hone => simp [Quoted.push, Utf8.utf8Size_eq_one_iff.mp hone]
    next hone => simp [mt Utf8.utf8Size_eq_one_iff.mpr hone]

theorem asciiEscapes_single (start pos : ℕ) (l : List Char) :
    asciiEscapes .single l = (!(lexSingleString start pos l).panicked &&
      asciiEscapes .code (l.drop (lexSingleString start pos l).used.length)) := by
  fun_induction lexSingleString start pos l with
  | case1 => rfl
  | case2 => rfl
  | case3 => rfl
  | case4 => rfl
  | case5 pos e rest _ _ ih =>
    rw [consumeEscape_rest, ← ih]
    rfl
  | case6 pos c rest hquote hnl hslash ih =>
    rw [asciiEscapes, ih] <;> simp_all [Quoted.push]

theorem asciiEscapes_triple_cons {c : Char} {rest : List Char} (hquotes : ¬ tripleQuotes <+: c :: rest)
    (hslash : c ≠ '\\') : asciiEscapes .triple (c :: rest) = asciiEscapes .triple rest := by
  rw [asciiEscapes] <;> simp only [reduceCtorEq, false_imp_iff, implies_true, hslash]
  rintro after - rfl rfl
  exact hquotes ⟨after, rfl⟩

theorem asciiEscapes_triple (start pos : ℕ) (l : List Char) :
    asciiEscapes .triple l = (!(lexTripleString start pos l).panicked &&
      asciiEscapes .code (l.drop (lexTripleString start pos l).used.length)) := by
  fun_induction lexTripleString start pos l with
  | case1 => rfl
  | case2 pos c rest hquotes =>
    obtain ⟨after, hafter⟩ := hquotes
    rw [← hafter]
    rfl
  | case3 => rfl
  | case4 pos e rest _ ih =>
    rw [consumeEscape_rest, ← ih]
    rfl
  | case5 pos c rest hquotes hslash ih =>
    rw [asciiEscapes_triple_cons hquotes hslash, ih]
    rfl

theorem asciiEscapes_quote {rest : List Char} (h : ¬ tripleQuotes <+: '"' :: rest) :
    asciiEscapes .code ('"' :: rest) = asciiEscapes .single rest := by
  rw [asciiEscapes]
  rintro after rfl
  exact h ⟨after, rfl⟩

/-- A string is read up to its end, unless an escape panics. -/
theorem lexString_escapes (start : ℕ) (rest : List Char) :
    (!(lexString start ('"' :: rest)).panicked &&
        asciiEscapes .code (('"' :: rest).drop (lexString start ('"' :: rest)).used.length)) =
      asciiEscapes .code ('"' :: rest) := by
  unfold lexString
  split
  next hquotes =>
    obtain ⟨after, hafter⟩ := hquotes
    rw [← hafter]
    exact (asciiEscapes_triple start (start + 3) after).symm
  next hquotes =>
    rw [asciiEscapes_quote hquotes]
    exact (asciiEscapes_single start (start + 1) rest).symm

theorem lexNumber_notMem {d : Char} (hd : isHexDigit d = false) (hdot : d ≠ '.') (after : Bool)
    (start : ℕ) (l : List Char) : d ∉ (lexNumber after start l).used := by
  have hdigit : d.isDigit = false := by
    unfold isHexDigit at hd
    simp only [Bool.or_eq_false_iff] at hd
    exact hd.1.1
  have hdigits := notMem_takeWhile hdigit
  unfold lexNumber
  split
  · exact notMem_takeWhile hd l
  · dsimp only
    split
    · simp only [Scan.token, List.mem_append, List.mem_cons, not_or]
      exact ⟨hdigits l, hdot, hdigits _⟩
    · split
      · exact hdigits l
      · exact hdigits l

theorem lexNumber_panicked (after : Bool) (start : ℕ) (l : List Char) :
    (lexNumber after start l).panicked = false := by
  unfold lexNumber
  split
  · rfl
  · dsimp only
    split
    · rfl
    · split <;> rfl

theorem lexPunct_notMem {c d : Char} (hc : c ≠ d) (hgt : d ≠ '>') (heq : d ≠ '=') (start : ℕ)
    (l : List Char) : d ∉ (lexPunct start c l).used := by
  unfold lexPunct
  split
  next kind len hp =>
    rcases punct_len hp with rfl | ⟨rfl, e, he, hcase⟩
    · simpa [Scan.token] using hc.symm
    · obtain ⟨l, rfl⟩ := List.head?_eq_some_iff.mp he
      have hne : d ≠ e := by rcases hcase with rfl | rfl <;> assumption
      simp [Scan.token, hc.symm, hne]
  next => simpa [Scan.error] using hc.symm

theorem lexPunct_panicked (start : ℕ) (c : Char) (l : List Char) :
    (lexPunct start c l).panicked = false := by
  unfold lexPunct
  split <;> rfl

/-- What is read outside of strings has no quote and no hash. -/
theorem reads_escapes {scan : Scan} {rest : List Char} (hreads : scan.Reads rest)
    (hp : scan.panicked = false) (hquote : '"' ∉ scan.used) (hhash : '#' ∉ scan.used) :
    (!scan.panicked && asciiEscapes .code (rest.drop scan.used.length)) =
      asciiEscapes .code rest := by
  obtain ⟨after, rfl⟩ := hreads.isPrefix
  rw [List.drop_left, asciiEscapes_code_append hquote hhash, hp]
  rfl

namespace Lexer

theorem scan_escapes (lx : Lexer) {c : Char} (rest : List Char) (hc : BeginsToken c) :
    (!(lx.scan c rest).panicked &&
        asciiEscapes .code ((c :: rest).drop (lx.scan c rest).used.length)) =
      asciiEscapes .code (c :: rest) := by
  have hreads := scan_reads lx c rest
  unfold Lexer.scan at hreads ⊢
  split at hreads
  next hdigit =>
    rw [if_pos hdigit]
    exact reads_escapes hreads (lexNumber_panicked _ _ _)
      (lexNumber_notMem (by decide) (by decide) _ _ _) (lexNumber_notMem (by decide) (by decide) _ _ _)
  next hdigit =>
    rw [if_neg hdigit]
    split at hreads
    next hquote =>
      rw [if_pos hquote]
      subst hquote
      exact lexString_escapes _ rest
    next hquote =>
      rw [if_neg hquote]
      split at hreads
      next hident =>
        rw [if_pos hident]
        exact reads_escapes hreads rfl (notMem_takeWhile (by decide) _)
          (notMem_takeWhile (by decide) _)
      next hident =>
        rw [if_neg hident]
        exact reads_escapes hreads (lexPunct_panicked _ _ _)
          (lexPunct_notMem hquote (by decide) (by decide) _ _)
          (lexPunct_notMem hc.2.2 (by decide) (by decide) _ _)

theorem dropWhile_escapes {q : Char → Bool} (hquote : q '"' = false) (hhash : q '#' = false)
    (l : List Char) : asciiEscapes .code (l.dropWhile q) = asciiEscapes .code l := by
  conv_rhs => rw [← List.takeWhile_append_dropWhile (p := q) (l := l)]
  exact (asciiEscapes_code_append (notMem_takeWhile hquote l) (notMem_takeWhile hhash l) _).symm

theorem rest_processLineStart (lx : Lexer) :
    lx.processLineStart.rest = (lx.rest.dropWhile (· == '\r')).dropWhile isSpaceOrTab := by
  unfold processLineStart
  dsimp only
  split
  · rfl
  · rw [rest_indentTo]
    split <;> rfl

theorem processLineStart_escapes (lx : Lexer) :
    asciiEscapes .code lx.processLineStart.rest = asciiEscapes .code lx.rest := by
  rw [rest_processLineStart, dropWhile_escapes (by decide) (by decide),
    dropWhile_escapes (by decide) (by decide)]

theorem endLine_escapes (lx : Lexer) :
    asciiEscapes .code lx.endLine.rest = asciiEscapes .code (lx.advance 1).rest := by
  unfold endLine
  dsimp only
  split
  · split
    · exact processLineStart_escapes _
    · exact processLineStart_escapes _
  · rfl

/-- **One iteration panics just at an escape that is no ASCII character.** -/
theorem step_escapes {lx lx' : Lexer} (hs : lx.step = some lx') :
    (!lx'.panicked && asciiEscapes .code lx'.rest) = asciiEscapes .code lx.rest := by
  obtain ⟨hp, c, rest, hrest, hcase⟩ := step_cases hs
  have hadv : (lx.advance 1).rest = rest := by rw [advance_eq hrest, rest_read]
  rcases hcase with ⟨hc, rfl⟩ | ⟨rfl, rfl⟩ | ⟨rfl, rfl⟩ | ⟨hc, rfl⟩
  · have hquote : c ≠ '"' := by rcases hc with rfl | rfl | rfl <;> decide
    have hhash : c ≠ '#' := by rcases hc with rfl | rfl | rfl <;> decide
    rw [hadv, hrest, asciiEscapes_code hquote hhash]
    simp [advance, read, hp]
  · rw [endLine_escapes, panicked_endLine, hp, hadv, hrest, asciiEscapes_code (by decide) (by decide)]
    rfl
  · rw [skipWhile, rest_read, hrest]
    simp [read, hp, asciiEscapes, asciiEscapes_comment]
  · have hscan := scan_escapes lx rest hc
    rw [← hrest] at hscan
    exact hscan

theorem start_escapes (source : String) :
    asciiEscapes .code (Lexer.start source).rest = asciiEscapes .code source.toList := by
  have hrest : (new source).rest = source.toList := rfl
  unfold Lexer.start
  dsimp only
  split
  next hbom =>
    obtain ⟨rest, hrest'⟩ := List.head?_eq_some_iff.mp hbom
    rw [processLineStart_escapes, advance_eq hrest', rest_read, ← hrest, hrest',
      asciiEscapes_code (by decide) (by decide)]
  next => rw [processLineStart_escapes, hrest]

/-- **A run panics just when an escape is no ASCII character.** -/
theorem run_escapes (source : String) :
    asciiEscapes .code source.toList = !(Lexer.run source).panicked := by
  have hinv : (!(Lexer.run source).panicked && asciiEscapes .code (Lexer.run source).rest) =
      asciiEscapes .code source.toList := by
    refine Loop.exhaust_inv (I := fun lx : Lexer => (!lx.panicked && asciiEscapes .code lx.rest) =
      asciiEscapes .code source.toList) (fun lx lx' h hs => ?_) ?_
    · rw [(step_cases hs).1] at h
      rw [step_escapes hs]
      exact h
    · rw [panicked_start, start_escapes]
      rfl
  cases hp : (Lexer.run source).panicked with
  | true => rw [← hinv, hp]; rfl
  | false =>
    rw [← hinv, hp, rest_of_step_none (step_run source) hp]
    rfl

end Lexer

/-! ## Totality -/

/-- The lexer comes to the end of its loop without a panic, and the spans of its tokens and errors
end on boundaries. -/
def Total (source : String) : Prop :=
  ∃ lx : ByteLexer,
    Loop.Steps (ByteLexer.iterate source.toList) (some (ByteLexer.start source.toList)) (some lx) ∧
      ByteLexer.iterate source.toList (some lx) = none ∧
      (∀ t ∈ lx.finish, t.span.OnBoundaries source.toList) ∧
      ∀ e ∈ lx.errors, e.span.OnBoundaries source.toList

theorem iterate_unpanicked {src : List Char} {lx : Lexer} (h : lx.Sound src)
    (hstep : lx.step = none) : ByteLexer.iterate src lx.unpanicked = none := by
  unfold Lexer.unpanicked
  split
  next => rfl
  next hp => rw [Lexer.iterate_toBytes h (by simpa using hp), hstep]; rfl

theorem total_iff_not_panicked (source : String) :
    Total source ↔ (Lexer.run source).panicked = false := by
  have hsound := Lexer.Sound.run source
  have hsteps : Loop.Steps _ _ (Lexer.run source).unpanicked :=
    (Lexer.steps_toBytes source (Loop.steps_exhaust _)).1
  have hend := iterate_unpanicked hsound (Lexer.step_run source)
  constructor
  · rintro ⟨lx, hlx, hdone, -⟩
    have heq := Loop.eq_of_steps hlx hdone hsteps hend
    by_contra hp
    rw [Lexer.unpanicked, if_pos (by simpa using hp)] at heq
    cases heq
  · intro hp
    have hun : (Lexer.run source).unpanicked = some (Lexer.run source).toBytes :=
      if_neg (by rw [hp]; exact Bool.false_ne_true)
    have hmarked := Lexer.Marked.run hp
    exact ⟨(Lexer.run source).toBytes, hun ▸ hsteps, hun ▸ hend, hmarked.finish hsound.ahead,
      hmarked.errors⟩

/-- **The lexer is total on the sources whose escapes are ASCII characters, and on no other.** -/
theorem total_iff (source : String) :
    Total source ↔ asciiEscapes .code source.toList = true := by
  rw [total_iff_not_panicked, Lexer.run_escapes, Bool.not_eq_true']

theorem not_total_escape : ¬ Total "\"\\é\"" := by
  rw [total_iff_not_panicked]
  decide

end Corvid.Syntax
