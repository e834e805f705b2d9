import Corvid.Syntax.LineEnds
import Mathlib.Logic.Function.Basic

/-!
# The lexer on relaid text

The run on a relaid source goes along with the run on the source: each iteration on the source is
simulated by iterations on the relaid source, the further ones over carriage returns and lines
without content.

## Main definitions

* `Replaces`: a class of replacements of line ends
* `Lexer.Alike`: the relation between the two runs
* `Lexer.Extends`: errors and tokens are only added

## Main results

* `steps_lines`, `steps_lines_in_brackets`: lines without content are read without a trace
* `Alike.step`: one iteration is simulated
-/

namespace Corvid.Syntax

/-- A class of replacements of line ends, from which a carriage return can be left out. -/
structure Replaces (P : (ℕ → List Char) → Prop) : Prop where
  ends : ∀ f, P f → ∀ p, EndsLine (f p)
  dropCr : ∀ f, P f → ∀ p e, f p = '\r' :: e → P (Function.update f p e)

/-- A scan that stops at line ends may go past the carriage return of the next one. -/
theorem Replaces.skip_newline {P : (ℕ → List Char) → Prop} (hP : Replaces P) {f : ℕ → List Char}
    (h : P f) {q : Char → Bool} (hn : q '\n' = false) (p : ℕ) (rest : List Char) :
    ∃ g, P g ∧ (relay f p ('\n' :: rest)).dropWhile q = relay g p ('\n' :: rest) := by
  obtain ⟨lines, he | he⟩ := hP.ends f h p
  · refine ⟨f, h, ?_⟩
    rw [relay_newline, he, List.cons_append, List.dropWhile_cons_of_neg (by simp [hn])]
  · cases hr : q '\r' with
    | false =>
      refine ⟨f, h, ?_⟩
      rw [relay_newline, he, List.cons_append, List.dropWhile_cons_of_neg (by simp [hr])]
    | true =>
      refine ⟨Function.update f p ('\n' :: lines), hP.dropCr f h p _ he, ?_⟩
      have hlater : relay (Function.update f p ('\n' :: lines)) (p + 1) rest = relay f (p + 1) rest :=
        relay_congr fun p' hp => Function.update_of_ne (by omega) _ _
      rw [relay_newline, relay_newline, hlater, Function.update_self, he, List.cons_append,
        List.dropWhile_cons_of_pos hr, List.cons_append, List.dropWhile_cons_of_neg (by simp [hn])]

/-- Two texts read so far end alike, for any pattern within a line. -/
def SameBehind (d e : List Char) : Prop :=
  ∀ pat : List Char, '\n' ∉ pat → (pat <+: d ↔ pat <+: e)

theorem SameBehind.newline (d e : List Char) : SameBehind ('\n' :: d) ('\n' :: e) := by
  intro pat hpat
  cases pat with
  | nil => simp
  | cons c pat =>
    have hc : c ≠ '\n' := fun h => hpat (h ▸ List.mem_cons_self)
    simp [List.cons_prefix_cons, hc]

theorem SameBehind.append {d e : List Char} (h : SameBehind d e) (l : List Char) :
    SameBehind (l ++ d) (l ++ e) := by
  induction l with
  | nil => exact h
  | cons c l ih =>
    intro pat hpat
    cases pat with
    | nil => simp
    | cons x pat =>
      rw [List.cons_append, List.cons_append, List.cons_prefix_cons, List.cons_prefix_cons,
        ih pat fun hmem => hpat (List.mem_cons_of_mem _ hmem)]

namespace Lexer

/-! ## Lines without content -/

abbrev Steps : Lexer → Lexer → Prop :=
  Loop.Steps step

/-- White space is read one character at a time. -/
theorem steps_blanks (lx : Lexer) (hp : lx.panicked = false) {blanks rest : List Char}
    (hblanks : ∀ c ∈ blanks, isLineSpace c = true) (hrest : lx.rest = blanks ++ rest) :
    Steps lx (lx.read blanks rest) := by
  induction blanks generalizing lx with
  | nil =>
    have : lx.read [] rest = lx := by rw [read, ← List.nil_append rest, ← hrest]; rfl
    rw [this]
    exact .refl
  | cons c blanks ih =>
    have hc : c = ' ' ∨ c = '\t' ∨ c = '\r' := by
      simpa [isLineSpace, or_assoc] using hblanks c List.mem_cons_self
    have hstep : lx.step = some (lx.read [c] (blanks ++ rest)) := by
      have hadv : lx.advance 1 = lx.read [c] (blanks ++ rest) := advance_eq hrest
      rw [step, hp, hrest, ← hadv]
      simp [hc]
    have hsteps := ih (lx.read [c] (blanks ++ rest)) hp
      (fun d hd => hblanks d (List.mem_cons_of_mem _ hd)) rfl
    rw [read_read] at hsteps
    exact .head hstep hsteps

/-- A line without content is read up to its end. -/
theorem steps_line (lx : Lexer) (hp : lx.panicked = false) {blanks comment : List Char}
    (rest : List Char)
    (hblanks : ∀ c ∈ blanks, isLineSpace c = true)
    (hcomment : comment = [] ∨ comment.head? = some '#' ∧ '\n' ∉ comment)
    (hrest : lx.rest = blanks ++ comment ++ '\n' :: rest) :
    Steps lx (lx.read (blanks ++ comment) ('\n' :: rest)) := by
  have hfirst := steps_blanks lx hp hblanks (hrest.trans (List.append_assoc _ _ _))
  rcases hcomment with rfl | ⟨hhash, hnl⟩
  · simpa using hfirst
  · obtain ⟨text, rfl⟩ : ∃ text, comment = '#' :: text := by
      cases comment with
      | nil => cases hhash
      | cons c text => exact ⟨text, by rw [Option.some.inj hhash]⟩
    -- the comment is read at once
    have hall : ∀ c ∈ '#' :: text, (c != '\n') = true := by
      intro c hc
      simpa using fun h : c = '\n' => hnl (h ▸ hc)
    refine hfirst.tail ?_
    have hskip : (lx.read blanks ('#' :: text ++ '\n' :: rest)).skipWhile (· != '\n') =
        lx.read (blanks ++ '#' :: text) ('\n' :: rest) := by
      rw [skipWhile, rest_read, List.takeWhile_append_of_pos hall, List.dropWhile_append_of_pos hall,
        read_read]
      simp
    rw [← hskip]
    simp [step, hp, read]

theorem step_newline (lx : Lexer) (hp : lx.panicked = false) {rest : List Char}
    (hrest : lx.rest = '\n' :: rest) : lx.step = some lx.endLine := by
  simp [step, hp, hrest]

theorem endLine_of_brackets (lx : Lexer) (hdepth : lx.bracketDepth ≠ 0) {rest : List Char}
    (hrest : lx.rest = '\n' :: rest) : lx.endLine = lx.read ['\n'] rest := by
  rw [endLine, if_neg hdepth, advance_eq hrest]

theorem endLine_of_blank (lx : Lexer) (hdepth : lx.bracketDepth = 0)
    (hcontent : lx.hadContentOnLine = false) {rest : List Char} (hrest : lx.rest = '\n' :: rest) :
    lx.endLine = (lx.read ['\n'] rest).processLineStart := by
  rw [endLine, if_pos hdepth, hcontent, if_neg (by decide), advance_eq hrest]

theorem step_read_of_brackets {lx : Lexer} (hp : lx.panicked = false) (hdepth : lx.bracketDepth ≠ 0)
    (used rest : List Char) :
    (lx.read used ('\n' :: rest)).step = some (lx.read (used ++ ['\n']) rest) := by
  rw [step_newline (lx.read used ('\n' :: rest)) hp rfl,
    endLine_of_brackets (lx.read used ('\n' :: rest)) hdepth rfl, read_read]

theorem step_read_of_blank {lx : Lexer} (hp : lx.panicked = false) (hdepth : lx.bracketDepth = 0)
    (hcontent : lx.hadContentOnLine = false) (used rest : List Char) :
    (lx.read used ('\n' :: rest)).step = some (lx.read (used ++ ['\n']) rest).processLineStart := by
  rw [step_newline (lx.read used ('\n' :: rest)) hp rfl,
    endLine_of_blank (lx.read used ('\n' :: rest)) hdepth hcontent rfl, read_read]

/-- Inside brackets, lines without content are white space. -/
theorem steps_lines_in_brackets {lines : List Char} (h : BlankLines lines) (lx : Lexer)
    (hp : lx.panicked = false) (hdepth : lx.bracketDepth ≠ 0) (rest : List Char)
    (hrest : lx.rest = lines ++ rest) : Steps lx (lx.read lines rest) := by
  induction h generalizing lx with
  | nil => exact steps_blanks lx hp (by simp) hrest
  | @line blanks comment lines hblanks hcomment _ ih =>
    have hline := steps_line lx hp (lines ++ rest) hblanks hcomment (by simpa using hrest)
    have hstep := step_read_of_brackets hp hdepth (blanks ++ comment) (lines ++ rest)
    have hrec := ih (lx.read (blanks ++ comment ++ ['\n']) (lines ++ rest)) hp hdepth rfl
    rw [read_read] at hrec
    have hall : Steps lx _ := (hline.tail hstep).trans hrec
    simpa using hall

/-- What comes after the white space that a test skips. -/
theorem takeWhile_append_blank {q : Char → Bool} (blanks : List Char) {tail : List Char}
    (htail : ∀ c ∈ tail.head?, q c = false) :
    (blanks ++ tail).takeWhile q = blanks.takeWhile q ∧
      (blanks ++ tail).dropWhile q = blanks.dropWhile q ++ tail := by
  induction blanks with
  | nil =>
    cases tail with
    | nil => simp
    | cons c tail => simp [htail c rfl]
  | cons b blanks ih =>
    rw [List.cons_append, List.takeWhile_cons, List.takeWhile_cons, List.dropWhile_cons,
      List.dropWhile_cons]
    split
    · exact ⟨by rw [ih.1], ih.2⟩
    · exact ⟨rfl, rfl⟩

/-- At the start of a line without content, only some of its white space is read. -/
theorem processLineStart_blank (lx : Lexer) {blanks tail : List Char}
    (hblanks : ∀ c ∈ blanks, isLineSpace c = true)
    (htail : tail.head? = some '\n' ∨ tail.head? = some '#') (hrest : lx.rest = blanks ++ tail) :
    ∃ used left, blanks = used ++ left ∧ lx.processLineStart = lx.read used (left ++ tail) := by
  obtain ⟨t, htail, ht⟩ : ∃ t, tail.head? = some t ∧ (t = '\n' ∨ t = '#') := by
    rcases htail with h | h
    · exact ⟨_, h, .inl rfl⟩
    · exact ⟨_, h, .inr rfl⟩
  have hstop : ∀ q : Char → Bool, q '\n' = false → q '#' = false → ∀ c ∈ tail.head?, q c = false := by
    intro q hn hh c hc
    rw [htail] at hc
    obtain rfl := Option.some.inj hc
    rcases ht with rfl | rfl
    · exact hn
    · exact hh
  have hcr := takeWhile_append_blank blanks
    (hstop (· == '\r') (by decide) (by decide))
  have hws := takeWhile_append_blank (blanks.dropWhile (· == '\r'))
    (hstop isSpaceOrTab (by decide) (by decide))
  refine ⟨blanks.takeWhile (· == '\r') ++ (blanks.dropWhile (· == '\r')).takeWhile isSpaceOrTab,
    (blanks.dropWhile (· == '\r')).dropWhile isSpaceOrTab, ?_, ?_⟩
  · rw [List.append_assoc, List.takeWhile_append_dropWhile, List.takeWhile_append_dropWhile]
  · have hread : (lx.skipWhile (· == '\r')).skipWhile isSpaceOrTab =
        lx.read (blanks.takeWhile (· == '\r') ++
          (blanks.dropWhile (· == '\r')).takeWhile isSpaceOrTab)
          ((blanks.dropWhile (· == '\r')).dropWhile isSpaceOrTab ++ tail) := by
      rw [skipWhile, skipWhile, rest_read, hrest, hcr.1, hcr.2, hws.1, hws.2, read_read]
    have hends : endsBlank ((blanks.dropWhile (· == '\r')).dropWhile isSpaceOrTab ++ tail) = true := by
      unfold endsBlank
      cases hleft : (blanks.dropWhile (· == '\r')).dropWhile isSpaceOrTab with
      | nil =>
        rw [List.nil_append, htail]
        rcases ht with rfl | rfl <;> rfl
      | cons c left =>
        -- the white space that is left begins with a carriage return
        have hc : isSpaceOrTab c = false := by
          have := List.head?_dropWhile_not isSpaceOrTab (blanks.dropWhile (· == '\r'))
          simpa [hleft] using this
        have hmem : c ∈ blanks := by
          apply (List.dropWhile_suffix (· == '\r')).subset
          apply (List.dropWhile_suffix isSpaceOrTab).subset
          rw [hleft]
          exact List.mem_cons_self
        have hspace := hblanks c hmem
        simp only [isSpaceOrTab, isLineSpace, Bool.or_eq_false_iff, Bool.or_eq_true,
          beq_iff_eq, beq_eq_false_iff_ne] at hc hspace
        simp [hspace.resolve_left (by tauto)]
    unfold processLineStart
    dsimp only
    rw [hread]
    exact if_pos hends

/-- Outside brackets, lines without content leave no trace either. -/
theorem steps_lines {lines : List Char} (h : BlankLines lines) (lx : Lexer)
    (hp : lx.panicked = false) (hdepth : lx.bracketDepth = 0)
    (hcontent : lx.hadContentOnLine = false) (rest : List Char) (hrest : lx.rest = lines ++ rest) :
    Steps lx.processLineStart (lx.read lines rest).processLineStart := by
  induction h generalizing lx with
  | nil =>
    have : lx.read [] rest = lx := by rw [read, ← List.nil_append rest, ← hrest]; rfl
    rw [this]
    exact .refl
  | @line blanks comment lines hblanks hcomment _ ih =>
    have hhead : (comment ++ '\n' :: (lines ++ rest)).head? = some '\n' ∨
        (comment ++ '\n' :: (lines ++ rest)).head? = some '#' := by
      rcases hcomment with rfl | ⟨hhash, -⟩
      · exact .inl rfl
      · exact .inr (by rw [List.head?_append, hhash]; rfl)
    obtain ⟨used, left, hsplit, hstart⟩ := processLineStart_blank lx hblanks hhead
      (by simpa using hrest)
    rw [hstart]
    -- the rest of the line, its end, and the lines after it
    have hline := steps_line (lx.read used (left ++ (comment ++ '\n' :: (lines ++ rest)))) hp
      (lines ++ rest) (fun c hc => hblanks c (hsplit ▸ List.mem_append_right _ hc)) hcomment
      (by simp)
    have hstep := step_read_of_blank hp hdepth hcontent (used ++ (left ++ comment)) (lines ++ rest)
    rw [read_read] at hline
    have hrec := ih (lx.read (used ++ (left ++ comment) ++ ['\n']) (lines ++ rest)) hp hdepth
      hcontent rfl
    rw [read_read] at hrec
    have hall : Steps _ _ := (hline.tail hstep).trans hrec
    rw [hsplit]
    simpa using hall

/-! ## The simulation -/

/-- Two runs, on a source and on the relaid source, that have emitted `A` and `B` and then tokens
of the same kinds. Where a line ends next, the relaid run may be past its carriage return. -/
structure Alike (P : (ℕ → List Char) → Prop) (A B : List TokKind) (a b : Lexer) : Prop where
  rest : ∃ f, P f ∧ b.rest = relay f a.pos a.rest
  behind : a.rest.head? = some '\n' ∨ SameBehind a.done b.done
  kinds : ∃ K, a.tokens.map Token.kind = A ++ K ∧ b.tokens.map Token.kind = B ++ K
  errors : b.errors = []
  panicked : b.panicked = false
  depth : b.bracketDepth = a.bracketDepth
  stack : b.indentStack = a.indentStack
  content : b.hadContentOnLine = a.hadContentOnLine

variable {P : (ℕ → List Char) → Prop} {A B : List TokKind} {a b : Lexer}

/-- The same characters are read in both runs. -/
theorem Alike.read (h : Alike P A B a b) {used : List Char} (rest : List Char) {rest' : List Char}
    (hrest : ∃ f, P f ∧ rest' = relay f (a.pos + size used) rest)
    (hbehind : rest.head? = some '\n' ∨ SameBehind a.done b.done) :
    Alike P A B (a.read used rest) (b.read used rest') :=
  ⟨by simpa using hrest, hbehind.imp_right fun hsame => hsame.append used.reverse, h.kinds, h.errors,
    h.panicked, h.depth, h.stack, h.content⟩

/-- Tokens of the same kinds are added. -/
theorem Alike.kinds_append (h : Alike P A B a b) {more more' : List Token}
    (hmore : more'.map Token.kind = more.map Token.kind) :
    ∃ K, (a.tokens ++ more).map Token.kind = A ++ K ∧ (b.tokens ++ more').map Token.kind = B ++ K := by
  obtain ⟨K, ha, hb⟩ := h.kinds
  exact ⟨K ++ more.map Token.kind, by simp [ha], by simp [hb, hmore]⟩

/-- The text behind matters only where no line ends next. -/
theorem Alike.behind_of_ne (h : Alike P A B a b) {c : Char} {rest : List Char} (hc : c ≠ '\n')
    (hrest : a.rest = c :: rest) : SameBehind a.done b.done := by
  refine h.behind.resolve_left fun hnl => hc ?_
  rw [hrest] at hnl
  exact Option.some.inj hnl

theorem Alike.advance (h : Alike P A B a b) {c : Char} {rest : List Char} (hc : c ≠ '\n')
    (hrest : a.rest = c :: rest) : Alike P A B (a.advance 1) (b.advance 1) := by
  obtain ⟨f, hf, hb⟩ := h.rest
  rw [hrest, relay_cons_of_ne hc] at hb
  rw [advance_eq hrest, advance_eq hb]
  exact h.read rest ⟨f, hf, by simp⟩ (.inr (h.behind_of_ne hc hrest))

/-- A scan that stops at line ends. It may go past a carriage return that was put before one. -/
theorem Alike.skipWhile (hP : Replaces P) (h : Alike P A B a b) {q : Char → Bool} (hn : q '\n' = false) :
    Alike P A B (a.skipWhile q) (b.skipWhile q) := by
  obtain ⟨f, hf, hb⟩ := h.rest
  have hall : ∀ c ∈ a.rest.takeWhile q, q c = true := fun c hc => List.mem_takeWhile_imp hc
  rw [relay_split hn] at hb
  have hbehind : (a.rest.dropWhile q).head? = some '\n' ∨ SameBehind a.done b.done := by
    refine h.behind.imp_left fun hnl => ?_
    cases hrest : a.rest with
    | nil => simp [hrest] at hnl
    | cons c rest =>
      rw [hrest] at hnl
      obtain rfl := Option.some.inj hnl
      simp [hn]
  rw [Lexer.skipWhile, Lexer.skipWhile, hb, List.takeWhile_append_of_pos hall,
    List.dropWhile_append_of_pos hall]
  cases hd : a.rest.dropWhile q with
  | nil =>
    rw [hd] at hbehind
    simpa using h.read [] ⟨f, hf, rfl⟩ hbehind
  | cons c rest =>
    have hqc : q c = false := by
      have := List.head?_dropWhile_not q a.rest
      simpa [hd] using this
    rw [hd] at hbehind
    by_cases hc : c = '\n'
    · obtain ⟨g, hg, hdrop⟩ := hP.skip_newline hf hn (a.pos + size (a.rest.takeWhile q)) rest
      rw [hc, hdrop]
      exact ⟨⟨g, hg, by simp⟩, .inl rfl, h.kinds, h.errors, h.panicked, h.depth, h.stack, h.content⟩
    · rw [relay_cons_of_ne hc]
      simpa [hqc] using h.read (c :: rest) ⟨f, hf, (relay_cons_of_ne hc rest).symm⟩ hbehind

theorem endsBlank_relay {f : ℕ → List Char} (hf : ∀ q, EndsLine (f q)) (p : ℕ) (l : List Char) :
    endsBlank (relay f p l) = endsBlank l := by
  cases l with
  | nil => rfl
  | cons c l =>
    by_cases hc : c = '\n'
    · rw [hc, relay_newline]
      obtain ⟨e, he | he⟩ := (hf p).head <;> simp [endsBlank, he]
    · rw [relay_cons_of_ne hc]
      rfl

/-- The layout of a line with content depends on its indentation and the stack. -/
theorem Alike.indentTo (h : Alike P A B a b) {start start' indent : ℕ}
    (hok : (a.indentTo start indent).errors = []) :
    Alike P A B (a.indentTo start indent) (b.indentTo start' indent) := by
  unfold Lexer.indentTo at hok ⊢
  dsimp only at hok ⊢
  rw [h.stack]
  split
  · refine ⟨h.rest, h.behind, ?_, h.errors, h.panicked, h.depth, rfl, h.content⟩
    exact h.kinds_append rfl
  · rename_i hwider
    rw [if_neg hwider] at hok
    split
    next hnarrower =>
      rw [if_pos hnarrower] at hok
      dsimp only at hok
      have hwidth : (a.indentStack.dropWhile (indent < ·)).headD 0 = indent := by
        by_contra hne
        rw [if_neg hne] at hok
        simp at hok
      refine ⟨h.rest, h.behind, ?_, ?_, h.panicked, h.depth, rfl, h.content⟩
      · exact h.kinds_append (by simp)
      · rw [if_pos hwidth]
        simp [h.errors]
    next => exact h

theorem Alike.processLineStart (hP : Replaces P) (h : Alike P A B a b) (hok : a.processLineStart.errors = []) :
    Alike P A B a.processLineStart b.processLineStart := by
  have hcr := h.skipWhile hP (q := (· == '\r')) (by decide)
  have hws := hcr.skipWhile hP (q := isSpaceOrTab) (by decide)
  have hblanks : (b.skipWhile (· == '\r')).rest.takeWhile isSpaceOrTab =
      (a.skipWhile (· == '\r')).rest.takeWhile isSpaceOrTab := by
    obtain ⟨f, hf, hrest⟩ := hcr.rest
    rw [hrest]
    exact (takeWhile_relay (hP.ends f hf) (by decide) (by decide) _).1
  have hends : endsBlank ((b.skipWhile (· == '\r')).skipWhile isSpaceOrTab).rest =
      endsBlank ((a.skipWhile (· == '\r')).skipWhile isSpaceOrTab).rest := by
    obtain ⟨f, hf, hrest⟩ := hws.rest
    rw [hrest, endsBlank_relay (hP.ends f hf)]
  unfold Lexer.processLineStart at hok ⊢
  dsimp only at hok ⊢
  rw [hblanks, hends]
  split
  · exact hws
  · rename_i hcontent
    rw [if_neg hcontent] at hok
    have htab : '\t' ∉ (a.skipWhile (· == '\r')).rest.takeWhile isSpaceOrTab := by
      intro hmem
      rw [if_pos hmem] at hok
      unfold Lexer.indentTo at hok
      dsimp only at hok
      split at hok
      · simp at hok
      · split at hok <;> simp at hok
    rw [if_neg htab] at hok ⊢
    rw [if_neg htab]
    exact hws.indentTo hok

/-- A token of the source, read again from the relaid source. -/
theorem scan_relay (h : Alike P A B a b) {f : ℕ → List Char} (hf : ∀ q, EndsLine (f q)) {c : Char}
    {rest : List Char} (hc : BeginsToken c) (hrest : a.rest = c :: rest)
    (hok : (a.scan c rest).errors = [])
    (hkept : relay f a.pos (a.scan c rest).used = (a.scan c rest).used) :
    b.scan c (relay f (a.pos + c.utf8Size) rest) = a.scan c rest := by
  have hdigest : b.isAfterHashDigestPrefix = a.isAfterHashDigestPrefix := by
    have hsame := h.behind_of_ne hc.2.1 hrest "hash:sha256:".toList.reverse (by decide)
    exact decide_eq_decide.mpr hsame.symm
  unfold scan at hok hkept ⊢
  rw [hdigest, ← relay_cons_of_ne hc.2.1]
  split
  next hdigit =>
    rw [if_pos hdigit] at hok
    exact lexNumber_relay hf hok
  next hdigit =>
    rw [if_neg hdigit] at hok hkept
    split
    next hquote =>
      rw [if_pos hquote] at hok hkept
      exact lexString_relay hf (by rw [hquote]; rfl) hok hkept
    next hquote =>
      rw [if_neg hquote] at hok hkept
      split
      next => exact lexIdentOrKw_relay hf _
      next hident =>
        rw [if_neg hident] at hok
        exact lexPunct_relay hf hok

/-- A token is read in both runs, where its line ends are kept. -/
theorem Alike.accept (hP : Replaces P) (h : Alike P A B a b) {c : Char} {rest : List Char}
    (hc : BeginsToken c) (hrest : a.rest = c :: rest)
    (hok : (a.accept (a.scan c rest)).errors = [])
    (hkept : ∀ f, P f → relay f a.pos (a.scan c rest).used = (a.scan c rest).used) :
    ∃ rest', b.rest = c :: rest' ∧
      Alike P A B (a.accept (a.scan c rest)) (b.accept (b.scan c rest')) := by
  obtain ⟨f, hf, hb⟩ := h.rest
  have hscan_ok : (a.scan c rest).errors = [] := (List.append_eq_nil_iff.mp hok).2
  obtain ⟨hp, -⟩ := scan_withinLine a hc.2.1 rest hscan_ok
  have hkept := hkept f hf
  have hscan := scan_relay h (hP.ends f hf) hc hrest hscan_ok hkept
  refine ⟨relay f (a.pos + c.utf8Size) rest, by rw [hb, hrest, relay_cons_of_ne hc.2.1], ?_⟩
  rw [hscan]
  obtain ⟨after, hafter⟩ := (scan_reads a c rest).isPrefix
  have hrest_a : a.rest.drop (a.scan c rest).used.length = after := by
    rw [hrest, ← hafter, List.drop_left]
  have hrest_b : b.rest.drop (a.scan c rest).used.length =
      relay f (a.pos + size (a.scan c rest).used) after := by
    rw [hb, hrest, ← hafter, relay_append, hkept, List.drop_left]
  have hread : Alike P A B (a.read (a.scan c rest).used after) (b.read (a.scan c rest).used _) :=
    h.read after ⟨f, hf, rfl⟩ (.inr (h.behind_of_ne hc.2.1 hrest))
  refine ⟨⟨f, hf, ?_⟩, ?_, ?_, ?_, hp, ?_, h.stack, ?_⟩
  · show b.rest.drop _ = relay f (a.read (a.scan c rest).used after).pos (a.rest.drop _)
    rw [hrest_a, hrest_b, pos_read]
  · show (a.rest.drop _).head? = _ ∨ _
    rw [hrest_a]
    exact hread.behind
  · refine h.kinds_append ?_
    cases (a.scan c rest).kind <;> rfl
  · simp [Lexer.accept, h.errors, hscan_ok]
  · simp [Lexer.accept, h.depth]
  · simp [Lexer.accept, h.content]

/-- The state after a line feed outside brackets, before the layout of the next line. -/
def ended (lx : Lexer) (rest : List Char) : Lexer :=
  { lx.read ['\n'] rest with
    tokens := lx.tokens ++
      if lx.hadContentOnLine then [⟨.newline, ⟨lx.pos, (lx.read ['\n'] rest).pos⟩⟩] else []
    hadContentOnLine := false }

theorem endLine_eq {lx : Lexer} (hdepth : lx.bracketDepth = 0) {rest : List Char}
    (hrest : lx.rest = '\n' :: rest) : lx.endLine = (lx.ended rest).processLineStart := by
  rw [endLine, if_pos hdepth, advance_eq hrest, ended]
  cases hcontent : lx.hadContentOnLine with
  | true => rfl
  | false =>
    rw [if_neg (by decide), if_neg (by decide), List.append_nil, ← hcontent]
    rfl

/-- Lines without content end in a line feed, as what is before them does. -/
theorem reverse_lines {lines : List Char} (h : BlankLines lines) (d : List Char) :
    ∃ e, lines.reverse ++ '\n' :: d = '\n' :: e := by
  induction h generalizing d with
  | nil => exact ⟨d, rfl⟩
  | @line blanks comment lines _ _ _ ih =>
    obtain ⟨e, he⟩ := ih (comment.reverse ++ (blanks.reverse ++ '\n' :: d))
    exact ⟨e, by rw [← he]; simp⟩

/-- The end of a line in one run; in the other, the lines without content after it too. -/
theorem Alike.endLine (hP : Replaces P) (h : Alike P A B a b) {rest : List Char}
    (hrest : a.rest = '\n' :: rest) (hend : ∀ f, P f → LineEnd (f a.pos))
    (hok : a.endLine.errors = []) : ∃ b', Steps b b' ∧ Alike P A B a.endLine b' := by
  obtain ⟨f, hf, hb⟩ := h.rest
  obtain ⟨lines, hlines, he⟩ := hend f hf
  -- a carriage return is read first
  obtain ⟨cr, hcr_space, hcr⟩ : ∃ cr, (∀ c ∈ cr, isLineSpace c = true) ∧
      b.rest = cr ++ '\n' :: (lines ++ relay f (a.pos + 1) rest) := by
    rw [hb, hrest, relay_newline]
    rcases he with he | he
    · exact ⟨[], by simp, by rw [he]; rfl⟩
    · exact ⟨['\r'], by simp [isLineSpace], by rw [he]; rfl⟩
  have hfirst := steps_blanks b h.panicked hcr_space hcr
  let b₁ := b.read cr ('\n' :: (lines ++ relay f (a.pos + 1) rest))
  have hnl : b₁.step = some b₁.endLine := step_newline b₁ h.panicked rfl
  -- after the lines, both runs are after a line feed
  have hbehind : SameBehind ('\n' :: a.done)
      (lines.reverse ++ '\n' :: (cr.reverse ++ b.done)) := by
    obtain ⟨e, he⟩ := reverse_lines hlines (cr.reverse ++ b.done)
    rw [he]
    exact .newline _ _
  have hrelay : relay f (a.pos + 1) rest = relay f (a.read ['\n'] rest).pos rest := by
    rw [pos_read]
    rfl
  by_cases hdepth : a.bracketDepth = 0
  · have hdepth_b : b₁.bracketDepth = 0 := h.depth.trans hdepth
    rw [endLine_eq hdepth hrest] at hok ⊢
    rw [endLine_eq hdepth_b rfl] at hnl
    have hlines_steps := steps_lines hlines (b₁.ended (lines ++ relay f (a.pos + 1) rest))
      h.panicked hdepth_b rfl (relay f (a.pos + 1) rest) rfl
    refine ⟨_, (hfirst.tail hnl).trans hlines_steps, Alike.processLineStart hP ?_ hok⟩
    refine ⟨⟨f, hf, hrelay⟩, .inr hbehind, ?_, h.errors, h.panicked, h.depth, h.stack, rfl⟩
    refine h.kinds_append ?_
    show (if b₁.hadContentOnLine then _ else _ : List Token).map Token.kind = _
    rw [show b₁.hadContentOnLine = a.hadContentOnLine from h.content]
    split <;> rfl
  · have hdepth_b : b₁.bracketDepth ≠ 0 := fun hb => hdepth (h.depth.symm.trans hb)
    rw [endLine_of_brackets a hdepth hrest]
    rw [endLine_of_brackets b₁ hdepth_b rfl] at hnl
    have hlines_steps := steps_lines_in_brackets hlines
      (b₁.read ['\n'] (lines ++ relay f (a.pos + 1) rest)) h.panicked hdepth_b
      (relay f (a.pos + 1) rest) rfl
    refine ⟨_, (hfirst.tail hnl).trans hlines_steps, ?_⟩
    exact ⟨⟨f, hf, hrelay⟩, .inr hbehind, h.kinds, h.errors, h.panicked, h.depth, h.stack, h.content⟩

/-- **One iteration on the source is simulated on the relaid source.** -/
theorem Alike.step (hP : Replaces P) {a' : Lexer} (h : Alike P A B a b) (hs : a.step = some a')
    (hok : a'.errors = []) (hend : a.rest.head? = some '\n' → ∀ f, P f → LineEnd (f a.pos))
    (hkept : ∀ c rest, BeginsToken c → a.rest = c :: rest → a' = a.accept (a.scan c rest) →
      ∀ f, P f → relay f a.pos (a.scan c rest).used = (a.scan c rest).used) :
    ∃ b', Steps b b' ∧ Alike P A B a' b' := by
  obtain ⟨-, c, rest, hrest, hcase⟩ := step_cases hs
  have hhead : ∀ d, c = d → d ≠ '\n' → ∃ rest', b.rest = d :: rest' := by
    rintro d rfl hd
    obtain ⟨f, -, hb⟩ := h.rest
    exact ⟨_, by rw [hb, hrest, relay_cons_of_ne hd]⟩
  rcases hcase with ⟨hblank, rfl⟩ | ⟨rfl, rfl⟩ | ⟨rfl, rfl⟩ | ⟨hc, rfl⟩
  · have hne : c ≠ '\n' := by rcases hblank with rfl | rfl | rfl <;> decide
    obtain ⟨rest', hb⟩ := hhead c rfl hne
    refine ⟨b.advance 1, .single ?_, h.advance hne hrest⟩
    simp [Lexer.step, h.panicked, hb, hblank]
  · exact h.endLine hP hrest (hend (by rw [hrest]; rfl)) hok
  · obtain ⟨rest', hb⟩ := hhead '#' rfl (by decide)
    refine ⟨b.skipWhile (· != '\n'), .single ?_, h.skipWhile hP (by decide)⟩
    simp [Lexer.step, h.panicked, hb]
  · obtain ⟨rest', hb, halike⟩ := h.accept hP hc hrest hok (hkept c rest hc hrest rfl)
    refine ⟨_, .single ?_, halike⟩
    simp [Lexer.step, h.panicked, hb, hc.1, hc.2.1, hc.2.2]

/-! ## What is only added -/

/-- Errors and tokens are only added. -/
structure Extends (a b : Lexer) : Prop where
  errors : a.errors <+: b.errors
  tokens : a.tokens <+: b.tokens

theorem Extends.refl (a : Lexer) : Extends a a :=
  ⟨List.prefix_rfl, List.prefix_rfl⟩

theorem Extends.trans {a b c : Lexer} (h : Extends a b) (h' : Extends b c) : Extends a c :=
  ⟨h.errors.trans h'.errors, h.tokens.trans h'.tokens⟩

theorem extends_indentTo (lx : Lexer) (start indent : ℕ) : Extends lx (lx.indentTo start indent) := by
  unfold indentTo
  dsimp only
  split
  · exact ⟨List.prefix_rfl, List.prefix_append _ _⟩
  · split
    · exact ⟨List.prefix_append _ _, List.prefix_append _ _⟩
    · exact .refl lx

theorem extends_processLineStart (lx : Lexer) : Extends lx lx.processLineStart := by
  unfold processLineStart
  dsimp only
  split
  · exact ⟨List.prefix_rfl, List.prefix_rfl⟩
  · refine .trans ?_ (extends_indentTo _ _ _)
    split
    · exact ⟨List.prefix_append _ _, List.prefix_rfl⟩
    · exact ⟨List.prefix_rfl, List.prefix_rfl⟩

theorem extends_endLine (lx : Lexer) : Extends lx lx.endLine := by
  unfold endLine
  dsimp only
  split
  · split
    · refine .trans ?_ (extends_processLineStart _)
      exact ⟨List.prefix_rfl, List.prefix_append _ _⟩
    · refine .trans ?_ (extends_processLineStart _)
      exact ⟨List.prefix_rfl, List.prefix_rfl⟩
  · exact ⟨List.prefix_rfl, List.prefix_rfl⟩

theorem extends_step {a b : Lexer} (hs : a.step = some b) : Extends a b := by
  obtain ⟨-, c, rest, -, hcase⟩ := step_cases hs
  rcases hcase with ⟨-, rfl⟩ | ⟨-, rfl⟩ | ⟨-, rfl⟩ | ⟨-, rfl⟩
  · exact ⟨List.prefix_rfl, List.prefix_rfl⟩
  · exact extends_endLine a
  · exact ⟨List.prefix_rfl, List.prefix_rfl⟩
  · exact ⟨List.prefix_append _ _, List.prefix_append _ _⟩

theorem extends_steps {a b : Lexer} (h : Steps a b) : Extends a b := by
  induction h with
  | refl => exact .refl a
  | tail _ hs ih => exact ih.trans (extends_step hs)

end Lexer

end Corvid.Syntax
