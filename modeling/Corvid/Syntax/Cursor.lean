import Corvid.Syntax.Bytes
import Corvid.Syntax.LineEnds

/-!
# The cursor

On a source that is sliced at its cursor, the lexer on bytes steps as the lexer on characters does.
The cursor is on a character boundary between any two iterations, and leaves the boundaries where the
lexer on characters panics.

## Main definitions

* `Lexer.toBytes`: the state on bytes of a state on characters
* `ByteLexer.accept`: what a scanner of characters read, taken over into the state on bytes

## Main results

* `ByteLexer.singleLoop_ahead`, `ByteLexer.tripleLoop_ahead`: the loops over strings
* `Lexer.iterate_toBytes`: one iteration on bytes is one on characters
-/

namespace Corvid.Syntax

open Utf8 (encode cut ascii Matches Ahead)

/-! ## Predicates -/

theorem matches_digit : Matches isDigitByte Char.isDigit :=
  Utf8.matches_between (c := '0') (d := '9') (by decide) (by decide)

theorem matches_hexDigit : Matches isHexDigitByte isHexDigit :=
  (matches_digit.or (Utf8.matches_between (by decide) (by decide))).or
    (Utf8.matches_between (by decide) (by decide))

theorem matches_alpha : Matches isAlphaByte Char.isAlpha := by
  have h := (Utf8.matches_between (c := 'a') (d := 'z') (by decide) (by decide)).or
    (Utf8.matches_between (c := 'A') (d := 'Z') (by decide) (by decide))
  have hchar : Char.isAlpha = fun c => ('a' ≤ c && c ≤ 'z') || ('A' ≤ c && c ≤ 'Z') := by
    ext c
    show (decide (c.val ≥ 'A'.val ∧ c.val ≤ 'Z'.val) ||
      (decide (c.val ≥ 'a'.val) && decide (c.val ≤ 'z'.val))) = _
    rw [Bool.or_comm, Bool.decide_and]
    rfl
  rw [hchar]
  exact h

theorem matches_identStart : Matches isIdentStartByte isIdentStart :=
  (Utf8.matches_eq (by decide)).or matches_alpha

theorem matches_identContinue : Matches isIdentContinueByte isIdentContinue := by
  have h := ((Utf8.matches_eq (c := '_') (by decide)).or matches_alpha).or matches_digit
  have hchar : isIdentContinue = fun c => (c == '_' || c.isAlpha) || c.isDigit := by
    ext c
    rw [isIdentContinue, Char.isAlphanum, Bool.or_assoc]
  rw [hchar]
  exact h

theorem matches_blank : Matches ByteLexer.isBlankByte Lexer.isSpaceOrTab :=
  (Utf8.matches_eq (c := ' ') (by decide)).or (Utf8.matches_eq (c := '\t') (by decide))

/-! ## Slices -/

section Slices

variable {src rest l : List Char} {pos : ℕ}

theorem slice_ahead (h : Ahead src pos (l ++ rest)) : slice src pos (pos + size l) = some l := by
  obtain ⟨before, hcut⟩ := h.cut
  have hinner : cut (size l) (l ++ rest) = some (l, rest) := Utf8.cut_append l rest
  rw [slice, if_neg (by omega), hcut, Option.bind_some, Nat.add_sub_cancel_left, hinner,
    Option.map_some]

theorem skip_ahead (h : Ahead src pos rest) {p : UInt8 → Bool} {q : Char → Bool}
    (hpq : Matches p q) : skip src p pos = pos + size (rest.takeWhile q) := by
  rw [skip, h.takeWhile hpq]
  rfl

theorem skip_not_ahead (h : Ahead src pos rest) {p : UInt8 → Bool} {q : Char → Bool}
    (hpq : Matches p q) :
    skip src (fun b => !p b) pos = pos + size (rest.takeWhile fun c => !q c) := by
  rw [skip, h.drop, hpq.takeWhile_not, Utf8.length_encode]
  rfl

theorem head_ahead {c : Char} (h : Ahead src pos (c :: rest)) :
    (cut pos src).bind (·.2.head?) = some c := by
  obtain ⟨before, hcut⟩ := h.cut
  simp [hcut]

theorem toNat_latin1 (b : UInt8) : (latin1 b).toNat = b.toNat := by
  have hlt := b.toNat_lt
  have hvalid : b.toNat.isValidChar := .inl (by omega)
  rw [latin1, Char.ofNat, dif_pos hvalid]
  rfl

theorem latin1_ascii {c : Char} (hc : c.toNat < 128) : latin1 (ascii c) = c := by
  rw [latin1, Utf8.toNat_ascii hc, Char.ofNat_toNat]

theorem latin1_eq_iff {b : UInt8} {d : Char} (hd : d.toNat < 128) :
    latin1 b = d ↔ b = ascii d := by
  constructor
  · rintro rfl
    rw [toNat_latin1] at hd
    rw [ascii, toNat_latin1, UInt8.ofNat_toNat]
  · rintro rfl
    exact latin1_ascii hd

end Slices

/-! ## Scanners -/

/-- The state on bytes of a state on characters. -/
def Lexer.toBytes (lx : Lexer) : ByteLexer where
  pos := lx.pos
  tokens := lx.tokens
  errors := lx.errors
  bracketDepth := lx.bracketDepth
  indentStack := lx.indentStack
  hadContentOnLine := lx.hadContentOnLine

namespace ByteLexer

/-- What a scanner of characters read, taken over into the state. -/
def accept (bx : ByteLexer) (scan : Scan) : Option ByteLexer :=
  if scan.panicked then none
  else some
    { bx with
      pos := bx.pos + size scan.used
      tokens := bx.tokens ++
        (scan.kind.map fun kind => ⟨kind, ⟨bx.pos, bx.pos + size scan.used⟩⟩).toList
      errors := bx.errors ++ scan.errors
      bracketDepth := bx.bracketDepth + (scan.kind.map bracketDelta).getD 0
      hadContentOnLine := bx.hadContentOnLine || scan.kind.isSome }

variable {src rest : List Char} {bx : ByteLexer}

theorem accept_token {kind : TokKind} (hkind : bracketDelta kind = 0) (used : List Char) :
    bx.accept (.token used kind) =
      some ((bx.moveTo (bx.pos + size used)).emit kind ⟨bx.pos, bx.pos + size used⟩) := by
  simp [accept, Scan.token, emit, moveTo, hkind]

theorem accept_error (used : List Char) (e : LexError) :
    bx.accept (.error used e) =
      some { bx with pos := bx.pos + size used, errors := bx.errors ++ [e] } := by
  simp [accept, Scan.error]

theorem bracketDelta_keywordFrom {s : String} {kind : TokKind}
    (h : TokKind.keywordFrom s = some kind) : bracketDelta kind = 0 := by
  unfold TokKind.keywordFrom at h
  split at h <;> first | cases h; rfl | cases h

theorem lexIdentOrKw_ahead (h : Ahead src bx.pos rest) :
    bx.lexIdentOrKw src = bx.accept (Syntax.lexIdentOrKw rest) := by
  have hskip := skip_ahead h matches_identContinue
  have hslice : slice src bx.pos (bx.pos + size (rest.takeWhile isIdentContinue)) =
      some (rest.takeWhile isIdentContinue) :=
    slice_ahead (by rwa [List.takeWhile_append_dropWhile])
  unfold lexIdentOrKw Syntax.lexIdentOrKw
  dsimp only
  rw [hskip, hslice, accept_token]
  · rfl
  · cases hkey : TokKind.keywordFrom (String.ofList (rest.takeWhile isIdentContinue)) with
    | none => rfl
    | some kind => exact bracketDelta_keywordFrom hkey

theorem isFraction_ahead {pos : ℕ} (h : Ahead src pos rest) :
    ((encode src)[pos]? = some (ascii '.') ∧ ((encode src)[pos + 1]?).any isDigitByte) ↔
      isFraction rest := by
  rw [h.byte_eq_iff (by decide)]
  cases rest with
  | nil => simp [isFraction]
  | cons c after =>
    by_cases hc : c = '.'
    · subst hc
      have hafter : Ahead src (pos + 1) after := h.cons
      rw [hafter.getElem?_zero, matches_digit.head]
      cases after with
      | nil => simp [isFraction]
      | cons d after => simp [isFraction]
    · simp [isFraction, hc]

theorem lexNumber_ahead (h : Ahead src bx.pos rest) {after : Bool}
    (hafter : isAfterHashDigestPrefix src bx.pos = some after) :
    bx.lexNumber src = bx.accept (Syntax.lexNumber after bx.pos rest) := by
  have hslice : ∀ q : Char → Bool,
      slice src bx.pos (bx.pos + size (rest.takeWhile q)) = some (rest.takeWhile q) :=
    fun q => slice_ahead (by rwa [List.takeWhile_append_dropWhile])
  unfold lexNumber Syntax.lexNumber
  dsimp only [Option.bind_eq_bind]
  rw [hafter, Option.bind_some, skip_ahead h matches_digit, skip_ahead h matches_hexDigit, hslice,
    hslice]
  dsimp only [Option.bind_some]
  cases after with
  | true => exact (accept_token rfl _).symm
  | false =>
    rw [if_neg Bool.false_ne_true, if_neg Bool.false_ne_true]
    -- the digits before the dot are read
    have hwhole : Ahead src (bx.pos + size (rest.takeWhile Char.isDigit))
        (rest.dropWhile Char.isDigit) :=
      Ahead.append (by rwa [List.takeWhile_append_dropWhile])
    by_cases hfraction : isFraction (rest.dropWhile Char.isDigit) = true
    · rw [if_pos ((isFraction_ahead hwhole).mpr hfraction), if_pos hfraction]
      have hdrop := isFraction_eq hfraction
      have hdot : Ahead src (bx.pos + size (rest.takeWhile Char.isDigit) + 1)
          (rest.dropWhile Char.isDigit).tail := by
        rw [hdrop] at hwhole
        exact hwhole.cons
      generalize htext : rest.takeWhile Char.isDigit ++
        '.' :: (rest.dropWhile Char.isDigit).tail.takeWhile Char.isDigit = text
      have hstop : bx.pos + size (rest.takeWhile Char.isDigit) + 1 +
          size ((rest.dropWhile Char.isDigit).tail.takeWhile Char.isDigit) = bx.pos + size text := by
        have hone : ('.' : Char).utf8Size = 1 := rfl
        rw [← htext, size_append, size_cons, hone]
        omega
      have hstarts : text <+: rest := htext ▸ fraction_isPrefix hfraction
      obtain ⟨left, hleft⟩ := hstarts
      rw [skip_ahead hdot matches_digit, hstop, slice_ahead (l := text) (by rwa [hleft])]
      exact (accept_token rfl _).symm
    · rw [if_neg (mt (isFraction_ahead hwhole).mp hfraction), if_neg hfraction]
      split
      next => exact (accept_token rfl _).symm
      next => exact (accept_error _ _).symm

theorem punct_eq_none {c : Char} (h : 128 ≤ c.toNat) (next : Option Char) :
    punct c next = none := by
  unfold punct
  split <;> first | exact absurd h (by decide) | rfl

theorem unexpectedChar_ahead {c : Char} (h : Ahead src bx.pos (c :: rest)) :
    ((cut bx.pos src).map fun parts =>
        let ch := parts.2.headD '?'
        (bx.moveTo (bx.pos + ch.utf8Size)).error (.unexpectedChar ch)
          ⟨bx.pos, bx.pos + ch.utf8Size⟩) =
      bx.accept (.error [c] ⟨.unexpectedChar c, ⟨bx.pos, bx.pos + c.utf8Size⟩⟩) := by
  obtain ⟨before, hcut⟩ := h.cut
  rw [hcut, accept_error]
  simp [error, moveTo]

theorem lexPunct_ahead {c : Char} {b : UInt8} (h : Ahead src bx.pos (c :: rest))
    (hb : (encode src)[bx.pos]? = some b) :
    bx.lexPunct src b = bx.accept (Syntax.lexPunct bx.pos c rest) := by
  have hnext : ∀ d : Char, d.toNat < 128 → c.toNat < 128 →
      ((encode src)[bx.pos + 1]?.map latin1 = some d ↔ rest.head? = some d) := by
    intro d hd hc
    have hcons := h.cons
    rw [Utf8.utf8Size_eq_one_iff.mpr hc] at hcons
    rw [← hcons.byte_eq_iff hd]
    cases (encode src)[bx.pos + 1]? with
    | none => simp
    | some e => simp [latin1_eq_iff hd]
  obtain ⟨b', hb', -, hascii, hother⟩ := h.byte
  obtain rfl : b' = b := Option.some.inj (hb'.symm.trans hb)
  unfold lexPunct Syntax.lexPunct
  by_cases hc : c.toNat < 128
  · rw [hascii hc, latin1_ascii hc, punct_congr (hnext '>' (by decide) hc) (hnext '=' (by decide) hc)]
    generalize hp : punct c rest.head? = found
    cases found with
    | some found =>
      obtain ⟨kind, len⟩ := found
      have hsize : size ((c :: rest).take len) = len := by
        rcases punct_len hp with rfl | ⟨rfl, d, hd, heq⟩
        · simp [Utf8.utf8Size_eq_one_iff.mpr hc]
        · obtain ⟨rest, rfl⟩ : ∃ l, rest = d :: l := List.head?_eq_some_iff.mp hd
          have hone : d.utf8Size = 1 := by rcases heq with rfl | rfl <;> rfl
          simp [Utf8.utf8Size_eq_one_iff.mpr hc, hone]
      simp [accept, Scan.token, emit, moveTo, hsize]
    | none =>
      dsimp only
      by_cases hbang : c = '!'
      · subst hbang
        rw [accept_error]
        rfl
      · rw [if_neg (mt (Utf8.ascii_inj hc (by decide)).mp hbang)]
        exact unexpectedChar_ahead h
  · have hle := hother hc
    have hbyte : ∀ next, punct (latin1 b') next = none :=
      fun next => punct_eq_none (by rw [toNat_latin1]; exact hle) next
    have hbang : b' ≠ ascii '!' := by
      rintro rfl
      exact absurd hle (by decide)
    rw [hbyte, punct_eq_none (Nat.not_lt.mp hc)]
    dsimp only
    rw [if_neg hbang]
    exact unexpectedChar_ahead h

/-! ### Strings -/

/-- What was read of a string, taken over into the state. -/
def acceptQuoted (bx : ByteLexer) (start : ℕ) (contents : List Char) (q : Quoted) :
    Option ByteLexer :=
  if q.panicked then none
  else some
    { bx with
      pos := bx.pos + size q.used
      tokens := bx.tokens ++
        (q.contents.map fun l =>
          ⟨.stringLit (String.ofList (contents ++ l)), ⟨start, bx.pos + size q.used⟩⟩).toList
      errors := bx.errors ++ q.errors
      hadContentOnLine := bx.hadContentOnLine || q.contents.isSome }

variable {start : ℕ} {contents : List Char}

theorem acceptQuoted_push (used : List Char) (c : Char) (q : Quoted) :
    bx.acceptQuoted start contents (q.push used c) =
      (bx.moveTo (bx.pos + size used)).acceptQuoted start (contents ++ [c]) q := by
  simp [acceptQuoted, Quoted.push, moveTo, Function.comp_def, Nat.add_assoc]

theorem acceptQuoted_error (e : LexError) (q : Quoted) :
    bx.acceptQuoted start contents { q with errors := e :: q.errors } =
      (bx.error e.kind e.span).acceptQuoted start contents q := by
  simp [acceptQuoted, error]

theorem acceptQuoted_stop (used : List Char) (e : LexError) :
    bx.acceptQuoted start contents (.stop used e) =
      some ((bx.moveTo (bx.pos + size used)).error e.kind e.span) := by
  simp [acceptQuoted, Quoted.stop, moveTo, error]

theorem acceptQuoted_close (used : List Char) :
    bx.acceptQuoted start contents ⟨used, some [], [], false⟩ =
      some ((bx.moveTo (bx.pos + size used)).emit (.stringLit (String.ofList contents))
        ⟨start, bx.pos + size used⟩) := by
  simp [acceptQuoted, moveTo, emit]

theorem unescape_eq_none {e : Char} (h : 128 ≤ e.toNat) : unescape e = none := by
  unfold unescape
  split <;> first | exact absurd h (by decide) | rfl

/-- An escape that is an ASCII character is read as a character. -/
theorem consumeEscape_ascii {e : Char} (h : Ahead src bx.pos ('\\' :: e :: rest))
    (he : e.toNat < 128) :
    ∃ c bx', consumeEscape src bx = (some c, bx') ∧ Ahead src bx'.pos rest ∧
      bx'.pos = bx.pos + 2 ∧ ∀ start contents q,
        bx.acceptQuoted start contents (Syntax.consumeEscape bx.pos e q) =
          bx'.acceptQuoted start (contents ++ [c]) q := by
  have hone := Utf8.utf8Size_eq_one_iff.mpr he
  have hesc : Ahead src (bx.pos + 1) (e :: rest) := h.cons
  have hafter : Ahead src (bx.pos + 2) rest := by
    have hcons := hesc.cons
    rwa [hone] at hcons
  obtain ⟨b, hb, -, hascii, -⟩ := hesc.byte
  have hsize : size ['\\', e] = 2 := by
    have hslash : ('\\' : Char).utf8Size = 1 := rfl
    simp [hslash, hone]
  unfold consumeEscape Syntax.consumeEscape
  dsimp only
  rw [hb, hascii he]
  dsimp only
  rw [latin1_ascii he]
  cases unescape e with
  | some c =>
    refine ⟨c, _, rfl, hafter, rfl, fun start contents q => ?_⟩
    rw [acceptQuoted_push, hsize]
  | none =>
    refine ⟨e, _, rfl, hafter, rfl, fun start contents q => ?_⟩
    dsimp only
    rw [if_pos hone, acceptQuoted_error, acceptQuoted_push]
    simp only [error, hsize]
    rfl

theorem consumeEscape_end (h : Ahead src bx.pos ['\\']) :
    consumeEscape src bx =
      (none, (bx.moveTo (bx.pos + 1)).error .unterminatedString ⟨bx.pos, bx.pos + 1⟩) := by
  have hend : Ahead src (bx.pos + 1) [] := h.cons
  have hnone : (encode src)[bx.pos + 1]? = none := by rw [hend.getElem?_zero]; rfl
  unfold consumeEscape
  dsimp only
  rw [hnone]

/-- After an escape that is no ASCII character, the cursor is inside of the character. -/
theorem consumeEscape_inside {e : Char} (h : Ahead src bx.pos ('\\' :: e :: rest))
    (he : ¬ e.toNat < 128) :
    ∃ c bx' b, consumeEscape src bx = (some c, bx') ∧ (encode src)[bx'.pos]? = some b ∧
      128 ≤ b.toNat ∧ cut bx'.pos src = none ∧
      (∀ q, (Syntax.consumeEscape bx.pos e q).panicked = true) := by
  have hesc : Ahead src (bx.pos + 1) (e :: rest) := h.cons
  obtain ⟨b, hb, -, -, hother⟩ := hesc.byte
  have hsize : 1 < e.utf8Size := by
    have hpos := e.utf8Size_pos
    have hne := mt Utf8.utf8Size_eq_one_iff.mp he
    omega
  have hnone := unescape_eq_none (e := latin1 b) (by rw [toNat_latin1]; exact hother he)
  have hinside : cut (bx.pos + 2) src = none := hesc.cut_inside Nat.one_pos hsize
  -- the byte at the cursor is the second one of the character
  have hlt : 1 < (String.utf8EncodeChar e).length := by simpa using hsize
  have hbyte : (encode src)[bx.pos + 2]? = some ((String.utf8EncodeChar e)[1]) := by
    rw [hesc.getElem? 1, Utf8.encode_cons, List.getElem?_append_left hlt,
      List.getElem?_eq_getElem hlt]
  have hle := Utf8.le_of_mem_encodeChar he _ (List.getElem_mem hlt)
  refine ⟨latin1 b, (bx.moveTo (bx.pos + 2)).error (.invalidEscape (latin1 b)) ⟨bx.pos, bx.pos + 2⟩,
    _, ?_, hbyte, hle, hinside, fun q => ?_⟩
  · unfold consumeEscape
    dsimp only
    rw [hb]
    dsimp only
    rw [hnone]
  · unfold Syntax.consumeEscape
    rw [unescape_eq_none (Nat.not_lt.mp he)]
    dsimp only
    rw [if_neg (by omega)]

theorem singleLoop_end (h : Ahead src bx.pos []) :
    singleLoop src start contents bx = some (bx.error .unterminatedString ⟨start, bx.pos⟩) := by
  rw [singleLoop, dif_neg (by rw [← h.pos_eq]; exact Nat.lt_irrefl _)]

theorem singleLoop_byte {b : UInt8} (hb : (encode src)[bx.pos]? = some b) :
    singleLoop src start contents bx =
      if b = ascii '"' then
        some ((bx.moveTo (bx.pos + 1)).emit (.stringLit (String.ofList contents))
          ⟨start, bx.pos + 1⟩)
      else if b = ascii '\n' then some (bx.error .unterminatedString ⟨start, bx.pos⟩)
      else if b = ascii '\\' then
        match consumeEscape src bx with
        | (some ch, bx') => singleLoop src start (contents ++ [ch]) bx'
        | (none, bx') => some bx'
      else
        match (cut bx.pos src).bind (·.2.head?) with
        | none => none
        | some ch => singleLoop src start (contents ++ [ch]) (bx.moveTo (bx.pos + ch.utf8Size)) := by
  obtain ⟨hlt, rfl⟩ := List.getElem?_eq_some_iff.mp hb
  rw [singleLoop, dif_pos hlt]
  dsimp only
  split
  next => rfl
  next =>
    split
    next => rfl
    next =>
      split
      next => split <;> simp_all
      next => rfl

theorem singleLoop_inside {b : UInt8} (hb : (encode src)[bx.pos]? = some b) (hle : 128 ≤ b.toNat)
    (hcut : cut bx.pos src = none) : singleLoop src start contents bx = none := by
  rw [singleLoop_byte hb, if_neg (Utf8.ne_ascii hle (by decide)),
    if_neg (Utf8.ne_ascii hle (by decide)), if_neg (Utf8.ne_ascii hle (by decide)), hcut]
  rfl

/-- **The loop over a string reads what the scanner of characters reads.** -/
theorem singleLoop_ahead {pos : ℕ} (h : Ahead src bx.pos rest) (hpos : bx.pos = pos) :
    singleLoop src start contents bx =
      bx.acceptQuoted start contents (lexSingleString start pos rest) := by
  fun_induction lexSingleString start pos rest generalizing contents bx with
  | case1 pos =>
    subst hpos
    rw [singleLoop_end h, acceptQuoted_stop]
    rfl
  | case2 pos rest =>
    obtain ⟨b, hb, -, hascii, -⟩ := h.byte
    rw [singleLoop_byte hb, if_pos (hascii (by decide)), acceptQuoted_close]
    rfl
  | case3 pos rest hquote =>
    subst hpos
    obtain ⟨b, hb, -, hascii, -⟩ := h.byte
    rw [singleLoop_byte hb, hascii (by decide), if_neg (by decide), if_pos rfl, acceptQuoted_stop]
    rfl
  | case4 pos hquote hnl =>
    subst hpos
    obtain ⟨b, hb, -, hascii, -⟩ := h.byte
    rw [singleLoop_byte hb, hascii (by decide), if_neg (by decide), if_neg (by decide), if_pos rfl,
      consumeEscape_end h, acceptQuoted_stop]
    rfl
  | case5 pos e rest hquote hnl ih =>
    subst hpos
    obtain ⟨b, hb, -, hascii, -⟩ := h.byte
    rw [singleLoop_byte hb, hascii (by decide), if_neg (by decide), if_neg (by decide), if_pos rfl]
    by_cases he : e.toNat < 128
    · obtain ⟨c, bx', hescape, hafter, hpos, haccept⟩ := consumeEscape_ascii h he
      rw [hescape, haccept]
      exact ih hafter hpos
    · obtain ⟨c, bx', b', hescape, hb', hle, hcut, hpanic⟩ := consumeEscape_inside h he
      rw [hescape, acceptQuoted, if_pos (hpanic _)]
      exact singleLoop_inside hb' hle hcut
  | case6 pos c rest hquote hnl hslash ih =>
    subst hpos
    obtain ⟨b, hb, -, -, -⟩ := h.byte
    rw [singleLoop_byte hb, if_neg (h.byte_ne hb (by decide) hquote),
      if_neg (h.byte_ne hb (by decide) hnl), if_neg (h.byte_ne hb (by decide) hslash), head_ahead h,
      acceptQuoted_push]
    have hsize : size [c] = c.utf8Size := Nat.add_zero _
    rw [hsize]
    exact ih h.cons rfl

theorem quotes_ahead {pos : ℕ} (h : Ahead src pos rest) :
    ((encode src)[pos]? = some (ascii '"') ∧ (encode src)[pos + 1]? = some (ascii '"') ∧
      (encode src)[pos + 2]? = some (ascii '"')) ↔ tripleQuotes <+: rest := by
  constructor
  · rintro ⟨hfirst, hsecond, hthird⟩
    obtain ⟨after, rfl⟩ := List.head?_eq_some_iff.mp ((h.byte_eq_iff (by decide)).mp hfirst)
    have h' : Ahead src (pos + 1) after := h.cons
    obtain ⟨after, rfl⟩ := List.head?_eq_some_iff.mp ((h'.byte_eq_iff (by decide)).mp hsecond)
    have h'' : Ahead src (pos + 2) after := h'.cons
    obtain ⟨after, rfl⟩ := List.head?_eq_some_iff.mp ((h''.byte_eq_iff (by decide)).mp hthird)
    exact ⟨after, rfl⟩
  · rintro ⟨after, rfl⟩
    have h' : Ahead src (pos + 1) ('"' :: '"' :: after) := h.cons
    have h'' : Ahead src (pos + 2) ('"' :: after) := h'.cons
    exact ⟨(h.byte_eq_iff (by decide)).mpr rfl, (h'.byte_eq_iff (by decide)).mpr rfl,
      (h''.byte_eq_iff (by decide)).mpr rfl⟩

theorem atTripleQuotes_ahead {pos : ℕ} (h : Ahead src pos rest) :
    atTripleQuotes src pos = true ↔ tripleQuotes <+: rest := by
  rw [atTripleQuotes, decide_eq_true_eq, quotes_ahead h]

theorem tripleLoop_end (h : Ahead src bx.pos []) :
    tripleLoop src start contents bx = some (bx.error .unterminatedString ⟨start, bx.pos⟩) := by
  rw [tripleLoop, dif_neg (by rw [← h.pos_eq]; exact Nat.lt_irrefl _)]

theorem tripleLoop_byte {b : UInt8} (hb : (encode src)[bx.pos]? = some b) :
    tripleLoop src start contents bx =
      if atTripleQuotes src bx.pos then
        some ((bx.moveTo (bx.pos + 3)).emit (.stringLit (String.ofList contents))
          ⟨start, bx.pos + 3⟩)
      else if b = ascii '\\' then
        match consumeEscape src bx with
        | (some ch, bx') => tripleLoop src start (contents ++ [ch]) bx'
        | (none, bx') => some bx'
      else
        match (cut bx.pos src).bind (·.2.head?) with
        | none => none
        | some ch => tripleLoop src start (contents ++ [ch]) (bx.moveTo (bx.pos + ch.utf8Size)) := by
  obtain ⟨hlt, rfl⟩ := List.getElem?_eq_some_iff.mp hb
  rw [tripleLoop, dif_pos hlt]
  split
  next => rfl
  next =>
    split
    next => split <;> simp_all
    next => rfl

theorem tripleLoop_inside {b : UInt8} (hb : (encode src)[bx.pos]? = some b) (hle : 128 ≤ b.toNat)
    (hcut : cut bx.pos src = none) : tripleLoop src start contents bx = none := by
  have hquotes : ¬ atTripleQuotes src bx.pos = true := by
    rw [atTripleQuotes, decide_eq_true_eq, hb, Option.some.injEq]
    exact fun h => Utf8.ne_ascii hle (by decide) h.1
  rw [tripleLoop_byte hb, if_neg hquotes, if_neg (Utf8.ne_ascii hle (by decide)), hcut]
  rfl

theorem tripleLoop_ahead {pos : ℕ} (h : Ahead src bx.pos rest) (hpos : bx.pos = pos) :
    tripleLoop src start contents bx =
      bx.acceptQuoted start contents (lexTripleString start pos rest) := by
  fun_induction lexTripleString start pos rest generalizing contents bx with
  | case1 pos =>
    subst hpos
    rw [tripleLoop_end h, acceptQuoted_stop]
    rfl
  | case2 pos c rest hquotes =>
    obtain ⟨b, hb, -, -, -⟩ := h.byte
    rw [tripleLoop_byte hb, if_pos ((atTripleQuotes_ahead h).mpr hquotes), acceptQuoted_close]
    rfl
  | case3 pos hquotes =>
    subst hpos
    obtain ⟨b, hb, -, hascii, -⟩ := h.byte
    rw [tripleLoop_byte hb, if_neg (mt (atTripleQuotes_ahead h).mp hquotes),
      if_pos (hascii (by decide)), consumeEscape_end h, acceptQuoted_stop]
    rfl
  | case4 pos e rest hquotes ih =>
    subst hpos
    obtain ⟨b, hb, -, hascii, -⟩ := h.byte
    rw [tripleLoop_byte hb, if_neg (mt (atTripleQuotes_ahead h).mp hquotes),
      if_pos (hascii (by decide))]
    by_cases he : e.toNat < 128
    · obtain ⟨c, bx', hescape, hafter, hpos, haccept⟩ := consumeEscape_ascii h he
      rw [hescape, haccept]
      exact ih hafter hpos
    · obtain ⟨c, bx', b', hescape, hb', hle, hcut, hpanic⟩ := consumeEscape_inside h he
      rw [hescape, acceptQuoted, if_pos (hpanic _)]
      exact tripleLoop_inside hb' hle hcut
  | case5 pos c rest hquotes hslash ih =>
    subst hpos
    obtain ⟨b, hb, -, -, -⟩ := h.byte
    rw [tripleLoop_byte hb, if_neg (mt (atTripleQuotes_ahead h).mp hquotes),
      if_neg (h.byte_ne hb (by decide) hslash), head_ahead h, acceptQuoted_push]
    have hsize : size [c] = c.utf8Size := Nat.add_zero _
    rw [hsize]
    exact ih h.cons rfl

theorem accept_scan (q : Quoted) (opening : List Char) :
    bx.accept (q.scan opening) =
      (bx.moveTo (bx.pos + size opening)).acceptQuoted bx.pos [] q := by
  cases hcontents : q.contents with
  | none => simp [accept, Quoted.scan, acceptQuoted, moveTo, hcontents, Nat.add_assoc]
  | some l => simp [accept, Quoted.scan, acceptQuoted, moveTo, hcontents, bracketDelta, Nat.add_assoc]

theorem lexString_ahead (h : Ahead src bx.pos ('"' :: rest)) :
    bx.lexString src = bx.accept (Syntax.lexString bx.pos ('"' :: rest)) := by
  have hfirst : (encode src)[bx.pos]? = some (ascii '"') := (h.byte_eq_iff (by decide)).mpr rfl
  have hquotes := quotes_ahead h
  simp only [hfirst, true_and] at hquotes
  unfold lexString Syntax.lexString
  by_cases htriple : tripleQuotes <+: '"' :: rest
  · rw [if_pos (hquotes.mpr htriple), if_pos htriple, accept_scan]
    obtain ⟨after, hafter⟩ := htriple
    rw [← hafter] at h ⊢
    have hmoved : Ahead src (bx.moveTo (bx.pos + 3)).pos after := h.append
    exact tripleLoop_ahead hmoved rfl
  · rw [if_neg (mt hquotes.mp htriple), if_neg htriple, accept_scan]
    have hmoved : Ahead src (bx.moveTo (bx.pos + 1)).pos rest := h.cons
    exact singleLoop_ahead hmoved rfl

end ByteLexer

/-! ## Iterations -/

namespace Lexer

variable {src rest : List Char} {lx : Lexer} {c : Char}

/-- The state on bytes, unless the lexer panicked. -/
def unpanicked (lx : Lexer) : Option ByteLexer :=
  if lx.panicked then none else some lx.toBytes

theorem Sound.ahead (h : lx.Sound src) : Ahead src lx.pos lx.rest :=
  ⟨lx.done.reverse, h.whole, size_reverse lx.done⟩

theorem toBytes_read (used : List Char) :
    (lx.read used rest).toBytes = lx.toBytes.moveTo (lx.pos + size used) := by
  simp [toBytes, read, ByteLexer.moveTo, pos, Nat.add_comm]

theorem accept_toBytes (scan : Scan) :
    lx.toBytes.accept scan = (lx.accept scan).unpanicked := by
  unfold ByteLexer.accept unpanicked
  split
  next hp => rw [if_pos (show (lx.accept scan).panicked = true from hp)]
  next hp =>
    rw [if_neg (show ¬ (lx.accept scan).panicked = true from hp)]
    simp [toBytes, accept, pos, Nat.add_comm]

theorem indentTo_toBytes (start indent : ℕ) :
    lx.toBytes.indentTo start indent = (lx.indentTo start indent).toBytes := by
  unfold indentTo
  dsimp only
  split
  next hlt => exact if_pos hlt
  next hlt =>
    split
    next hgt => exact (if_neg hlt).trans (if_pos hgt)
    next hgt => exact (if_neg hlt).trans (if_neg hgt)

theorem isAfterHashDigestPrefix_toBytes (h : lx.Sound src) :
    ByteLexer.isAfterHashDigestPrefix src lx.pos = some lx.isAfterHashDigestPrefix := by
  have hcut : cut lx.pos src = some (lx.done.reverse, lx.rest) :=
    Utf8.cut_eq_some.mpr ⟨h.whole.symm, size_reverse lx.done⟩
  have hslice : slice src 0 lx.pos = some lx.done.reverse := by
    rw [slice, if_neg (Nat.not_lt_zero _), cut, Option.bind_some, Nat.sub_zero, hcut, Option.map_some]
  rw [ByteLexer.isAfterHashDigestPrefix, hslice, Option.map_some, isAfterHashDigestPrefix]
  congr 2
  rw [← List.reverse_prefix, List.reverse_reverse]

theorem skipWhile_ahead (h : Ahead src lx.pos lx.rest) (q : Char → Bool) :
    Ahead src (lx.skipWhile q).pos (lx.skipWhile q).rest := by
  have happend : Ahead src lx.pos (lx.rest.takeWhile q ++ lx.rest.dropWhile q) := by
    rwa [List.takeWhile_append_dropWhile]
  rw [skipWhile, pos_read, rest_read]
  exact happend.append

theorem skipWhile_toBytes (h : Ahead src lx.pos lx.rest) {p : UInt8 → Bool} {q : Char → Bool}
    (hpq : Matches p q) : lx.toBytes.moveTo (skip src p lx.pos) = (lx.skipWhile q).toBytes := by
  rw [skip_ahead h hpq, skipWhile, toBytes_read]

/-- The bytes of white space are those of its characters. -/
theorem blanks_ahead (h : Ahead src lx.pos lx.rest) {d : Char} (hd : d.toNat < 128) :
    (((encode src).drop lx.pos).takeWhile ByteLexer.isBlankByte).count (ascii d) =
      (lx.rest.takeWhile isSpaceOrTab).count d := by
  rw [h.drop, matches_blank.takeWhile]
  exact Utf8.count_encode hd _

theorem mem_blanks_ahead (h : Ahead src lx.pos lx.rest) {d : Char} (hd : d.toNat < 128) :
    ascii d ∈ ((encode src).drop lx.pos).takeWhile ByteLexer.isBlankByte ↔
      d ∈ lx.rest.takeWhile isSpaceOrTab := by
  rw [← List.count_pos_iff, blanks_ahead h hd, List.count_pos_iff]

theorem endsBlank_byte {b : UInt8} (h : Ahead src lx.pos lx.rest)
    (hb : (encode src)[lx.pos]? = some b) :
    (b = ascii '\n' ∨ b = ascii '\r' ∨ b = ascii '#') ↔ endsBlank lx.rest = true := by
  have hiff : ∀ d : Char, d.toNat < 128 → (b = ascii d ↔ lx.rest.head? = some d) := by
    intro d hd
    rw [← h.byte_eq_iff hd, hb, Option.some.injEq]
  rw [hiff _ (by decide), hiff _ (by decide), hiff _ (by decide), endsBlank]
  cases hrest : lx.rest with
  | nil =>
    rw [h.getElem?_zero, hrest] at hb
    cases hb
  | cons c rest => simp [or_assoc]

theorem endsBlank_end (h : Ahead src lx.pos lx.rest) (hnone : (encode src)[lx.pos]? = none) :
    endsBlank lx.rest = true := by
  cases hrest : lx.rest with
  | nil => rfl
  | cons c rest =>
    rw [hrest] at h
    obtain ⟨b, hb, -⟩ := h.byte
    rw [hnone] at hb
    cases hb

theorem processLineStart_toBytes (h : Ahead src lx.pos lx.rest) :
    lx.toBytes.processLineStart src = lx.processLineStart.toBytes := by
  have hcr := skipWhile_ahead h (· == '\r')
  have hws := skipWhile_ahead hcr isSpaceOrTab
  have hstart : skip src (· == ascii '\r') lx.pos = (lx.skipWhile (· == '\r')).pos :=
    congrArg ByteLexer.pos (skipWhile_toBytes h (Utf8.matches_eq (by decide)))
  have hmove := skipWhile_toBytes hcr matches_blank
  have htab := mem_blanks_ahead hcr (d := '\t') (by decide)
  have hcount := blanks_ahead hcr (d := ' ') (by decide)
  have hsame : ∀ n, lx.toBytes.moveTo n = (lx.skipWhile (· == '\r')).toBytes.moveTo n :=
    fun _ => rfl
  unfold ByteLexer.processLineStart processLineStart
  dsimp only
  rw [show lx.toBytes.pos = lx.pos from rfl, hstart, hsame]
  generalize lx.skipWhile (· == '\r') = lx' at *
  rw [show lx'.pos + (((encode src).drop lx'.pos).takeWhile ByteLexer.isBlankByte).length =
    skip src ByteLexer.isBlankByte lx'.pos from rfl, hmove, hcount]
  generalize lx'.skipWhile isSpaceOrTab = lx'' at *
  rw [show lx''.toBytes.pos = lx''.pos from rfl]
  cases hb : (encode src)[lx''.pos]? with
  | none => rw [if_pos (endsBlank_end hws hb)]
  | some b =>
    dsimp only
    by_cases hblank : endsBlank lx''.rest = true
    · rw [if_pos ((endsBlank_byte hws hb).mpr hblank), if_pos hblank]
    · rw [if_neg (mt (endsBlank_byte hws hb).mp hblank), if_neg hblank]
      by_cases hmem : '\t' ∈ lx'.rest.takeWhile isSpaceOrTab
      · rw [if_pos (htab.mpr hmem), if_pos hmem, ← indentTo_toBytes]
        rfl
      · rw [if_neg (mt htab.mp hmem), if_neg hmem, indentTo_toBytes]

theorem advance_toBytes {c : Char} (hrest : lx.rest = c :: rest) (hc : c.toNat < 128) :
    lx.toBytes.moveTo (lx.pos + 1) = (lx.advance 1).toBytes := by
  rw [advance_eq hrest, toBytes_read, size_cons, Utf8.utf8Size_eq_one_iff.mpr hc]
  rfl

theorem advance_ahead (h : Ahead src lx.pos lx.rest) :
    Ahead src (lx.advance 1).pos (lx.advance 1).rest := by
  have happend : Ahead src lx.pos (lx.rest.take 1 ++ lx.rest.drop 1) := by
    rwa [List.take_append_drop]
  rw [advance, pos_read, rest_read]
  exact happend.append

theorem endLine_toBytes (h : Ahead src lx.pos lx.rest) (hrest : lx.rest = '\n' :: rest) :
    lx.toBytes.endLine src = lx.endLine.toBytes := by
  have hadv := advance_toBytes hrest (by decide)
  have hahead := advance_ahead h
  unfold ByteLexer.endLine endLine
  dsimp only
  rw [show lx.toBytes.pos = lx.pos from rfl, hadv,
    show lx.toBytes.bracketDepth = lx.bracketDepth from rfl,
    show lx.toBytes.hadContentOnLine = lx.hadContentOnLine from rfl]
  split
  · split
    · let ended := (lx.advance 1).emitStructural .newline ⟨lx.pos, (lx.advance 1).pos⟩
      have hended : Ahead src { ended with hadContentOnLine := false }.pos ended.rest := hahead
      exact processLineStart_toBytes hended
    · exact processLineStart_toBytes hahead
  · rfl

@[simp] theorem panicked_indentTo (lx : Lexer) (start indent : ℕ) :
    (lx.indentTo start indent).panicked = lx.panicked := by
  unfold indentTo
  dsimp only
  split
  · rfl
  · split <;> rfl

@[simp] theorem panicked_processLineStart (lx : Lexer) :
    lx.processLineStart.panicked = lx.panicked := by
  unfold processLineStart
  dsimp only
  split
  · rfl
  · rw [panicked_indentTo]
    split <;> rfl

theorem panicked_endLine (lx : Lexer) : lx.endLine.panicked = lx.panicked := by
  unfold endLine
  dsimp only
  split
  · split
    · exact panicked_processLineStart _
    · exact panicked_processLineStart _
  · rfl

theorem scan_toBytes (h : lx.Sound src) (hrest : lx.rest = c :: rest) {b : UInt8}
    (hb : (encode src)[lx.pos]? = some b) :
    (if isDigitByte b then lx.toBytes.lexNumber src
      else if b = ascii '"' then lx.toBytes.lexString src
      else if isIdentStartByte b then lx.toBytes.lexIdentOrKw src
      else lx.toBytes.lexPunct src b) = lx.toBytes.accept (lx.scan c rest) := by
  have hahead : Ahead src lx.toBytes.pos (c :: rest) := hrest ▸ h.ahead
  obtain ⟨b', hb', hmatch, -⟩ := hahead.byte
  obtain rfl : b' = b := Option.some.inj (hb'.symm.trans hb)
  have hquote : b' = ascii '"' ↔ c = '"' := by
    simpa using hmatch _ _ (Utf8.matches_eq (c := '"') (by decide))
  rw [hmatch _ _ matches_digit, hmatch _ _ matches_identStart, scan]
  split
  · exact ByteLexer.lexNumber_ahead hahead (isAfterHashDigestPrefix_toBytes h)
  · by_cases hc : c = '"'
    · rw [if_pos (hquote.mpr hc), if_pos hc]
      subst hc
      exact ByteLexer.lexString_ahead hahead
    · rw [if_neg (mt hquote.mp hc), if_neg hc]
      split
      · exact ByteLexer.lexIdentOrKw_ahead hahead
      · exact ByteLexer.lexPunct_ahead hahead hb

/-- **One iteration on bytes is one on characters.** -/
theorem iterate_toBytes (h : lx.Sound src) (hp : lx.panicked = false) :
    ByteLexer.iterate src (some lx.toBytes) = lx.step.map unpanicked := by
  have hahead := h.ahead
  have hpos : lx.toBytes.pos = lx.pos := rfl
  rw [step, hp, if_neg Bool.false_ne_true, ByteLexer.iterate, hpos]
  cases hrest : lx.rest with
  | nil =>
    rw [hrest] at hahead
    rw [hahead.getElem?_zero]
    rfl
  | cons c rest =>
    rw [hrest] at hahead
    obtain ⟨b, hb, hmatch, -⟩ := hahead.byte
    have heq : ∀ d : Char, d.toNat < 128 → (b = ascii d ↔ c = d) := by
      intro d hd
      simpa using hmatch _ _ (Utf8.matches_eq hd)
    have hblank : (b = ascii ' ' ∨ b = ascii '\t' ∨ b = ascii '\r') ↔
        (c = ' ' ∨ c = '\t' ∨ c = '\r') :=
      or_congr (heq _ (by decide)) (or_congr (heq _ (by decide)) (heq _ (by decide)))
    have hsame : ∀ lx' : Lexer, lx'.panicked = lx.panicked → lx'.unpanicked = some lx'.toBytes :=
      fun lx' hp' => if_neg (by rw [hp', hp]; exact Bool.false_ne_true)
    rw [hb, Option.map_some, Option.map_some, ByteLexer.step]
    congr 1
    by_cases hws : c = ' ' ∨ c = '\t' ∨ c = '\r'
    · have hc : c.toNat < 128 := by rcases hws with rfl | rfl | rfl <;> decide
      rw [if_pos (hblank.mpr hws), if_pos hws, hpos, advance_toBytes hrest hc]
      exact (hsame (lx.advance 1) rfl).symm
    · rw [if_neg (mt hblank.mp hws), if_neg hws]
      by_cases hnl : c = '\n'
      · subst hnl
        rw [if_pos ((heq _ (by decide)).mpr rfl), if_pos rfl, endLine_toBytes h.ahead hrest]
        exact (hsame _ (panicked_endLine lx)).symm
      · rw [if_neg (mt (heq _ (by decide)).mp hnl), if_neg hnl]
        by_cases hhash : c = '#'
        · rw [if_pos ((heq _ (by decide)).mpr hhash), if_pos hhash, hpos]
          have hskip : skip src (· != ascii '\n') lx.pos = lx.pos + size (lx.rest.takeWhile (· != '\n')) :=
            skip_not_ahead h.ahead (Utf8.matches_eq (by decide))
          rw [hsame (lx.skipWhile (· != '\n')) rfl, skipWhile, toBytes_read, hskip]
        · rw [if_neg (mt (heq _ (by decide)).mp hhash), if_neg hhash, scan_toBytes h hrest hb,
            accept_toBytes]

end Lexer

end Corvid.Syntax
