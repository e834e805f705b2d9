import Corvid.Syntax.Layout
import Mathlib.Data.List.TakeWhile

/-!
# Line ends

A source is relaid when its line ends are written otherwise: as a carriage return and a line feed,
or with blank, white and comment lines after them. The lexer emits tokens of the same kinds for the
relaid source, unless a line end inside a string is touched.

One iteration on the source is simulated by one or more iterations on the relaid source: the
additional ones read carriage returns and blank lines.

## Main definitions

* `LineEnd`: the texts that may stand for a line end
* `relay`: the source with its line ends replaced
* `Lexer.Alike`: the relation between the two runs

## Main results

* `takeWhile_relay`, `prefix_relay`: what a scanner sees is the same
* `scan_relay`: it reads the same token
* `Alike.step`: one iteration is simulated
* `Alike.run`: so is a whole run
-/

namespace Corvid.Syntax

/-! ## Relaid text -/

/-- White space inside a line. -/
def isLineSpace (c : Char) : Bool :=
  c == ' ' || c == '\t' || c == '\r'

/-- Lines without content: white space, then a comment or none, then the end of the line. -/
inductive BlankLines : List Char → Prop
  | nil : BlankLines []
  | line {blanks comment lines : List Char} (hblanks : ∀ c ∈ blanks, isLineSpace c = true)
      (hcomment : comment = [] ∨ comment.head? = some '#' ∧ '\n' ∉ comment)
      (hlines : BlankLines lines) : BlankLines (blanks ++ comment ++ '\n' :: lines)

/-- What may stand for the end of a line: the line feed, with a carriage return before it or not,
and any lines without content after it. -/
def LineEnd (e : List Char) : Prop :=
  ∃ lines, BlankLines lines ∧ (e = '\n' :: lines ∨ e = '\r' :: '\n' :: lines)

/-- A text that begins with the end of a line. -/
def EndsLine (e : List Char) : Prop :=
  ∃ lines, e = '\n' :: lines ∨ e = '\r' :: '\n' :: lines

/-- The text from the offset `p` on, where `f` says what the line end at each offset becomes. -/
def relay (f : ℕ → List Char) (p : ℕ) : List Char → List Char
  | [] => []
  | c :: rest =>
    if c = '\n' then f p ++ relay f (p + c.utf8Size) rest
    else c :: relay f (p + c.utf8Size) rest

section Relay

variable {f : ℕ → List Char} {p : ℕ}

@[simp] theorem relay_nil : relay f p [] = [] := rfl

theorem relay_cons_of_ne {c : Char} (hc : c ≠ '\n') (rest : List Char) :
    relay f p (c :: rest) = c :: relay f (p + c.utf8Size) rest := by
  rw [relay, if_neg hc]

theorem relay_newline (rest : List Char) :
    relay f p ('\n' :: rest) = f p ++ relay f (p + 1) rest := by
  rw [relay, if_pos rfl]
  rfl

theorem relay_append (l m : List Char) :
    relay f p (l ++ m) = relay f p l ++ relay f (p + size l) m := by
  induction l generalizing p with
  | nil => simp
  | cons c l ih =>
    rw [List.cons_append, relay, relay, ih, size_cons, Nat.add_assoc]
    split <;> simp

/-- A text is kept where its line ends are. -/
theorem relay_eq_self {l : List Char} (h : ∀ q, p ≤ q → q < p + size l → f q = ['\n']) :
    relay f p l = l := by
  induction l generalizing p with
  | nil => rfl
  | cons c l ih =>
    have hpos := Char.utf8Size_pos c
    rw [size_cons] at h
    rw [relay, ih fun q hq hq' => h q (by omega) (by omega)]
    split
    next hc => rw [h p (by omega) (by omega), hc]; rfl
    next => rfl

theorem relay_of_notMem {l : List Char} (h : '\n' ∉ l) : relay f p l = l := by
  induction l generalizing p with
  | nil => rfl
  | cons c l ih =>
    simp only [List.mem_cons, not_or] at h
    rw [relay_cons_of_ne (Ne.symm h.1), ih h.2]

/-- The text depends on the line ends from the offset on. -/
theorem relay_congr {g : ℕ → List Char} {l : List Char} (h : ∀ q, p ≤ q → f q = g q) :
    relay f p l = relay g p l := by
  induction l generalizing p with
  | nil => rfl
  | cons c l ih =>
    rw [relay, relay, h p (Nat.le_refl p), ih fun q hq => h q (by omega)]

theorem LineEnd.endsLine {e : List Char} (h : LineEnd e) : EndsLine e := by
  obtain ⟨lines, -, rfl | rfl⟩ := h
  · exact ⟨_, .inl rfl⟩
  · exact ⟨_, .inr rfl⟩

theorem EndsLine.head {e : List Char} (h : EndsLine e) :
    ∃ e', e = '\n' :: e' ∨ e = '\r' :: e' := by
  obtain ⟨lines, rfl | rfl⟩ := h
  · exact ⟨_, .inl rfl⟩
  · exact ⟨_, .inr rfl⟩

/-- The first character of a relaid text, for a test that no line end passes. -/
theorem head_relay (hf : ∀ q, EndsLine (f q)) {q : Char → Bool} (hn : q '\n' = false)
    (hr : q '\r' = false) (l : List Char) : (relay f p l).head?.any q = l.head?.any q := by
  cases l with
  | nil => rfl
  | cons c l =>
    by_cases hc : c = '\n'
    · rw [hc, relay_newline]
      obtain ⟨e, he | he⟩ := (hf p).head
      · simp [he]
      · simp [he, hn, hr]
    · simp [relay_cons_of_ne hc]

/-- A prefix of a relaid text, where it has no line end. -/
theorem prefix_relay (hf : ∀ q, EndsLine (f q)) (pat : List Char) (hn : '\n' ∉ pat) (hr : '\r' ∉ pat)
    (l : List Char) : pat <+: relay f p l ↔ pat <+: l := by
  induction pat generalizing p l with
  | nil => simp
  | cons x pat ih =>
    simp only [List.mem_cons, not_or] at hn hr
    cases l with
    | nil => simp
    | cons c l =>
      by_cases hc : c = '\n'
      · obtain ⟨e, he | he⟩ := (hf p).head
        · simp [hc, relay_newline, he, List.cons_prefix_cons, Ne.symm hn.1]
        · simp [hc, relay_newline, he, List.cons_prefix_cons, Ne.symm hn.1, Ne.symm hr.1]
      · rw [relay_cons_of_ne hc, List.cons_prefix_cons, List.cons_prefix_cons, ih hn.2 hr.2]

theorem notMem_takeWhile {q : Char → Bool} {d : Char} (hd : q d = false) (l : List Char) :
    d ∉ l.takeWhile q := by
  intro h
  have := List.mem_takeWhile_imp h
  simp [hd] at this

theorem relay_split {q : Char → Bool} (hn : q '\n' = false) (l : List Char) :
    relay f p l = l.takeWhile q ++ relay f (p + size (l.takeWhile q)) (l.dropWhile q) := by
  conv_lhs => rw [← List.takeWhile_append_dropWhile (p := q) (l := l)]
  rw [relay_append, relay_of_notMem (notMem_takeWhile hn l)]

/-- A scanner that stops at line ends and carriage returns reads the same. -/
theorem takeWhile_relay (hf : ∀ q, EndsLine (f q)) {q : Char → Bool} (hn : q '\n' = false)
    (hr : q '\r' = false) (l : List Char) :
    (relay f p l).takeWhile q = l.takeWhile q ∧
      (relay f p l).dropWhile q = relay f (p + size (l.takeWhile q)) (l.dropWhile q) := by
  have hall : ∀ c ∈ l.takeWhile q, q c = true := fun c hc => List.mem_takeWhile_imp hc
  have hstop : ∀ c, (relay f (p + size (l.takeWhile q)) (l.dropWhile q)).head? = some c →
      q c = false := by
    intro c hc
    have hany := head_relay (f := f) (p := p + size (l.takeWhile q)) hf hn hr (l.dropWhile q)
    rw [hc] at hany
    cases hd : l.dropWhile q with
    | nil => simp [hd] at hc
    | cons d rest =>
      have hqd : q d = false := by
        have := List.head?_dropWhile_not q l
        simpa [hd] using this
      simpa [hd, hqd] using hany
  rw [relay_split hn l, List.takeWhile_append_of_pos hall, List.dropWhile_append_of_pos hall]
  cases hd : relay f (p + size (l.takeWhile q)) (l.dropWhile q) with
  | nil => simp
  | cons c rest => simp [hstop c (by rw [hd]; rfl)]

end Relay

/-! ## The scanners on relaid text -/

section Scanners

variable {f : ℕ → List Char} {p : ℕ}

theorem isFraction_iff (l : List Char) :
    isFraction l = (['.'].isPrefixOf l && l.tail.head?.any Char.isDigit) := by
  match l with
  | [] => rfl
  | [c] => simp [isFraction]
  | c :: d :: l =>
    by_cases hc : c = '.'
    · simp [isFraction, hc]
    · have : isFraction (c :: d :: l) = false := by
        unfold isFraction
        split
        next d' l' h =>
          rw [List.cons.injEq] at h
          exact absurd h.1 hc
        next => rfl
      simp [this, Ne.symm hc]

theorem relay_tail {l : List Char} {c : Char} (hc : c ≠ '\n') (h : [c] <+: l) :
    ∃ p', (relay f p l).tail = relay f p' l.tail := by
  obtain ⟨rest, rfl⟩ := h
  exact ⟨_, by rw [List.singleton_append, relay_cons_of_ne hc]; rfl⟩

theorem isFraction_relay (hf : ∀ q, EndsLine (f q)) (l : List Char) :
    isFraction (relay f p l) = isFraction l := by
  have hdot := prefix_relay (p := p) hf ['.'] (by decide) (by decide) l
  rw [isFraction_iff, isFraction_iff]
  by_cases h : ['.'] <+: l
  · obtain ⟨p', htail⟩ := relay_tail (f := f) (p := p) (by decide) h
    rw [htail, head_relay hf (by decide) (by decide)]
    simp only [List.isPrefixOf_iff_prefix.mpr h, List.isPrefixOf_iff_prefix.mpr (hdot.mpr h)]
  · have h' := mt hdot.mp h
    rw [← List.isPrefixOf_iff_prefix] at h h'
    simp only [Bool.not_eq_true] at h h'
    rw [h, h', Bool.false_and, Bool.false_and]

theorem lexNumber_relay (hf : ∀ q, EndsLine (f q)) {after : Bool} {start start' : ℕ} {l : List Char}
    (h : (lexNumber after start l).errors = []) :
    lexNumber after start' (relay f p l) = lexNumber after start l := by
  have hhex := (takeWhile_relay (p := p) hf (q := isHexDigit) (by decide) (by decide) l).1
  obtain ⟨hwhole, hrest⟩ := takeWhile_relay (p := p) hf (q := Char.isDigit) (by decide) (by decide) l
  unfold lexNumber at h ⊢
  rw [hhex, hwhole, hrest]
  split
  · rfl
  · rename_i hafter
    rw [if_neg hafter] at h
    dsimp only at h ⊢
    rw [isFraction_relay hf]
    split
    next hfrac =>
      obtain ⟨p', htail⟩ := relay_tail (f := f) (p := p + size (l.takeWhile Char.isDigit))
        (c := '.') (by decide) ⟨_, (isFraction_eq hfrac).symm⟩
      rw [htail, (takeWhile_relay hf (by decide) (by decide) _).1]
    next hfrac =>
      rw [if_neg hfrac] at h
      split
      next => rfl
      next hbig =>
        -- a number that is too large is an error
        rw [if_neg hbig] at h
        cases h

theorem lexIdentOrKw_relay (hf : ∀ q, EndsLine (f q)) (l : List Char) :
    lexIdentOrKw (relay f p l) = lexIdentOrKw l := by
  unfold lexIdentOrKw
  rw [(takeWhile_relay hf (by decide) (by decide) l).1]

/-- Of the next character a token depends on, only two make a difference. -/
theorem punct_congr {c : Char} {next next' : Option Char}
    (hgt : next = some '>' ↔ next' = some '>') (heq : next = some '=' ↔ next' = some '=') :
    punct c next = punct c next' := by
  unfold punct
  split <;> simp only [hgt, heq]

theorem head?_eq_some_iff {c : Char} {l : List Char} : l.head? = some c ↔ [c] <+: l := by
  cases l with
  | nil => simp
  | cons d l => simp [eq_comm]

theorem punct_len {c : Char} {next : Option Char} {kind : TokKind} {len : ℕ}
    (h : punct c next = some (kind, len)) :
    len = 1 ∨ len = 2 ∧ ∃ d, next = some d ∧ (d = '>' ∨ d = '=') := by
  unfold punct at h
  split at h <;>
    first
    | (cases h; exact .inl rfl)
    | (split at h
       next hnext => cases h; exact .inr ⟨rfl, _, hnext, by simp⟩
       next => cases h <;> exact .inl rfl)
    | cases h

theorem lexPunct_relay (hf : ∀ q, EndsLine (f q)) {start start' : ℕ} {c : Char} {l : List Char}
    (h : (lexPunct start c l).errors = []) :
    lexPunct start' c (relay f p l) = lexPunct start c l := by
  have hnext : ∀ d, d ≠ '\n' → d ≠ '\r' → ((relay f p l).head? = some d ↔ l.head? = some d) := by
    intro d hn hr
    rw [head?_eq_some_iff, head?_eq_some_iff]
    exact prefix_relay hf _ (by simpa using hn.symm) (by simpa using hr.symm) l
  unfold lexPunct at h ⊢
  rw [punct_congr (hnext '>' (by decide) (by decide)) (hnext '=' (by decide) (by decide))]
  split
  next kind len hp =>
    -- a token of two characters ends on the one tested
    rcases punct_len hp with rfl | ⟨rfl, d, hd, heq⟩
    · rfl
    · obtain ⟨l, rfl⟩ := List.head?_eq_some_iff.mp hd
      rw [relay_cons_of_ne (by rcases heq with rfl | rfl <;> decide)]
      rfl
  next hp =>
    simp only [hp] at h
    cases h

/-- An escape without an error stands for a character. -/
theorem consumeEscape_ok {pos : ℕ} {e : Char} {q : Quoted}
    (h : (consumeEscape pos e q).errors = []) :
    ∃ c, unescape e = some c ∧ consumeEscape pos e q = q.push ['\\', e] c := by
  unfold consumeEscape at h ⊢
  cases hu : unescape e with
  | some c => exact ⟨c, rfl, rfl⟩
  | none =>
    rw [hu] at h
    dsimp only at h
    split at h <;> cases h

theorem consumeEscape_eq {pos : ℕ} {e c : Char} {q : Quoted} (h : unescape e = some c) :
    consumeEscape pos e q = q.push ['\\', e] c := by
  unfold consumeEscape
  rw [h]

/-- A string without an error has contents, and was sliced between characters. -/
theorem lexSingleString_ok {start pos : ℕ} {l : List Char}
    (h : (lexSingleString start pos l).errors = []) :
    (∃ s, (lexSingleString start pos l).contents = some s) ∧
      (lexSingleString start pos l).panicked = false := by
  fun_induction lexSingleString start pos l with
  | case1 => cases h
  | case2 => exact ⟨⟨_, rfl⟩, rfl⟩
  | case3 => cases h
  | case4 => cases h
  | case5 pos e rest _ _ ih =>
    obtain ⟨c, -, hpush⟩ := consumeEscape_ok h
    rw [hpush] at h ⊢
    obtain ⟨⟨s, hs⟩, hp⟩ := ih h
    exact ⟨⟨c :: s, by simp [Quoted.push, hs]⟩, hp⟩
  | case6 pos c rest _ _ _ ih =>
    obtain ⟨⟨s, hs⟩, hp⟩ := ih h
    exact ⟨⟨c :: s, by simp [Quoted.push, hs]⟩, hp⟩

theorem lexTripleString_ok {start pos : ℕ} {l : List Char}
    (h : (lexTripleString start pos l).errors = []) :
    (∃ s, (lexTripleString start pos l).contents = some s) ∧
      (lexTripleString start pos l).panicked = false := by
  fun_induction lexTripleString start pos l with
  | case1 => cases h
  | case2 => exact ⟨⟨_, rfl⟩, rfl⟩
  | case3 => cases h
  | case4 pos e rest _ ih =>
    obtain ⟨c, -, hpush⟩ := consumeEscape_ok h
    rw [hpush] at h ⊢
    obtain ⟨⟨s, hs⟩, hp⟩ := ih h
    exact ⟨⟨c :: s, by simp [Quoted.push, hs]⟩, hp⟩
  | case5 pos c rest _ _ ih =>
    obtain ⟨⟨s, hs⟩, hp⟩ := ih h
    exact ⟨⟨c :: s, by simp [Quoted.push, hs]⟩, hp⟩

/-- A string is read from the characters it uses alone. -/
theorem lexSingleString_append {start pos : ℕ} {l : List Char}
    (h : (lexSingleString start pos l).errors = []) (start' pos' : ℕ) (more : List Char) :
    lexSingleString start' pos' ((lexSingleString start pos l).used ++ more) =
      lexSingleString start pos l := by
  fun_induction lexSingleString start pos l generalizing pos' with
  | case1 => cases h
  | case2 pos rest =>
    rw [List.singleton_append, lexSingleString.eq_def]
    exact if_pos rfl
  | case3 => cases h
  | case4 => cases h
  | case5 pos e rest hquote hnl ih =>
    obtain ⟨c, hc, hpush⟩ := consumeEscape_ok h
    rw [hpush] at h ⊢
    show lexSingleString start' pos' ('\\' :: e ::
      ((lexSingleString start (pos + 2) rest).used ++ more)) = _
    rw [lexSingleString, if_neg (by decide), if_neg (by decide), if_pos rfl]
    rw [consumeEscape_eq hc, ih h]
  | case6 pos c rest hquote hnl hesc ih =>
    show lexSingleString start' pos' (c ::
      ((lexSingleString start (pos + c.utf8Size) rest).used ++ more)) = _
    rw [lexSingleString.eq_def]
    dsimp only
    rw [if_neg hquote, if_neg hnl, if_neg hesc, ih h]

/-- A string over several lines ends with its three quotes. -/
theorem lexTripleString_used_length {start pos : ℕ} {l : List Char}
    (h : (lexTripleString start pos l).errors = []) :
    3 ≤ (lexTripleString start pos l).used.length := by
  fun_induction lexTripleString start pos l with
  | case1 => cases h
  | case2 => exact Nat.le_refl _
  | case3 => cases h
  | case4 pos e rest _ ih =>
    obtain ⟨c, -, hpush⟩ := consumeEscape_ok h
    rw [hpush] at h ⊢
    have := ih h
    simp [Quoted.push]
    omega
  | case5 pos c rest _ _ ih =>
    have := ih h
    simp [Quoted.push]
    omega

/-- Whether three quotes come next depends on three characters. -/
theorem tripleQuotes_prefix_congr {l m : List Char} (h : l.take 3 = m.take 3) :
    tripleQuotes <+: l ↔ tripleQuotes <+: m := by
  rw [List.prefix_iff_eq_take, List.prefix_iff_eq_take]
  show tripleQuotes = l.take 3 ↔ tripleQuotes = m.take 3
  rw [h]

theorem take_three_append {used l : List Char} (more : List Char) (c : Char) (h : used <+: l)
    (hlen : 3 ≤ used.length) : (c :: l).take 3 = (c :: (used ++ more)).take 3 := by
  obtain ⟨rest, rfl⟩ := h
  rw [List.take_succ_cons, List.take_succ_cons, List.take_append_of_le_length (by omega),
    List.take_append_of_le_length (by omega)]

theorem lexTripleString_append {start pos : ℕ} {l : List Char}
    (h : (lexTripleString start pos l).errors = []) (start' pos' : ℕ) (more : List Char) :
    lexTripleString start' pos' ((lexTripleString start pos l).used ++ more) =
      lexTripleString start pos l := by
  fun_induction lexTripleString start pos l generalizing pos' with
  | case1 => cases h
  | case2 pos c rest hquotes =>
    show lexTripleString start' pos' ('"' :: ('"' :: '"' :: more)) = _
    rw [lexTripleString, if_pos ⟨more, rfl⟩]
  | case3 => cases h
  | case4 pos e rest hquotes ih =>
    obtain ⟨c, hc, hpush⟩ := consumeEscape_ok h
    rw [hpush] at h ⊢
    show lexTripleString start' pos' ('\\' :: e ::
      ((lexTripleString start (pos + 2) rest).used ++ more)) = _
    rw [lexTripleString, if_neg (by rw [tripleQuotes, List.cons_prefix_cons]; simp), if_pos rfl]
    rw [consumeEscape_eq hc, ih h]
  | case5 pos c rest hquotes hesc ih =>
    -- the quotes that close the string are still ahead
    have hlen := lexTripleString_used_length h
    have htake := take_three_append more c
      (lexTripleString_used start (pos + c.utf8Size) rest) hlen
    show lexTripleString start' pos' (c ::
      ((lexTripleString start (pos + c.utf8Size) rest).used ++ more)) = _
    rw [lexTripleString.eq_def]
    dsimp only
    rw [if_neg (mt (tripleQuotes_prefix_congr htake).mpr hquotes), if_neg hesc, ih h]

/-- A string is kept with its line ends, so it is read again. -/
theorem lexString_relay (hf : ∀ q, EndsLine (f q)) {start start' : ℕ} {l : List Char}
    (hquote : l.head? = some '"') (h : (lexString start l).errors = [])
    (hkept : relay f p (lexString start l).used = (lexString start l).used) :
    lexString start' (relay f p l) = lexString start l := by
  have hquotes : tripleQuotes <+: relay f p l ↔ tripleQuotes <+: l :=
    prefix_relay hf _ (by decide) (by decide) l
  unfold lexString at h hkept ⊢
  by_cases ht : tripleQuotes <+: l
  · rw [if_pos ht] at h hkept ⊢
    rw [if_pos (hquotes.mpr ht)]
    obtain ⟨rest, rfl⟩ := ht
    have hdrop : (tripleQuotes ++ rest).drop 3 = rest := rfl
    rw [hdrop] at h hkept ⊢
    obtain ⟨after, hafter⟩ := lexTripleString_used start (start + 3) rest
    have hrelay : (relay f p (tripleQuotes ++ rest)).drop 3 =
        (lexTripleString start (start + 3) rest).used ++
          relay f (p + size (tripleQuotes ++ (lexTripleString start (start + 3) rest).used))
            after := by
      conv_lhs => rw [← hafter, ← List.append_assoc, relay_append]
      rw [show relay f p (tripleQuotes ++ _) = tripleQuotes ++ _ from hkept, List.append_assoc]
      rfl
    rw [hrelay, lexTripleString_append h]
  · rw [if_neg ht] at h hkept ⊢
    rw [if_neg (mt hquotes.mp ht)]
    cases l with
    | nil => cases hquote
    | cons c rest =>
      obtain rfl : c = '"' := Option.some.inj hquote
      rw [List.tail_cons] at h hkept ⊢
      obtain ⟨after, hafter⟩ := lexSingleString_used start (start + 1) rest
      have hrelay : (relay f p ('"' :: rest)).tail =
          (lexSingleString start (start + 1) rest).used ++
            relay f (p + size (['"'] ++ (lexSingleString start (start + 1) rest).used))
              after := by
        conv_lhs =>
          rw [← hafter, ← List.singleton_append, ← List.append_assoc, relay_append]
        rw [show relay f p (['"'] ++ _) = ['"'] ++ _ from hkept, List.append_assoc]
        rfl
      rw [hrelay, lexSingleString_append h]

/-! ### Line ends inside tokens -/

/-- A scan that panics has an error; one without an error spans a line end only as a string. -/
def Scan.WithinLine (scan : Scan) : Prop :=
  scan.errors = [] →
    scan.panicked = false ∧ ('\n' ∉ scan.used ∨ ∃ s, scan.kind = some (.stringLit s))

theorem withinLine_token {used : List Char} {kind : TokKind} (h : '\n' ∉ used) :
    (Scan.token used kind).WithinLine :=
  fun _ => ⟨rfl, .inl h⟩

theorem withinLine_error (used : List Char) (e : LexError) : (Scan.error used e).WithinLine :=
  fun h => by cases h

theorem lexNumber_withinLine (after : Bool) (start : ℕ) (l : List Char) :
    (lexNumber after start l).WithinLine := by
  have hdigits := notMem_takeWhile (q := Char.isDigit) (d := '\n') (by decide)
  unfold lexNumber
  split
  · exact withinLine_token (notMem_takeWhile (by decide) l)
  · dsimp only
    split
    · apply withinLine_token
      simp only [List.mem_append, List.mem_cons, not_or]
      exact ⟨hdigits l, by decide, hdigits _⟩
    · split
      · exact withinLine_token (hdigits l)
      · exact withinLine_error _ _

theorem lexPunct_withinLine (start : ℕ) {c : Char} (hc : c ≠ '\n') (l : List Char) :
    (lexPunct start c l).WithinLine := by
  unfold lexPunct
  split
  next kind len hp =>
    apply withinLine_token
    rcases punct_len hp with rfl | ⟨rfl, d, hd, heq⟩
    · simpa using hc.symm
    · obtain ⟨l, rfl⟩ := List.head?_eq_some_iff.mp hd
      have hne : d ≠ '\n' := by rcases heq with rfl | rfl <;> decide
      simp [hc.symm, hne.symm]
  next => exact withinLine_error _ _

theorem lexString_withinLine (start : ℕ) (l : List Char) : (lexString start l).WithinLine := by
  unfold lexString
  split
  · intro h
    obtain ⟨⟨s, hs⟩, hp⟩ := lexTripleString_ok h
    exact ⟨hp, .inr ⟨String.ofList s, by simp [Quoted.scan, hs]⟩⟩
  · intro h
    obtain ⟨⟨s, hs⟩, hp⟩ := lexSingleString_ok h
    exact ⟨hp, .inr ⟨String.ofList s, by simp [Quoted.scan, hs]⟩⟩

theorem Lexer.scan_withinLine (lx : Lexer) {c : Char} (hc : c ≠ '\n') (rest : List Char) :
    (lx.scan c rest).WithinLine := by
  unfold Lexer.scan
  split
  · exact lexNumber_withinLine _ _ _
  · split
    · exact lexString_withinLine _ _
    · split
      · exact withinLine_token (notMem_takeWhile (by decide) _)
      · exact lexPunct_withinLine _ hc rest

end Scanners

end Corvid.Syntax
