import Corvid.Syntax.Simulation

/-!
# Insensitivity to line ends

Where line ends outside strings are replaced by other line ends, the lexer emits tokens of the same
kinds.

## Main definitions

* `Relays`: line ends are replaced outside strings only
* `Lexer.relaySource`: the source with its line ends replaced

## Main results

* `Alike.run`: the run on the relaid source goes along with the run on the source
* `lex_layout`: layout tokens are well formed, and insensitive to how lines end
-/

namespace Corvid.Syntax

/-- The line ends inside the strings among the tokens are kept. -/
def KeepsStrings (tokens : List Token) (f : ℕ → List Char) : Prop :=
  ∀ t ∈ tokens, ∀ s, t.kind = .stringLit s → ∀ p, t.span.start ≤ p → p < t.span.stop → f p = ['\n']

/-- Line ends are replaced by line ends, and those inside strings are kept. -/
structure Relays (tokens : List Token) (f : ℕ → List Char) : Prop where
  ends : ∀ p, LineEnd (f p)
  strings : KeepsStrings tokens f

theorem replaces_relays (tokens : List Token) : Replaces (Relays tokens) where
  ends f h p := (h.ends p).endsLine
  dropCr f h p e he := by
    refine ⟨fun q => ?_, fun t ht s hs q hstart hstop => ?_⟩
    · rcases eq_or_ne q p with rfl | hq
      · rw [Function.update_self]
        obtain ⟨lines, hlines, heq | heq⟩ := h.ends q
        · rw [he] at heq
          cases heq
        · rw [he] at heq
          exact ⟨lines, hlines, .inl (List.cons.inj heq).2⟩
      · rw [Function.update_of_ne hq]
        exact h.ends q
    · have hkept := h.strings t ht s hs q hstart hstop
      rcases eq_or_ne q p with rfl | hq
      · rw [he] at hkept
        cases hkept
      · rwa [Function.update_of_ne hq]

namespace Lexer

/-! ## Whole runs -/

variable {all : List Token} {a b : Lexer}

/-- A token of the source that is read again keeps the line ends inside it. -/
theorem relay_used {f : ℕ → List Char} (hf : Relays all f) {c : Char} {rest : List Char}
    (hc : BeginsToken c) (hok : (a.accept (a.scan c rest)).errors = [])
    (hmem : ∀ t ∈ (a.accept (a.scan c rest)).tokens, t ∈ all) :
    relay f a.pos (a.scan c rest).used = (a.scan c rest).used := by
  have hscan_ok : (a.scan c rest).errors = [] := (List.append_eq_nil_iff.mp hok).2
  rcases (scan_withinLine a hc.2.1 rest hscan_ok).2 with hnl | ⟨s, hs⟩
  · exact relay_of_notMem hnl
  · have htok : (⟨.stringLit s, ⟨a.pos, a.pos + size (a.scan c rest).used⟩⟩ : Token) ∈ all := by
      apply hmem
      simp [Lexer.accept, hs]
    exact relay_eq_self fun q hq hq' => hf.strings _ htok s rfl q hq hq'

/-- A run without an error is simulated. -/
theorem Alike.run {t : Lexer} (h : Alike (Relays all) [] [] a b) (hsteps : Steps a t)
    (hok : t.errors = []) (hmem : ∀ tok ∈ t.tokens, tok ∈ all) :
    ∃ t', Steps b t' ∧ Alike (Relays all) [] [] t t' := by
  induction hsteps using Relation.ReflTransGen.head_induction_on generalizing b with
  | refl => exact ⟨b, .refl, h⟩
  | head hs hrest ih =>
    have hext := extends_steps hrest
    have hok' := List.prefix_nil.mp (hok ▸ hext.errors)
    obtain ⟨b', hb, h'⟩ := h.step (replaces_relays all) hs hok' (fun _ f hf => hf.ends _) (by
      rintro c rest hc - rfl f hf
      exact relay_used hf hc hok' fun tok htok => hmem tok (hext.tokens.subset htok))
    obtain ⟨t', ht, hend⟩ := ih h'
    exact ⟨t', hb.trans ht, hend⟩

/-- At the end of the source the tokens have the same kinds. -/
theorem Alike.finish (h : Alike (Relays all) [] [] a b) :
    b.finish.map Token.kind = a.finish.map Token.kind := by
  obtain ⟨K, ha, hb⟩ := h.kinds
  simp only [Lexer.finish, List.map_append, List.map_replicate, ha, hb, h.content, h.stack]
  split <;> rfl

/-- The source with its line ends replaced. -/
def relaySource (f : ℕ → List Char) (source : String) : String :=
  String.ofList (relay f 0 source.toList)

theorem Alike.start {f : ℕ → List Char} (hf : Relays all f) (source : String)
    (hok : (Lexer.start source).errors = []) :
    Alike (Relays all) [] [] (Lexer.start source) (Lexer.start (relaySource f source)) := by
  have hnew : Alike (Relays all) [] [] (Lexer.new source) (Lexer.new (relaySource f source)) :=
    ⟨⟨f, hf, by simp [Lexer.new, relaySource, pos]⟩, .inr fun _ _ => Iff.rfl, ⟨[], rfl, rfl⟩, rfl, rfl,
      rfl, rfl, rfl⟩
  have hmark : (Lexer.new (relaySource f source)).rest.head? = some '\uFEFF' ↔
      (Lexer.new source).rest.head? = some '\uFEFF' := by
    rw [head?_eq_some_iff, head?_eq_some_iff]
    simp only [Lexer.new, relaySource, String.toList_ofList]
    exact prefix_relay (fun p => (hf.ends p).endsLine) _ (by decide) (by decide) _
  unfold Lexer.start at hok ⊢
  dsimp only at hok ⊢
  by_cases h : (Lexer.new source).rest.head? = some '\uFEFF'
  · rw [if_pos h] at hok ⊢
    rw [if_pos (hmark.mpr h)]
    obtain ⟨rest, hrest⟩ := head?_eq_some_iff.mp h
    exact (hnew.advance (by decide) hrest.symm).processLineStart (replaces_relays all) hok
  · rw [if_neg h] at hok ⊢
    rw [if_neg (mt hmark.mp h)]
    exact hnew.processLineStart (replaces_relays all) hok

end Lexer

/-- **Layout tokens are well formed, and insensitive to how lines end.** The tokens of a source
that lexes end in its only `Eof`, open every indentation before they close it and close them all,
and stand one after another inside the source. Where line ends outside strings become other line
ends, with a carriage return or with lines without content after them, the source lexes to tokens
of the same kinds. -/
theorem lex_layout {source : String} {tokens : List Token} (h : lex source = some (.ok tokens)) :
    WellFormed (size source.toList) tokens ∧
      ∀ f, Relays tokens f → ∃ tokens', lex (Lexer.relaySource f source) = some (.ok tokens') ∧
        tokens'.map Token.kind = tokens.map Token.kind := by
  refine ⟨wellFormed_of_lex h, fun f hf => ?_⟩
  obtain ⟨hrest, hok, -, rfl⟩ := lex_eq_ok h
  have hsteps : Lexer.Steps (Lexer.start source) (Lexer.run source) := Loop.steps_exhaust _
  have hstart_ok : (Lexer.start source).errors = [] :=
    List.prefix_nil.mp (hok ▸ (Lexer.extends_steps hsteps).errors)
  obtain ⟨t', ht, halike⟩ := (Lexer.Alike.start hf source hstart_ok).run hsteps hok
    fun tok htok => by simp [Lexer.finish, htok]
  have hrest' : t'.rest = [] := by
    obtain ⟨g, -, hg⟩ := halike.rest
    rw [hg, hrest, relay_nil]
  have hend : t'.step = none := by simp [Lexer.step, hrest']
  have hrun : Lexer.run (Lexer.relaySource f source) = t' :=
    Loop.exhaust_eq_of_steps (fun _ _ hs => Lexer.rest_step_lt hs) ht hend
  refine ⟨t'.finish, ?_, halike.finish⟩
  unfold lex
  dsimp only
  rw [hrun, halike.panicked, halike.errors]
  rfl

/-- A source whose lines end in a carriage return and a line feed, with a comment line. -/
theorem lex_layout_crlf :
    ∃ tokens tokens', lex "a\n  b\n" = some (.ok tokens) ∧ WellFormed 6 tokens ∧
      lex "a\r\n \t# c\n  b\r\n \t# c\n" = some (.ok tokens') ∧
      tokens'.map Token.kind = tokens.map Token.kind := by
  have hline : BlankLines ([' ', '\t'] ++ ['#', ' ', 'c'] ++ ['\n']) :=
    .line (by simp [isLineSpace]) (.inr ⟨rfl, by simp⟩) .nil
  have hend : LineEnd ['\r', '\n', ' ', '\t', '#', ' ', 'c', '\n'] := ⟨_, hline, .inr rfl⟩
  have hlex : lex "a\n  b\n" = some (.ok [⟨.ident "a", ⟨0, 1⟩⟩, ⟨.newline, ⟨1, 2⟩⟩,
      ⟨.indent, ⟨2, 4⟩⟩, ⟨.ident "b", ⟨4, 5⟩⟩, ⟨.newline, ⟨5, 6⟩⟩, ⟨.dedent, ⟨6, 6⟩⟩,
      ⟨.eof, ⟨6, 6⟩⟩]) := by
    decide +kernel
  obtain ⟨hwf, hsame⟩ := lex_layout hlex
  obtain ⟨tokens', hlex', hkinds⟩ := hsame (fun _ => ['\r', '\n', ' ', '\t', '#', ' ', 'c', '\n'])
    ⟨fun _ => hend, by simp [KeepsStrings]⟩
  exact ⟨_, tokens', hlex, hwf, hlex', hkinds⟩

end Corvid.Syntax
