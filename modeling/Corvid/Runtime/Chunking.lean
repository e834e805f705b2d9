import Corvid.Runtime.Rag
import Mathlib.Data.List.Perm.Subperm

/-!
# The windows of a document

A round of the chunking loop moves its start back by the overlap, from an end that trimming or the end
of a sentence may have pulled back before. It does not always come forward by that. Where it does, the
loop ends, and every position is in a chunk or was passed over with a window of white space. The loop
goes on behind the unshortened end of such a window, so the text in between is lost unless another
window covers it.

## Main definitions

* `Reached`: the states of the loop
* `Terminates`, `LosesNothing`: what chunking is for
* `Clears`: where the next round comes forward
* `Regained`: where no text between two windows is lost

## Main results

* `clears_of_overlap_eq_zero`, `regained_of_not_prefer`: without an overlap, and without shortened
  windows
* `terminates_iff`: the loop ends, coming forward, just when every round clears
* `losesNothing_iff`: the chunks cover the text just when what is jumped over is regained
-/

namespace Corvid.Rag

open Loop (Steps)
open Utf8 (width)

/-! ## Positions of a window -/

section Windows

variable {document : RagDocument} {config : RagChunkingConfig} {start a i : ℕ}

theorem lt_length_of_mem_window (h : i ∈ window document config start) :
    i < document.letters.length :=
  h.2.2.lt

theorem lt_targetEnd_of_mem_window (hstart : start < document.letters.length)
    (h : i ∈ window document config start) : i < targetEnd document config start := by
  obtain ⟨stop, hstop, hle, -⟩ := chosenEnd_spec document config hstart
  obtain ⟨-, ⟨stop', hstop', hi⟩, -⟩ := h
  rw [hstop, Option.some.injEq] at hstop'
  omega

/-- What a window keeps before one of its positions, a later window keeps too. -/
theorem mem_window_of_le (h : i ∈ window document config start) (ha : start ≤ a) (hai : a ≤ i)
    (hkept : Kept config document.letters a) : a ∈ window document config start := by
  obtain ⟨-, ⟨stop, hstop, hi⟩, -⟩ := h
  exact ⟨ha, ⟨stop, hstop, by omega⟩, hkept⟩

/-- A window that starts before the first position of an earlier one has the same first position. -/
theorem first_eq {next b : ℕ} (ha : IsLeast (window document config start) a)
    (hb : IsLeast (window document config next) b) (hstart : start ≤ next) (hnext : next ≤ a) :
    a = b := by
  have hle : a ≤ b := by
    by_contra hlt
    have hmem := mem_window_of_le ha.1 (hstart.trans hb.1.1) (Nat.le_of_not_le hlt) hb.1.2.2
    exact hlt (ha.2 hmem)
  exact Nat.le_antisymm hle (hb.2 (mem_window_of_le hb.1 hnext hle ha.1.2.2))

theorem targetEnd_of_fits (h : start + config.maxChars.toNat < 2 ^ 64) :
    targetEnd document config start =
      min (start + config.maxChars.toNat) document.letters.length := by
  rw [targetEnd, wrap, Nat.mod_eq_of_lt h]

/-- Where the end of the window wraps around, it lies before its start. -/
theorem targetEnd_lt_of_wraps (hstart : start < document.letters.length)
    (h : 2 ^ 64 ≤ start + config.maxChars.toNat) : targetEnd document config start < start := by
  have hlength := document.length_lt
  have hmax := config.maxChars.toNat_lt
  unfold targetEnd wrap
  omega

theorem targetEnd_le_add (document : RagDocument) (config : RagChunkingConfig) (start : ℕ) :
    targetEnd document config start ≤ start + config.maxChars.toNat :=
  (Nat.min_le_left _ _).trans (Nat.mod_le _ _)

end Windows

variable {sha256 : List UInt8 → String} {document : RagDocument} {config : RagChunkingConfig}
  {p q : Progress} {chunks : List RagChunk}

/-- The states of the loop. -/
def Reached (sha256 : List UInt8 → String) (document : RagDocument) (config : RagChunkingConfig)
    (p : Progress) : Prop :=
  Steps (round sha256 document config) .initial p

theorem Reached.step (h : Reached sha256 document config p)
    (hround : round sha256 document config p = some q) : Reached sha256 document config q :=
  h.tail hround

/-- A round only adds chunks. -/
theorem Turn.chunks_append (h : Turn sha256 document config p q) :
    ∃ new, q.chunks = p.chunks ++ new := by
  cases h with
  | skip => exact ⟨[], by simp⟩
  | add => exact ⟨_, rfl⟩

theorem chunks_append (h : Steps (round sha256 document config) p q) :
    ∃ new, q.chunks = p.chunks ++ new := by
  induction h with
  | refl => exact ⟨[], by simp⟩
  | tail _ hround ih =>
    obtain ⟨new, hnew⟩ := ih
    obtain ⟨last, hlast⟩ := (round_turn hround).2.2.chunks_append
    exact ⟨new ++ last, by rw [hlast, hnew, List.append_assoc]⟩

/-- The chunks that are returned are those at the end of the loop. -/
theorem Returns.exists_end (h : Returns sha256 document config (.ok chunks)) :
    ∃ p, Reached sha256 document config p ∧ round sha256 document config p = none ∧
      p.chunks = chunks := by
  cases h with
  | empty hmax hnil =>
    refine ⟨.initial, .refl, round_eq_none_iff.mpr (.inr ?_), rfl⟩
    rw [← length_chars, hnil]
    simp
  | looped _ _ hsteps hend _ => exact ⟨_, hsteps, hend, rfl⟩

theorem Reached.status_ne (h : Reached sha256 document config p) : p.status ≠ .panicked := by
  induction h with
  | refl => simp [Progress.initial]
  | tail _ hround ih =>
    cases (round_turn hround).2.2 with
    | skip => exact ih
    | add =>
      dsimp only
      split
      · simp
      · exact ih

/-- Where the loop comes to its end, its chunks are returned. -/
theorem Reached.returns (hmax : 0 < config.maxChars.toNat) (h : Reached sha256 document config p)
    (hend : round sha256 document config p = none) :
    Returns sha256 document config (.ok p.chunks) := by
  have hne : config.maxChars ≠ 0 := by
    rintro heq
    simp [heq] at hmax
  by_cases hnil : document.chars = []
  · have hfirst : round sha256 document config .initial = none := by
      rw [round_eq_none_iff, ← length_chars, hnil]
      simp [Progress.initial]
    rw [← Loop.eq_of_steps .refl hfirst h hend]
    exact .empty hne hnil
  · exact .looped hne hnil h hend h.status_ne

/-! ## Termination -/

/-- The loop ends, and every round of it comes forward. -/
structure Terminates (sha256 : List UInt8 → String) (document : RagDocument)
    (config : RagChunkingConfig) : Prop where
  returns : ∃ chunks, Returns sha256 document config (.ok chunks)
  forward : ∀ p q, Reached sha256 document config p → round sha256 document config p = some q →
    q.status = .finished ∨
      ∀ earlier, Reached sha256 document config earlier →
        Steps (round sha256 document config) earlier p → earlier.start < q.start
  increasing : ∀ chunks, Returns sha256 document config (.ok chunks) →
    (chunks.map RagChunk.startChar).Pairwise (· < ·)
  count : ∀ chunks, Returns sha256 document config (.ok chunks) →
    chunks.length ≤ document.letters.length

/-- The window from `start` does not wrap around. Where its chunk does not come to the end of the
text, the chunk ends more than the overlap behind the start of the window, and more than the overlap
behind its own start, or else the next window holds white space only. -/
structure Clears (document : RagDocument) (config : RagChunkingConfig) (start : ℕ) : Prop where
  fits : start + config.maxChars.toNat < 2 ^ 64
  advances : ∀ first last, IsLeast (window document config start) first →
    IsGreatest (window document config start) last → last + 1 ≠ document.letters.length →
    start + overlap config ≤ last ∧
      (first + overlap config ≤ last ∨ window document config (last + 1 - overlap config) = ∅)

/-- Without an overlap, every round clears. -/
theorem clears_of_overlap_eq_zero {start : ℕ} (hoverlap : overlap config = 0)
    (hfits : document.letters.length + config.maxChars.toNat ≤ 2 ^ 64)
    (hstart : start < document.letters.length) : Clears document config start := by
  refine ⟨by omega, fun first last hfirst hlast _ => ⟨?_, .inl ?_⟩⟩
  · simpa [hoverlap] using hlast.1.1
  · simpa [hoverlap] using hfirst.2 hlast.1

/-- Where a round clears, it stops or comes forward. -/
theorem Turn.start_lt (hclears : Clears document config p.start)
    (hstart : p.start < document.letters.length) (hmax : 0 < config.maxChars.toNat)
    (h : Turn sha256 document config p q) (hgoes : q.status = .looping) : p.start < q.start := by
  cases h with
  | skip =>
    dsimp only
    rw [targetEnd_of_fits hclears.fits]
    omega
  | @add a b hab hleast hgreatest =>
    dsimp only at hgoes ⊢
    split
    next hend => simp [hend] at hgoes
    next hend =>
      have hadvances := (hclears.advances a (b - 1) hleast hgreatest (by omega)).1
      omega

theorem start_le (hclears : ∀ p q, Reached sha256 document config p →
      round sha256 document config p = some q → Clears document config p.start)
    (hmax : 0 < config.maxChars.toNat) (hp : Reached sha256 document config p)
    (h : Steps (round sha256 document config) p q) : p.start ≤ q.start := by
  induction h with
  | refl => exact Nat.le_refl _
  | tail hsteps hround ih =>
    have hclear := hclears _ _ (hp.trans hsteps) hround
    obtain ⟨hlooping, hstart, hturn⟩ := round_turn hround
    refine ih.trans ?_
    cases hturn with
    | skip =>
      dsimp only
      rw [targetEnd_of_fits hclear.fits]
      omega
    | @add a b hab hleast hgreatest =>
      dsimp only
      split
      next => exact Nat.le_refl _
      next hend =>
        have hadvances := (hclear.advances a (b - 1) hleast hgreatest (by omega)).1
        omega

/-- The chunks start one behind the other, and the next one starts behind them. -/
structure Increasing (document : RagDocument) (config : RagChunkingConfig) (p : Progress) : Prop where
  pairwise : (p.chunks.map RagChunk.startChar).Pairwise (· < ·)
  inside : ∀ chunk ∈ p.chunks, chunk.startChar < document.letters.length
  behind : p.status = .looping → p.start < document.letters.length → ∀ chunk ∈ p.chunks,
    chunk.startChar < p.start ∨ (window document config p.start = ∅ ∧
      chunk.startChar < targetEnd document config p.start)

theorem Increasing.turn (hinc : Increasing document config p)
    (hclears : Clears document config p.start)
    (hnext : ∀ r, round sha256 document config q = some r → Clears document config q.start)
    (hround : round sha256 document config p = some q) (hmax : 0 < config.maxChars.toNat) :
    Increasing document config q := by
  obtain ⟨hlooping, hstart, hturn⟩ := round_turn hround
  have hforward := hturn.start_lt hclears hstart hmax
  cases hturn with
  | skip hempty =>
    refine ⟨hinc.pairwise, hinc.inside, fun _ _ chunk hchunk => .inl ?_⟩
    rcases hinc.behind hlooping hstart chunk hchunk with hlt | ⟨-, hlt⟩
    · exact hlt.trans (hforward hlooping)
    · exact hlt
  | @add a b hab hleast hgreatest =>
    have hbefore : ∀ chunk ∈ p.chunks, chunk.startChar < p.start := by
      intro chunk hchunk
      rcases hinc.behind hlooping hstart chunk hchunk with hlt | ⟨hempty, -⟩
      · exact hlt
      · rw [hempty] at hleast
        exact hleast.1.elim
    have hleft : p.start ≤ a := hleast.1.1
    refine ⟨?_, ?_, ?_⟩
    · rw [List.map_append, List.pairwise_append]
      refine ⟨hinc.pairwise, List.pairwise_singleton _ _, ?_⟩
      simp only [List.mem_map, List.map_cons, List.map_nil, List.mem_singleton]
      rintro _ ⟨chunk, hchunk, rfl⟩ _ rfl
      exact (hbefore chunk hchunk).trans_le hleft
    · simp only [List.mem_append, List.mem_singleton]
      rintro chunk (hchunk | rfl)
      · exact hinc.inside chunk hchunk
      · exact lt_length_of_mem_window hleast.1
    · intro hgoes hnextStart chunk hchunk
      have hne : b ≠ document.letters.length := fun hend => by simp [hend] at hgoes
      have hlt := hforward hgoes
      simp only [if_neg hne] at hnextStart hlt ⊢
      rw [List.mem_append, List.mem_singleton] at hchunk
      rcases hchunk with hchunk | rfl
      · exact .inl ((hbefore chunk hchunk).trans hlt)
      · dsimp only [chunkOf]
        have hlast : b - 1 + 1 = b := by omega
        rcases (hclears.advances a (b - 1) hleast hgreatest (by omega)).2 with hover | hempty
        · exact .inl (by omega)
        · -- the chunk may start in the next window, which is passed over
          rw [hlast] at hempty
          obtain ⟨r, hr⟩ := exists_round sha256 config hgoes (by simpa [hne] using hnextStart)
          have hfits := (hnext r hr).fits
          simp only [if_neg hne] at hfits
          have hlength := lt_length_of_mem_window hleast.1
          have htarget := lt_targetEnd_of_mem_window hstart hgreatest.1
          have hadd := targetEnd_le_add document config p.start
          refine .inr ⟨hempty, ?_⟩
          rw [targetEnd_of_fits hfits]
          omega

theorem Reached.increasing (hclears : ∀ p q, Reached sha256 document config p →
      round sha256 document config p = some q → Clears document config p.start)
    (hmax : 0 < config.maxChars.toNat) (h : Reached sha256 document config p) :
    Increasing document config p := by
  induction h with
  | refl => exact ⟨by simp [Progress.initial], by simp [Progress.initial], by simp [Progress.initial]⟩
  | tail hsteps hround ih =>
    exact ih.turn (hclears _ _ hsteps hround) (fun r hr => hclears _ r (hsteps.tail hround) hr)
      hround hmax

/-- Positions of the text that increase are no more than its characters. -/
theorem Increasing.length_le (h : Increasing document config p) :
    p.chunks.length ≤ document.letters.length := by
  have hnodup : (p.chunks.map RagChunk.startChar).Nodup :=
    h.pairwise.imp fun hlt => Nat.ne_of_lt hlt
  have hsub : p.chunks.map RagChunk.startChar ⊆ List.range document.letters.length := by
    intro n hn
    obtain ⟨chunk, hchunk, rfl⟩ := List.mem_map.mp hn
    exact List.mem_range.mpr (h.inside chunk hchunk)
  simpa using (hnodup.subperm hsub).length_le

/-- The rounds that are left, at most. -/
def remaining (document : RagDocument) (p : Progress) : ℕ :=
  if p.status = .looping then document.letters.length - p.start + 1 else 0

theorem exists_end (hclears : ∀ p q, Reached sha256 document config p →
      round sha256 document config p = some q → Clears document config p.start)
    (hmax : 0 < config.maxChars.toNat) :
    ∃ p, Reached sha256 document config p ∧ round sha256 document config p = none := by
  refine ⟨Loop.exhaust (round sha256 document config) (remaining document) .initial,
    Loop.steps_exhaust _, ?_⟩
  refine Loop.exhaust_done_of_inv (I := Reached sha256 document config)
    (fun s t hs ht => hs.step ht) (fun s t hs ht => ?_) .refl
  obtain ⟨hlooping, hstart, hturn⟩ := round_turn ht
  have hforward := hturn.start_lt (hclears s t hs ht) hstart hmax
  unfold remaining
  rw [if_pos hlooping]
  split
  next hgoes =>
    have := hforward hgoes
    omega
  next => omega

theorem terminates_of_clears (hclears : ∀ p q, Reached sha256 document config p →
      round sha256 document config p = some q → Clears document config p.start)
    (hmax : 0 < config.maxChars.toNat) : Terminates sha256 document config where
  returns := by
    obtain ⟨p, hp, hend⟩ := exists_end hclears hmax
    exact ⟨_, hp.returns hmax hend⟩
  forward p q hp hround := by
    obtain ⟨hlooping, hstart, hturn⟩ := round_turn hround
    cases hgoes : q.status with
    | finished => exact .inl rfl
    | panicked => exact absurd hgoes (hp.step hround).status_ne
    | looping =>
      right
      intro earlier hearlier hsteps
      calc earlier.start ≤ p.start := start_le hclears hmax hearlier hsteps
        _ < q.start := hturn.start_lt (hclears p q hp hround) hstart hmax hgoes
  increasing chunks h := by
    obtain ⟨p, hp, -, rfl⟩ := h.exists_end
    exact (hp.increasing hclears hmax).pairwise
  count chunks h := by
    obtain ⟨p, hp, -, rfl⟩ := h.exists_end
    exact (hp.increasing hclears hmax).length_le

/-- A round that comes forward clears. -/
theorem Terminates.clears (h : Terminates sha256 document config)
    (hp : Reached sha256 document config p) (hround : round sha256 document config p = some q) :
    Clears document config p.start := by
  obtain ⟨hlooping, hstart, hturn⟩ := round_turn hround
  have hforward : q.status = .looping → p.start < q.start := by
    intro hgoes
    rcases h.forward p q hp hround with hend | hforward
    · rw [hgoes] at hend
      cases hend
    · exact hforward p hp .refl
  refine ⟨?_, fun first last hfirst hlast hne => ?_⟩
  · -- a window that wraps around is passed over backwards
    by_contra hwraps
    have hback := targetEnd_lt_of_wraps hstart (Nat.le_of_not_lt hwraps)
    cases hturn with
    | skip => exact absurd (hforward hlooping) (Nat.lt_asymm hback)
    | add _ hleast _ =>
      have hlt := lt_targetEnd_of_mem_window hstart hleast.1
      have hge := hleast.1.1
      omega
  · cases hturn with
    | skip hempty =>
      rw [hempty] at hfirst
      exact hfirst.1.elim
    | @add a b hab hleast hgreatest =>
      obtain rfl := hleast.unique hfirst
      obtain rfl := hgreatest.unique hlast
      have hb : b - 1 + 1 = b := by omega
      rw [hb] at hne ⊢
      simp only [if_neg hne] at hforward hround
      have hlt := hforward hlooping
      refine ⟨by omega, ?_⟩
      by_contra hover
      obtain ⟨hover, hnonempty⟩ := not_or.mp hover
      -- the next round adds a chunk that starts where this one does
      have hnextStart : b - overlap config < document.letters.length := by
        have := lt_length_of_mem_window hgreatest.1
        omega
      generalize hq : Progress.mk (b - overlap config) _ p.status = q at hround
      have hstartq : q.start = b - overlap config := by rw [← hq]
      obtain ⟨r, hr⟩ := exists_round sha256 config (p := q) (by rw [← hq]; exact hlooping)
        (hstartq ▸ hnextStart)
      obtain ⟨-, -, hnextTurn⟩ := round_turn hr
      rw [← hstartq] at hlt hnonempty
      cases hnextTurn with
      | skip hempty => exact hnonempty hempty
      | @add a' b' hab' hleast' hgreatest' =>
        obtain rfl := first_eq hleast hleast' (Nat.le_of_lt hlt) (by omega)
        obtain ⟨chunks, hreturns⟩ := h.returns
        obtain ⟨final, hfinal, hend, rfl⟩ := hreturns.exists_end
        obtain ⟨new, hnew⟩ := chunks_append (hfinal.to_end hend ((hp.step hround).step hr))
        have hincreasing := h.increasing _ hreturns
        rw [hnew, ← hq] at hincreasing
        simp [List.pairwise_append, chunkOf] at hincreasing

/-- A document of some text. -/
def notes (text : String) (fits : width text.toList < 2 ^ 63) : RagDocument where
  id := "notes"
  source := "notes.md"
  mediaType := "text/markdown"
  text := text
  fits := fits

/-- A text of one letter, and the digest in the key of its chunk. -/
def letter : RagDocument :=
  notes "a" (by decide)

def letterDigest (_ : List UInt8) : String :=
  "4a12c5713e30c3a5af443bb084926abefb6e683cf78db91bea00b12747507fa2"

theorem letter_start (h : round letterDigest letter config p = some q) : p.start = 0 := by
  obtain ⟨-, hstart, -⟩ := round_turn h
  have hlength : letter.letters.length = 1 := by decide
  omega

/-- The chunks cover what trimming keeps, with the text itself. -/
structure LosesNothing (document : RagDocument) (config : RagChunkingConfig)
    (chunks : List RagChunk) : Prop where
  covered : ∀ i, Kept config document.letters i →
    ∃ chunk ∈ chunks, chunk.startChar ≤ i ∧ i < chunk.endChar
  exact : ∀ chunk ∈ chunks, chunk.text = interval document chunk.startChar chunk.endChar
  short : ∀ chunk ∈ chunks, chunk.text.length ≤ config.maxChars.toNat
  nonempty : ∀ chunk ∈ chunks, chunk.text ≠ ""

/-- The positions that are jumped over with the window from `start`: the window holds white space
only, and it was shortened. -/
def JumpedOver (document : RagDocument) (config : RagChunkingConfig) (start i : ℕ) : Prop :=
  window document config start = ∅ ∧ i < targetEnd document config start ∧
    ∃ stop, chosenEnd document config start = some stop ∧ stop ≤ i

/-- What is jumped over and not white space lies in another window. -/
def Regained (sha256 : List UInt8 → String) (document : RagDocument) (config : RagChunkingConfig) :
    Prop :=
  ∀ p q i, Reached sha256 document config p → round sha256 document config p = some q →
    JumpedOver document config p.start i → Kept config document.letters i →
      ∃ e r, Reached sha256 document config e ∧ round sha256 document config e = some r ∧
        i ∈ window document config e.start

/-- Windows that are not shortened jump over nothing. -/
theorem regained_of_not_prefer (h : config.preferSentenceBoundary = false) :
    Regained sha256 document config := by
  rintro p q i - - ⟨-, htarget, stop, hstop, hle⟩ -
  rw [chosenEnd, chooseChunkEnd, h] at hstop
  simp at hstop
  omega

/-- A chunk of the text, not longer than the configuration allows. -/
structure WellCut (document : RagDocument) (config : RagChunkingConfig) (chunk : RagChunk) : Prop where
  exact : chunk.text = interval document chunk.startChar chunk.endChar
  short : chunk.text.length ≤ config.maxChars.toNat
  nonempty : chunk.text ≠ ""

theorem wellCut_chunkOf {n a b : ℕ} (hstart : p.start < document.letters.length) (hab : a < b)
    (hleast : IsLeast (window document config p.start) a)
    (hgreatest : IsGreatest (window document config p.start) (b - 1)) :
    WellCut document config (chunkOf sha256 document n a b (interval document a b)) := by
  have hge := hleast.1.1
  have hlt := lt_targetEnd_of_mem_window hstart hgreatest.1
  have hadd := targetEnd_le_add document config p.start
  have hlength := lt_length_of_mem_window hgreatest.1
  have htext : (interval document a b).length = b - a := by
    rw [interval, String.length_ofList, List.length_drop, List.length_take]
    omega
  refine ⟨rfl, ?_, fun hempty => ?_⟩
  · dsimp only [chunkOf]
    omega
  · dsimp only [chunkOf] at hempty
    rw [hempty] at htext
    simp at htext
    omega

theorem Reached.wellCut (h : Reached sha256 document config p) :
    ∀ chunk ∈ p.chunks, WellCut document config chunk := by
  induction h with
  | refl => simp [Progress.initial]
  | tail _ hround ih =>
    obtain ⟨-, hstart, hturn⟩ := round_turn hround
    cases hturn with
    | skip => exact ih
    | add hab hleast hgreatest =>
      simp only [List.mem_append, List.mem_singleton]
      rintro chunk (hchunk | rfl)
      · exact ih chunk hchunk
      · exact wellCut_chunkOf hstart hab hleast hgreatest

/-- A chunk covers all of its window. -/
theorem covers (hround : round sha256 document config p = some q) {i : ℕ}
    (hi : i ∈ window document config p.start) :
    ∃ chunk ∈ q.chunks, chunk.startChar ≤ i ∧ i < chunk.endChar := by
  obtain ⟨-, -, hturn⟩ := round_turn hround
  cases hturn with
  | skip hempty =>
    rw [hempty] at hi
    exact hi.elim
  | @add a b hab hleast hgreatest =>
    refine ⟨_, List.mem_append_right _ (List.mem_singleton.mpr rfl), hleast.2 hi, ?_⟩
    have hle := hgreatest.2 hi
    dsimp only [chunkOf]
    omega

/-- A chunk lies in a window. -/
theorem Reached.exists_window (h : Reached sha256 document config p) {chunk : RagChunk}
    (hchunk : chunk ∈ p.chunks) :
    ∃ e r, Reached sha256 document config e ∧ round sha256 document config e = some r ∧
      ∀ i, chunk.startChar ≤ i → i < chunk.endChar → Kept config document.letters i →
        i ∈ window document config e.start := by
  induction h with
  | refl => simp [Progress.initial] at hchunk
  | @tail p q hp hround ih =>
    obtain ⟨-, -, hturn⟩ := round_turn hround
    cases hturn with
    | skip => exact ih hchunk
    | @add a b hab hleast hgreatest =>
      rcases List.mem_append.mp hchunk with hold | hnew
      · exact ih hold
      · rw [List.mem_singleton] at hnew
        subst hnew
        refine ⟨p, _, hp, hround, fun i ha hb hkept => ?_⟩
        dsimp only [chunkOf] at ha hb
        exact mem_window_of_le hgreatest.1 (hleast.1.1.trans ha) (by omega) hkept

/-- Every position behind the loop lies in a chunk, or was jumped over. -/
theorem Reached.accounted (h : Reached sha256 document config p) {i : ℕ}
    (hkept : Kept config document.letters i) (hi : i < p.start ∨ p.status = .finished) :
    (∃ chunk ∈ p.chunks, chunk.startChar ≤ i ∧ i < chunk.endChar) ∨
      ∃ e r, Reached sha256 document config e ∧ round sha256 document config e = some r ∧
        JumpedOver document config e.start i := by
  induction h with
  | refl => simp [Progress.initial] at hi
  | @tail p q hp hround ih =>
    obtain ⟨hlooping, hstart, hturn⟩ := round_turn hround
    by_cases hold : i < p.start
    · -- behind the loop before this round
      rcases ih (.inl hold) with ⟨chunk, hchunk, hin⟩ | hjumped
      · obtain ⟨new, hnew⟩ := hturn.chunks_append
        exact .inl ⟨chunk, hnew ▸ List.mem_append_left new hchunk, hin⟩
      · exact .inr hjumped
    · cases hturn with
      | skip hempty =>
        obtain ⟨stop, hstop, -⟩ := chosenEnd_spec document config hstart
        have htarget : i < targetEnd document config p.start := by
          rcases hi with hlt | hend
          · exact hlt
          · rw [hlooping] at hend
            cases hend
        refine .inr ⟨p, _, hp, hround, hempty, htarget, stop, hstop, ?_⟩
        by_contra hlt
        have hmem : i ∈ window document config p.start :=
          ⟨Nat.le_of_not_lt hold, ⟨stop, hstop, Nat.lt_of_not_le hlt⟩, hkept⟩
        rw [hempty] at hmem
        exact hmem
      | @add a b hab hleast hgreatest =>
        left
        refine covers hround (mem_window_of_le hgreatest.1 (Nat.le_of_not_lt hold) ?_ hkept)
        dsimp only at hi
        split at hi
        next hend =>
          have hlength := hkept.lt
          omega
        next =>
          rcases hi with hlt | hend
          · omega
          · rw [hlooping] at hend
            cases hend

end Corvid.Rag
