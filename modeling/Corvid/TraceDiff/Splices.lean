import Corvid.Lib.Utf8
import Mathlib.Data.List.Sort

/-!
# Splices

Localised edits of a source text, each of them a range of bytes and the text to put in its place. The
ranges are checked one by one, sorted by their starts, and compared with their neighbours. An
insertion and a longer range that start at the same byte stay in the order in which they come in, and
only one of the two orders passes.

## Main definitions

* `applySplices`: the source with all splices applied
* `Spliced`: a text put together from untouched segments and replacements
* `Rejectable`: the splices that have to be rejected
* `Exact`: the result does not depend on the order of the splices, and it is the right one

## Main results

* `exact_iff`: this is so, unless an insertion falls on a longer range
-/

namespace Corvid.TraceDiff

open Utf8 (width cut)

/-- `Range<usize>`, from `start` up to `stop`. -/
structure ByteRange where
  start : ℕ
  stop : ℕ
deriving DecidableEq, Repr

structure SpliceOp where
  range : ByteRange
  replacement : List Char
deriving DecidableEq, Repr

inductive SpliceError where
  | overlap (firstRange secondRange : ByteRange)
  | outOfBounds (range : ByteRange) (sourceLen : ℕ)
  | invertedRange (range : ByteRange)
  | notCharBoundary (offset : ℕ)
deriving DecidableEq, Repr

def isCharBoundary (source : List Char) (offset : ℕ) : Bool :=
  (cut offset source).isSome

/-- The checks of a single splice. -/
def checkRange (source : List Char) (splice : SpliceOp) : Except SpliceError Unit :=
  if splice.range.stop < splice.range.start then .error (.invertedRange splice.range)
  else if width source < splice.range.stop then
    .error (.outOfBounds splice.range (width source))
  else if !isCharBoundary source splice.range.start then
    .error (.notCharBoundary splice.range.start)
  else if !isCharBoundary source splice.range.stop then
    .error (.notCharBoundary splice.range.stop)
  else .ok ()

/-- The check of two neighbours in the order of starts. -/
def checkWindow (a b : SpliceOp) : Except SpliceError Unit :=
  if b.range.start < a.range.stop then .error (.overlap a.range b.range)
  else if a.range.start = b.range.start ∧ a.range.stop = a.range.start ∧
      b.range.stop = b.range.start then
    .error (.overlap a.range b.range)
  else .ok ()

def checkWindows : List SpliceOp → Except SpliceError Unit
  | a :: b :: splices => do
    checkWindow a b
    checkWindows (b :: splices)
  | _ => .ok ()

/-- `String::replace_range`. It panics on a range that is inverted or out of bounds, and inside a
character. -/
def replaceRange (splice : SpliceOp) (text : List Char) : Option (List Char) := do
  let (before, _) ← cut splice.range.start text
  let (kept, after) ← cut splice.range.stop text
  if kept.length < before.length then none
  else some (before ++ splice.replacement ++ after)

/-- The source with all splices applied, or an error; no answer where it panics. The sort is
stable. -/
def applySplices (source : List Char) (splices : List SpliceOp) :
    Option (Except SpliceError (List Char)) :=
  if splices.isEmpty then some (.ok source)
  else
    match splices.forM (checkRange source) with
    | .error e => some (.error e)
    | .ok () =>
      let splices := splices.insertionSort fun a b => a.range.start ≤ b.range.start
      match checkWindows splices with
      | .error e => some (.error e)
      | .ok () => (splices.reverse.foldlM (fun result splice => replaceRange splice result) source).map .ok

/-! ### What it is for -/

/-- The text of a source from the byte `offset` on, put together from untouched segments and the
replacements of splices, in the order of the source. -/
inductive Spliced : ℕ → List Char → List SpliceOp → List Char → Prop
  | nil {offset : ℕ} {source : List Char} : Spliced offset source [] source
  | cons {offset : ℕ} {segment gone rest : List Char} {splice : SpliceOp} {splices : List SpliceOp}
      {text : List Char} (hstart : splice.range.start = offset + width segment)
      (hstop : splice.range.stop = splice.range.start + width gone)
      (hrest : Spliced splice.range.stop rest splices text) :
      Spliced offset (segment ++ (gone ++ rest)) (splice :: splices)
        (segment ++ (splice.replacement ++ text))

namespace SpliceOp

structure WellFormed (source : List Char) (splice : SpliceOp) : Prop where
  le : splice.range.start ≤ splice.range.stop
  bound : splice.range.stop ≤ width source
  start : isCharBoundary source splice.range.start
  stop : isCharBoundary source splice.range.stop

def IsInsertion (splice : SpliceOp) : Prop :=
  splice.range.start = splice.range.stop

def ShareByte (a b : SpliceOp) : Prop :=
  ∃ byte, (a.range.start ≤ byte ∧ byte < a.range.stop) ∧ (b.range.start ≤ byte ∧ byte < b.range.stop)

/-- Two splices that can both be applied: they share no byte, and they are not two insertions at one
offset. -/
structure Apart (a b : SpliceOp) : Prop where
  bytes : ¬ ShareByte a b
  insertions : ¬ (a.IsInsertion ∧ b.IsInsertion ∧ a.range.start = b.range.start)

/-- An insertion at the start of a longer range, or inside it. -/
structure FallsOn (a b : SpliceOp) : Prop where
  insertion : a.IsInsertion
  le : b.range.start ≤ a.range.start
  lt : a.range.start < b.range.stop

/-- One splice comes before another, and not as an insertion at the same offset. -/
structure Before (a b : SpliceOp) : Prop where
  le : a.range.stop ≤ b.range.start
  insertions : ¬ (a.range.start = b.range.start ∧ a.range.stop = a.range.start ∧
    b.range.stop = b.range.start)

end SpliceOp

open SpliceOp

/-- Splices that have to be rejected. -/
def Rejectable (source : List Char) (splices : List SpliceOp) : Prop :=
  (∃ splice ∈ splices, ¬ splice.WellFormed source) ∨ ¬ splices.Pairwise Apart

/-- The result does not depend on the order of the splices, up to the error, a text is put together in
the order of the source, and there is an error exactly if there has to be one. -/
structure Exact (source : List Char) (splices : List SpliceOp) : Prop where
  orderFree : ∀ splices', splices'.Perm splices →
    (applySplices source splices').map Except.toOption =
      (applySplices source splices).map Except.toOption
  spliced : ∀ text, applySplices source splices = some (.ok text) →
    ∃ ordered, ordered.Perm splices ∧ Spliced 0 source ordered text
  error_iff : (∃ e, applySplices source splices = some (.error e)) ↔ Rejectable source splices

/-! ### The checks -/

section Checks

variable {source : List Char} {splice a b c : SpliceOp} {splices : List SpliceOp}

theorem checkRange_eq_ok : checkRange source splice = .ok () ↔ splice.WellFormed source := by
  unfold checkRange
  constructor
  · intro h
    split at h
    · cases h
    rename_i hle
    split at h
    · cases h
    rename_i hbound
    split at h
    · cases h
    rename_i hstart
    split at h
    · cases h
    rename_i hstop
    exact ⟨by omega, by omega, by simpa using hstart, by simpa using hstop⟩
  · intro h
    rw [if_neg (not_lt.mpr h.le), if_neg (not_lt.mpr h.bound)]
    simp [h.start, h.stop]

theorem forM_eq_ok {ε α : Type} {f : α → Except ε Unit} {l : List α} :
    l.forM f = .ok () ↔ ∀ x ∈ l, f x = .ok () := by
  induction l with
  | nil => simp [pure, Except.pure]
  | cons x l ih =>
    rw [List.forall_mem_cons]
    show (f x >>= fun _ => l.forM f) = _ ↔ _
    cases hx : f x with
    | error e => simp [bind, Except.bind]
    | ok u => simpa [bind, Except.bind] using ih

theorem checkWindow_eq_ok : checkWindow a b = .ok () ↔ a.Before b := by
  unfold checkWindow
  constructor
  · intro h
    split at h
    · cases h
    rename_i hle
    split at h
    · cases h
    rename_i hinsertions
    exact ⟨not_lt.mp hle, hinsertions⟩
  · intro h
    rw [if_neg (not_lt.mpr h.le), if_neg h.insertions]

theorem checkWindows_eq_ok : checkWindows splices = .ok () ↔ splices.IsChain Before := by
  induction splices with
  | nil => simp [checkWindows]
  | cons a splices ih =>
    cases splices with
    | nil => simp [checkWindows]
    | cons b splices =>
      rw [checkWindows, List.isChain_cons_cons, ← ih, ← checkWindow_eq_ok]
      cases hab : checkWindow a b with
      | error e => simp [bind, Except.bind]
      | ok u => simp [bind, Except.bind]

theorem SpliceOp.Before.trans (hb : b.range.start ≤ b.range.stop) (hab : a.Before b) (hbc : b.Before c) :
    a.Before c := by
  refine ⟨hab.le.trans (hb.trans hbc.le), fun ⟨hac, ha, hc⟩ => ?_⟩
  -- what comes between two insertions at one offset is a third one
  have hab' := hab.le
  have hbc' := hbc.le
  exact hab.insertions ⟨by omega, ha, by omega⟩

/-- Neighbours suffice: splices that come before their neighbours come before all others. -/
theorem isChain_before_iff (h : ∀ splice ∈ splices, splice.range.start ≤ splice.range.stop) :
    splices.IsChain Before ↔ splices.Pairwise Before := by
  constructor
  · intro hchain
    induction splices with
    | nil => exact .nil
    | cons a splices ih =>
      rw [List.forall_mem_cons] at h
      have htail := ih h.2 hchain.of_cons
      refine List.pairwise_cons.mpr ⟨fun c hc => ?_, htail⟩
      cases splices with
      | nil => cases hc
      | cons b splices =>
        have hab : a.Before b := (List.isChain_cons_cons.mp hchain).1
        rcases List.mem_cons.mp hc with rfl | hc
        · exact hab
        · exact hab.trans (h.2 b List.mem_cons_self) ((List.pairwise_cons.mp htail).1 c hc)
  · exact List.Pairwise.isChain

end Checks

/-! ### The text -/

section Texts

variable {source : List Char} {splices : List SpliceOp} {offset : ℕ} {text : List Char}

theorem replaceRange_append {splice : SpliceOp} (before : List Char) {gone : List Char}
    (after : List Char)
    (hstart : splice.range.start = width before)
    (hstop : splice.range.stop = splice.range.start + width gone) :
    replaceRange splice (before ++ (gone ++ after)) =
      some (before ++ (splice.replacement ++ after)) := by
  have hbefore : cut splice.range.start (before ++ (gone ++ after)) = some (before, gone ++ after) := by
    rw [hstart, Utf8.cut_append]
  have hafter : cut splice.range.stop (before ++ (gone ++ after)) = some (before ++ gone, after) := by
    rw [hstop, hstart, ← Utf8.width_append, ← List.append_assoc, Utf8.cut_append]
  simp [replaceRange, hbefore, hafter]

/-- Applied from the last one on, splices put the text together: an earlier splice finds the source
before it as it was. -/
theorem Spliced.foldrM (h : Spliced offset source splices text) (before : List Char)
    (hbefore : width before = offset) :
    splices.foldrM replaceRange (before ++ source) = some (before ++ text) := by
  induction h generalizing before with
  | nil => rfl
  | @cons offset segment gone rest splice splices text hstart hstop hrest ih =>
    have hrest' := @ih (before ++ (segment ++ gone)) (by simp only [Utf8.width_append]; omega)
    have hreplace := replaceRange_append (before ++ segment) text
      (by rw [Utf8.width_append]; omega) hstop
    simp only [List.append_assoc] at hrest' hreplace
    rw [List.foldrM_cons, hrest']
    exact hreplace

theorem exists_spliced (before : List Char) {rest : List Char} (hsource : source = before ++ rest)
    (hformed : ∀ splice ∈ splices, splice.WellFormed source)
    (hbefore : ∀ splice ∈ splices, width before ≤ splice.range.start)
    (hpairs : splices.Pairwise Before) : ∃ text, Spliced (width before) rest splices text := by
  induction splices generalizing before rest with
  | nil => exact ⟨rest, .nil⟩
  | cons splice splices ih =>
    rw [List.forall_mem_cons] at hformed hbefore
    obtain ⟨hsplice, hformed⟩ := hformed
    obtain ⟨hfirst, hpairs⟩ := List.pairwise_cons.mp hpairs
    obtain ⟨⟨a, b⟩, hcut⟩ := Option.isSome_iff_exists.mp hsplice.start
    obtain ⟨hab, ha⟩ := Utf8.cut_eq_some.mp hcut
    obtain ⟨⟨a', b'⟩, hcut'⟩ := Option.isSome_iff_exists.mp hsplice.stop
    obtain ⟨hab', ha'⟩ := Utf8.cut_eq_some.mp hcut'
    -- the untouched segment up to the start, and what the range covers
    obtain ⟨segment, rfl, rfl⟩ := Utf8.exists_append_of_width_le (hsource.symm.trans hab)
      (hbefore.1.trans_eq ha.symm)
    obtain ⟨gone, rfl, rfl⟩ := Utf8.exists_append_of_width_le (hab.symm.trans hab')
      (by rw [ha, ha']; exact hsplice.le)
    have hrest : ∀ splice' ∈ splices, width (before ++ segment ++ gone) ≤ splice'.range.start := by
      intro splice' hsplice'
      rw [ha']
      exact (hfirst splice' hsplice').le
    obtain ⟨text, htext⟩ := ih (before ++ segment ++ gone) hab' hformed hrest hpairs
    rw [ha'] at htext
    refine ⟨_, .cons ?_ ?_ htext⟩
    · rw [← ha, Utf8.width_append]
    · rw [← ha', ← ha, Utf8.width_append]

/-- The splices in the order of their starts, as the sort leaves them. -/
def sorted (splices : List SpliceOp) : List SpliceOp :=
  splices.insertionSort fun a b => a.range.start ≤ b.range.start

theorem sorted_perm (splices : List SpliceOp) : (sorted splices).Perm splices :=
  List.perm_insertionSort _ _

/-- The splices that pass, and the text that comes out. -/
theorem applySplices_of_passes (hformed : ∀ splice ∈ splices, splice.WellFormed source)
    (hpairs : (sorted splices).Pairwise Before) :
    ∃ text, Spliced 0 source (sorted splices) text ∧ applySplices source splices = some (.ok text) := by
  have hformed' : ∀ splice ∈ sorted splices, splice.WellFormed source := fun splice h =>
    hformed splice ((sorted_perm splices).mem_iff.mp h)
  obtain ⟨text, htext⟩ := exists_spliced [] rfl hformed' (fun _ _ => Nat.zero_le _) hpairs
  refine ⟨text, htext, ?_⟩
  have hfold := htext.foldrM [] rfl
  have hchecks : splices.forM (checkRange source) = .ok () :=
    forM_eq_ok.mpr fun splice h => checkRange_eq_ok.mpr (hformed splice h)
  have hwindows : checkWindows (sorted splices) = .ok () :=
    checkWindows_eq_ok.mpr hpairs.isChain
  unfold applySplices
  split
  next hempty =>
    obtain rfl := List.isEmpty_iff.mp hempty
    cases htext
    rfl
  next =>
    unfold sorted at hwindows hfold
    rw [hchecks]
    simp only [hwindows, List.foldlM_reverse]
    rw [← List.nil_append source, hfold]
    rfl

theorem applySplices_of_fails
    (h : ¬ ((∀ splice ∈ splices, splice.WellFormed source) ∧ (sorted splices).Pairwise Before)) :
    ∃ e, applySplices source splices = some (.error e) := by
  unfold applySplices
  split
  next hempty =>
    obtain rfl := List.isEmpty_iff.mp hempty
    exact absurd ⟨by simp, List.Pairwise.nil⟩ h
  next =>
    split
    next e _ => exact ⟨e, rfl⟩
    next hchecks =>
      have hformed : ∀ splice ∈ splices, splice.WellFormed source := fun splice hs =>
        checkRange_eq_ok.mp (forM_eq_ok.mp hchecks splice hs)
      dsimp only
      split
      next e _ => exact ⟨e, rfl⟩
      next hwindows =>
        have hle : ∀ splice ∈ sorted splices, splice.range.start ≤ splice.range.stop :=
          fun splice hs => (hformed splice ((sorted_perm splices).mem_iff.mp hs)).le
        exact absurd ⟨hformed, (isChain_before_iff hle).mp (checkWindows_eq_ok.mp hwindows)⟩ h

end Texts

/-! ### Orders of splices -/

section Orders

variable {source : List Char} {splices splices' : List SpliceOp} {a b : SpliceOp}

theorem SpliceOp.Before.apart (hb : b.range.start ≤ b.range.stop) (h : a.Before b) : a.Apart b := by
  refine ⟨fun ⟨byte, hbytea, hbyteb⟩ => ?_, fun ⟨ha, hinsert, hab⟩ => ?_⟩
  · have hle := h.le
    omega
  · exact h.insertions ⟨hab, ha.symm, hinsert.symm⟩

instance : Std.Symm Apart where
  symm a b h := by
    refine ⟨fun ⟨byte, hb, ha⟩ => h.bytes ⟨byte, ha, hb⟩, fun ⟨hb, ha, hba⟩ => ?_⟩
    exact h.insertions ⟨ha, hb, hba.symm⟩

/-- In the order of starts, the second of two splices that are apart can only fall on the first. -/
theorem SpliceOp.Apart.before (hab : a.Apart b) (hb : b.range.start ≤ b.range.stop)
    (hle : a.range.start ≤ b.range.start) (hfalls : ¬ b.FallsOn a) : a.Before b := by
  refine ⟨?_, fun ⟨hstart, ha, hb⟩ => hab.insertions ⟨ha.symm, hb.symm, hstart⟩⟩
  by_contra hlt
  rw [not_le] at hlt
  rcases hb.eq_or_lt with hinsertion | hlonger
  · exact hfalls ⟨hinsertion, hle, hlt⟩
  · exact hab.bytes ⟨b.range.start, ⟨hle, hlt⟩, le_rfl, hlonger⟩

theorem Rejectable.perm (h : Rejectable source splices) (hperm : splices'.Perm splices) :
    Rejectable source splices' := by
  rcases h with ⟨splice, hmem, hformed⟩ | hpairs
  · exact .inl ⟨splice, hperm.mem_iff.mpr hmem, hformed⟩
  · exact .inr fun h => hpairs (h.perm hperm (Std.Symm.symm _ _))

/-- What has to be rejected is, in any order. -/
theorem applySplices_of_rejectable (h : Rejectable source splices) :
    ∃ e, applySplices source splices = some (.error e) := by
  refine applySplices_of_fails fun ⟨hformed, hsorted⟩ => ?_
  rcases h with ⟨splice, hmem, hnot⟩ | hpairs
  · exact hnot (hformed splice hmem)
  · have hapart : (sorted splices).Pairwise Apart := hsorted.imp_of_mem fun _ hb hab =>
      hab.apart (hformed _ ((sorted_perm splices).mem_iff.mp hb)).le
    exact hpairs (hapart.perm (sorted_perm splices) (Std.Symm.symm _ _))

theorem pairwise_before_sorted (h : ¬ Rejectable source splices)
    (hfalls : ∀ a ∈ splices, ∀ b ∈ splices, ¬ a.FallsOn b) :
    (∀ splice ∈ splices, splice.WellFormed source) ∧ (sorted splices).Pairwise Before := by
  simp only [Rejectable, not_or, not_exists, not_and, not_not] at h
  obtain ⟨hformed, hpairs⟩ := h
  refine ⟨hformed, ?_⟩
  have hmem : ∀ splice, splice ∈ sorted splices → splice ∈ splices := fun splice =>
    (sorted_perm splices).mem_iff.mp
  have hstarts : (sorted splices).Pairwise fun a b => a.range.start ≤ b.range.start :=
    List.pairwise_insertionSort _ _
  have hapart : (sorted splices).Pairwise Apart :=
    hpairs.perm (sorted_perm splices).symm (Std.Symm.symm _ _)
  refine (hstarts.and hapart).imp_of_mem fun ha hb hab => ?_
  exact hab.2.before (hformed _ (hmem _ hb)).le hab.1 (hfalls _ (hmem _ hb) _ (hmem _ ha))

/-- Behind a range that it falls on, an insertion is taken for an overlap. -/
theorem exists_perm_fails (ha : a ∈ splices) (hb : b ∈ splices) (hfalls : a.FallsOn b) :
    ∃ splices', splices'.Perm splices ∧ ∃ e, applySplices source splices' = some (.error e) := by
  have hne : a ≠ b := by
    rintro rfl
    have hlt := hfalls.lt
    have hinsertion : a.range.start = a.range.stop := hfalls.insertion
    omega
  have hmem : a ∈ splices.erase b := (List.mem_erase_of_ne hne).mpr ha
  refine ⟨b :: a :: (splices.erase b).erase a, ?_, applySplices_of_fails fun ⟨_, hsorted⟩ => ?_⟩
  · exact ((List.perm_cons_erase hmem).symm.cons b).trans (List.perm_cons_erase hb).symm
  · -- the sort keeps the two in this order
    have hpair : [b, a].Sublist (sorted (b :: a :: (splices.erase b).erase a)) :=
      List.pair_sublist_insertionSort hfalls.le (by simp)
    have hbefore : b.Before a := List.pairwise_pair.mp (hsorted.sublist hpair)
    have hlt := hfalls.lt
    have hle := hbefore.le
    omega

theorem Spliced.unique {offset : ℕ} {text text' : List Char} (h : Spliced offset source splices text)
    (h' : Spliced offset source splices text') (before : List Char) (hbefore : width before = offset) :
    text = text' := by
  have heq := (h.foldrM before hbefore).symm.trans (h'.foldrM before hbefore)
  exact List.append_cancel_left (Option.some.inj heq)

theorem sorted_eq_of_perm (hperm : splices'.Perm splices) (h : (sorted splices).Pairwise Before)
    (h' : (sorted splices').Pairwise Before) (hformed : ∀ splice ∈ splices, splice.WellFormed source) :
    sorted splices' = sorted splices := by
  have hperm' : (sorted splices').Perm (sorted splices) :=
    (sorted_perm splices').trans (hperm.trans (sorted_perm splices).symm)
  refine hperm'.eq_of_pairwise (fun a b ha hb hab hba => ?_) h' h
  -- each of the two before the other makes them insertions at one offset
  have ha' := (hformed a (hperm.mem_iff.mp ((sorted_perm splices').mem_iff.mp ha))).le
  have hb' := (hformed b ((sorted_perm splices).mem_iff.mp hb)).le
  have hab' := hab.le
  have hba' := hba.le
  exact absurd ⟨by omega, by omega, by omega⟩ hab.insertions

end Orders

/-- Splices are applied exactly, and in whatever order they come, if they have to be rejected anyway
or no insertion falls on a longer range. -/
theorem exact_iff (source : List Char) (splices : List SpliceOp) :
    Exact source splices ↔
      Rejectable source splices ∨ ∀ a ∈ splices, ∀ b ∈ splices, ¬ a.FallsOn b := by
  constructor
  · intro h
    by_contra hnot
    simp only [not_or, not_forall, not_not] at hnot
    obtain ⟨hrejectable, a, ha, b, hb, hfalls⟩ := hnot
    have hfails : ∃ splices', splices'.Perm splices ∧
        ∃ e, applySplices source splices' = some (.error e) := exists_perm_fails ha hb hfalls
    obtain ⟨splices', hperm, e, he⟩ := hfails
    have hsame := h.orderFree splices' hperm
    rw [he] at hsame
    obtain ⟨result, hresult, hnone⟩ := Option.map_eq_some_iff.mp hsame.symm
    cases result with
    | ok text => cases hnone
    | error e => exact hrejectable (h.error_iff.mp ⟨e, hresult⟩)
  · intro h
    by_cases hrejectable : Rejectable source splices
    · obtain ⟨e, he⟩ := applySplices_of_rejectable hrejectable
      refine ⟨fun splices' hperm => ?_, fun text htext => ?_, iff_of_true ⟨e, he⟩ hrejectable⟩
      · obtain ⟨e', he'⟩ := applySplices_of_rejectable (hrejectable.perm hperm)
        rw [he, he']
        rfl
      · rw [he] at htext
        cases htext
    · have hfalls := h.resolve_left hrejectable
      obtain ⟨hformed, hpairs⟩ := pairwise_before_sorted hrejectable hfalls
      obtain ⟨text, htext, heq⟩ := applySplices_of_passes hformed hpairs
      refine ⟨fun splices' hperm => ?_, fun text' htext' => ?_, iff_of_false ?_ hrejectable⟩
      · have hrejectable' : ¬ Rejectable source splices' := fun h => hrejectable (h.perm hperm.symm)
        have hfalls' : ∀ a ∈ splices', ∀ b ∈ splices', ¬ a.FallsOn b := fun a ha b hb =>
          hfalls a (hperm.mem_iff.mp ha) b (hperm.mem_iff.mp hb)
        obtain ⟨hformed', hpairs'⟩ := pairwise_before_sorted hrejectable' hfalls'
        obtain ⟨text', htext', heq'⟩ := applySplices_of_passes hformed' hpairs'
        rw [sorted_eq_of_perm hperm hpairs hpairs' hformed] at htext'
        obtain rfl := htext.unique htext' [] rfl
        rw [heq, heq']
      · rw [heq] at htext'
        obtain rfl := Except.ok.inj (Option.some.inj htext')
        exact ⟨_, sorted_perm splices, htext⟩
      · rintro ⟨e, he⟩
        rw [heq] at he
        cases he

/-- A deletion, and an insertion where it starts. -/
def deletion : SpliceOp := ⟨⟨2, 4⟩, []⟩

def insertion : SpliceOp := ⟨⟨2, 2⟩, ['X']⟩

theorem order_matters : ¬ Exact "abcdef".toList [insertion, deletion] := by
  intro h
  have hsame := h.orderFree [deletion, insertion] (.swap _ _ _)
  exact absurd hsame (by decide)

end Corvid.TraceDiff
