import Mathlib.Data.List.DropRight
import Mathlib.Data.List.Infix
import Mathlib.Data.String.Basic
import Mathlib.Tactic.Common

/-!
# Splitting, trimming and joining text

The string operations `split`, `trim` and `join` on Unicode text, and the law that reads a
comma separated list back: joining trimmed items that contain no comma, then splitting at the
commas and trimming, returns the items.

## Main definitions

* `isWhitespace`: the Unicode property `White_Space`
* `trim`, `split`, `join`
* `lastPart`: the part after the last separator
* `startsWith`, `endsWith`, `contains`

## Main results

* `trim_trim`: trimming twice is trimming once
* `notMem_of_mem_split`: a part of a split does not contain the separator
* `map_trim_split_join`: the round trip through a comma separated list
* `split_append`, `lastPart_append`: the parts of texts with a separator between them
* `toString_injective`, `colon_toString_inj`: numbers in texts can be read back
-/

namespace Text

/-- The Unicode property `White_Space`. -/
def isWhitespace (c : Char) : Bool :=
  let n := c.toNat
  (9 ≤ n && n ≤ 13) || n == 0x20 || n == 0x85 || n == 0xA0 || n == 0x1680 ||
    (0x2000 ≤ n && n ≤ 0x200A) || n == 0x2028 || n == 0x2029 || n == 0x202F ||
    n == 0x205F || n == 0x3000

/-- The text without its leading and trailing white space. -/
def trim (s : String) : String :=
  String.ofList ((s.toList.dropWhile isWhitespace).rdropWhile isWhitespace)

/-- The parts of the text between the occurrences of a separator. -/
def split (sep : Char) (s : String) : List String :=
  (s.toList.splitOn sep).map String.ofList

/-- The parts, separated by `sep`. -/
def join (sep : String) (parts : List String) : String :=
  String.ofList (sep.toList.intercalate (parts.map String.toList))

/-- The last part, the whole text if it does not contain the separator. -/
def lastPart (sep : Char) (s : String) : String :=
  (split sep s).getLastD ""

def startsWith (start s : String) : Bool :=
  decide (start.toList <+: s.toList)

def endsWith (ending s : String) : Bool :=
  decide (ending.toList <:+ s.toList)

def contains (part s : String) : Bool :=
  decide (part.toList <:+: s.toList)

theorem toList_trim (s : String) :
    (trim s).toList = (s.toList.dropWhile isWhitespace).rdropWhile isWhitespace := by
  simp [trim]

/-- Dropping from the right keeps a list that starts with a non-space from starting with one. -/
theorem dropWhile_rdropWhile {α : Type*} (p : α → Bool) (l : List α) :
    ((l.dropWhile p).rdropWhile p).dropWhile p = (l.dropWhile p).rdropWhile p := by
  cases hd : l.dropWhile p with
  | nil => simp
  | cons x xs =>
    have hx : ¬ p x = true := by
      have h0 := List.dropWhile_get_zero_not p l (by simp [hd])
      simpa [hd] using h0
    cases hr : (x :: xs).rdropWhile p with
    | nil => rfl
    | cons y ys =>
      obtain ⟨t, ht⟩ := List.rdropWhile_prefix p (x :: xs)
      rw [hr] at ht
      obtain rfl : y = x := (List.cons.inj ht).1
      rw [List.dropWhile_cons_of_neg hx]

theorem trim_trim (s : String) : trim (trim s) = trim s := by
  apply String.toList_injective
  rw [toList_trim (trim s), toList_trim, dropWhile_rdropWhile, List.rdropWhile_idempotent]

/-- Trimming removes characters only. -/
theorem mem_of_mem_trim {s : String} {c : Char} (h : c ∈ (trim s).toList) : c ∈ s.toList := by
  rw [toList_trim] at h
  exact (List.dropWhile_suffix _).subset ((List.rdropWhile_prefix _ _).subset h)

/-- A leading space is trimmed away. -/
theorem trim_ofList_cons {c : Char} (hc : isWhitespace c = true) (s : String) :
    trim (String.ofList (c :: s.toList)) = trim s := by
  apply String.toList_injective
  rw [toList_trim, toList_trim, String.toList_ofList, List.dropWhile_cons_of_pos hc]

theorem notMem_of_mem_splitOn {α : Type*} [BEq α] [LawfulBEq α] {a : α} {xs : List α} :
    ∀ {p}, p ∈ xs.splitOn a → a ∉ p := by
  induction xs with
  | nil => simp
  | cons x xs ih =>
    intro p hp
    rw [List.splitOn_cons_eq_if_modifyHead] at hp
    split at hp
    · rcases List.mem_cons.mp hp with rfl | hp
      · simp
      · exact ih hp
    · rename_i hx
      obtain ⟨q, qs, hq⟩ := List.exists_cons_of_ne_nil (List.splitOn_ne_nil a xs)
      rw [hq, List.modifyHead_cons] at hp
      rcases List.mem_cons.mp hp with rfl | hp
      · have hax : a ≠ x := by rintro rfl; simp at hx
        simpa [hax] using ih (hq ▸ List.mem_cons_self)
      · exact ih (hq ▸ List.mem_cons_of_mem _ hp)

/-- A part of a split does not contain the separator. -/
theorem notMem_of_mem_split {sep : Char} {s p : String} (h : p ∈ split sep s) :
    sep ∉ p.toList := by
  simp only [split, List.mem_map] at h
  obtain ⟨l, hl, rfl⟩ := h
  rw [String.toList_ofList]
  exact notMem_of_mem_splitOn hl

/-- Joining with a comma and a space is joining with a comma parts that start with a space. -/
theorem intercalate_comma_space (p : List Char) (ps : List (List Char)) :
    [',', ' '].intercalate (p :: ps) = [','].intercalate (p :: ps.map (' ' :: ·)) := by
  induction ps generalizing p with
  | nil => rfl
  | cons q ps ih =>
    have h := ih q
    simp only [List.intercalate, List.map_cons, List.intersperse_cons_cons, List.flatten_cons] at h ⊢
    rw [h]
    cases ps <;> simp

/-- **Reading a comma separated list back**: trimmed items without a comma survive joining,
splitting and trimming. -/
theorem map_trim_split_join {l : List String} (hne : l ≠ [])
    (h : ∀ p ∈ l, ',' ∉ p.toList ∧ trim p = p) :
    (split ',' (join ", " l)).map trim = l := by
  obtain ⟨p, ps, rfl⟩ := List.exists_cons_of_ne_nil hne
  have hsep : ", ".toList = [',', ' '] := rfl
  have hcomma : ∀ q ∈ p.toList :: (ps.map String.toList).map (' ' :: ·), ',' ∉ q := by
    intro q hq
    rcases List.mem_cons.mp hq with rfl | hq
    · exact (h p List.mem_cons_self).1
    · simp only [List.mem_map, exists_exists_and_eq_and] at hq
      obtain ⟨r, hr, rfl⟩ := hq
      simpa using (h r (List.mem_cons_of_mem _ hr)).1
  rw [split, join, String.toList_ofList, hsep, List.map_cons, intercalate_comma_space,
    List.splitOn_intercalate _ hcomma (by simp)]
  simp only [List.map_cons, List.map_map, String.ofList_toList, (h p List.mem_cons_self).2,
    List.cons.injEq, true_and]
  refine (List.map_congr_left fun q hq => ?_).trans (List.map_id ps)
  simp only [Function.comp_apply, id_eq]
  rw [trim_ofList_cons (by decide), (h q (List.mem_cons_of_mem _ hq)).2]

theorem contains_iff {part s : String} : contains part s = true ↔ part.toList <:+: s.toList := by
  simp [contains]

theorem contains_eq_false {part s : String} :
    contains part s = false ↔ ¬ part.toList <:+: s.toList := by
  simp [contains]

/-! ### Parts between separators -/

theorem split_ne_nil (sep : Char) (s : String) : split sep s ≠ [] := by
  simp [split, List.splitOn_ne_nil]

theorem split_of_notMem {sep : Char} {s : String} (h : sep ∉ s.toList) : split sep s = [s] := by
  simp [split, List.splitOn_eq_singleton h]

/-- The parts of two texts with a separator between them. -/
theorem split_append {sep : Char} {s t u : String} (h : u.toList = s.toList ++ sep :: t.toList) :
    split sep u = split sep s ++ split sep t := by
  rw [split, h, List.splitOn_append_cons_self, List.map_append]
  rfl

theorem lastPart_append {sep : Char} {s t u : String}
    (h : u.toList = s.toList ++ sep :: t.toList) : lastPart sep u = lastPart sep t := by
  rw [lastPart, split_append h, List.getLastD_eq_getLast?, List.getLast?_append_of_ne_nil _ (split_ne_nil sep t),
    ← List.getLastD_eq_getLast?, lastPart]

theorem lastPart_of_notMem {sep : Char} {s : String} (h : sep ∉ s.toList) : lastPart sep s = s := by
  rw [lastPart, split_of_notMem h]
  rfl

/-- A text without separators goes to the last part. -/
theorem lastPart_append_of_notMem {sep : Char} (s : String) {t : String} (h : sep ∉ t.toList) :
    lastPart sep (s ++ t) = lastPart sep s ++ t := by
  by_cases hmem : sep ∈ s.toList
  · obtain ⟨q, p, hs, hq⟩ := List.eq_append_cons_of_mem (List.mem_reverse.mpr hmem)
    have hs' : s.toList = (String.ofList p.reverse).toList ++ sep :: (String.ofList q.reverse).toList := by
      rw [← List.reverse_reverse s.toList, hs]
      simp
    rw [lastPart_append (s := String.ofList p.reverse) (t := String.ofList q.reverse ++ t) (by simp [hs']),
      lastPart_append hs', lastPart_of_notMem (by simp [h, hq]), lastPart_of_notMem (by simp [hq])]
  · rw [lastPart_of_notMem hmem, lastPart_of_notMem (by simp [hmem, h])]

/-- A text that starts with another up to the first separator. -/
theorem startsWith_iff {sep : Char} {start u p s t : String} (hstart : start.toList = p.toList ++ [sep])
    (hu : u.toList = s.toList ++ sep :: t.toList) (hp : sep ∉ p.toList) (hs : sep ∉ s.toList) :
    startsWith start u = true ↔ s = p := by
  rw [startsWith, decide_eq_true_iff, hstart, hu]
  constructor
  · rintro ⟨rest, hrest⟩
    have hlist : s.toList ++ sep :: t.toList = p.toList ++ sep :: rest := by
      rw [← hrest]
      simp
    have hsplit := congrArg (List.splitOn sep) hlist
    rw [List.splitOn_append_cons_self_of_not_mem hs, List.splitOn_append_cons_self_of_not_mem hp] at hsplit
    exact String.toList_injective (List.cons.inj hsplit).1
  · rintro rfl
    exact ⟨t.toList, by simp⟩

/-! ### Numbers -/

theorem toList_toString (n : ℕ) : (toString n).toList = Nat.toDigits 10 n := by
  rw [Nat.toString_eq_ofList_toDigits, String.toList_ofList]

theorem notMem_toString {c : Char} (hc : c.isDigit = false) (n : ℕ) : c ∉ (toString n).toList := by
  intro hmem
  rw [toList_toString] at hmem
  rw [Nat.isDigit_of_mem_toDigits (by decide) (by decide) hmem] at hc
  cases hc

theorem toString_injective : Function.Injective (toString : ℕ → String) := by
  intro m n h
  have hdigits : Nat.toDigits 10 m = Nat.toDigits 10 n := by
    rw [← toList_toString, ← toList_toString, h]
  rw [← Nat.ofDigitChars_ten_toDigits (n := m), hdigits, Nat.ofDigitChars_ten_toDigits]

/-- Numbers after a fixed text tell texts apart. -/
theorem append_toString_injective (label : String) :
    Function.Injective fun n : ℕ => label ++ toString n := by
  intro m n h
  have hlist := congrArg String.toList h
  dsimp only at hlist
  rw [String.toList_append, String.toList_append, List.append_right_inj] at hlist
  exact toString_injective (String.toList_injective hlist)

/-- The last occurrence of an element splits a list in one way only. -/
theorem append_cons_inj {α : Type*} {a : α} {l l' r r' : List α} (hr : a ∉ r) (hr' : a ∉ r')
    (h : l ++ a :: r = l' ++ a :: r') : l = l' ∧ r = r' := by
  rcases List.append_eq_append_iff.mp h with ⟨m, rfl, hm⟩ | ⟨m, rfl, hm⟩
  · cases m with
    | nil => exact ⟨(List.append_nil l).symm, (List.cons.inj hm).2⟩
    | cons b m =>
      rw [List.cons_append] at hm
      exact absurd ((List.cons.inj hm).2 ▸ List.mem_append_right m List.mem_cons_self) hr
  · cases m with
    | nil => exact ⟨List.append_nil l', (List.cons.inj hm).2.symm⟩
    | cons b m =>
      rw [List.cons_append] at hm
      exact absurd ((List.cons.inj hm).2 ▸ List.mem_append_right m List.mem_cons_self) hr'

/-- A text and a number, with a colon between them, can be told apart. -/
theorem colon_toString_inj {s s' : String} {m n : ℕ}
    (h : s ++ ":" ++ toString m = s' ++ ":" ++ toString n) : s = s' ∧ m = n := by
  have hdigits := notMem_toString (c := ':') (by decide)
  have hlist := congrArg String.toList h
  simp only [String.toList_append, show ":".toList = [':'] from rfl, List.append_assoc,
    List.singleton_append] at hlist
  obtain ⟨hs, hn⟩ := append_cons_inj (hdigits m) (hdigits n) hlist
  exact ⟨String.toList_injective hs, toString_injective (String.toList_injective hn)⟩

end Text
