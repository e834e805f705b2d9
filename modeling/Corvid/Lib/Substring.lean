import Corvid.Lib.Template

/-!
# Replacing a substring

The search of a string for a pattern steps over the letters up to its next occurrence. What it
finds are the occurrences from left to right, so that replacing a pattern in a string replaces it in
the letters of the string.

## Main results

* `toList_replace`: replacing in a string is replacing in its letters
-/

namespace Substring

open String.Slice.Pattern String.Slice.Pattern.Model

variable {s : String.Slice} {p q : s.Pos} {pattern value : String}

/-- The letters from a position on. -/
def rest (p : s.Pos) : List Char := (s.sliceFrom p).copy.toList

theorem rest_of_splits {t u : String} (h : p.Splits t u) : rest p = u.toList := by
  rw [rest, h.copy_sliceFrom_eq]

theorem rest_next (h : p ≠ s.endPos) : rest p = p.get h :: rest (p.next h) := by
  rw [rest_of_splits (p.splits_next_right h)]
  simp [rest]

@[simp] theorem rest_endPos : rest s.endPos = [] := by
  simp [rest]

theorem rest_startPos : rest s.startPos = s.copy.toList := by
  simp [rest]

theorem matchesAt_of_isPrefix (h : pattern.toList <+: rest p) : MatchesAt pattern p := by
  obtain ⟨t, ht⟩ := h
  have hcopy : (s.sliceFrom p).copy = pattern ++ String.ofList t := by
    rw [← String.toList_inj, String.toList_append, String.toList_ofList]
    exact ht.symm
  rw [ForwardStringSearcher.matchesAt_iff_splits]
  refine ⟨(s.sliceTo p).copy, String.ofList t, ?_⟩
  rw [← hcopy]
  exact p.splits

theorem slice_append_rest (h : p ≤ q) : (s.slice p q h).copy.toList ++ rest q = rest p := by
  have happend := (p.sliceFrom q h).splits.eq_append
  rw [String.Slice.sliceFrom_sliceFrom] at happend
  rw [rest, rest, happend, String.toList_append]
  simp

/-- Letters at which no occurrence begins are passed. -/
theorem replaceAll_rest_of_not_matchesAt (hpq : p ≤ q)
    (h : ∀ r, p ≤ r → r < q → ¬ MatchesAt pattern r) :
    Template.replaceAll pattern.toList value.toList (rest p) =
      (s.slice p q hpq).copy.toList ++ Template.replaceAll pattern.toList value.toList (rest q) := by
  induction p using String.Slice.Pos.next_induction with
  | endPos =>
    obtain rfl : q = s.endPos := by simpa using hpq
    simp
  | next p hp ih =>
    by_cases hlt : p < q
    · have hnext : p.next hp ≤ q := by simpa using hlt
      have hletters : (s.slice p q hpq).copy.toList =
          p.get hp :: (s.slice (p.next hp) q hnext).copy.toList := by
        refine (List.append_left_inj (rest q)).mp ?_
        rw [slice_append_rest, List.cons_append, slice_append_rest, rest_next hp]
      have hnot : ¬ pattern.toList <+: p.get hp :: rest (p.next hp) := fun hprefix =>
        h p (Std.le_refl p) hlt (matchesAt_of_isPrefix (by rwa [rest_next hp]))
      rw [rest_next hp, Template.replaceAll_cons hnot, hletters, List.cons_append,
        ih hnext fun r hr hrq => h r (Std.le_trans (by simp) hr) hrq]
    · obtain rfl : p = q := Std.le_antisymm hpq (Std.not_lt.mp hlt)
      simp

/-- A search that has come to a position leaves the letters from there on to be replaced. -/
theorem toList_foldl_steps (hpattern : pattern ≠ "") {steps : List (SearchStep s)}
    (h : IsValidSearchFrom pattern p steps) (sofar : String) :
    (steps.foldl (fun
      | sofar, .matched .. => sofar ++ String.ToSlice.toSlice value
      | sofar, .rejected start stop => sofar ++ s.slice! start stop) sofar).toList =
      sofar.toList ++ Template.replaceAll pattern.toList value.toList (rest p) := by
  induction h generalizing sofar with
  | endPos => simp
  | matched hmatch _ ih =>
    obtain ⟨t, u, hstart, hstop⟩ := ForwardStringSearcher.isLongestMatchAt_iff_splits.mp hmatch
    have hne : pattern.toList ≠ [] := by simpa using hpattern
    rw [List.foldl_cons, ih, rest_of_splits hstart, rest_of_splits hstop, String.toList_append,
      Template.replaceAll_append_pattern hne, ← List.append_assoc]
    simp [String.ToSlice.toSlice]
  | mismatched hlt hnot _ ih =>
    have hle := Std.le_of_lt hlt
    rw [List.foldl_cons, ih, replaceAll_rest_of_not_matchesAt hle hnot, ← List.append_assoc]
    simp [← String.Slice.slice_eq_slice! (h := hle)]

/-- Replacing a pattern in a string replaces it in the letters of the string. -/
theorem toList_replace (hpattern : pattern ≠ "") (text : String) :
    (text.replace pattern value).toList =
      Template.replaceAll pattern.toList value.toList text.toList := by
  have hlawful := ForwardStringSearcher.lawfulToForwardSearcherModel hpattern
  have hsteps := @toList_foldl_steps _ _ _ value hpattern _
    (hlawful.isValidSearchFrom_toList text.toSlice) ""
  rw [Std.Iter.foldl_toList, rest_startPos, String.toList_empty, List.nil_append,
    String.copy_toSlice] at hsteps
  exact hsteps

end Substring
