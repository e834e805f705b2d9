import Mathlib.Algebra.Group.Nat.Defs
import Mathlib.Tactic.Common

/-!
# Reference count words

The first word of a block header holds a reference count, in its lower 61 bits, and the mark bit of
the collector above it. The top bit alone is the count of static literals, which are never counted.

## Main definitions

* `immortal`, `rcMask`, `markBit`: the parts of a word
* `pack`: the word of a count and a mark

## Main results

* `decrement_pack`, `setMark_pack`, `clearMark_pack`: the operations on the words of the heap
-/

namespace Corvid.Native

/-- A machine word: a pointer, a field of a payload, or the refcount word of a header. -/
abbrev Word := BitVec 64

namespace Word

/-- `CORVID_REFCOUNT_IMMORTAL`, which is `INT64_MIN`. -/
def immortal : Word := BitVec.intMin 64

/-- `CORVID_RC_MASK` -/
def rcMask : Word := 0x1FFFFFFFFFFFFFFF#64

/-- `CORVID_MARK_BIT` -/
def markBit : Word := 1#64 <<< 61

/-- The count of a word. -/
def rc (w : Word) : ℕ := (w &&& rcMask).toNat

def isMarked (w : Word) : Bool := w &&& markBit != 0

def setMark (w : Word) : Word := w ||| markBit

def clearMark (w : Word) : Word := w &&& ~~~markBit

/-- What `corvid_gc_decrement_marker` does to a word that is not immortal. -/
def decrement (w : Word) : Word :=
  if 0 < rc w then (w &&& ~~~rcMask) ||| ((w &&& rcMask) - 1) else w

/-- The word of a count and a mark. -/
def pack (count : ℕ) (mark : Bool) : Word :=
  BitVec.ofNat 64 (count + if mark then 2 ^ 61 else 0)

variable {n : ℕ} {m : Bool}

theorem toNat_pack (hn : n < 2 ^ 61) : (pack n m).toNat = n + if m then 2 ^ 61 else 0 := by
  rw [pack, BitVec.toNat_ofNat, Nat.mod_eq_of_lt]
  split <;> omega

theorem pack_succ : pack n m + 1 = pack (n + 1) m := by
  rw [pack, pack, Nat.add_right_comm n 1, BitVec.ofNat_add _ 1]
  rfl

theorem pack_pred : pack (n + 1) m - 1 = pack n m := by
  rw [← pack_succ, BitVec.add_sub_cancel]

theorem pack_ne_immortal (hn : n < 2 ^ 61) : pack n m ≠ immortal := by
  intro h
  have h := congrArg BitVec.toNat h
  rw [toNat_pack hn, show immortal.toNat = 2 ^ 63 from rfl] at h
  split at h <;> omega

/-! ### Bits -/

theorem getLsbD_rcMask (i : ℕ) : rcMask.getLsbD i = decide (i < 61) := by
  show (2 ^ 61 - 1).testBit i = _
  exact Nat.testBit_two_pow_sub_one 61 i

theorem getLsbD_markBit (i : ℕ) : markBit.getLsbD i = decide (i = 61) := by
  show (2 ^ 61).testBit i = _
  rw [Nat.testBit_two_pow]
  exact decide_eq_decide.mpr eq_comm

theorem testBit_of_le {i : ℕ} (hn : n < 2 ^ 61) (hi : 61 ≤ i) : n.testBit i = false :=
  Nat.testBit_lt_two_pow (Nat.lt_of_lt_of_le hn (Nat.pow_le_pow_right (by decide) hi))

theorem getLsbD_pack (hn : n < 2 ^ 61) (i : ℕ) :
    (pack n m).getLsbD i = (n.testBit i || (decide (i = 61) && m)) := by
  rw [BitVec.getLsbD, toNat_pack hn]
  cases m with
  | false => simp
  | true =>
    have hor : 2 ^ 61 + n = 2 ^ 61 ||| n := by
      simpa using Nat.two_pow_add_eq_or_of_lt hn 1
    rw [if_pos rfl, Bool.and_true, Nat.add_comm, hor, Nat.testBit_or, Nat.testBit_two_pow,
      Bool.or_comm]
    congr 1
    exact decide_eq_decide.mpr eq_comm

theorem pack_and_rcMask (hn : n < 2 ^ 61) : pack n m &&& rcMask = pack n false := by
  refine BitVec.eq_of_getLsbD_eq fun i _ => ?_
  rw [BitVec.getLsbD_and, getLsbD_pack hn, getLsbD_pack hn, getLsbD_rcMask]
  by_cases hi : i < 61
  · simp [hi, Nat.ne_of_lt hi]
  · simp [hi, testBit_of_le hn (Nat.le_of_not_lt hi)]

/-! ### Operations -/

theorem rc_lt (w : Word) : rc w < 2 ^ 61 := by
  have hle : w.toNat &&& rcMask.toNat ≤ rcMask.toNat := Nat.and_le_right
  rw [rc, BitVec.toNat_and]
  exact Nat.lt_of_le_of_lt hle (by decide)

@[simp]
theorem rc_pack (hn : n < 2 ^ 61) : rc (pack n m) = n := by
  rw [rc, pack_and_rcMask hn, toNat_pack hn]
  rfl

@[simp]
theorem setMark_pack (hn : n < 2 ^ 61) : setMark (pack n m) = pack n true := by
  refine BitVec.eq_of_getLsbD_eq fun i _ => ?_
  rw [setMark, BitVec.getLsbD_or, getLsbD_pack hn, getLsbD_pack hn, getLsbD_markBit]
  cases m <;> simp

@[simp]
theorem clearMark_pack (hn : n < 2 ^ 61) : clearMark (pack n m) = pack n false := by
  refine BitVec.eq_of_getLsbD_eq fun i hi => ?_
  rw [clearMark, BitVec.getLsbD_and, BitVec.getLsbD_not, getLsbD_pack hn, getLsbD_pack hn,
    getLsbD_markBit]
  by_cases h : i = 61
  · simp [h, testBit_of_le hn (Nat.le_refl 61)]
  · simp [h, hi]

@[simp]
theorem isMarked_pack (hn : n < 2 ^ 61) : isMarked (pack n m) = m := by
  have hbit : (pack n m &&& markBit).getLsbD 61 = m := by
    rw [BitVec.getLsbD_and, getLsbD_pack hn, getLsbD_markBit]
    simp [testBit_of_le hn (Nat.le_refl 61)]
  cases m with
  | true =>
    refine bne_iff_ne.mpr fun h => ?_
    rw [h] at hbit
    cases hbit
  | false =>
    refine bne_eq_false_iff_eq.mpr (BitVec.eq_of_getLsbD_eq fun i _ => ?_)
    rw [BitVec.getLsbD_and, getLsbD_pack hn, getLsbD_markBit]
    by_cases h : i = 61
    · simp [h, testBit_of_le hn (Nat.le_refl 61)]
    · simp [h]

@[simp]
theorem decrement_pack (hn : n < 2 ^ 61) : decrement (pack n m) = pack (n - 1) m := by
  rw [decrement, rc_pack hn]
  cases n with
  | zero => rfl
  | succ n =>
    -- the count below the mask, and the mark above it
    have hn' : n < 2 ^ 61 := by omega
    rw [if_pos (Nat.succ_pos n), pack_and_rcMask hn, pack_pred]
    refine BitVec.eq_of_getLsbD_eq fun i hi => ?_
    rw [BitVec.getLsbD_or, BitVec.getLsbD_and, BitVec.getLsbD_not, getLsbD_pack hn,
      getLsbD_pack hn', getLsbD_rcMask, Nat.add_sub_cancel, getLsbD_pack hn']
    by_cases h : i < 61
    · simp [h, Nat.ne_of_lt h]
    · simp [h, hi, testBit_of_le hn (Nat.le_of_not_lt h), testBit_of_le hn' (Nat.le_of_not_lt h)]

end Word

end Corvid.Native
