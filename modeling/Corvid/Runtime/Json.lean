import Mathlib.Algebra.Group.Int.Defs
import Mathlib.Algebra.Group.Nat.Defs
import Mathlib.Algebra.GroupWithZero.Nat
import Mathlib.Algebra.Order.Ring.Unbundled.Rat
import Mathlib.Data.Rat.Defs

/-!
# Wire values

Tools, models and approvers answer with JSON values, and the trace records them. Integers and
floating-point numbers are different values even where they are numerically equal; the fields of an
object stand in the order of its map.
-/

namespace Corvid

inductive Json where
  | null
  | bool (b : Bool)
  | int (n : ℤ)
  | float (q : ℚ)
  | string (s : String)
  | array (xs : List Json)
  | object (fields : List (String × Json))
deriving Repr

namespace Json

mutual

/-- Equality of values, by recursion on the nesting. -/
def decEq : (a b : Json) → Decidable (a = b)
  | null, b => match b with
    | null => isTrue rfl
    | bool _ | int _ | float _ | string _ | array _ | object _ => isFalse nofun
  | bool x, b => match b with
    | bool y => decidable_of_iff (x = y) (by simp)
    | null | int _ | float _ | string _ | array _ | object _ => isFalse nofun
  | int x, b => match b with
    | int y => decidable_of_iff (x = y) (by simp)
    | null | bool _ | float _ | string _ | array _ | object _ => isFalse nofun
  | float x, b => match b with
    | float y => decidable_of_iff (x = y) (by simp)
    | null | bool _ | int _ | string _ | array _ | object _ => isFalse nofun
  | string x, b => match b with
    | string y => decidable_of_iff (x = y) (by simp)
    | null | bool _ | int _ | float _ | array _ | object _ => isFalse nofun
  | array x, b => match b with
    | array y => @decidable_of_iff _ (x = y) (by simp) (decEqList x y)
    | null | bool _ | int _ | float _ | string _ | object _ => isFalse nofun
  | object x, b => match b with
    | object y => @decidable_of_iff _ (x = y) (by simp) (decEqFields x y)
    | null | bool _ | int _ | float _ | string _ | array _ => isFalse nofun

def decEqList : (a b : List Json) → Decidable (a = b)
  | [], [] => isTrue rfl
  | [], _ :: _ | _ :: _, [] => isFalse nofun
  | x :: xs, y :: ys => @decidable_of_iff _ (x = y ∧ xs = ys) (by simp)
      (@instDecidableAnd _ _ (decEq x y) (decEqList xs ys))

def decEqFields : (a b : List (String × Json)) → Decidable (a = b)
  | [], [] => isTrue rfl
  | [], _ :: _ | _ :: _, [] => isFalse nofun
  | (k, x) :: xs, (l, y) :: ys =>
    @decidable_of_iff _ (k = l ∧ x = y ∧ xs = ys) (by simp [and_assoc])
      (@instDecidableAnd _ _ _ (@instDecidableAnd _ _ (decEq x y) (decEqFields xs ys)))

end

instance : DecidableEq Json := decEq

/-- The truth value of a recorded value that stands where an approval was expected. A number that
is no 64-bit integer counts as true. -/
def coerceToBool : Json → Bool
  | bool v => v
  | null => false
  | int n => if -2 ^ 63 ≤ n ∧ n < 2 ^ 63 then n ≠ 0 else true
  | float _ => true
  | string s => !s.isEmpty
  | array xs => !xs.isEmpty
  | object fields => !fields.isEmpty

def ofOption (f : String → Json) : Option String → Json
  | none => null
  | some s => f s

end Json

end Corvid
