import Corvid.Lib.Blocks
import Mathlib.Tactic.Common

/-!
# Instructions of Cranelift

The instructions that the native tier emits for numbers, with their documented meaning. An integer of
the language is a word of 64 bits, a boolean a byte that is 0 or 1.

## Main definitions

* `ClType`, `Val`: types and values
* `Inst`, `machine`: instructions and what they do
-/

namespace Corvid.Codegen

inductive ClType where
  | i8
  | i64
  | f64
deriving DecidableEq, Repr

inductive Val where
  | i8 (x : BitVec 8)
  | i64 (x : BitVec 64)
  | f64 (x : Float)

inductive IntOp where
  | iadd
  | isub
  | imul
  | sdiv
  | srem
deriving DecidableEq, Repr

inductive OverflowOp where
  | saddOverflow
  | ssubOverflow
  | smulOverflow
deriving DecidableEq, Repr

inductive FloatOp where
  | fadd
  | fsub
  | fmul
  | fdiv
deriving DecidableEq, Repr

/-- Comparisons, signed ones where they are of integers. -/
inductive CC where
  | equal
  | notEqual
  | lessThan
  | lessThanOrEqual
  | greaterThan
  | greaterThanOrEqual
deriving DecidableEq, Repr

/-- Functions of the runtime that compiled code calls. -/
inductive RuntimeFunc where
  /-- Prints a message and exits. -/
  | overflow
  | retain
  | release
deriving DecidableEq, Repr

inductive Inst where
  | iconst (ty : ClType) (n : ℤ)
  | f64const (x : Float)
  | int (op : IntOp) (a b : ℕ)
  /-- The result of the operation, and whether it has overflowed. -/
  | overflowing (op : OverflowOp) (a b : ℕ)
  | icmp (cc : CC) (a b : ℕ)
  | float (op : FloatOp) (a b : ℕ)
  | fcmp (cc : CC) (a b : ℕ)
  | fneg (a : ℕ)
  | trunc (a : ℕ)
  | fcvtFromSint (a : ℕ)
  | call (callee : RuntimeFunc) (args : List ℕ)

section Meaning

variable {w : ℕ}

/-- A division ends the program where it has no result, also where the result is too large. -/
def IntOp.apply (op : IntOp) (x y : BitVec w) : Option (BitVec w) :=
  match op with
  | iadd => some (x + y)
  | isub => some (x - y)
  | imul => some (x * y)
  | sdiv => if y = 0 ∨ x = BitVec.intMin w ∧ y = -1 then none else some (x.sdiv y)
  | srem => if y = 0 then none else some (x.srem y)

def OverflowOp.apply (op : OverflowOp) (x y : BitVec w) : BitVec w × Bool :=
  match op with
  | saddOverflow => (x + y, x.saddOverflow y)
  | ssubOverflow => (x - y, x.ssubOverflow y)
  | smulOverflow => (x * y, x.smulOverflow y)

def CC.holds (cc : CC) (x y : BitVec w) : Bool :=
  match cc with
  | equal => x == y
  | notEqual => x != y
  | lessThan => x.slt y
  | lessThanOrEqual => x.sle y
  | greaterThan => y.slt x
  | greaterThanOrEqual => y.sle x

def FloatOp.apply (op : FloatOp) (x y : Float) : Float :=
  match op with
  | fadd => x + y
  | fsub => x - y
  | fmul => x * y
  | fdiv => x / y

def CC.holdsFloat (cc : CC) (x y : Float) : Bool :=
  match cc with
  | equal => x == y
  | notEqual => x != y
  | lessThan => x < y
  | lessThanOrEqual => x ≤ y
  | greaterThan => y < x
  | greaterThanOrEqual => y ≤ x

end Meaning

/-- The outcome of a comparison. -/
def Val.ofBool (b : Bool) : Val := .i8 (if b then 1 else 0)

/-- What an instruction does to the values; on values of other types, which verified code does not
have, it gives nothing. -/
def Inst.exec (i : Inst) (regs : ℕ → Val) : Option (List Val) :=
  match i with
  | iconst ty n => match ty with
    | .i8 => some [.i8 (.ofInt 8 n)]
    | .i64 => some [.i64 (.ofInt 64 n)]
    | .f64 => some []
  | f64const x => some [.f64 x]
  | int op a b => match regs a, regs b with
    | .i8 x, .i8 y => (op.apply x y).map fun z => [.i8 z]
    | .i64 x, .i64 y => (op.apply x y).map fun z => [.i64 z]
    | _, _ => some []
  | overflowing op a b => match regs a, regs b with
    | .i8 x, .i8 y => some [.i8 (op.apply x y).1, .ofBool (op.apply x y).2]
    | .i64 x, .i64 y => some [.i64 (op.apply x y).1, .ofBool (op.apply x y).2]
    | _, _ => some []
  | icmp cc a b => match regs a, regs b with
    | .i8 x, .i8 y => some [.ofBool (cc.holds x y)]
    | .i64 x, .i64 y => some [.ofBool (cc.holds x y)]
    | _, _ => some []
  | float op a b => match regs a, regs b with
    | .f64 x, .f64 y => some [.f64 (op.apply x y)]
    | _, _ => some []
  | fcmp cc a b => match regs a, regs b with
    | .f64 x, .f64 y => some [.ofBool (cc.holdsFloat x y)]
    | _, _ => some []
  | fneg a => match regs a with
    | .f64 x => some [.f64 (-x)]
    | _ => some []
  | trunc a => match regs a with
    | .f64 x => some [.f64 (if x < 0 then x.ceil else x.floor)]
    | _ => some []
  | fcvtFromSint a => match regs a with
    | .i64 x => some [.f64 (.ofInt x.toInt)]
    | _ => some []
  | call callee _ => match callee with
    | .overflow => none
    | .retain | .release => some []

/-- A branch is taken on any value but zero. -/
def Val.isTrue : Val → Bool
  | .i8 x => x != 0
  | .i64 x => x != 0
  | .f64 _ => true

def machine : Blocks.Machine Inst Val := ⟨Inst.exec, Val.isTrue⟩

@[simp] theorem Val.isTrue_ofBool (b : Bool) : (Val.ofBool b).isTrue = b := by
  cases b <;> rfl

end Corvid.Codegen
