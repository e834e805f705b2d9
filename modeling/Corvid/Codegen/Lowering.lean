import Corvid.Codegen.Cranelift
import Corvid.Interp.Ir

/-!
# Lowering of expressions

The native tier turns an expression into instructions, which it writes with a builder. Embedded are
numbers and booleans: literals, locals, operators, and `and` and `or`. The code of other expressions,
of operators on strings and of reference counts of heap values is a parameter.

## Main definitions

* `lowerBinopStrict`, `lowerBinopWrapping`, `lowerUnop`, `lowerUnopWrapping`: operators
* `lowerShortCircuit`, `lowerExpr`: expressions
-/

namespace Corvid.Codegen

open Blocks (Emit)
open Blocks.Emit
open Interp

inductive CodegenError where
  | noVariable (id : LocalId) (span : Interp.Span)
  | operandWidths (left right : ClType) (span : Interp.Span)
  | unsupportedWrapping (op : BinaryOp) (span : Interp.Span)
  | negWidth (ty : ClType) (span : Interp.Span)
  | noWrappingNot (span : Interp.Span)
  | notSupported (what : String) (span : Interp.Span)
  /-- An operator that an earlier case has taken. -/
  | unreachable
deriving DecidableEq, Repr

abbrev FunctionBuilder := Blocks.Builder Inst ClType

abbrev Lower := Emit Inst ClType CodegenError

def fail {α : Type} (e : CodegenError) : Lower α := fun _ => .error e

/-- The type of a value. Every value has one. -/
def valueType (v : ℕ) : Lower ClType := fun b => .ok (b.types.getD v .i64, b)

/-! ### Operators -/

/-- On a set flag the program is ended. -/
def trapWhen (flag : ℕ) : Lower Unit := do
  let trapBlock ← createBlock
  let contBlock ← createBlock
  line (.brif flag trapBlock [] contBlock [])
  switchToBlock trapBlock
  effect (.call .overflow [])
  line .trap
  switchToBlock contBlock

def withOverflowTrap (ty : ClType) (op : Inst) : Lower ℕ := do
  let (result, overflow) ← values ty .i8 op
  trapWhen overflow
  return result

def trapOnZero (divisor : ℕ) : Lower Unit := do
  let zero ← value .i64 (.iconst .i64 0)
  let isZero ← value .i8 (.icmp .equal divisor zero)
  trapWhen isZero

inductive ArithDomain where
  | int
  | float
deriving DecidableEq, Repr

/-- Where one operand is an integer and one a float, the integer becomes a float. Booleans count as
integers. -/
def promoteArith (l r : ℕ) (span : Interp.Span) : Lower (ℕ × ℕ × ArithDomain) := do
  match ← valueType l, ← valueType r with
  | .f64, .f64 => return (l, r, .float)
  | .i64, .i64 | .i8, .i8 => return (l, r, .int)
  | .i64, .f64 => do
    let promoted ← value .f64 (.fcvtFromSint l)
    return (promoted, r, .float)
  | .f64, .i64 => do
    let promoted ← value .f64 (.fcvtFromSint r)
    return (l, promoted, .float)
  | lt, rt => fail (.operandWidths lt rt span)

def floatMod (l r : ℕ) : Lower ℕ := do
  let div ← value .f64 (.float .fdiv l r)
  let trunc ← value .f64 (.trunc div)
  let mul ← value .f64 (.float .fmul trunc r)
  value .f64 (.float .fsub l mul)

/-- The comparison of an operator. -/
def conditionCode : BinaryOp → Option CC
  | .eq => some .equal
  | .notEq => some .notEqual
  | .lt => some .lessThan
  | .ltEq => some .lessThanOrEqual
  | .gt => some .greaterThan
  | .gtEq => some .greaterThanOrEqual
  | _ => none

def lowerIntBinop (op : BinaryOp) (l r : ℕ) : Lower ℕ := do
  let ty ← valueType l
  match op with
  | .add => withOverflowTrap ty (.overflowing .saddOverflow l r)
  | .sub => withOverflowTrap ty (.overflowing .ssubOverflow l r)
  | .mul => withOverflowTrap ty (.overflowing .smulOverflow l r)
  | .div => do
    trapOnZero r
    value ty (.int .sdiv l r)
  | .mod => do
    trapOnZero r
    value ty (.int .srem l r)
  | op => match conditionCode op with
    | some cc => value .i8 (.icmp cc l r)
    | none => fail .unreachable

def lowerFloatBinop (op : BinaryOp) (l r : ℕ) : Lower ℕ :=
  match op with
  | .add => value .f64 (.float .fadd l r)
  | .sub => value .f64 (.float .fsub l r)
  | .mul => value .f64 (.float .fmul l r)
  | .div => value .f64 (.float .fdiv l r)
  | .mod => floatMod l r
  | op => match conditionCode op with
    | some cc => value .i8 (.fcmp cc l r)
    | none => fail .unreachable

def lowerBinopStrict (op : BinaryOp) (l r : ℕ) (span : Interp.Span) : Lower ℕ := do
  let (l, r, domain) ← promoteArith l r span
  match domain with
  | .int => lowerIntBinop op l r
  | .float => lowerFloatBinop op l r

def lowerBinopWrapping (op : BinaryOp) (l r : ℕ) (span : Interp.Span) : Lower ℕ := do
  let ty ← valueType l
  match op with
  | .add => value ty (.int .iadd l r)
  | .sub => value ty (.int .isub l r)
  | .mul => value ty (.int .imul l r)
  | op => fail (.unsupportedWrapping op span)

def lowerUnop (op : UnaryOp) (v : ℕ) (span : Interp.Span) : Lower ℕ := do
  let ty ← valueType v
  match op, ty with
  | .not, _ => do
    let zero ← value .i8 (.iconst .i8 0)
    value .i8 (.icmp .equal v zero)
  | .neg, .f64 => value .f64 (.fneg v)
  | .neg, .i64 => do
    let zero ← value .i64 (.iconst .i64 0)
    withOverflowTrap .i64 (.overflowing .ssubOverflow zero v)
  | .neg, ty => fail (.negWidth ty span)

def lowerUnopWrapping (op : UnaryOp) (v : ℕ) (span : Interp.Span) : Lower ℕ :=
  match op with
  | .neg => do
    let zero ← value .i64 (.iconst .i64 0)
    value .i64 (.int .isub zero v)
  | .not => fail (.noWrappingNot span)

/-- `and` and `or`: the right operand is run unless the left one is `short`, which is the result
then. -/
def lowerShortCircuit (isAnd : Bool) (left right : Lower ℕ) : Lower ℕ := do
  let l ← left
  let rightBlock ← createBlock
  let mergeBlock ← createBlock
  let result ← appendBlockParam mergeBlock .i8
  if isAnd then do
    let short ← value .i8 (.iconst .i8 0)
    line (.brif l rightBlock [] mergeBlock [short])
  else do
    let short ← value .i8 (.iconst .i8 1)
    line (.brif l mergeBlock [short] rightBlock [])
  switchToBlock rightBlock
  let r ← right
  line (.jump mergeBlock [r])
  switchToBlock mergeBlock
  return result

/-! ### Expressions -/

/-- The types whose values are counted, of those that the interpreter reads. A wide option is boxed
whatever its element is. -/
def isRefcountedType (isWideOption : Ty → Bool) : Ty → Bool
  | .string | .struct _ | .list _ | .weak _ | .result _ _ | .partialOf _ | .resumeToken _ => true
  | .option inner => isWideOption (.option inner) || isRefcountedType isWideOption inner
  | .grounded inner => isRefcountedType isWideOption inner
  | _ => false

/-- What the lowering of expressions is given: the types of expressions, the value of each variable
at this point, and the lowering of what is not embedded. -/
structure Context where
  tyOf : Expr → Ty
  env : LocalId → Option ℕ
  useVar : ℕ → ℕ
  isWideOption : Ty → Bool
  dupDropEnabled : Bool
  /-- Other expressions, and operators on strings. -/
  elsewhere : Expr → Lower ℕ

namespace Context

variable (cx : Context)

def isRefcounted (e : Expr) : Bool := isRefcountedType cx.isWideOption (cx.tyOf e)

def emitRelease (v : ℕ) (e : Expr) : Lower Unit :=
  if cx.isRefcounted e then effect (.call .release [v]) else pure ()

def lowerLocal (id : LocalId) (e : Expr) (span : Interp.Span) : Lower ℕ := do
  match cx.env id with
  | none => fail (.noVariable id span)
  | some var => do
    let v := cx.useVar var
    if !cx.dupDropEnabled && cx.isRefcounted e then effect (.call .retain [v])
    return v

def lowerLiteral (lit : Literal) (e : Expr) (span : Interp.Span) : Lower ℕ :=
  match lit with
  | .int n => value .i64 (.iconst .i64 n)
  | .bool b => value .i8 (.iconst .i8 (if b then 1 else 0))
  | .float x => value .f64 (.f64const x)
  | .string _ => cx.elsewhere e
  | .nothing => fail (.notSupported "`nothing` literal is not supported yet" span)

/-- An operator that evaluates both operands. -/
def lowerStrict (op : BinaryOp) (left right : Expr) (l r : Lower ℕ) (e : Expr) (span : Interp.Span) :
    Lower ℕ :=
  if cx.tyOf left = .string ∧ cx.tyOf right = .string then cx.elsewhere e
  else do
    let l ← l
    let r ← r
    let result ← lowerBinopStrict op l r span
    cx.emitRelease l left
    cx.emitRelease r right
    return result

def lowerExpr : Expr → Lower ℕ
  | .mk kind span => match kind with
    | .literal lit => cx.lowerLiteral lit (.mk (.literal lit) span) span
    | .localVar id => cx.lowerLocal id (.mk (.localVar id) span) span
    | .decl => fail (.notSupported
        "declaration reference (imports/functions as values)" span)
    | .binOp op left right => match op with
      | .and => lowerShortCircuit true (lowerExpr left) (lowerExpr right)
      | .or => lowerShortCircuit false (lowerExpr left) (lowerExpr right)
      | op => cx.lowerStrict op left right (lowerExpr left) (lowerExpr right)
          (.mk (.binOp op left right) span) span
    | .wrappingBinOp op left right => do
      let l ← lowerExpr left
      let r ← lowerExpr right
      lowerBinopWrapping op l r span
    | .unOp op operand => do
      let v ← lowerExpr operand
      lowerUnop op v span
    | .wrappingUnOp op operand => do
      let v ← lowerExpr operand
      lowerUnopWrapping op v span
    | .unwrapGrounded value => lowerExpr value
    | kind => cx.elsewhere (.mk kind span)

end Context

end Corvid.Codegen
