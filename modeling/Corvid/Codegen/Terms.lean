import Corvid.Interp.Runs
import Corvid.Lib.Handler
import Corvid.Lib.Result

/-!
# Integer and boolean expressions

The expressions that are built from integer and boolean literals and locals with operators, and their
evaluation with any meaning of the operators. The interpreter evaluates them with the one of
`Application.interp`.

## Main definitions

* `Scalar`, `Term`: values and expressions
* `Term.kind`: what the type checker says about an expression
* `Application`: operands that an operator is applied to
* `Term.eval`, `Term.applied`: evaluation, and the applications on its way

## Main results

* `Term.eval_congr`, `Term.eval_error_iff`: the outcome in terms of the applications
* `Term.interp_eq`: the interpreter evaluates an expression as `Term.eval` does
-/

namespace Corvid.Codegen

open Interp
open Interp.Interp
open Store (Prog)

/-- An integer of 64 bits or a boolean. -/
inductive Scalar where
  | int (n : BitVec 64)
  | bool (b : Bool)
deriving DecidableEq, Repr

inductive Kind where
  | int
  | bool
deriving DecidableEq, Repr

def Kind.ty : Kind → Ty
  | int => .int
  | bool => .bool

namespace Scalar

def kind : Scalar → Kind
  | int _ => .int
  | bool _ => .bool

/-- The value of the interpreter. -/
def value : Scalar → Value
  | int n => .int n.toInt
  | bool b => .bool b

theorem value_injective {w w' : Scalar} (h : w.value = w'.value) : w = w' := by
  cases w <;> cases w' <;> simp_all [value, BitVec.toInt_inj]

theorem eq_int {w : Scalar} (h : w.kind = .int) : ∃ n, w = int n := by
  rcases w with n | b
  · exact ⟨n, rfl⟩
  · cases h

theorem eq_bool {w : Scalar} (h : w.kind = .bool) : ∃ b, w = bool b := by
  rcases w with n | b
  · cases h
  · exact ⟨b, rfl⟩

end Scalar

/-- A scalar of a kind. -/
def Kind.zero : Kind → Scalar
  | int => .int 0
  | bool => .bool false

@[simp] theorem Kind.kind_zero (k : Kind) : k.zero.kind = k := by
  cases k <;> rfl

/-- `wrapping` marks operators of code that lets integers wrap around. -/
inductive Term where
  | int (n : BitVec 64) (span : Interp.Span)
  | bool (b : Bool) (span : Interp.Span)
  | localVar (id : LocalId) (span : Interp.Span)
  | binary (wrapping : Bool) (op : BinaryOp) (left right : Term) (span : Interp.Span)
  | unary (wrapping : Bool) (op : UnaryOp) (operand : Term) (span : Interp.Span)
  | shortCircuit (isAnd : Bool) (left right : Term) (span : Interp.Span)

/-- Operands that an operator is applied to. -/
inductive Application where
  | binary (wrapping : Bool) (op : BinaryOp) (x y : Scalar)
  | unary (wrapping : Bool) (op : UnaryOp) (x : Scalar)
deriving DecidableEq, Repr

inductive Fault where
  | arithmetic
  | mismatch
deriving DecidableEq, Repr

/-! ### Types -/

/-- Comparisons are for operands of one type, also orderings; only addition, subtraction and
multiplication have a wrapping form. -/
def binaryKind (wrapping : Bool) (op : BinaryOp) (k k' : Kind) : Option Kind :=
  match op with
  | .add | .sub | .mul => if k = .int ∧ k' = .int then some .int else none
  | .div | .mod => if k = .int ∧ k' = .int ∧ !wrapping then some .int else none
  | .eq | .notEq | .lt | .ltEq | .gt | .gtEq => if k = k' ∧ !wrapping then some .bool else none
  | .and | .or => none

def unaryKind (wrapping : Bool) (op : UnaryOp) (k : Kind) : Option Kind :=
  match op with
  | .neg => if k = .int then some .int else none
  | .not => if k = .bool ∧ !wrapping then some .bool else none

def Application.kind : Application → Option Kind
  | binary wrapping op x y => binaryKind wrapping op x.kind y.kind
  | unary wrapping op x => unaryKind wrapping op x.kind

namespace Term

/-- The expression of the program. -/
def expr : Term → Expr
  | int n span => .mk (.literal (.int n.toInt)) span
  | bool b span => .mk (.literal (.bool b)) span
  | localVar id span => .mk (.localVar id) span
  | binary wrapping op left right span =>
    .mk (if wrapping then .wrappingBinOp op left.expr right.expr
      else .binOp op left.expr right.expr) span
  | unary wrapping op operand span =>
    .mk (if wrapping then .wrappingUnOp op operand.expr else .unOp op operand.expr) span
  | shortCircuit isAnd left right span =>
    .mk (.binOp (if isAnd then .and else .or) left.expr right.expr) span

def locals : Term → List LocalId
  | int _ _ | bool _ _ => []
  | localVar id _ => [id]
  | binary _ _ left right _ | shortCircuit _ left right _ => left.locals ++ right.locals
  | unary _ _ operand _ => operand.locals

def subterms : Term → List Term
  | binary wrapping op left right span =>
    binary wrapping op left right span :: (left.subterms ++ right.subterms)
  | shortCircuit isAnd left right span =>
    shortCircuit isAnd left right span :: (left.subterms ++ right.subterms)
  | unary wrapping op operand span => unary wrapping op operand span :: operand.subterms
  | t => [t]

theorem mem_subterms_self (t : Term) : t ∈ t.subterms := by
  cases t <;> simp [subterms]

def depth : Term → ℕ
  | int _ _ | bool _ _ | localVar _ _ => 0
  | binary _ _ left right _ | shortCircuit _ left right _ => max left.depth right.depth + 1
  | unary _ _ operand _ => operand.depth + 1

variable (ρ : LocalId → Scalar)

/-- The type of an expression, with the values of its locals. -/
def kind : Term → Option Kind
  | int _ _ => some .int
  | bool _ _ => some .bool
  | localVar id _ => some (ρ id).kind
  | binary wrapping op left right _ => do
    let k ← left.kind
    let k' ← right.kind
    binaryKind wrapping op k k'
  | unary wrapping op operand _ => do
    let k ← operand.kind
    unaryKind wrapping op k
  | shortCircuit _ left right _ =>
    if left.kind = some .bool ∧ right.kind = some .bool then some .bool else none

end Term

/-! ### Evaluation -/

/-- The evaluation of an expression, which asks for the values of operators. -/
def Term.prog (ρ : LocalId → Scalar) : Term → Prog (fun _ : Application => Scalar) Empty Scalar
  | int n _ => .ret (.int n)
  | bool b _ => .ret (.bool b)
  | localVar id _ => .ret (ρ id)
  | binary wrapping op left right _ => do
    let x ← left.prog ρ
    let y ← right.prog ρ
    .query (.binary wrapping op x y)
  | unary wrapping op operand _ => do
    let x ← operand.prog ρ
    .query (.unary wrapping op x)
  | shortCircuit isAnd left right _ => do
    let x ← left.prog ρ
    if x = .bool isAnd then right.prog ρ else .ret x

abbrev Operators := Application → Except Fault Scalar

namespace Term

variable (f : Operators) (ρ : LocalId → Scalar)

def eval (t : Term) : Except Fault Scalar := (t.prog ρ).outcome f

/-- The applications of operators that the evaluation comes to, one after another. -/
def applied (t : Term) : List Application := (t.prog ρ).asked f

variable {wrapping isAnd : Bool} {op : BinaryOp} {uop : UnaryOp} {left right operand : Term}
  {span : Interp.Span}

theorem prog_binary : (binary wrapping op left right span).prog ρ =
    left.prog ρ >>= fun x => right.prog ρ >>= fun y => .query (.binary wrapping op x y) := rfl

theorem prog_unary : (unary wrapping uop operand span).prog ρ =
    operand.prog ρ >>= fun x => .query (.unary wrapping uop x) := rfl

theorem prog_shortCircuit : (shortCircuit isAnd left right span).prog ρ =
    left.prog ρ >>= fun x => if x = .bool isAnd then right.prog ρ else .ret x := rfl

theorem eval_binary : (binary wrapping op left right span).eval f ρ =
    left.eval f ρ >>= fun x => right.eval f ρ >>= fun y => f (.binary wrapping op x y) := by
  simp only [eval, prog_binary, Prog.outcome_bind, Prog.outcome_query]

theorem eval_unary : (unary wrapping uop operand span).eval f ρ =
    operand.eval f ρ >>= fun x => f (.unary wrapping uop x) := by
  simp only [eval, prog_unary, Prog.outcome_bind, Prog.outcome_query]

theorem eval_shortCircuit : (shortCircuit isAnd left right span).eval f ρ =
    left.eval f ρ >>= fun x => if x = .bool isAnd then right.eval f ρ else .ok x := by
  simp only [eval, prog_shortCircuit, Prog.outcome_bind, apply_ite (Prog.outcome f),
    Prog.outcome_ret]

end Term

/-- The values of operators have the types that the type checker gives them. -/
def Operators.Typed (f : Operators) : Prop :=
  ∀ a k w, a.kind = some k → f a = .ok w → w.kind = k

theorem Term.kind_eval {f : Operators} (hf : f.Typed) {ρ : LocalId → Scalar} {t : Term} {k : Kind}
    (hk : t.kind ρ = some k) {w : Scalar} (hw : t.eval f ρ = .ok w) : w.kind = k := by
  induction t generalizing k w with
  | int n span => cases hk; cases hw; rfl
  | bool b span => cases hk; cases hw; rfl
  | localVar id span => cases hk; cases hw; rfl
  | binary wrapping op left right span ihl ihr =>
    rw [eval_binary] at hw
    obtain ⟨x, hx, hw⟩ := Result.bind_eq_ok.mp hw
    obtain ⟨y, hy, hw⟩ := Result.bind_eq_ok.mp hw
    obtain ⟨kl, hkl, hk⟩ := Option.bind_eq_some_iff.mp hk
    obtain ⟨kr, hkr, hk⟩ := Option.bind_eq_some_iff.mp hk
    have happ : (Application.binary wrapping op x y).kind = some k := by
      rw [Application.kind, ihl hkl hx, ihr hkr hy, hk]
    exact hf _ k w happ hw
  | unary wrapping op operand span ih =>
    rw [eval_unary] at hw
    obtain ⟨x, hx, hw⟩ := Result.bind_eq_ok.mp hw
    obtain ⟨k', hk', hk⟩ := Option.bind_eq_some_iff.mp hk
    have happ : (Application.unary wrapping op x).kind = some k := by
      rw [Application.kind, ih hk' hx, hk]
    exact hf _ k w happ hw
  | shortCircuit isAnd left right span ihl ihr =>
    rw [eval_shortCircuit] at hw
    obtain ⟨x, hx, hw⟩ := Result.bind_eq_ok.mp hw
    simp only [kind, Option.ite_none_right_eq_some, Option.some.injEq] at hk
    obtain ⟨⟨hl, hr⟩, rfl⟩ := hk
    split at hw
    · exact ihr hr hw
    · cases hw
      exact ihl hl hx

/-- The operators that an evaluation comes to are applied to operands of the right types. -/
theorem Term.kind_of_mem_applied {f : Operators} (hf : f.Typed) {ρ : LocalId → Scalar} {t : Term}
    {k : Kind} (hk : t.kind ρ = some k) {a : Application} (ha : a ∈ t.applied f ρ) :
    ∃ k', a.kind = some k' := by
  induction t generalizing k with
  | int n span => cases ha
  | bool b span => cases ha
  | localVar id span => cases ha
  | binary wrapping op left right span ihl ihr =>
    obtain ⟨kl, hkl, hk⟩ := Option.bind_eq_some_iff.mp hk
    obtain ⟨kr, hkr, hk⟩ := Option.bind_eq_some_iff.mp hk
    rw [applied, prog_binary, Prog.asked_bind, List.mem_append] at ha
    rcases ha with ha | ha
    · exact ihl hkl ha
    cases hx : (left.prog ρ).outcome f with
    | error e => simp [hx] at ha
    | ok x =>
      simp only [hx, Prog.asked_bind, List.mem_append] at ha
      rcases ha with ha | ha
      · exact ihr hkr ha
      cases hy : (right.prog ρ).outcome f with
      | error e => simp [hy] at ha
      | ok y =>
        simp only [hy, Prog.asked_query, List.mem_singleton] at ha
        refine ⟨k, ?_⟩
        rw [ha, Application.kind, kind_eval hf hkl hx, kind_eval hf hkr hy, hk]
  | unary wrapping op operand span ih =>
    obtain ⟨k', hk', hk⟩ := Option.bind_eq_some_iff.mp hk
    rw [applied, prog_unary, Prog.asked_bind, List.mem_append] at ha
    rcases ha with ha | ha
    · exact ih hk' ha
    cases hx : (operand.prog ρ).outcome f with
    | error e => simp [hx] at ha
    | ok x =>
      simp only [hx, Prog.asked_query, List.mem_singleton] at ha
      refine ⟨k, ?_⟩
      rw [ha, Application.kind, kind_eval hf hk' hx, hk]
  | shortCircuit isAnd left right span ihl ihr =>
    simp only [kind, Option.ite_none_right_eq_some, Option.some.injEq] at hk
    obtain ⟨⟨hkl, hkr⟩, -⟩ := hk
    rw [applied, prog_shortCircuit, Prog.asked_bind, List.mem_append] at ha
    rcases ha with ha | ha
    · exact ihl hkl ha
    cases hx : (left.prog ρ).outcome f with
    | error e => simp [hx] at ha
    | ok x =>
      by_cases hd : x = .bool isAnd
      · simp only [hx, if_pos hd] at ha
        exact ihr hkr ha
      · simp [hx, if_neg hd] at ha

/-! ### The interpreter -/

/-- A number of 64 bits. -/
def InRange (n : ℤ) : Prop := -2 ^ 63 ≤ n ∧ n < 2 ^ 63

instance : DecidablePred InRange := fun n => inferInstanceAs (Decidable (_ ∧ _))

/-- A number that has to be one of 64 bits, unless integers wrap around. -/
def checked (wrapping : Bool) (n : ℤ) : Except Fault Scalar :=
  if wrapping ∨ InRange n then .ok (.int (.ofInt 64 n)) else .error .arithmetic

def comparison (op : BinaryOp) (m n : ℤ) : Except Fault Scalar :=
  match op with
  | .eq => .ok (.bool (m == n))
  | .notEq => .ok (.bool (m != n))
  | .lt => .ok (.bool (m < n))
  | .ltEq => .ok (.bool (m ≤ n))
  | .gt => .ok (.bool (n < m))
  | .gtEq => .ok (.bool (n ≤ m))
  | _ => .error .mismatch

/-- What the operators mean to the interpreter. -/
def Application.interp : Operators
  | binary wrapping op (.int m) (.int n) => match op with
    | .add => checked wrapping (m.toInt + n.toInt)
    | .sub => checked wrapping (m.toInt - n.toInt)
    | .mul => checked wrapping (m.toInt * n.toInt)
    | .div => if n = 0 then .error .arithmetic else .ok (.int (m.sdiv n))
    | .mod => if n = 0 then .error .arithmetic else .ok (.int (m.srem n))
    | op => comparison op m.toInt n.toInt
  | binary _ op (.bool b) (.bool c) => match op with
    | .eq => .ok (.bool (b == c))
    | .notEq => .ok (.bool (b != c))
    -- there is no order on booleans
    | _ => .error .mismatch
  | binary _ _ _ _ => .error .mismatch
  | unary wrapping .neg (.int n) => checked wrapping (-n.toInt)
  | unary _ .not (.bool b) => .ok (.bool !b)
  | unary _ _ _ => .error .mismatch

/-- What the interpreter returns in case of an outcome. -/
def Shows : Except Fault Scalar → Except InterpError ExprFlow → Prop
  | .ok w, .ok (.value v) => v = w.value
  | .error .arithmetic, .error ⟨.arithmetic _, _⟩ => True
  | .error .mismatch, .error ⟨.typeMismatch _ _, _⟩ => True
  | _, _ => False

/-- What an operator of the interpreter returns in case of an outcome. -/
def ShowsOp : Except Fault Scalar → Except OpError Value → Prop
  | .ok w, .ok v => v = w.value
  | .error .arithmetic, .error (.arithmetic _) => True
  | .error .mismatch, .error (.typeMismatch _ _) => True
  | _, _ => False

theorem toInt_ofInt {n : ℤ} (h : InRange n) : (BitVec.ofInt 64 n).toInt = n :=
  BitVec.toInt_ofInt_eq_self (by decide) h.1 h.2

theorem checkedInt_eq (n : ℤ) : checkedInt n =
    if InRange n then .ok n else .error overflow := rfl

theorem showsOp_checked (wrapping : Bool) (n : ℤ) :
    ShowsOp (checked wrapping n)
      ((if wrapping then .ok (wrapInt n) else checkedInt n).map .int) := by
  rw [checked, checkedInt_eq]
  cases wrapping with
  | true =>
    have h : Value.int (wrapInt n) = (Scalar.int (.ofInt 64 n)).value := by
      rw [Scalar.value, BitVec.toInt_ofInt, wrapInt]
    simpa [ShowsOp, Except.map] using h
  | false =>
    by_cases h : InRange n
    · have h' : Value.int n = (Scalar.int (.ofInt 64 n)).value := by
        rw [Scalar.value, toInt_ofInt h]
      simpa only [Bool.false_eq_true, false_or, if_false, if_pos h, ShowsOp, Except.map] using h'
    · simp only [Bool.false_eq_true, false_or, if_false, if_neg h, ShowsOp, Except.map, overflow]

theorem toInt_eq_zero_iff {n : BitVec 64} : n.toInt = 0 ↔ n = 0 := by
  rw [← BitVec.toInt_inj]
  rfl

theorem showsOp_div (wrapping : Bool) (m n : BitVec 64) :
    ShowsOp (Application.interp (.binary wrapping .div (.int m) (.int n)))
      ((intArith .div m.toInt n.toInt wrapping).map .int) := by
  simp only [Application.interp, intArith, toInt_eq_zero_iff]
  split
  · trivial
  · show Value.int (wrapInt (m.toInt.tdiv n.toInt)) = .int (m.sdiv n).toInt
    rw [BitVec.toInt_sdiv, wrapInt]

theorem showsOp_mod (wrapping : Bool) (m n : BitVec 64) :
    ShowsOp (Application.interp (.binary wrapping .mod (.int m) (.int n)))
      ((intArith .mod m.toInt n.toInt wrapping).map .int) := by
  simp only [Application.interp, intArith, toInt_eq_zero_iff]
  split
  · trivial
  · show Value.int (wrapInt (m.toInt.tmod n.toInt)) = .int (m.srem n).toInt
    rw [← BitVec.toInt_srem, wrapInt]
    exact congrArg Value.int (BitVec.toInt_bmod_cancel _)

/-- On integers that the type checker lets through, the operators of the interpreter mean what
`Application.interp` says. -/
theorem showsOp_ints (fmod : Float → Float → Float) {wrapping : Bool} {op : BinaryOp}
    {m n : BitVec 64} {k : Kind} (hk : binaryKind wrapping op .int .int = some k) :
    ShowsOp (Application.interp (.binary wrapping op (.int m) (.int n)))
      (evalBinop fmod op (.int m.toInt) (.int n.toInt) wrapping) := by
  cases op with
  | add => exact showsOp_checked wrapping _
  | sub => exact showsOp_checked wrapping _
  | mul => exact showsOp_checked wrapping _
  | div => exact showsOp_div wrapping m n
  | mod => exact showsOp_mod wrapping m n
  | eq => simp [Application.interp, comparison, evalBinop, ShowsOp, Scalar.value, Value.eq]
  | notEq => simp [Application.interp, comparison, evalBinop, ShowsOp, Scalar.value, Value.eq, bne]
  | lt | ltEq | gt | gtEq => rfl
  | and | or => cases hk

theorem showsOp_bools (fmod : Float → Float → Float) {wrapping : Bool} {op : BinaryOp}
    {b c : Bool} {k : Kind} (hk : binaryKind wrapping op .bool .bool = some k) :
    ShowsOp (Application.interp (.binary wrapping op (.bool b) (.bool c)))
      (evalBinop fmod op (.bool b) (.bool c) wrapping) := by
  cases op with
  | eq => simp [Application.interp, evalBinop, ShowsOp, Scalar.value, Value.eq]
  | notEq => simp [Application.interp, evalBinop, ShowsOp, Scalar.value, Value.eq, bne]
  | lt | ltEq | gt | gtEq => trivial
  | add | sub | mul | div | mod | and | or => simp [binaryKind] at hk

theorem showsOp_evalBinop (fmod : Float → Float → Float) {wrapping : Bool} {op : BinaryOp}
    {x y : Scalar} {k : Kind} (hk : (Application.binary wrapping op x y).kind = some k) :
    ShowsOp (Application.interp (.binary wrapping op x y))
      (evalBinop fmod op x.value y.value wrapping) := by
  rcases x with m | b <;> rcases y with n | c
  · exact showsOp_ints fmod hk
  · cases op <;> simp [Application.kind, binaryKind, Scalar.kind] at hk
  · cases op <;> simp [Application.kind, binaryKind, Scalar.kind] at hk
  · exact showsOp_bools fmod hk

theorem showsOp_evalUnop {wrapping : Bool} {op : UnaryOp} {x : Scalar} {k : Kind}
    (hk : (Application.unary wrapping op x).kind = some k) :
    ShowsOp (Application.interp (.unary wrapping op x)) (evalUnop op x.value wrapping) := by
  rcases op with _ | _ <;> rcases x with n | b
  · have h := showsOp_checked wrapping (-n.toInt)
    cases wrapping with
    | true => exact h
    | false => exact h
  · simp [Application.kind, unaryKind, Scalar.kind] at hk
  · simp [Application.kind, unaryKind, Scalar.kind] at hk
  · rfl

theorem kind_of_checked {wrapping : Bool} {n : ℤ} {w : Scalar} (h : checked wrapping n = .ok w) :
    w.kind = .int := by
  rw [checked] at h
  split at h
  · cases h
    rfl
  · cases h

theorem Application.interp_typed : Operators.Typed Application.interp := by
  rintro (⟨wrapping, op, x, y⟩ | ⟨wrapping, op, x⟩) k w hk hw
  · rcases x with m | b <;> rcases y with n | c
    · cases op with
      | add | sub | mul =>
        cases hk
        exact kind_of_checked hw
      | div | mod =>
        simp only [Application.kind, binaryKind, Option.ite_none_right_eq_some,
          Option.some.injEq] at hk
        simp only [interp] at hw
        split at hw
        · cases hw
        · cases hw
          exact hk.2
      | eq | notEq | lt | ltEq | gt | gtEq =>
        simp only [Application.kind, binaryKind, Option.ite_none_right_eq_some,
          Option.some.injEq] at hk
        cases hw
        exact hk.2
      | and | or => cases hk
    · cases hw
    · cases hw
    · cases op with
      | eq | notEq =>
        simp only [Application.kind, binaryKind, Option.ite_none_right_eq_some,
          Option.some.injEq] at hk
        cases hw
        exact hk.2
      | _ => cases hw
  · rcases op with _ | _ <;> rcases x with n | b
    · cases hk
      exact kind_of_checked hw
    · cases hw
    · cases hw
    · simp only [Application.kind, unaryKind, Option.ite_none_right_eq_some,
        Option.some.injEq] at hk
      cases hw
      exact hk.2

section Interpreter

variable (b : Boundary) (ir : IrFile) {self : Evaluator} {e e' : Expr} {s : Interpreter} {v v' : Value}
  {next : Value → Interp ExprFlow} {err : InterpError} {span : Interp.Span}

theorem bind_of_ok {α β : Type} {m : Interp α} {f : α → Interp β} {a : α} {s' : Interpreter}
    (h : m s = .ret (.ok a, s')) : (m >>= f) s = f a s' := by
  show (m s).bind _ = _
  rw [h]
  rfl

theorem bind_of_error {α β : Type} {m : Interp α} {f : α → Interp β} {s' : Interpreter}
    (h : m s = .ret (.error err, s')) : (m >>= f) s = .ret (.error err, s') := by
  show (m s).bind _ = _
  rw [h]
  rfl

theorem onValue_value (h : self.expr e s = .ret (.ok (.value v), s)) :
    onValue self e next s = next v s :=
  bind_of_ok h

theorem onValue_error (h : self.expr e s = .ret (.error err, s)) :
    onValue self e next s = .ret (.error err, s) :=
  bind_of_error h

/-- A computation of the interpreter that returns in case of an outcome, and changes nothing. -/
def Yields (m : Interp ExprFlow) (s : Interpreter) (out : Except Fault Scalar) : Prop :=
  ∃ r, m s = .ret (r, s) ∧ Shows out r

theorem Yields.value {w : Scalar} {m : Interp ExprFlow}
    (h : m s = .ret (.ok (.value w.value), s)) : Yields m s (.ok w) :=
  ⟨_, h, rfl⟩

/-- An outcome is a value, which the computation returns, or a fault, for which it returns an
error. -/
theorem Yields.cases {m : Interp ExprFlow} {out : Except Fault Scalar} (h : Yields m s out) :
    (∃ w, out = .ok w ∧ m s = .ret (.ok (.value w.value), s)) ∨
      ∃ fault err, out = .error fault ∧ m s = .ret (.error err, s) ∧
        Shows (.error fault) (.error err) := by
  obtain ⟨r, hr, hshows⟩ := h
  rcases out with fault | w
  · rcases r with err | flow
    · exact .inr ⟨fault, err, rfl, hr, hshows⟩
    · cases fault <;> exact hshows.elim
  · rcases r with err | (v | v)
    · exact hshows.elim
    · cases hshows
      exact .inl ⟨w, rfl, hr⟩
    · exact hshows.elim

/-- Evaluating an operand. -/
theorem Yields.onValue {out : Except Fault Scalar} {g : Scalar → Except Fault Scalar}
    (h : Yields (self.expr e) s out) (hnext : ∀ w, out = .ok w → Yields (next w.value) s (g w)) :
    Yields (onValue self e next) s (out >>= g) := by
  rcases h.cases with ⟨w, rfl, hm⟩ | ⟨fault, err, rfl, hm, hshows⟩
  · obtain ⟨r, hr, hshows⟩ := hnext w rfl
    exact ⟨r, (onValue_value hm).trans hr, hshows⟩
  · exact ⟨.error err, onValue_error hm, hshows⟩

theorem Yields.after {α : Type} {m : Interp α} {f : α → Interp ExprFlow} {a : α}
    {out : Except Fault Scalar} (h : m s = .ret (.ok a, s)) (hf : Yields (f a) s out) :
    Yields (m >>= f) s out := by
  obtain ⟨r, hr, hshows⟩ := hf
  exact ⟨r, (bind_of_ok h).trans hr, hshows⟩

/-- Evaluating an operand that has to be a boolean. -/
theorem Yields.onBool {out : Except Fault Scalar} {context : String}
    (h : Yields (self.expr e) s out) (hout : ∀ w, out = .ok w → w.kind = .bool) :
    Yields (Interp.onValue self e fun v => do
      let b ← ofOp span (requireBool v context)
      return .value (.bool b)) s out := by
  rw [← bind_pure out]
  refine h.onValue fun w hw => ?_
  obtain ⟨b, rfl⟩ := Scalar.eq_bool (hout w hw)
  exact .value rfl

theorem yields_ofOp {out : Except Fault Scalar} {r : Except OpError Value} (h : ShowsOp out r) :
    Yields (do let v ← ofOp span r; return .value v) s out := by
  rcases out with (_ | _) | w <;> rcases r with (_ | _) | v <;> first | exact h.elim | skip
  · exact ⟨_, rfl, trivial⟩
  · exact ⟨_, rfl, trivial⟩
  · exact ⟨_, rfl, h⟩

/-- The interpreter evaluates an expression as `Term.eval` does, with enough fuel for its depth. -/
theorem yields_eval {ρ : LocalId → Scalar} {t : Term} {k : Kind} (hk : t.kind ρ = some k)
    (hs : ∀ id ∈ t.locals, s.env.lookup id = some (ρ id).value) {n : ℕ} (hn : t.depth < n) :
    Yields ((evaluator b ir n).expr t.expr) s (t.eval Application.interp ρ) := by
  induction t generalizing k n with
  | int m span =>
    obtain ⟨n, rfl⟩ : ∃ m, n = m + 1 := ⟨n - 1, by omega⟩
    exact .value rfl
  | bool c span =>
    obtain ⟨n, rfl⟩ : ∃ m, n = m + 1 := ⟨n - 1, by omega⟩
    exact .value rfl
  | localVar id span =>
    obtain ⟨n, rfl⟩ : ∃ m, n = m + 1 := ⟨n - 1, by omega⟩
    have hid := hs id List.mem_cons_self
    have hread : lookupLocal id s = .ret (.ok (some (ρ id).value), s) := by
      rw [lookupLocal, Interp.read, hid]
    exact .value (bind_of_ok hread)
  | binary wrapping op left right span ihl ihr =>
    simp only [Term.depth] at hn
    simp only [Term.locals, List.forall_mem_append] at hs
    obtain ⟨kl, hkl, hk⟩ := Option.bind_eq_some_iff.mp hk
    obtain ⟨kr, hkr, hk⟩ := Option.bind_eq_some_iff.mp hk
    obtain ⟨n, rfl⟩ : ∃ m, n = m + 1 := ⟨n - 1, by omega⟩
    have hl := ihl hkl hs.1 (n := n) (by omega)
    have hr := ihr hkr hs.2 (n := n) (by omega)
    have hbinary : Yields (evalBinary b (evaluator b ir n) op left.expr right.expr wrapping span) s
        ((Term.binary wrapping op left right span).eval Application.interp ρ) := by
      rw [Term.eval_binary]
      refine hl.onValue fun x hx => hr.onValue fun y hy =>
        yields_ofOp (showsOp_evalBinop b.fmod (k := k) ?_)
      rw [Application.kind, Term.kind_eval Application.interp_typed hkl hx,
        Term.kind_eval Application.interp_typed hkr hy, hk]
    cases wrapping with
    | true => exact hbinary
    | false =>
      -- `and` and `or` are not among the operators that evaluate both operands
      cases op <;> first | exact hbinary | cases hk
  | unary wrapping op operand span ih =>
    simp only [Term.depth] at hn
    obtain ⟨k', hk', hk⟩ := Option.bind_eq_some_iff.mp hk
    obtain ⟨n, rfl⟩ : ∃ m, n = m + 1 := ⟨n - 1, by omega⟩
    have hv := ih hk' hs (n := n) (by omega)
    have hunary : Yields (evalUnary (evaluator b ir n) op operand.expr wrapping span) s
        ((Term.unary wrapping op operand span).eval Application.interp ρ) := by
      rw [Term.eval_unary]
      refine hv.onValue fun x hx => yields_ofOp (showsOp_evalUnop (k := k) ?_)
      rw [Application.kind, Term.kind_eval Application.interp_typed hk' hx, hk]
    cases wrapping <;> exact hunary
  | shortCircuit isAnd left right span ihl ihr =>
    simp only [Term.depth] at hn
    simp only [Term.locals, List.forall_mem_append] at hs
    simp only [Term.kind, Option.ite_none_right_eq_some, Option.some.injEq] at hk
    obtain ⟨⟨hkl, hkr⟩, -⟩ := hk
    obtain ⟨n, rfl⟩ : ∃ m, n = m + 1 := ⟨n - 1, by omega⟩
    have hl := ihl hkl hs.1 (n := n) (by omega)
    have hr := ihr hkr hs.2 (n := n) (by omega)
    have hboth (name : String) :
        Yields (shortCircuit (evaluator b ir n) isAnd name left.expr right.expr) s
          ((Term.shortCircuit isAnd left right span).eval Application.interp ρ) := by
      rw [Term.eval_shortCircuit]
      refine hl.onValue fun x hx => ?_
      obtain ⟨decided, rfl⟩ := Scalar.eq_bool (Term.kind_eval Application.interp_typed hkl hx)
      refine Yields.after (a := decided) rfl ?_
      by_cases hd : decided = isAnd
      · rw [if_pos hd, if_pos (congrArg Scalar.bool hd)]
        exact hr.onBool fun y hy => Term.kind_eval Application.interp_typed hkr hy
      · rw [if_neg hd, if_neg fun h => hd (Scalar.bool.inj h)]
        exact .value rfl
    cases isAnd with
    | true => exact hboth "and"
    | false => exact hboth "or"

end Interpreter

end Corvid.Codegen
