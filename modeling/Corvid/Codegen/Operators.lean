import Corvid.Codegen.Lowering
import Corvid.Codegen.Terms

/-!
# Operators of the native tier

What the code of an operator computes. It does what the operator of the interpreter does, but for two
kinds of operands: a division whose result is too large ends the program, and booleans are ordered.

## Main definitions

* `Application.DividesMin`, `Application.OrdersBools`: the operands in question
* `Application.native`: what the operators mean to the native tier

## Main results

* `emits_binopStrict`, `emits_binopWrapping`, `emits_unop`, `emits_unopWrapping`: the code of operators
-/

namespace Corvid.Codegen

open Blocks (Line Builder Config Reaches Piece Agree Computes Emits labels enter step)
open Blocks.Emit
open Interp (BinaryOp UnaryOp)

def Kind.clType : Kind → ClType
  | int => .i64
  | bool => .i8

/-- The value of compiled code. -/
def Scalar.encode : Scalar → Val
  | int n => .i64 n
  | bool b => .ofBool b

/-- The scalar of a kind that a value of compiled code stands for. -/
def Kind.decode : Kind → Val → Scalar
  | int, .i64 n => .int n
  | int, _ => .int 0
  | bool, v => .bool v.isTrue

theorem Kind.decode_encode {k : Kind} {w : Scalar} (h : w.kind = k) : k.decode w.encode = w := by
  subst h
  rcases w with n | b
  · rfl
  · exact congrArg Scalar.bool (Val.isTrue_ofBool b)

theorem Scalar.encode_injective {w w' : Scalar} (h : w.encode = w'.encode) : w = w' := by
  rcases w with n | b <;> rcases w' with n' | b'
  · cases h
    rfl
  · cases h
  · cases h
  · cases b <;> cases b' <;> simp_all [encode, Val.ofBool]

namespace Application

/-- A division with the one result that is too large. -/
def DividesMin : Application → Prop
  | binary _ .div (.int m) (.int n) => m = BitVec.intMin 64 ∧ n = -1
  | _ => False

/-- A comparison of booleans by their order. -/
def OrdersBools : Application → Prop
  | binary _ op (.bool _) (.bool _) => op = .lt ∨ op = .ltEq ∨ op = .gt ∨ op = .gtEq
  | _ => False

instance : DecidablePred DividesMin := fun a => by
  unfold DividesMin
  split <;> infer_instance

instance : DecidablePred OrdersBools := fun a => by
  unfold OrdersBools
  split <;> infer_instance

/-- What the operators mean to the native tier, where booleans are the numbers 0 and 1. -/
def native : Operators
  | binary _ op (.bool b) (.bool c) => comparison op b.toInt c.toInt
  | a => if a.DividesMin then .error .arithmetic else a.interp

theorem not_dividesMin_bools (wrapping : Bool) (op : BinaryOp) (p q : Bool) :
    ¬ (binary wrapping op (.bool p) (.bool q)).DividesMin := by
  cases op <;> exact id

theorem native_of_dividesMin {a : Application} (h : a.DividesMin) : a.native = .error .arithmetic := by
  unfold native
  split
  · exact absurd h (not_dividesMin_bools _ _ _ _)
  · exact if_pos h

/-- The two tiers differ in nothing else. -/
theorem native_eq_interp {a : Application} (h : ¬ a.DividesMin) (h' : ¬ a.OrdersBools) :
    a.native = a.interp := by
  unfold native
  split
  · rename_i wrapping op p q
    cases op with
    | eq | notEq => cases p <;> cases q <;> rfl
    | lt | ltEq | gt | gtEq => simp [OrdersBools] at h'
    | _ => rfl
  · exact if_neg h

end Application

/-- The value that the code of an operator computes; without one, it ends the program. -/
def nativeOut (out : Except Fault Scalar) : Option Val := out.toOption.map Scalar.encode

/-! ### Traps -/

def trapLines (flag trapBlock contBlock : ℕ) : List (Line Inst) :=
  [.brif flag trapBlock [] contBlock [], .block trapBlock [], .inst [] (.call .overflow []), .trap,
    .block contBlock []]

variable {b : FunctionBuilder} {regs : ℕ → Val} {P : (ℕ → Val) → Prop}

theorem trapWhen_eq (flag : ℕ) : trapWhen flag b = .ok ((),
    { b with
      lines := b.lines ++ trapLines flag b.params.length (b.params.length + 1)
      params := b.params ++ [[], []] }) := by
  have h : trapWhen flag b = .ok ((),
    { b with
      lines := b.lines ++ [.brif flag b.params.length [] (b.params ++ [[]]).length []] ++
        [.block b.params.length ((b.params ++ [[]] ++ [[]]).getD b.params.length [])] ++
        [.inst [] (.call .overflow [])] ++ [.trap] ++
        [.block (b.params ++ [[]]).length
          ((b.params ++ [[]] ++ [[]]).getD (b.params ++ [[]]).length [])]
      params := b.params ++ [[]] ++ [[]] }) := rfl
  rw [h]
  simp [trapLines]

section TrapLines

variable {code pre post : List (Line Inst)} {flag trapBlock contBlock : ℕ}

theorem reaches_end_of_trapLines (hcode : pre ++ trapLines flag trapBlock contBlock ++ post = code)
    (htrap : trapBlock ∉ labels pre) (hflag : (regs flag).isTrue = true) :
    Reaches machine code (.running (trapLines flag trapBlock contBlock ++ post) regs) .ended := by
  have hpre : trapBlock ∉ labels (pre ++ [.brif flag trapBlock [] contBlock []]) := by
    simpa using htrap
  have hsplit : (pre ++ [.brif flag trapBlock [] contBlock []]) ++ .block trapBlock [] ::
      (.inst [] (.call .overflow []) :: .trap :: .block contBlock [] :: post) = code := by
    simp [← hcode, trapLines]
  exact .brif_then _ hflag hpre hsplit (.inst_ended rfl)

theorem reaches_after_trapLines (hcode : pre ++ trapLines flag trapBlock contBlock ++ post = code)
    (hcont : contBlock ∉ labels pre) (hne : trapBlock ≠ contBlock)
    (hflag : (regs flag).isTrue = false) :
    Reaches machine code (.running (trapLines flag trapBlock contBlock ++ post) regs)
      (.running post regs) := by
  have hpre : contBlock ∉ labels (pre ++ [.brif flag trapBlock [] contBlock [],
      .block trapBlock [], .inst [] (.call .overflow []), .trap]) := by
    simpa [hcont] using hne.symm
  have hsplit : (pre ++ [.brif flag trapBlock [] contBlock [], .block trapBlock [],
      .inst [] (.call .overflow []), .trap]) ++ .block contBlock [] :: post = code := by
    simp [← hcode, trapLines]
  exact .brif_else _ hflag hpre hsplit .refl

end TrapLines

/-- Labels that have not been given out. -/
theorem not_mem_labels (hb : b.Fresh) {n : ℕ} (hn : b.params.length ≤ n) : n ∉ labels b.lines :=
  fun h => Nat.not_lt.mpr hn (hb n h)

/-- What comes after a flag has been tested. -/
theorem emits_trapWhen {flag : ℕ} {m : Lower ℕ} {ty : ClType} {set : Bool} {out : Option Val}
    (hb : b.Fresh) (hflag : ∀ regs, P regs → (regs flag).isTrue = set)
    (hm : ∀ b' c, Piece b b' c → Emits machine m b' ty P out) :
    Emits machine (trapWhen flag >>= fun _ => m) b ty P (if set then none else out) := by
  have hpiece : Piece b ⟨b.lines ++ trapLines flag b.params.length (b.params.length + 1), b.types,
      b.params ++ [[], []]⟩ (trapLines flag b.params.length (b.params.length + 1)) :=
    ⟨rfl, List.prefix_rfl, List.prefix_append .., by simp [trapLines], by simp [trapLines]⟩
  have h := Emits.lines (f := fun _ => m) (P := P) (set = false) (trapWhen_eq flag) hpiece ?_
    (hm _ _ hpiece)
  · cases set with
    | true => exact h
    | false => exact h
  intro post _ regs hregs
  cases set with
  | true =>
    exact reaches_end_of_trapLines rfl (not_mem_labels hb le_rfl) (hflag regs hregs)
  | false =>
    exact ⟨regs, hregs, .refl _ _, reaches_after_trapLines rfl
      (not_mem_labels hb (Nat.le_succ _)) (by omega) (hflag regs hregs)⟩

theorem emits_withOverflowTrap {ty : ClType} {op : Inst} {x : Val} {overflow : Bool} (hb : b.Fresh)
    (h : ∀ regs, P regs → op.exec regs = some [x, .ofBool overflow]) :
    Emits machine (withOverflowTrap ty op) b ty P (if overflow then none else some x) := by
  refine Emits.values h fun b' c result overflow hpiece hresult _ => ?_
  refine emits_trapWhen (hpiece.fresh hb) (fun regs hregs => by simp [hregs.2]) fun b'' c' hpiece' => ?_
  exact .pure (hpiece'.type_eq hresult) fun regs hregs => hregs.1

/-- What comes after a divisor has been tested. -/
theorem emits_trapOnZero {divisor : ℕ} {m : Lower ℕ} {ty : ClType} {n : BitVec 64}
    {out : Option Val} (hb : b.Fresh) (hdivisor : divisor < b.types.length)
    (hn : ∀ regs, P regs → regs divisor = .i64 n)
    (hm : ∀ b' c, Piece b b' c → Emits machine m b' ty
      (fun regs' => ∃ regs, P regs ∧ Agree b.types.length regs regs') out) :
    Emits machine (do trapOnZero divisor; m) b ty P (if n = 0 then none else out) := by
  have hrun : (do trapOnZero divisor; m) = (do
      let constant ← value .i64 (.iconst .i64 0)
      let isZero ← value .i8 (.icmp .equal divisor constant)
      trapWhen isZero
      m) := by
    simp only [trapOnZero, bind_assoc]
  rw [hrun]
  refine (Emits.value fun regs _ => rfl).bind_some (x := .i64 0) fun constant b₁ c₁ h₁ _ => ?_
  refine (Emits.value fun regs hregs => ?_).bind_some (x := .ofBool (n == 0))
    fun isZero b₂ c₂ h₂ _ => ?_
  · obtain ⟨regs₀, hregs₀, hagree, hconstant⟩ := hregs
    have hd : regs divisor = .i64 n := (hagree divisor hdivisor).trans (hn regs₀ hregs₀)
    simp [machine, Inst.exec, hd, hconstant, CC.holds]
  · have hout : (if n = 0 then none else out) = if n == 0 then none else out := by simp
    rw [hout]
    refine emits_trapWhen (h₂.fresh (h₁.fresh hb)) ?_ fun b₃ c₃ h₃ => ?_
    · rintro regs ⟨_, _, _, hflag⟩
      rw [hflag, Val.isTrue_ofBool]
    · refine (hm b₃ _ ((h₁.trans h₂).trans h₃)).mono ?_
      rintro regs ⟨regs₁, ⟨regs₀, hregs₀, hagree, -⟩, hagree₁, -⟩
      exact ⟨regs₀, hregs₀, hagree.trans hagree₁ h₁.length_le⟩

/-! ### Operators -/

def OverflowOp.exact (op : OverflowOp) (m n : ℤ) : ℤ :=
  match op with
  | saddOverflow => m + n
  | ssubOverflow => m - n
  | smulOverflow => m * n

theorem not_inRange_eq (n : ℤ) :
    (decide (n ≥ 2 ^ (64 - 1)) || decide (n < -2 ^ (64 - 1))) = !decide (InRange n) := by
  rw [← Bool.decide_or, ← decide_not, decide_eq_decide, InRange]
  omega

/-- The result is what is left of the exact one, and the flag tells whether that is all of it. -/
theorem OverflowOp.apply_eq (op : OverflowOp) (m n : BitVec 64) : op.apply m n =
    (.ofInt 64 (op.exact m.toInt n.toInt), !decide (InRange (op.exact m.toInt n.toInt))) := by
  cases op with
  | saddOverflow =>
    rw [apply, exact, BitVec.ofInt_add, BitVec.ofInt_toInt, BitVec.ofInt_toInt, BitVec.saddOverflow,
      not_inRange_eq]
  | ssubOverflow =>
    rw [apply, exact, Int.sub_eq_add_neg, BitVec.ofInt_add, BitVec.ofInt_neg, BitVec.ofInt_toInt,
      BitVec.ofInt_toInt, ← BitVec.sub_eq_add_neg, BitVec.ssubOverflow, not_inRange_eq,
      Int.sub_eq_add_neg]
  | smulOverflow =>
    rw [apply, exact, BitVec.ofInt_mul, BitVec.ofInt_toInt, BitVec.ofInt_toInt, BitVec.smulOverflow,
      not_inRange_eq]

theorem nativeOut_checked (n : ℤ) : nativeOut (checked false n) =
    if !decide (InRange n) then none else some (.i64 (.ofInt 64 n)) := by
  by_cases h : InRange n
  · simp [checked, nativeOut, h, Except.toOption, Scalar.encode]
  · simp [checked, nativeOut, h, Except.toOption]

theorem emits_overflowing (op : OverflowOp) {l r : ℕ} {m n : BitVec 64} (hb : b.Fresh)
    (hP : ∀ regs, P regs → regs l = .i64 m ∧ regs r = .i64 n) :
    Emits machine (withOverflowTrap .i64 (.overflowing op l r)) b .i64 P
      (nativeOut (checked false (op.exact m.toInt n.toInt))) := by
  rw [nativeOut_checked]
  refine emits_withOverflowTrap hb fun regs hregs => ?_
  simp only [Inst.exec, (hP regs hregs).1, (hP regs hregs).2, OverflowOp.apply_eq]

theorem valueType_eq {v : ℕ} {ty : ClType} (h : b.types[v]? = some ty) :
    valueType v b = .ok (ty, b) := by
  rw [valueType, List.getD_eq_getElem?_getD, h]
  rfl

/-- A computation that starts with the type of a value. -/
theorem emits_valueType {v : ℕ} {ty ty' : ClType} {f : ClType → Lower ℕ} {out : Option Val}
    (hty : b.types[v]? = some ty) (hf : Emits machine (f ty) b ty' P out) :
    Emits machine (valueType v >>= f) b ty' P out := by
  refine hf.congr ?_
  show (valueType v b).bind (fun r => f r.1 r.2) = _
  rw [valueType_eq hty]
  rfl

theorem binopStrict_eq {k : Kind} {op : BinaryOp} {l r : ℕ} {span : Interp.Span}
    (hl : b.types[l]? = some k.clType) (hr : b.types[r]? = some k.clType) :
    lowerBinopStrict op l r span b = lowerIntBinop op l r b := by
  have hpromote : promoteArith l r span b = .ok ((l, r, .int), b) := by
    simp only [promoteArith, Bind.bind, StateT.bind, Except.bind, valueType_eq hl, valueType_eq hr]
    cases k <;> rfl
  show (promoteArith l r span b).bind _ = _
  rw [hpromote]
  rfl

/-! ### Binary operators -/

section Binary

variable {l r : ℕ} {m n : BitVec 64}

/-- The divisor is tested before either division. -/
theorem emits_div (op : IntOp) (hb : b.Fresh) (hl : l < b.types.length) (hr : r < b.types.length)
    (hP : ∀ regs, P regs → regs l = .i64 m ∧ regs r = .i64 n) :
    Emits machine (do trapOnZero r; value .i64 (.int op l r)) b .i64 P
      (if n = 0 then none else (op.apply m n).map .i64) := by
  refine emits_trapOnZero hb hr (fun regs hregs => (hP regs hregs).2) fun b' c hpiece => .value ?_
  rintro regs' ⟨regs, hregs, hagree⟩
  have hl' : regs' l = .i64 m := (hagree l hl).trans (hP regs hregs).1
  have hr' : regs' r = .i64 n := (hagree r hr).trans (hP regs hregs).2
  simp [machine, Inst.exec, hl', hr', Option.map_map, Function.comp_def]

theorem nativeOut_div : nativeOut (Application.native (.binary false .div (.int m) (.int n))) =
    if n = 0 then none else (IntOp.sdiv.apply m n).map .i64 := by
  by_cases hmin : (Application.binary false .div (.int m) (.int n)).DividesMin
  · have hn : n ≠ 0 := by
      rintro rfl
      cases hmin.2
    rw [Application.native_of_dividesMin hmin, if_neg hn, IntOp.apply, if_pos (.inr hmin)]
    rfl
  · rw [Application.native_eq_interp hmin id, Application.interp]
    by_cases hn : n = 0
    · rw [if_pos hn, if_pos hn]
      rfl
    · rw [if_neg hn, if_neg hn, IntOp.apply, if_neg (fun h => h.elim hn hmin)]
      rfl

theorem nativeOut_mod : nativeOut (Application.native (.binary false .mod (.int m) (.int n))) =
    if n = 0 then none else (IntOp.srem.apply m n).map .i64 := by
  rw [Application.native_eq_interp id id, Application.interp]
  by_cases hn : n = 0
  · rw [if_pos hn, if_pos hn]
    rfl
  · rw [if_neg hn, if_neg hn, IntOp.apply, if_neg hn]
    rfl

theorem comparison_ints {op : BinaryOp} {cc : CC} (hcc : conditionCode op = some cc) (m n : BitVec 64) :
    Application.native (.binary false op (.int m) (.int n)) = .ok (.bool (cc.holds m n)) := by
  have hinj : (m.toInt == n.toInt) = (m == n) := by
    rw [Bool.eq_iff_iff, beq_iff_eq, beq_iff_eq, BitVec.toInt_inj]
  cases op <;> cases hcc <;>
    simp [Application.native, Application.DividesMin, Application.interp, comparison, CC.holds,
      BitVec.slt, BitVec.sle, hinj, bne]

theorem comparison_bools {op : BinaryOp} {cc : CC} (hcc : conditionCode op = some cc) (p q : Bool) :
    Application.native (.binary false op (.bool p) (.bool q)) =
      .ok (.bool (cc.holds (if p then 1 else 0 : BitVec 8) (if q then 1 else 0))) := by
  cases op <;> cases hcc <;> cases p <;> cases q <;> rfl

/-- The code of a comparison. -/
theorem emits_comparison {x y : Scalar} {op : BinaryOp} {cc : CC} (hcc : conditionCode op = some cc)
    (hk : x.kind = y.kind) (hP : ∀ regs, P regs → regs l = x.encode ∧ regs r = y.encode) :
    Emits machine (value .i8 (.icmp cc l r) : Lower ℕ) b .i8 P
      (nativeOut (Application.native (.binary false op x y))) := by
  refine .value fun regs hregs => ?_
  obtain ⟨hl, hr⟩ := hP regs hregs
  rcases x with m | p <;> rcases y with n | q
  · rw [comparison_ints hcc]
    simp [machine, Inst.exec, hl, hr, Scalar.encode, nativeOut, Except.toOption]
  · cases hk
  · cases hk
  · rw [comparison_bools hcc]
    simp [machine, Inst.exec, hl, hr, Scalar.encode, Val.ofBool, nativeOut, Except.toOption]

/-- The code of an operator on integers. -/
theorem emits_intBinop {op : BinaryOp} {k : Kind} (hb : b.Fresh)
    (hk : binaryKind false op .int .int = some k) (hl : b.types[l]? = some .i64)
    (hr : b.types[r]? = some .i64) (hP : ∀ regs, P regs → regs l = .i64 m ∧ regs r = .i64 n) :
    Emits machine (lowerIntBinop op l r) b k.clType P
      (nativeOut (Application.native (.binary false op (.int m) (.int n)))) := by
  refine emits_valueType hl ?_
  cases op with
  | add =>
    cases hk
    exact emits_overflowing .saddOverflow hb hP
  | sub =>
    cases hk
    exact emits_overflowing .ssubOverflow hb hP
  | mul =>
    cases hk
    exact emits_overflowing .smulOverflow hb hP
  | div =>
    cases hk
    rw [nativeOut_div]
    exact emits_div .sdiv hb (Builder.lt_length hl) (Builder.lt_length hr) hP
  | mod =>
    cases hk
    rw [nativeOut_mod]
    exact emits_div .srem hb (Builder.lt_length hl) (Builder.lt_length hr) hP
  | eq | notEq | lt | ltEq | gt | gtEq =>
    cases hk
    exact emits_comparison rfl rfl hP
  | and | or => cases hk

/-- The code of an operator on booleans, which is a comparison. -/
theorem emits_boolBinop {op : BinaryOp} {k : Kind} {p q : Bool}
    (hk : binaryKind false op .bool .bool = some k) (hl : b.types[l]? = some .i8)
    (hP : ∀ regs, P regs → regs l = .ofBool p ∧ regs r = .ofBool q) :
    Emits machine (lowerIntBinop op l r) b k.clType P
      (nativeOut (Application.native (.binary false op (.bool p) (.bool q)))) := by
  refine emits_valueType hl ?_
  cases op with
  | eq | notEq | lt | ltEq | gt | gtEq =>
    cases hk
    exact emits_comparison rfl rfl hP
  | add | sub | mul | div | mod | and | or => simp [binaryKind] at hk

theorem emits_binopStrict {x y : Scalar} {op : BinaryOp} {k : Kind} {span : Interp.Span} (hb : b.Fresh)
    (hk : binaryKind false op x.kind y.kind = some k) (hl : b.types[l]? = some x.kind.clType)
    (hr : b.types[r]? = some y.kind.clType)
    (hP : ∀ regs, P regs → regs l = x.encode ∧ regs r = y.encode) :
    Emits machine (lowerBinopStrict op l r span) b k.clType P
      (nativeOut (Application.native (.binary false op x y))) := by
  rcases x with m | p <;> rcases y with n | q
  · exact (emits_intBinop hb hk hl hr hP).congr (binopStrict_eq (k := .int) hl hr)
  · cases op <;> simp [binaryKind, Scalar.kind] at hk
  · cases op <;> simp [binaryKind, Scalar.kind] at hk
  · exact (emits_boolBinop hk hl hP).congr (binopStrict_eq (k := .bool) hl hr)

theorem nativeOut_checked_true (k : ℤ) : nativeOut (checked true k) = some (.i64 (.ofInt 64 k)) := by
  rw [checked, if_pos (.inl rfl)]
  rfl

theorem emits_binopWrapping {x y : Scalar} {op : BinaryOp} {k : Kind} {span : Interp.Span}
    (hk : binaryKind true op x.kind y.kind = some k) (hl : b.types[l]? = some x.kind.clType)
    (hP : ∀ regs, P regs → regs l = x.encode ∧ regs r = y.encode) :
    Emits machine (lowerBinopWrapping op l r span) b k.clType P
      (nativeOut (Application.native (.binary true op x y))) := by
  have hint : x.kind = .int ∧ y.kind = .int ∧ k = .int ∧ (op = .add ∨ op = .sub ∨ op = .mul) := by
    cases op <;> simp [binaryKind] at hk <;> simp [hk]
  obtain ⟨m, rfl⟩ := Scalar.eq_int hint.1
  obtain ⟨n, rfl⟩ := Scalar.eq_int hint.2.1
  obtain ⟨-, -, rfl, hop⟩ := hint
  have hvalue (iop : IntOp) (regs : ℕ → Val) (hregs : P regs) :
      machine.exec (.int iop l r) regs = ((iop.apply m n).map Val.i64).map ([·]) := by
    obtain ⟨hl, hr⟩ := hP regs hregs
    simp [machine, Inst.exec, hl, hr, Scalar.encode, Option.map_map, Function.comp_def]
  refine emits_valueType hl ?_
  rcases hop with rfl | rfl | rfl
  · show Emits machine _ b _ P (nativeOut (checked true (m.toInt + n.toInt)))
    rw [nativeOut_checked_true, BitVec.ofInt_add, BitVec.ofInt_toInt, BitVec.ofInt_toInt]
    exact .value (hvalue .iadd)
  · show Emits machine _ b _ P (nativeOut (checked true (m.toInt - n.toInt)))
    rw [nativeOut_checked_true, Int.sub_eq_add_neg, BitVec.ofInt_add, BitVec.ofInt_neg,
      BitVec.ofInt_toInt, BitVec.ofInt_toInt, ← BitVec.sub_eq_add_neg]
    exact .value (hvalue .isub)
  · show Emits machine _ b _ P (nativeOut (checked true (m.toInt * n.toInt)))
    rw [nativeOut_checked_true, BitVec.ofInt_mul, BitVec.ofInt_toInt, BitVec.ofInt_toInt]
    exact .value (hvalue .imul)

end Binary

/-! ### Unary operators -/

section Unary

variable {v : ℕ} {x : Scalar} {k : Kind} {op : UnaryOp} {span : Interp.Span}

theorem emits_not {p : Bool} (hv : v < b.types.length) (hP : ∀ regs, P regs → regs v = .ofBool p) :
    Emits machine (do
      let constant ← value .i8 (.iconst .i8 0)
      value .i8 (.icmp .equal v constant) : Lower ℕ) b .i8 P (some (.ofBool !p)) := by
  refine (Emits.value fun regs _ => rfl).bind_some (x := .i8 0) fun constant b' c hpiece _ => .value ?_
  rintro regs' ⟨regs, hregs, hagree, hconstant⟩
  have hv' : regs' v = .ofBool p := (hagree v hv).trans (hP regs hregs)
  simp only [machine, Inst.exec, hv', hconstant, Val.ofBool]
  cases p <;> rfl

theorem emits_unop (hb : b.Fresh) (hk : unaryKind false op x.kind = some k)
    (hv : b.types[v]? = some x.kind.clType) (hP : ∀ regs, P regs → regs v = x.encode) :
    Emits machine (lowerUnop op v span) b k.clType P
      (nativeOut (Application.native (.unary false op x))) := by
  refine emits_valueType hv ?_
  have hlt := Builder.lt_length hv
  cases op with
  | not =>
    simp only [unaryKind, Option.ite_none_right_eq_some, Option.some.injEq] at hk
    obtain ⟨⟨hx, -⟩, rfl⟩ := hk
    obtain ⟨p, rfl⟩ := Scalar.eq_bool hx
    exact emits_not hlt hP
  | neg =>
    simp only [unaryKind, Option.ite_none_right_eq_some, Option.some.injEq] at hk
    obtain ⟨hx, rfl⟩ := hk
    obtain ⟨n, rfl⟩ := Scalar.eq_int hx
    refine (Emits.value fun regs _ => rfl).bind_some (x := .i64 0) fun constant b' c hpiece _ => ?_
    have h : nativeOut (Application.native (.unary false .neg (.int n))) =
        nativeOut (checked false (OverflowOp.ssubOverflow.exact (0 : BitVec 64).toInt n.toInt)) := by
      simp [OverflowOp.exact, Application.native, Application.DividesMin, Application.interp]
    rw [h]
    refine emits_overflowing _ (hpiece.fresh hb) ?_
    rintro regs' ⟨regs, hregs, hagree, hconstant⟩
    exact ⟨hconstant, (hagree v hlt).trans (hP regs hregs)⟩

theorem emits_unopWrapping (hk : unaryKind true op x.kind = some k) (hv : v < b.types.length)
    (hP : ∀ regs, P regs → regs v = x.encode) :
    Emits machine (lowerUnopWrapping op v span) b k.clType P
      (nativeOut (Application.native (.unary true op x))) := by
  cases op with
  | not => simp [unaryKind] at hk
  | neg =>
    simp only [unaryKind, Option.ite_none_right_eq_some, Option.some.injEq] at hk
    obtain ⟨hx, rfl⟩ := hk
    obtain ⟨n, rfl⟩ := Scalar.eq_int hx
    refine (Emits.value fun regs _ => rfl).bind_some (x := .i64 0) fun constant b' c hpiece _ => ?_
    show Emits machine _ b' _ _ (nativeOut (checked true (-n.toInt)))
    rw [nativeOut_checked_true, BitVec.ofInt_neg, BitVec.ofInt_toInt]
    refine .value ?_
    rintro regs' ⟨regs, hregs, hagree, hconstant⟩
    have hv' : regs' v = .i64 n := (hagree v hv).trans (hP regs hregs)
    simp [machine, Inst.exec, hv', hconstant, IntOp.apply]

end Unary

end Corvid.Codegen
