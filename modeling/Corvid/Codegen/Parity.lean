import Corvid.Codegen.Operators
import Mathlib

/-!
# The interpreter and the native tier

The code of an integer or boolean expression computes what the interpreter computes, except where a
division has a result that is too large, or two booleans are ordered.

## Main definitions

* `TiersAgree`: the outcomes of the two tiers are the same
* `Term.Harmless`: the expressions on which they are

## Main results

* `emits_term`: what the code of an expression computes
* `tiers_agree_iff`: the tiers agree on the harmless expressions and on no others
* `tiers_disagree_min_div_neg_one`: the least integer, divided by -1
-/

namespace Corvid.Codegen

open Blocks (Line Builder Config Reaches Piece Agree Computes Emits labels labels_append)
open Blocks.Emit
open Store (Prog)
open Interp

variable {b : FunctionBuilder} {P : (ℕ → Val) → Prop}

/-- The code of an operand, and of what is done with its value. -/
theorem emits_bind {operand : Lower ℕ} {next : ℕ → Lower ℕ} {k : Kind} {ty : ClType}
    {out : Except Fault Scalar} {f : Scalar → Except Fault Scalar}
    (hx : Emits machine operand b k.clType P (nativeOut out)) (hkind : ∀ w, out = .ok w → w.kind = k)
    (hnext : ∀ v b' c x, Piece b b' c → b'.types[v]? = some k.clType → x.kind = k →
      Emits machine (next v) b' ty (Blocks.After b.types.length P v x.encode) (nativeOut (f x))) :
    Emits machine (operand >>= next) b ty P (nativeOut (out >>= f)) := by
  have hout : nativeOut (out >>= f) = (nativeOut out).bind fun v => nativeOut (f (k.decode v)) := by
    rcases out with fault | x
    · rfl
    · simp [nativeOut, Except.toOption, Bind.bind, Except.bind, Kind.decode_encode (hkind x rfl)]
  have hgood : ∀ v, nativeOut out = some v → ∃ x : Scalar, x.kind = k ∧ v = x.encode := by
    intro v hv
    rcases out with fault | x
    · cases hv
    · exact ⟨x, hkind x rfl, (Option.some.inj hv).symm⟩
  rw [hout]
  refine hx.bind _ hgood ⟨_, k.zero, k.kind_zero, rfl⟩ ?_
  rintro v b' c _ hpiece hty ⟨x, hx, rfl⟩
  rw [Kind.decode_encode hx]
  exact hnext v b' c x hpiece hty hx

/-! ### `and` and `or` -/

/-- The branch on the left operand. -/
def branchLine (isAnd : Bool) (l rightBlock mergeBlock short : ℕ) : Line Inst :=
  if isAnd then .brif l rightBlock [] mergeBlock [short] else .brif l mergeBlock [short] rightBlock []

def branchLines (isAnd : Bool) (l t n : ℕ) : List (Line Inst) :=
  [.inst [n + 1] (.iconst .i8 (if isAnd then 0 else 1)), branchLine isAnd l t (t + 1) (n + 1),
    .block t []]

/-- What is written before the right operand. -/
def branched (isAnd : Bool) (l : ℕ) (b : FunctionBuilder) : FunctionBuilder :=
  ⟨b.lines ++ branchLines isAnd l b.params.length b.types.length, b.types ++ [.i8, .i8],
    b.params ++ [[], [b.types.length]]⟩

/-- What is written after the left operand. -/
def branch (isAnd : Bool) (right : Lower ℕ) (l : ℕ) : Lower ℕ := fun b =>
  (right (branched isAnd l b)).bind fun r =>
    .ok (b.types.length, { r.2 with
      lines := r.2.lines ++ [.jump (b.params.length + 1) [r.1],
        .block (b.params.length + 1) (r.2.params.getD (b.params.length + 1) [])] })

theorem modify_last {α : Type} (ps : List α) (a a' : α) (f : α → α) :
    (ps ++ [a, a']).modify (ps.length + 1) f = ps ++ [a, f a'] := by
  induction ps with
  | nil => rfl
  | cons p ps ih => simpa using ih

theorem lowerShortCircuit_eq (isAnd : Bool) (left right : Lower ℕ) :
    lowerShortCircuit isAnd left right = left >>= branch isAnd right := by
  have hbranched (l : ℕ) (b : FunctionBuilder) : branched isAnd l b =
      ⟨b.lines ++ [.inst [(b.types ++ [ClType.i8]).length] (.iconst .i8 (if isAnd then 0 else 1))] ++
        [branchLine isAnd l b.params.length (b.params ++ [[]]).length (b.types ++ [ClType.i8]).length] ++
        [.block b.params.length (((b.params ++ [[]] ++ [[]]).modify (b.params ++ [[]]).length
          (· ++ [b.types.length])).getD b.params.length [])],
        b.types ++ [.i8] ++ [.i8],
        (b.params ++ [[]] ++ [[]]).modify (b.params ++ [[]]).length (· ++ [b.types.length])⟩ := by
    simp [branched, branchLines, modify_last]
  refine congrArg (left >>= ·) (funext fun l => funext fun b => ?_)
  rw [branch, hbranched]
  cases isAnd <;>
    simp [createBlock, appendBlockParam, value, newValue, line, switchToBlock, branchLine, Bind.bind,
      StateT.bind, Except.bind, Pure.pure, StateT.pure, Except.pure, modify, modifyGet,
      MonadStateOf.modifyGet, StateT.modifyGet, get, getThe, MonadStateOf.get, StateT.get]

theorem piece_branched (isAnd : Bool) (l : ℕ) : Piece b (branched isAnd l b)
    (branchLines isAnd l b.params.length b.types.length) :=
  ⟨rfl, List.prefix_append .., List.prefix_append ..,
    by cases isAnd <;> simp [branchLines, branchLine],
    by cases isAnd <;> simp [branchLines, branchLine, branched]⟩

theorem labels_branchLines (isAnd : Bool) (l t n : ℕ) : labels (branchLines isAnd l t n) = [t] := by
  cases isAnd <;> rfl

/-- The first step of the branch, to the right operand. -/
theorem reaches_right {isAnd : Bool} {l t n : ℕ} {pre rest code : List (Line Inst)} {regs : ℕ → Val}
    (hcode : pre ++ branchLines isAnd l t n ++ rest = code) (ht : t ∉ labels pre) (hl : l < n + 1)
    (hregs : regs l = .ofBool isAnd) :
    Reaches machine code (.running (branchLines isAnd l t n ++ rest) regs)
      (.running rest (Function.update regs (n + 1) (.ofBool !isAnd))) := by
  have hl' : Function.update regs (n + 1) (.ofBool !isAnd) l = .ofBool isAnd := by
    rw [Function.update_of_ne (by omega), hregs]
  have hpre : t ∉ labels (pre ++ [.inst [n + 1] (.iconst .i8 (if isAnd then 0 else 1)),
      branchLine isAnd l t (t + 1) (n + 1)]) := by
    cases isAnd <;> simpa [branchLine] using ht
  have hsplit : (pre ++ [.inst [n + 1] (.iconst .i8 (if isAnd then 0 else 1)),
      branchLine isAnd l t (t + 1) (n + 1)]) ++ .block t [] :: rest = code := by
    simp [← hcode, branchLines]
  cases isAnd with
  | true => exact .inst rfl (.brif_then _ (congrArg Val.isTrue hl') hpre hsplit .refl)
  | false => exact .inst rfl (.brif_else _ (congrArg Val.isTrue hl') hpre hsplit .refl)

/-- The first step of the branch, past the right operand. -/
theorem reaches_merge {isAnd : Bool} {l t n : ℕ} {pre c rest code : List (Line Inst)}
    {regs : ℕ → Val} (hcode : pre ++ branchLines isAnd l t n ++ c ++ .block (t + 1) [n] :: rest = code)
    (ht : t + 1 ∉ labels pre) (hc : t + 1 ∉ labels c) (hl : l < n + 1)
    (hregs : regs l = .ofBool !isAnd) :
    Reaches machine code (.running (branchLines isAnd l t n ++ c ++ .block (t + 1) [n] :: rest) regs)
      (.running rest (Function.update (Function.update regs (n + 1) (.ofBool !isAnd)) n
        (.ofBool !isAnd))) := by
  have hl' : Function.update regs (n + 1) (.ofBool !isAnd) l = .ofBool !isAnd := by
    rw [Function.update_of_ne (by omega), hregs]
  have hn : Function.update regs (n + 1) (.ofBool !isAnd) (n + 1) = .ofBool !isAnd :=
    Function.update_self ..
  have hpre : t + 1 ∉ labels (pre ++ branchLines isAnd l t n ++ c) := by
    simp [labels_branchLines, ht, hc]
  have hmerged : Reaches machine code (.running rest (Blocks.assign [n]
      ([n + 1].map (Function.update regs (n + 1) (.ofBool !isAnd)))
      (Function.update regs (n + 1) (.ofBool !isAnd)))) (.running rest
        (Function.update (Function.update regs (n + 1) (.ofBool !isAnd)) n (.ofBool !isAnd))) := by
    rw [List.map_singleton, hn]
    exact .refl
  cases isAnd with
  | true => exact .inst rfl (.brif_else _ (congrArg Val.isTrue hl') hpre hcode hmerged)
  | false => exact .inst rfl (.brif_then _ (congrArg Val.isTrue hl') hpre hcode hmerged)

theorem emits_branch {isAnd p : Bool} {right : Lower ℕ} {l : ℕ} {out : Option Val} (hb : b.Fresh)
    (hl : l < b.types.length) (hP : ∀ regs, P regs → regs l = .ofBool p)
    (hr : Emits machine right (branched isAnd l b) .i8
      (fun regs' => ∃ regs, P regs ∧ Agree b.types.length regs regs') out) :
    Emits machine (branch isAnd right l) b .i8 P (if p = isAnd then out else some (.ofBool p)) := by
  obtain ⟨r, b', c, hm, hpiece, hty, hc⟩ := hr
  set t := b.params.length with ht
  set n := b.types.length with hn
  have hstart := piece_branched (b := b) isAnd l
  have hmerge : b'.params.getD (t + 1) [] = [n] := by
    obtain ⟨more, hmore⟩ := hpiece.params
    rw [← hmore]
    simp [branched, ht, hn]
  have htype : b'.types[n]? = some .i8 := hpiece.type_eq (by simp [branched, hn])
  have hlower : ∀ label ∈ labels c, t + 2 ≤ label := by
    simpa [branched, ht] using hpiece.lower
  have hblocks : t + 2 ≤ b'.params.length := by simpa [branched, ht] using hpiece.blocks_le
  have hbranch : branch isAnd right l b = .ok (n, ⟨b'.lines ++ [.jump (t + 1) [r],
      .block (t + 1) [n]], b'.types, b'.params⟩) := by
    rw [branch, hm, ← hmerge]
    rfl
  refine ⟨n, _, branchLines isAnd l t n ++ c ++ [.jump (t + 1) [r], .block (t + 1) [n]], hbranch,
    ⟨?_, (hstart.trans hpiece).types, (hstart.trans hpiece).params, ?_, ?_⟩, htype, ?_⟩
  · simp [hpiece.lines, branched, ht, hn]
  · intro label hlabel
    simp only [labels_append, labels_branchLines, List.mem_append, List.mem_singleton,
      Blocks.labels_jump, Blocks.labels_block, Blocks.labels_nil, or_assoc] at hlabel
    rcases hlabel with rfl | hlabel | rfl
    · exact le_rfl
    · exact (Nat.le_add_right t 2).trans (hlower label hlabel)
    · exact Nat.le_succ t
  · intro label hlabel
    simp only [labels_append, labels_branchLines, List.mem_append, List.mem_singleton,
      Blocks.labels_jump, Blocks.labels_block, Blocks.labels_nil, or_assoc] at hlabel
    show label < b'.params.length
    rcases hlabel with rfl | hlabel | rfl
    · omega
    · exact hpiece.upper label hlabel
    · omega
  intro post hpost regs hregs
  have hpre {u : ℕ} (hu : t ≤ u) : u ∉ labels b.lines := not_mem_labels hb hu
  have hmerge' : t + 1 ∉ labels (c ++ [.jump (t + 1) [r]]) := by
    intro h
    have h : t + 1 ∈ labels c := by simpa using h
    have := hlower _ h
    omega
  simp only [List.append_assoc, List.cons_append, List.nil_append]
  by_cases hp : p = isAnd
  · rw [if_pos hp]
    set regs₁ := Function.update regs (n + 1) (.ofBool !isAnd) with hregs₁
    have hagree₁ : Agree n regs regs₁ := (Agree.refl n regs).update (Nat.le_succ n) _
    have hcode : b.lines ++ branchLines isAnd l t n ++ (c ++ .jump (t + 1) [r] ::
        .block (t + 1) [n] :: post) = b.lines ++ (branchLines isAnd l t n ++ (c ++ .jump (t + 1) [r] ::
        .block (t + 1) [n] :: post)) := by simp
    have hright := reaches_right hcode (hpre le_rfl) (hl.trans (Nat.lt_succ_self n))
      ((hP regs hregs).trans (congrArg Val.ofBool hp))
    have hapart : Blocks.Apart (branched isAnd l b) b'
        (.jump (t + 1) [r] :: .block (t + 1) [n] :: post) := by
      intro label hlabel
      rcases List.mem_cons.mp hlabel with rfl | hlabel
      · exact .inl (by simp [branched, ht])
      · exact hstart.apart hpost label hlabel
    have hrun := hc _ hapart regs₁ ⟨regs, hregs, hagree₁⟩
    simp only [branched, List.append_assoc] at hrun
    cases out with
    | none => exact hright.trans hrun
    | some y =>
      obtain ⟨regs₂, hreach, hy, hagree⟩ := hrun
      have hsplit : b.lines ++ (branchLines isAnd l t n ++ (c ++ [.jump (t + 1) [r]])) ++
          .block (t + 1) [n] :: post = b.lines ++ (branchLines isAnd l t n ++ (c ++ .jump (t + 1) [r] ::
          .block (t + 1) [n] :: post)) := by simp
      have hlabels : t + 1 ∉ labels (b.lines ++ (branchLines isAnd l t n ++ (c ++ [.jump (t + 1) [r]]))) := by
        have := hpre (Nat.le_succ t)
        have hmerge' : t + 1 ∉ labels c := by simpa using hmerge'
        simp [labels_branchLines, this, hmerge']
      refine ⟨Function.update regs₂ n y, hright.trans (hreach.trans (.jump _ hlabels hsplit ?_)), by simp, ?_⟩
      · rw [List.map_singleton, hy]
        exact .refl
      · refine (hagree₁.trans hagree ?_).update le_rfl y
        simp [branched, hn]
  · have hp : p = !isAnd := by
      cases p <;> cases isAnd <;> simp_all
    have hne : ¬ p = isAnd := by simp [hp]
    rw [if_neg hne]
    have hcode : b.lines ++ branchLines isAnd l t n ++ (c ++ [.jump (t + 1) [r]]) ++
        .block (t + 1) [n] :: post = b.lines ++ (branchLines isAnd l t n ++ (c ++ .jump (t + 1) [r] ::
        .block (t + 1) [n] :: post)) := by simp
    have hreach := reaches_merge hcode (hpre (Nat.le_succ t)) hmerge' (hl.trans (Nat.lt_succ_self n))
      ((hP regs hregs).trans (congrArg Val.ofBool hp))
    simp only [List.append_assoc, List.cons_append, List.nil_append] at hreach
    refine ⟨_, hreach, by simp [hp], ?_⟩
    exact ((Agree.refl n regs).update (Nat.le_succ n) _).update le_rfl _

/-- Control goes to the right operand where the left one is not decisive, else past it. -/
theorem emits_shortCircuit {isAnd : Bool} {left right : Lower ℕ} {outl outr : Except Fault Scalar}
    (hb : b.Fresh) (hl : Emits machine left b .i8 P (nativeOut outl))
    (hkind : ∀ w, outl = .ok w → w.kind = .bool)
    (hr : ∀ b' c, Piece b b' c → Emits machine right b' .i8
      (fun regs' => ∃ regs, P regs ∧ Agree b.types.length regs regs') (nativeOut outr)) :
    Emits machine (lowerShortCircuit isAnd left right) b .i8 P
      (nativeOut (outl >>= fun x => if x = .bool isAnd then outr else .ok x)) := by
  rw [lowerShortCircuit_eq]
  refine emits_bind (k := .bool) hl hkind fun l b' c x hpiece hty hx => ?_
  obtain ⟨p, rfl⟩ := Scalar.eq_bool hx
  have hbranched := hpiece.trans (piece_branched (b := b') isAnd l)
  have hout : nativeOut (if Scalar.bool p = .bool isAnd then outr else .ok (.bool p)) =
      if p = isAnd then nativeOut outr else some (.ofBool p) := by
    by_cases hp : p = isAnd
    · simp [hp]
    · simp [hp, nativeOut, Except.toOption, Scalar.encode]
  rw [hout]
  refine emits_branch (hpiece.fresh hb) (Builder.lt_length hty) ?_ ((hr _ _ hbranched).mono ?_)
  · rintro regs ⟨_, _, _, h⟩
    exact h
  · rintro regs ⟨regs', ⟨regs₀, hregs₀, hagree, -⟩, hagree'⟩
    exact ⟨regs₀, hregs₀, hagree.trans hagree' hpiece.length_le⟩

/-! ### Expressions -/

/-- The type that the native tier reads off an expression is the one of the type checker. -/
def Recorded (cx : Context) (ρ : LocalId → Scalar) (t : Term) : Prop :=
  ∀ u ∈ t.subterms, ∀ k, u.kind ρ = some k → cx.tyOf u.expr = k.ty

/-- The locals are variables of the right types. -/
def Declared (cx : Context) (ρ : LocalId → Scalar) (ids : List LocalId) (b : FunctionBuilder) : Prop :=
  ∀ id ∈ ids, ∃ var, cx.env id = some var ∧
    b.types[cx.useVar var]? = some (ρ id).kind.clType

/-- The variables of the locals have their values. -/
def Holds (cx : Context) (ρ : LocalId → Scalar) (ids : List LocalId) (regs : ℕ → Val) : Prop :=
  ∀ id ∈ ids, ∀ var, cx.env id = some var → regs (cx.useVar var) = (ρ id).encode

section Terms

variable {cx : Context} {ρ : LocalId → Scalar} {ids ids' : List LocalId} {b' : FunctionBuilder}
  {c : List (Line Inst)}

theorem Declared.append (h : Declared cx ρ (ids ++ ids') b) :
    Declared cx ρ ids b ∧ Declared cx ρ ids' b :=
  List.forall_mem_append.mp h

theorem Declared.after (h : Declared cx ρ ids b) (hpiece : Piece b b' c) : Declared cx ρ ids b' := by
  intro id hid
  obtain ⟨var, hvar, hty⟩ := h id hid
  exact ⟨var, hvar, hpiece.type_eq hty⟩

theorem Holds.append {regs : ℕ → Val} (h : Holds cx ρ (ids ++ ids') regs) :
    Holds cx ρ ids regs ∧ Holds cx ρ ids' regs :=
  List.forall_mem_append.mp h

/-- What comes later does not change the values of the locals. -/
theorem Holds.agree {regs regs' : ℕ → Val} (h : Holds cx ρ ids regs) (hdecl : Declared cx ρ ids b)
    (hagree : Agree b.types.length regs regs') : Holds cx ρ ids regs' := by
  intro id hid var hvar
  obtain ⟨var', hvar', hty⟩ := hdecl id hid
  obtain rfl : var' = var := Option.some.inj (hvar'.symm.trans hvar)
  exact (hagree _ (Builder.lt_length hty)).trans (h id hid var' hvar)

theorem isRefcounted_eq_false {e : Expr} {k : Kind} (h : cx.tyOf e = k.ty) :
    cx.isRefcounted e = false := by
  rw [Context.isRefcounted, h]
  cases k <;> rfl

theorem emits_local {id : LocalId} {e : Expr} {span : Interp.Span} {k : Kind} (hty : cx.tyOf e = k.ty)
    (hdecl : Declared cx ρ [id] b) :
    Emits machine (cx.lowerLocal id e span) b (ρ id).kind.clType (Holds cx ρ [id])
      (some (ρ id).encode) := by
  obtain ⟨var, hvar, hvty⟩ := hdecl id List.mem_cons_self
  have hlower : cx.lowerLocal id e span = pure (cx.useVar var) := by
    rw [Context.lowerLocal, hvar]
    simp [isRefcounted_eq_false hty]
  rw [hlower]
  exact .pure hvty fun regs hregs => hregs id List.mem_cons_self var hvar

/-- An operator on strings is lowered elsewhere; on scalars there is nothing to release. -/
theorem lowerStrict_eq {op : BinaryOp} {left right e : Expr} {l r : Lower ℕ} {span : Interp.Span} {k k' : Kind}
    (hleft : cx.tyOf left = k.ty) (hright : cx.tyOf right = k'.ty) :
    cx.lowerStrict op left right l r e span = (do
      let l ← l
      let r ← r
      lowerBinopStrict op l r span) := by
  have hstring : ¬ (cx.tyOf left = .string ∧ cx.tyOf right = .string) := by
    rintro ⟨h, -⟩
    rw [hleft] at h
    cases k <;> cases h
  rw [Context.lowerStrict, if_neg hstring]
  simp [Context.emitRelease, isRefcounted_eq_false hleft, isRefcounted_eq_false hright]

theorem Recorded.operands {t left right : Term}
    (h : Recorded cx ρ t) (hsub : t.subterms = t :: (left.subterms ++ right.subterms)) :
    Recorded cx ρ left ∧ Recorded cx ρ right := by
  constructor
  · exact fun u hu => h u (hsub ▸ List.mem_cons_of_mem _ (List.mem_append_left _ hu))
  · exact fun u hu => h u (hsub ▸ List.mem_cons_of_mem _ (List.mem_append_right _ hu))

theorem kind_of_comparison {op : BinaryOp} {m n : ℤ} {w : Scalar} (h : comparison op m n = .ok w) :
    w.kind = .bool := by
  cases op <;> cases h <;> rfl

theorem Application.native_typed : Operators.Typed Application.native := by
  intro a k w hk hw
  by_cases hdiv : a.DividesMin
  · rw [native_of_dividesMin hdiv] at hw
    cases hw
  · by_cases horder : a.OrdersBools
    · rcases a with ⟨wrapping, op, m | p, n | q⟩ | _
      all_goals try exact horder.elim
      have hbool : k = .bool := by
        rcases horder with rfl | rfl | rfl | rfl <;>
          simp_all [kind, binaryKind, Scalar.kind]
      rw [hbool]
      exact kind_of_comparison hw
    · rw [native_eq_interp hdiv horder] at hw
      exact interp_typed a k w hk hw

theorem emits_term {t : Term} {k : Kind} (hk : t.kind ρ = some k) (hty : Recorded cx ρ t)
    (hb : b.Fresh) (hdecl : Declared cx ρ t.locals b) :
    Emits machine (cx.lowerExpr t.expr) b k.clType (Holds cx ρ t.locals)
      (nativeOut (t.eval Application.native ρ)) := by
  induction t generalizing k b with
  | int n span =>
    cases hk
    exact .value fun regs _ => by simp [machine, Inst.exec, Term.eval, Term.prog, nativeOut,
      Except.toOption, Scalar.encode]
  | bool p span =>
    cases hk
    exact .value fun regs _ => by cases p <;> rfl
  | localVar id span =>
    obtain rfl : (ρ id).kind = k := Option.some.inj hk
    exact emits_local (hty _ (Term.mem_subterms_self _) _ rfl) hdecl
  | binary wrapping op left right span ihl ihr =>
    obtain ⟨kl, hkl, hk⟩ := Option.bind_eq_some_iff.mp hk
    obtain ⟨kr, hkr, hk⟩ := Option.bind_eq_some_iff.mp hk
    obtain ⟨hdl, hdr⟩ := hdecl.append
    obtain ⟨htyl, htyr⟩ := hty.operands rfl
    have htl := htyl _ (Term.mem_subterms_self _) _ hkl
    have htr := htyr _ (Term.mem_subterms_self _) _ hkr
    have hlower : cx.lowerExpr (Term.binary wrapping op left right span).expr = (do
        let l ← cx.lowerExpr left.expr
        let r ← cx.lowerExpr right.expr
        if wrapping then lowerBinopWrapping op l r span else lowerBinopStrict op l r span) := by
      cases wrapping with
      | true => rfl
      | false =>
        -- `and` and `or` are not among the operators that evaluate both operands
        cases op <;> first | exact lowerStrict_eq htl htr | simp [binaryKind] at hk
    rw [Term.eval_binary, hlower]
    refine emits_bind ((ihl hkl htyl hb hdl).mono fun regs hregs => hregs.append.1)
      (fun w hw => Term.kind_eval Application.native_typed hkl hw) fun l b₁ c₁ x h₁ hl hx => ?_
    refine emits_bind ((ihr hkr htyr (h₁.fresh hb) (hdr.after h₁)).mono ?_)
      (fun w hw => Term.kind_eval Application.native_typed hkr hw) fun r b₂ c₂ y h₂ hr hy => ?_
    · rintro regs ⟨regs₀, hregs₀, hagree, -⟩
      exact hregs₀.append.2.agree hdr hagree
    subst hx hy
    have hlt := Builder.lt_length hl
    have hP : ∀ regs, Blocks.After b₁.types.length (Blocks.After b.types.length
        (Holds cx ρ (Term.binary wrapping op left right span).locals) l x.encode) r y.encode regs →
        regs l = x.encode ∧ regs r = y.encode := by
      rintro regs ⟨regs', ⟨_, _, _, hx⟩, hagree, hy⟩
      exact ⟨(hagree l hlt).trans hx, hy⟩
    cases wrapping with
    | true => exact emits_binopWrapping hk (h₂.type_eq hl) hP
    | false => exact emits_binopStrict (h₂.fresh (h₁.fresh hb)) hk (h₂.type_eq hl) hr hP
  | unary wrapping op operand span ih =>
    obtain ⟨k', hk', hk⟩ := Option.bind_eq_some_iff.mp hk
    have htyo : Recorded cx ρ operand := fun u hu => hty u (List.mem_cons_of_mem _ hu)
    rw [Term.eval_unary]
    have hlower : cx.lowerExpr (Term.unary wrapping op operand span).expr = (do
        let v ← cx.lowerExpr operand.expr
        if wrapping then lowerUnopWrapping op v span else lowerUnop op v span) := by
      cases wrapping <;> rfl
    rw [hlower]
    refine emits_bind (ih hk' htyo hb hdecl)
      (fun w hw => Term.kind_eval Application.native_typed hk' hw) fun v b' c x hpiece hv hx => ?_
    subst hx
    have hP : ∀ regs, Blocks.After b.types.length (Holds cx ρ (Term.unary wrapping op operand span).locals)
        v x.encode regs → regs v = x.encode := by
      rintro regs ⟨_, _, _, h⟩
      exact h
    cases wrapping with
    | true => exact emits_unopWrapping hk (Builder.lt_length hv) hP
    | false => exact emits_unop (hpiece.fresh hb) hk hv hP
  | shortCircuit isAnd left right span ihl ihr =>
    simp only [Term.kind, Option.ite_none_right_eq_some, Option.some.injEq] at hk
    obtain ⟨⟨hkl, hkr⟩, rfl⟩ := hk
    obtain ⟨hdl, hdr⟩ := hdecl.append
    obtain ⟨htyl, htyr⟩ := hty.operands rfl
    have hlower : cx.lowerExpr (Term.shortCircuit isAnd left right span).expr =
        lowerShortCircuit isAnd (cx.lowerExpr left.expr) (cx.lowerExpr right.expr) := by
      cases isAnd <;> rfl
    rw [Term.eval_shortCircuit, hlower]
    refine emits_shortCircuit hb ((ihl hkl htyl hb hdl).mono fun regs hregs => hregs.append.1)
      (fun w hw => Term.kind_eval Application.native_typed hkl hw) fun b' c hpiece => ?_
    refine (ihr hkr htyr (hpiece.fresh hb) (hdr.after hpiece)).mono ?_
    rintro regs ⟨regs₀, hregs₀, hagree⟩
    exact hregs₀.append.2.agree hdr hagree

end Terms

/-! ### Agreement -/

/-- Where the interpreter computes a value the code computes the same one, and the code ends the
program where the interpreter returns an arithmetic error. -/
structure TiersAgree (r : Except InterpError ExprFlow) (code c : List (Line Inst)) (v : ℕ)
    (regs : ℕ → Val) : Prop where
  value : ∀ w : Scalar, r = .ok (.value w.value) ↔
    ∃ regs', Reaches machine code (.running c regs) (.running [] regs') ∧ regs' v = w.encode
  trap : (∃ message span, r = .error ⟨.arithmetic message, span⟩) ↔
    Reaches machine code (.running c regs) .ended

/-- No two booleans are ordered on the way, and no division has a result that is too large, unless
the evaluation ends in an arithmetic error anyway. -/
def Term.Harmless (ρ : LocalId → Scalar) (t : Term) : Prop :=
  (∀ a ∈ t.applied Application.interp ρ, ¬ a.OrdersBools) ∧
    ((∀ a ∈ t.applied Application.interp ρ, ¬ a.DividesMin) ∨
      ∃ a ∈ t.applied Application.interp ρ, a.interp = .error .arithmetic)

section Agreement

variable {out out' : Except Fault Scalar} {r : Except InterpError ExprFlow} {w : Scalar}

theorem Shows.value_iff (h : Shows out r) : r = .ok (.value w.value) ↔ out = .ok w := by
  constructor
  · rintro rfl
    rcases out with fault | w'
    · cases fault <;> exact h.elim
    · exact congrArg Except.ok (Scalar.value_injective h).symm
  · rintro rfl
    rcases r with err | (v | v)
    · exact h.elim
    · exact congrArg (Except.ok ∘ ExprFlow.value) h
    · exact h.elim

theorem Shows.arithmetic_iff (h : Shows out r) :
    (∃ message span, r = .error ⟨.arithmetic message, span⟩) ↔ out = .error .arithmetic := by
  constructor
  · rintro ⟨message, span, rfl⟩
    rcases out with (_ | _) | w
    · rfl
    · exact h.elim
    · exact h.elim
  · rintro rfl
    rcases r with ⟨kind, span⟩ | flow
    · cases kind <;> first | exact ⟨_, _, rfl⟩ | exact h.elim
    · exact h.elim

variable {code c : List (Line Inst)} {n v : ℕ} {regs : ℕ → Val}

/-- The code computes at most one value. -/
theorem leads_value_iff (h : Blocks.Leads machine code [] n v c regs (nativeOut out)) :
    (∃ regs', Reaches machine code (.running c regs) (.running [] regs') ∧ regs' v = w.encode) ↔
      out = .ok w := by
  rcases out with fault | w'
  · constructor
    · rintro ⟨regs', hreach, -⟩
      cases h.unique hreach rfl rfl
    · exact fun h => nomatch h
  · obtain ⟨regs₁, hreach₁, hv₁, -⟩ := h
    constructor
    · rintro ⟨regs', hreach, hv⟩
      cases hreach₁.unique hreach rfl rfl
      exact congrArg Except.ok (Scalar.encode_injective (hv₁.symm.trans hv))
    · rintro h
      cases h
      exact ⟨regs₁, hreach₁, hv₁⟩

theorem leads_ended_iff (h : Blocks.Leads machine code [] n v c regs (nativeOut out)) :
    Reaches machine code (.running c regs) .ended ↔ ∃ fault, out = .error fault := by
  rcases out with fault | w
  · exact ⟨fun _ => ⟨fault, rfl⟩, fun _ => h⟩
  · obtain ⟨regs₁, hreach₁, -⟩ := h
    constructor
    · intro hreach
      cases hreach₁.unique hreach rfl rfl
    · rintro ⟨_, h⟩
      cases h

theorem checked_ne_mismatch {wrapping : Bool} {m : ℤ} : checked wrapping m ≠ .error .mismatch := by
  rw [checked]
  split <;> simp

theorem Application.interp_mismatch_iff {a : Application} {k : Kind} (hk : a.kind = some k) :
    a.interp = .error .mismatch ↔ a.OrdersBools := by
  rcases a with ⟨wrapping, op, m | p, m' | q⟩ | ⟨wrapping, op, m | p⟩
  · cases op <;> simp [interp, OrdersBools, checked_ne_mismatch, comparison]
    · split <;> simp
    · split <;> simp
    · cases hk
    · cases hk
  · cases op <;> simp [kind, binaryKind, Scalar.kind] at hk
  · cases op <;> simp [kind, binaryKind, Scalar.kind] at hk
  · cases op <;> simp [interp, OrdersBools] <;> simp [kind, binaryKind, Scalar.kind] at hk
  · cases op <;> simp [interp, OrdersBools, checked_ne_mismatch]
    simp [kind, unaryKind, Scalar.kind] at hk
  · cases op <;> simp [interp, OrdersBools]
    simp [kind, unaryKind, Scalar.kind] at hk

variable {ρ : LocalId → Scalar} {t : Term} {k : Kind}

/-- Where the interpreter orders no booleans, the native tier differs in divisions only. -/
theorem eval_native (horder : ∀ a ∈ t.applied Application.interp ρ, ¬ a.OrdersBools) :
    t.eval Application.native ρ = if ∃ a ∈ t.applied Application.interp ρ, a.DividesMin
      then .error .arithmetic else t.eval Application.interp ρ := by
  split
  · rename_i hdiv
    obtain ⟨a, ha, hmin⟩ := hdiv
    refine Prog.outcome_eq_error (fun a ha => ?_) ⟨a, ha, Application.native_of_dividesMin hmin⟩
    by_cases hmin : a.DividesMin
    · exact .inr (Application.native_of_dividesMin hmin)
    · exact .inl (Application.native_eq_interp hmin (horder a ha))
  · rename_i hdiv
    refine Prog.outcome_congr fun a ha => ?_
    exact Application.native_eq_interp (fun hmin => hdiv ⟨a, ha, hmin⟩) (horder a ha)

theorem eval_interp_mismatch_iff (hk : t.kind ρ = some k) :
    t.eval Application.interp ρ = .error .mismatch ↔
      ∃ a ∈ t.applied Application.interp ρ, a.OrdersBools := by
  rw [Term.eval, Prog.outcome_error_iff]
  refine exists_congr fun a => and_congr_right fun ha => ?_
  obtain ⟨k', hk'⟩ := Term.kind_of_mem_applied Application.interp_typed hk ha
  exact Application.interp_mismatch_iff hk'

theorem eval_agree_iff (hk : t.kind ρ = some k) :
    ((∀ w, t.eval Application.interp ρ = .ok w ↔ t.eval Application.native ρ = .ok w) ∧
      (t.eval Application.interp ρ = .error .arithmetic ↔
        ∃ fault, t.eval Application.native ρ = .error fault)) ↔ t.Harmless ρ := by
  have harith : t.eval Application.interp ρ = .error .arithmetic ↔
      ∃ a ∈ t.applied Application.interp ρ, a.interp = .error .arithmetic :=
    Prog.outcome_error_iff
  have hmismatch := eval_interp_mismatch_iff hk
  rw [Term.Harmless, ← harith]
  constructor
  · rintro ⟨hvalue, htrap⟩
    have horder : ∀ a ∈ t.applied Application.interp ρ, ¬ a.OrdersBools := by
      intro a ha horder
      have hinterp := hmismatch.mpr ⟨a, ha, horder⟩
      -- the code has an outcome, the interpreter neither a value nor an arithmetic error
      rcases hnative : t.eval Application.native ρ with fault | w
      · rw [htrap.mpr ⟨fault, hnative⟩] at hinterp
        cases hinterp
      · rw [(hvalue w).mpr hnative] at hinterp
        cases hinterp
    refine ⟨horder, ?_⟩
    by_cases hdiv : ∃ a ∈ t.applied Application.interp ρ, a.DividesMin
    · exact .inr (htrap.mpr ⟨_, (eval_native horder).trans (if_pos hdiv)⟩)
    · exact .inl fun a ha hmin => hdiv ⟨a, ha, hmin⟩
  · rintro ⟨horder, hdiv⟩
    have hno : t.eval Application.interp ρ ≠ .error .mismatch := by
      intro h
      obtain ⟨a, ha, ho⟩ := hmismatch.mp h
      exact horder a ha ho
    have hsame : t.eval Application.native ρ = t.eval Application.interp ρ := by
      rw [eval_native horder]
      split
      · rename_i hmin
        obtain ⟨a, ha, hmin⟩ := hmin
        rcases hdiv with hdiv | hdiv
        · exact absurd hmin (hdiv a ha)
        · exact hdiv.symm
      · rfl
    rw [hsame]
    refine ⟨fun w => Iff.rfl, fun h => ⟨_, h⟩, ?_⟩
    rintro ⟨_ | _, h⟩
    · exact h
    · exact absurd h hno

/-- The two tiers agree on an expression exactly where it is harmless. -/
theorem tiers_agree_iff (bd : Boundary) (ir : IrFile) {cx : Context} {s : Interpreter} {n : ℕ}
    (hk : t.kind ρ = some k) (hn : t.depth < n)
    (hs : ∀ id ∈ t.locals, s.env.lookup id = some (ρ id).value)
    (hty : Recorded cx ρ t) (hb : b.Fresh) (hdecl : Declared cx ρ t.locals b)
    (hregs : Holds cx ρ t.locals regs) :
    ∃ r v b' c, (evaluator bd ir n).expr t.expr s = .ret (r, s) ∧
      cx.lowerExpr t.expr b = .ok (v, b') ∧ b'.lines = b.lines ++ c ∧
      (TiersAgree r b'.lines c v regs ↔ t.Harmless ρ) := by
  obtain ⟨r, hr, hshows⟩ := yields_eval bd ir hk hs hn
  obtain ⟨v, b', c, hlower, hpiece, -, hc⟩ := emits_term hk hty hb hdecl
  have hleads := hc [] (by intro label hlabel; cases hlabel) regs hregs
  simp only [List.append_nil, ← hpiece.lines] at hleads
  refine ⟨r, v, b', c, hr, hlower, hpiece.lines, ?_⟩
  rw [← eval_agree_iff hk]
  constructor
  · rintro ⟨hvalue, htrap⟩
    exact ⟨fun w => by rw [← hshows.value_iff, hvalue, leads_value_iff hleads],
      by rw [← hshows.arithmetic_iff, htrap, leads_ended_iff hleads]⟩
  · rintro ⟨hvalue, htrap⟩
    exact ⟨fun w => by rw [hshows.value_iff, hvalue, leads_value_iff hleads],
      by rw [hshows.arithmetic_iff, htrap, leads_ended_iff hleads]⟩

/-- The expression `a / b`. -/
def quotient : Term := .binary false .div (.localVar 0 ⟨0, 1⟩) (.localVar 1 ⟨4, 5⟩) ⟨0, 5⟩

def operands (m n : BitVec 64) (id : LocalId) : Scalar := .int (if id = 0 then m else n)

def boundTo (m n : BitVec 64) : Interpreter where
  env := ((∅ : Keyed.Map LocalId Value).insert 1 (.int n.toInt)).insert 0 (.int m.toInt)

/-- Two integer variables, which hold the first two values. -/
def twoInts : Context where
  tyOf _ := .int
  env := some
  useVar := id
  isWideOption _ := false
  dupDropEnabled := false
  elsewhere _ := fail .unreachable

def noFile : IrFile := ⟨[], [], [], [], [], [], []⟩

theorem holds_operands (m n : BitVec 64) :
    Holds twoInts (operands m n) quotient.locals fun v => .i64 (if v = 0 then m else n) := by
  intro id hid var hvar
  cases hvar
  rfl

theorem mem_locals_quotient {id : LocalId} (h : id ∈ quotient.locals) : id = 0 ∨ id = 1 := by
  simpa [quotient, Term.locals] using h

theorem declared_operands (m n : BitVec 64) :
    Declared twoInts (operands m n) quotient.locals { types := [.i64, .i64] } := by
  intro id hid
  refine ⟨id, rfl, ?_⟩
  rcases mem_locals_quotient hid with rfl | rfl <;> rfl

theorem lookup_boundTo (m n : BitVec 64) :
    ∀ id ∈ quotient.locals, (boundTo m n).env.lookup id = some (operands m n id).value := by
  intro id hid
  rcases mem_locals_quotient hid with rfl | rfl <;> rfl

theorem recorded_operands (m n : BitVec 64) : Recorded twoInts (operands m n) quotient := by
  intro u hu k hk
  have hu : u = quotient ∨ u = .localVar 0 ⟨0, 1⟩ ∨ u = .localVar 1 ⟨4, 5⟩ := by
    simpa [quotient, Term.subterms] using hu
  rcases hu with rfl | rfl | rfl <;> cases hk <;> rfl

theorem tiers_agree_seven_div_two :
    ∃ r v b' c, (evaluator blank noFile 2).expr quotient.expr (boundTo 7 2) = .ret (r, boundTo 7 2) ∧
      twoInts.lowerExpr quotient.expr { types := [.i64, .i64] } = .ok (v, b') ∧
      b'.lines = [] ++ c ∧
      TiersAgree r b'.lines c v fun v => .i64 (if v = 0 then 7 else 2) := by
  obtain ⟨r, v, b', c, hr, hlower, hlines, hagree⟩ := tiers_agree_iff (t := quotient)
    (ρ := operands 7 2) (k := .int) blank noFile (n := 2) rfl (by decide) (lookup_boundTo 7 2)
    (recorded_operands 7 2) (by intro label hlabel; cases hlabel) (declared_operands 7 2)
    (holds_operands 7 2)
  have happlied : quotient.applied Application.interp (operands 7 2) =
      [.binary false .div (.int 7) (.int 2)] := rfl
  refine ⟨r, v, b', c, hr, hlower, hlines, hagree.mpr ?_⟩
  rw [Term.Harmless, happlied]
  simp [Application.OrdersBools, Application.DividesMin]

/-- The interpreter divides the least integer by -1, where compiled code is ended. -/
theorem tiers_disagree_min_div_neg_one :
    ∃ r v b' c, (evaluator blank noFile 2).expr quotient.expr (boundTo (BitVec.intMin 64) (-1)) =
        .ret (r, boundTo (BitVec.intMin 64) (-1)) ∧
      twoInts.lowerExpr quotient.expr { types := [.i64, .i64] } = .ok (v, b') ∧
      b'.lines = [] ++ c ∧ r = .ok (.value (.int (-2 ^ 63))) ∧
      Reaches machine b'.lines (.running c fun v => .i64 (if v = 0 then BitVec.intMin 64 else -1))
        .ended ∧
      ¬ TiersAgree r b'.lines c v fun v => .i64 (if v = 0 then BitVec.intMin 64 else -1) := by
  have hk : quotient.kind (operands (BitVec.intMin 64) (-1)) = some .int := rfl
  obtain ⟨r, hr, hshows⟩ := yields_eval blank noFile hk
    (lookup_boundTo (BitVec.intMin 64) (-1)) (n := 2) (by decide)
  obtain ⟨v, b', c, hlower, hpiece, -, hc⟩ := emits_term (b := { types := [.i64, .i64] }) hk
    (recorded_operands _ _) (by intro label hlabel; cases hlabel) (declared_operands _ _)
  have hleads := hc [] (by intro label hlabel; cases hlabel) _ (holds_operands _ _)
  simp only [List.append_nil, ← hpiece.lines] at hleads
  have hinterp : quotient.eval Application.interp (operands (BitVec.intMin 64) (-1)) =
      .ok (.int (BitVec.intMin 64)) := by decide
  have hended := (leads_ended_iff hleads).mpr ⟨.arithmetic, by decide⟩
  have hvalue : r = .ok (.value (.int (-2 ^ 63))) := hshows.value_iff.mpr hinterp
  refine ⟨r, v, b', c, hr, hlower, hpiece.lines, hvalue, hended, fun hagree => ?_⟩
  obtain ⟨message, span, herror⟩ := hagree.trap.mpr hended
  rw [hvalue] at herror
  cases herror

end Agreement

end Corvid.Codegen
