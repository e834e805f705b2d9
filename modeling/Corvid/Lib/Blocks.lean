import Mathlib.Logic.Function.Basic
import Mathlib.Logic.Relation
import Mathlib.Order.Nat
import Mathlib.Tactic.Common

/-!
# Code in basic blocks

Code in static single assignment form, as a builder writes it: line after line, a block being opened
where its instructions begin. Values and blocks have numbers, and a block has parameters, which a
jump gives values.

## Main definitions

* `Line`, `Machine`, `step`, `Reaches`: code and its runs
* `Builder`: code that is being written
* `Piece`: what has been written between two states of a builder
* `Computes`, `Emits`: a piece computes a value, or ends the program

## Main results

* `Emits.bind`: one piece after another
* `Reaches.unique`: a run has one end
-/

namespace Blocks

inductive Line (I : Type) where
  | inst (results : List ℕ) (inst : I)
  | brif (cond thenBlock : ℕ) (thenArgs : List ℕ) (elseBlock : ℕ) (elseArgs : List ℕ)
  | jump (target : ℕ) (args : List ℕ)
  | trap
  | block (label : ℕ) (params : List ℕ)

/-- What an instruction does to the values: it gives results, or it ends the program. -/
structure Machine (I V : Type) where
  exec : I → (ℕ → V) → Option (List V)
  isTrue : V → Bool

/-- The program is about to run the rest of the code, or it has been ended. -/
inductive Config (I V : Type) where
  | running (rest : List (Line I)) (regs : ℕ → V)
  | ended

section Semantics

variable {I V : Type}

def assign : List ℕ → List V → (ℕ → V) → ℕ → V
  | r :: rs, v :: vs, regs => assign rs vs (Function.update regs r v)
  | _, _, regs => regs

@[simp] theorem assign_nil (vs : List V) (regs : ℕ → V) : assign [] vs regs = regs := by
  cases vs <;> rfl

@[simp] theorem assign_cons (r : ℕ) (rs : List ℕ) (v : V) (vs : List V) (regs : ℕ → V) :
    assign (r :: rs) (v :: vs) regs = assign rs vs (Function.update regs r v) := rfl

/-- The labels of the blocks that the code opens. -/
def labels : List (Line I) → List ℕ
  | [] => []
  | .block label _ :: rest => label :: labels rest
  | _ :: rest => labels rest

/-- Control goes to a block of the code. -/
def enter (label : ℕ) (args : List V) (regs : ℕ → V) : List (Line I) → Option (Config I V)
  | [] => none
  | .block l params :: rest =>
    if l = label then some (.running rest (assign params args regs)) else enter label args regs rest
  | _ :: rest => enter label args regs rest

variable (M : Machine I V) (code : List (Line I))

def step : Config I V → Option (Config I V)
  | .ended | .running [] _ => none
  | .running (.inst results i :: rest) regs => match M.exec i regs with
    | some vs => some (.running rest (assign results vs regs))
    | none => some .ended
  | .running (.brif cond thenBlock thenArgs elseBlock elseArgs :: _) regs =>
    if M.isTrue (regs cond) then enter thenBlock (thenArgs.map regs) regs code
    else enter elseBlock (elseArgs.map regs) regs code
  | .running (.jump target args :: _) regs => enter target (args.map regs) regs code
  | .running (.trap :: _) _ => some .ended
  -- control does not fall into a block
  | .running (.block _ _ :: _) _ => none

/-- Some steps lead from one configuration to another. -/
def Reaches : Config I V → Config I V → Prop :=
  Relation.ReflTransGen fun c c' => step M code c = some c'

variable {M code} {c c' c'' : Config I V}

theorem Reaches.refl : Reaches M code c c := Relation.ReflTransGen.refl

theorem Reaches.trans (h : Reaches M code c c') (h' : Reaches M code c' c'') :
    Reaches M code c c'' :=
  Relation.ReflTransGen.trans h h'

theorem Reaches.head (h : step M code c = some c') (h' : Reaches M code c' c'') :
    Reaches M code c c'' :=
  Relation.ReflTransGen.head h h'

/-- Two configurations in which a run comes to its end are the same. -/
theorem Reaches.unique (h : Reaches M code c c') (h' : Reaches M code c c'')
    (hc' : step M code c' = none) (hc'' : step M code c'' = none) : c' = c'' := by
  have stays {d e : Config I V} (hd : step M code d = none) (h : Reaches M code d e) : d = e := by
    rcases Relation.ReflTransGen.cases_head h with rfl | ⟨x, hx, -⟩
    · rfl
    · rw [hd] at hx
      cases hx
  have deterministic : Relator.RightUnique fun d e : Config I V => step M code d = some e :=
    fun d e e' he he' => Option.some.inj (he.symm.trans he')
  rcases Relation.ReflTransGen.total_of_right_unique deterministic h h' with h | h
  · exact stays hc' h
  · exact (stays hc'' h).symm

/-! ### Labels -/

@[simp] theorem labels_nil : labels ([] : List (Line I)) = [] := rfl

@[simp] theorem labels_inst (results : List ℕ) (i : I) (rest : List (Line I)) :
    labels (.inst results i :: rest) = labels rest := rfl

@[simp] theorem labels_brif (cond t : ℕ) (ts : List ℕ) (e : ℕ) (es : List ℕ)
    (rest : List (Line I)) : labels (.brif cond t ts e es :: rest) = labels rest := rfl

@[simp] theorem labels_jump (target : ℕ) (args : List ℕ) (rest : List (Line I)) :
    labels (.jump target args :: rest) = labels rest := rfl

@[simp] theorem labels_trap (rest : List (Line I)) : labels (.trap :: rest) = labels rest := rfl

@[simp] theorem labels_block (label : ℕ) (params : List ℕ) (rest : List (Line I)) :
    labels (.block label params :: rest) = label :: labels rest := rfl

@[simp] theorem labels_append (code rest : List (Line I)) :
    labels (code ++ rest) = labels code ++ labels rest := by
  induction code with
  | nil => rfl
  | cons line code ih => cases line <;> simp [ih]

/-- A block that no earlier line opens is found. -/
theorem enter_block {label : ℕ} {params : List ℕ} {args : List V} {regs : ℕ → V}
    {pre rest : List (Line I)} (h : label ∉ labels pre) :
    enter label args regs (pre ++ .block label params :: rest) =
      some (.running rest (assign params args regs)) := by
  induction pre with
  | nil => simp [enter]
  | cons line pre ih =>
    cases line with
    | block l ps =>
      have hl : l ≠ label ∧ label ∉ labels pre := by
        simpa [eq_comm] using h
      simp [enter, hl.1, ih hl.2]
    | _ => exact ih h

/-! ### Steps of a run -/

section Steps

variable {regs : ℕ → V} {rest target : List (Line I)} {cond t e : ℕ} {ts es results params : List ℕ}
  {i : I} {vs : List V}

theorem Reaches.inst (h : M.exec i regs = some vs)
    (h' : Reaches M code (.running rest (assign results vs regs)) c) :
    Reaches M code (.running (.inst results i :: rest) regs) c := by
  refine .head ?_ h'
  simp only [step, h]

theorem Reaches.inst_ended (h : M.exec i regs = none) :
    Reaches M code (.running (.inst results i :: rest) regs) .ended := by
  refine .head ?_ .refl
  simp only [step, h]

theorem Reaches.brif_then (pre : List (Line I)) (h : M.isTrue (regs cond) = true)
    (ht : t ∉ labels pre)
    (hcode : pre ++ .block t params :: target = code)
    (h' : Reaches M code (.running target (assign params (ts.map regs) regs)) c) :
    Reaches M code (.running (.brif cond t ts e es :: rest) regs) c := by
  refine .head ?_ h'
  rw [step, if_pos h, ← hcode, enter_block ht]

theorem Reaches.brif_else (pre : List (Line I)) (h : M.isTrue (regs cond) = false)
    (he : e ∉ labels pre)
    (hcode : pre ++ .block e params :: target = code)
    (h' : Reaches M code (.running target (assign params (es.map regs) regs)) c) :
    Reaches M code (.running (.brif cond t ts e es :: rest) regs) c := by
  refine .head ?_ h'
  rw [step, if_neg (by simp [h]), ← hcode, enter_block he]

theorem Reaches.jump (pre : List (Line I)) (ht : t ∉ labels pre)
    (hcode : pre ++ .block t params :: target = code)
    (h' : Reaches M code (.running target (assign params (ts.map regs) regs)) c) :
    Reaches M code (.running (.jump t ts :: rest) regs) c := by
  refine .head ?_ h'
  rw [step, ← hcode, enter_block ht]

end Steps

end Semantics

/-! ### Builders -/

structure Builder (I T : Type) where
  lines : List (Line I) := []
  /-- The types of the values, in the order of their numbers. -/
  types : List T := []
  /-- The parameters of the blocks, in the order of their numbers. -/
  params : List (List ℕ) := []

abbrev Emit (I T ε : Type) := StateT (Builder I T) (Except ε)

namespace Emit

variable {I T ε : Type}

/-- Appends a line to the block that is being written. -/
def line (l : Line I) : Emit I T ε Unit := modify fun b => { b with lines := b.lines ++ [l] }

def newValue (ty : T) : Emit I T ε ℕ := fun b =>
  .ok (b.types.length, { b with types := b.types ++ [ty] })

/-- An instruction with one result. -/
def value (ty : T) (i : I) : Emit I T ε ℕ := do
  let v ← newValue ty
  line (.inst [v] i)
  return v

/-- An instruction with two results. -/
def values (ty ty' : T) (i : I) : Emit I T ε (ℕ × ℕ) := do
  let v ← newValue ty
  let v' ← newValue ty'
  line (.inst [v, v'] i)
  return (v, v')

/-- An instruction without a result. -/
def effect (i : I) : Emit I T ε Unit := line (.inst [] i)

def createBlock : Emit I T ε ℕ := fun b =>
  .ok (b.params.length, { b with params := b.params ++ [[]] })

def appendBlockParam (block : ℕ) (ty : T) : Emit I T ε ℕ := do
  let v ← newValue ty
  modify fun b => { b with params := b.params.modify block (· ++ [v]) }
  return v

def switchToBlock (block : ℕ) : Emit I T ε Unit := do
  let b ← get
  line (.block block (b.params.getD block []))

end Emit

section Pieces

variable {I T V : Type}

/-- The labels in use have been given out. -/
def Builder.Fresh (b : Builder I T) : Prop := ∀ label ∈ labels b.lines, label < b.params.length

/-- The lines `c` have been written between two states of a builder. -/
structure Piece (b b' : Builder I T) (c : List (Line I)) : Prop where
  lines : b'.lines = b.lines ++ c
  types : b.types <+: b'.types
  params : b.params <+: b'.params
  lower : ∀ label ∈ labels c, b.params.length ≤ label
  upper : ∀ label ∈ labels c, label < b'.params.length

namespace Piece

variable {b b' b'' : Builder I T} {c c' : List (Line I)}

theorem refl (b : Builder I T) : Piece b b [] :=
  ⟨by simp, List.prefix_rfl, List.prefix_rfl, by simp, by simp⟩

theorem length_le (h : Piece b b' c) : b.types.length ≤ b'.types.length := h.types.length_le

theorem blocks_le (h : Piece b b' c) : b.params.length ≤ b'.params.length := h.params.length_le

theorem fresh (h : Piece b b' c) (hb : b.Fresh) : b'.Fresh := by
  intro label hlabel
  rw [h.lines, labels_append, List.mem_append] at hlabel
  rcases hlabel with hlabel | hlabel
  · exact (hb label hlabel).trans_le h.blocks_le
  · exact h.upper label hlabel

theorem trans (h : Piece b b' c) (h' : Piece b' b'' c') : Piece b b'' (c ++ c') where
  lines := by rw [h'.lines, h.lines, List.append_assoc]
  types := h.types.trans h'.types
  params := h.params.trans h'.params
  lower label hlabel := by
    rw [labels_append, List.mem_append] at hlabel
    rcases hlabel with hlabel | hlabel
    · exact h.lower label hlabel
    · exact h.blocks_le.trans (h'.lower label hlabel)
  upper label hlabel := by
    rw [labels_append, List.mem_append] at hlabel
    rcases hlabel with hlabel | hlabel
    · exact (h.upper label hlabel).trans_le h'.blocks_le
    · exact h'.upper label hlabel

theorem type_eq (h : Piece b b' c) {v : ℕ} {ty : T} (hv : b.types[v]? = some ty) :
    b'.types[v]? = some ty := by
  obtain ⟨more, hmore⟩ := h.types
  rw [← hmore, List.getElem?_append_left (List.getElem?_eq_some_iff.mp hv).1, hv]

end Piece

theorem Builder.lt_length {b : Builder I T} {v : ℕ} {ty : T} (hv : b.types[v]? = some ty) :
    v < b.types.length :=
  (List.getElem?_eq_some_iff.mp hv).1

/-- The values with numbers below `n` are the same. -/
def Agree (n : ℕ) (regs regs' : ℕ → V) : Prop := ∀ v < n, regs' v = regs v

theorem Agree.refl (n : ℕ) (regs : ℕ → V) : Agree n regs regs := fun _ _ => rfl

theorem Agree.trans {n n' : ℕ} {regs regs' regs'' : ℕ → V} (h : Agree n regs regs')
    (h' : Agree n' regs' regs'') (hn : n ≤ n') : Agree n regs regs'' :=
  fun v hv => (h' v (hv.trans_le hn)).trans (h v hv)

theorem Agree.update {n v : ℕ} {regs regs' : ℕ → V} (h : Agree n regs regs') (hv : n ≤ v) (x : V) :
    Agree n regs (Function.update regs' v x) := by
  intro u hu
  rw [Function.update_of_ne (by omega), h u hu]

variable (M : Machine I V)

/-- A run comes to the lines `rest` with `x` as the value `v`, the first `n` values being as before,
or to the end of the program where there is no `x`. -/
def Leads (code rest : List (Line I)) (n v : ℕ) (start : List (Line I)) (regs : ℕ → V) :
    Option V → Prop
  | some x => ∃ regs', Reaches M code (.running start regs) (.running rest regs') ∧ regs' v = x ∧
      Agree n regs regs'
  | none => Reaches M code (.running start regs) .ended

/-- The code opens no block that has been created between two states of a builder. -/
def Apart (b b' : Builder I T) (post : List (Line I)) : Prop :=
  ∀ label ∈ labels post, label < b.params.length ∨ b'.params.length ≤ label

/-- From values that satisfy `P`, the piece leads to its end with `out` as the value `v`, whatever
code follows. -/
def Computes (b b' : Builder I T) (c : List (Line I)) (v : ℕ) (P : (ℕ → V) → Prop)
    (out : Option V) : Prop :=
  ∀ post, Apart b b' post → ∀ regs, P regs →
    Leads M (b.lines ++ c ++ post) post b.types.length v (c ++ post) regs out

variable {M} {b b' b'' : Builder I T} {c c' : List (Line I)} {v v' : ℕ} {x : V} {out : Option V}
variable {P P' : (ℕ → V) → Prop}

/-- What follows the first of two pieces. -/
theorem Piece.apart_append (h : Piece b b' c) (h' : Piece b' b'' c') {post : List (Line I)}
    (hpost : Apart b b'' post) : Apart b b' (c' ++ post) := by
  intro label hlabel
  rw [labels_append, List.mem_append] at hlabel
  rcases hlabel with hlabel | hlabel
  · exact .inr (h'.lower label hlabel)
  · exact (hpost label hlabel).imp_right h'.blocks_le.trans

/-- What follows the second of two pieces. -/
theorem Piece.apart (h : Piece b b' c) {post : List (Line I)} (hpost : Apart b b'' post) :
    Apart b' b'' post :=
  fun label hlabel => (hpost label hlabel).imp_left fun hlt => hlt.trans_le h.blocks_le

/-- What is known after a piece that has computed `x` as the value `v`. -/
def After (n : ℕ) (P : (ℕ → V) → Prop) (v : ℕ) (x : V) (regs' : ℕ → V) : Prop :=
  ∃ regs, P regs ∧ Agree n regs regs' ∧ regs' v = x

/-- The second piece starts with the value of the first. -/
theorem Computes.andThen (h : Computes M b b' c v P (some x)) (hpiece : Piece b b' c)
    (hpiece' : Piece b' b'' c') (h' : Computes M b' b'' c' v' (After b.types.length P v x) out) :
    Computes M b b'' (c ++ c') v' P out := by
  intro post hpost regs hregs
  obtain ⟨regs₁, hreach, hx, hagree⟩ := h (c' ++ post) (hpiece.apart_append hpiece' hpost) regs hregs
  have hreach' := h' post (hpiece.apart hpost) regs₁ ⟨regs, hregs, hagree, hx⟩
  simp only [hpiece.lines, List.append_assoc] at hreach hreach' ⊢
  cases out with
  | none => exact hreach.trans hreach'
  | some y =>
    obtain ⟨regs₂, hreach₂, hy, hagree₂⟩ := hreach'
    exact ⟨regs₂, hreach.trans hreach₂, hy, hagree.trans hagree₂ hpiece.length_le⟩

/-- The second piece is not run where the first one ends the program. -/
theorem Computes.andEnd (h : Computes M b b' c v P none) (hpiece : Piece b b' c)
    (hpiece' : Piece b' b'' c') : Computes M b b'' (c ++ c') v' P none := by
  intro post hpost regs hregs
  have hreach := h (c' ++ post) (hpiece.apart_append hpiece' hpost) regs hregs
  simp only [List.append_assoc] at hreach ⊢
  exact hreach

theorem Computes.mono (h : Computes M b b' c v P' out) (hP : ∀ regs, P regs → P' regs) :
    Computes M b b' c v P out :=
  fun post hpost regs hregs => h post hpost regs (hP regs hregs)

/-- From the state `b`, the computation writes a piece that computes a value of a type. -/
def Emits {ε : Type} (M : Machine I V) (m : Emit I T ε ℕ) (b : Builder I T) (ty : T)
    (P : (ℕ → V) → Prop) (out : Option V) : Prop :=
  ∃ v b' c, m b = .ok (v, b') ∧ Piece b b' c ∧ b'.types[v]? = some ty ∧ Computes M b b' c v P out

namespace Emits

variable {ε : Type} {m : Emit I T ε ℕ} {f : ℕ → Emit I T ε ℕ} {ty ty' : T} {g : V → Option V}

theorem mono (h : Emits M m b ty P' out) (hP : ∀ regs, P regs → P' regs) :
    Emits M m b ty P out := by
  obtain ⟨v, b', c, hm, hpiece, hty, hc⟩ := h
  exact ⟨v, b', c, hm, hpiece, hty, hc.mono hP⟩

theorem congr {m' : Emit I T ε ℕ} (h : Emits M m' b ty P out) (hm : m b = m' b) :
    Emits M m b ty P out := by
  obtain ⟨v, b', c, hm', hpiece, hty, hc⟩ := h
  exact ⟨v, b', c, hm.trans hm', hpiece, hty, hc⟩

/-- One computation after another. The second one is also written where the first piece ends the
program, so that it has to be fine for some value. -/
theorem bind (good : V → Prop) (h : Emits M m b ty P out) (hgood : ∀ x, out = some x → good x) (hsome : ∃ x, good x)
    (hf : ∀ v b' c x, Piece b b' c → b'.types[v]? = some ty → good x →
      Emits M (f v) b' ty' (After b.types.length P v x) (g x)) :
    Emits M (m >>= f) b ty' P (out.bind g) := by
  obtain ⟨v, b', c, hm, hpiece, hty, hc⟩ := h
  have hbind : (m >>= f) b = f v b' := by
    show (m b).bind (fun r => f r.1 r.2) = _
    rw [hm]
    rfl
  cases out with
  | none =>
    obtain ⟨x, hx⟩ := hsome
    obtain ⟨v', b'', c', hm', hpiece', hty', -⟩ := hf v b' c x hpiece hty hx
    exact ⟨v', b'', c ++ c', hbind.trans hm', hpiece.trans hpiece', hty', hc.andEnd hpiece hpiece'⟩
  | some x =>
    obtain ⟨v', b'', c', hm', hpiece', hty', hc'⟩ := hf v b' c x hpiece hty (hgood x rfl)
    exact ⟨v', b'', c ++ c', hbind.trans hm', hpiece.trans hpiece', hty',
      hc.andThen hpiece hpiece' hc'⟩

theorem bind_some (h : Emits M m b ty P (some x))
    (hf : ∀ v b' c, Piece b b' c → b'.types[v]? = some ty →
      Emits M (f v) b' ty' (After b.types.length P v x) out) :
    Emits M (m >>= f) b ty' P out := by
  refine h.bind (g := fun _ => out) (· = x) (by simp) ⟨x, rfl⟩ fun v b' c y hpiece hty hy => ?_
  rw [hy]
  exact hf v b' c hpiece hty

/-- A value that is there already. -/
theorem pure (hty : b.types[v]? = some ty) (h : ∀ regs, P regs → regs v = x) :
    Emits (ε := ε) M (pure v) b ty P (some x) := by
  refine ⟨v, b, [], rfl, .refl b, hty, ?_⟩
  intro post hpost regs hregs
  exact ⟨regs, .refl, h regs hregs, .refl _ _⟩

/-- One instruction with a result. -/
theorem value {i : I} (h : ∀ regs, P regs → M.exec i regs = out.map ([·])) :
    Emits (ε := ε) M (Emit.value ty i) b ty P out := by
  refine ⟨b.types.length, ⟨b.lines ++ [.inst [b.types.length] i], b.types ++ [ty], b.params⟩, _, rfl,
    ⟨rfl, List.prefix_append .., List.prefix_rfl, by simp, by simp⟩, by simp, ?_⟩
  intro post hpost regs hregs
  cases out with
  | none => exact .inst_ended (h regs hregs)
  | some x =>
    exact ⟨_, .inst (h regs hregs) .refl, by simp, (Agree.refl _ _).update le_rfl x⟩

/-- Lines that compute nothing, before a computation. They lead to their end, or, where the program
is ended, there. -/
theorem lines {α : Type} {w : α} {m : Emit I T ε α} {f : α → Emit I T ε ℕ} (goesOn : Prop)
    [Decidable goesOn] (hm : m b = .ok (w, b')) (hpiece : Piece b b' c)
    (hrun : ∀ post, Apart b b' post → ∀ regs, P regs →
      if goesOn then ∃ regs', P' regs' ∧ Agree b.types.length regs regs' ∧
        Reaches M (b.lines ++ c ++ post) (.running (c ++ post) regs) (.running post regs')
      else Reaches M (b.lines ++ c ++ post) (.running (c ++ post) regs) .ended)
    (hf : Emits M (f w) b' ty P' out) :
    Emits M (m >>= f) b ty P (if goesOn then out else none) := by
  obtain ⟨v, b'', c', hm', hpiece', hty, hc⟩ := hf
  have hbind : (m >>= f) b = f w b' := by
    show (m b).bind (fun r => f r.1 r.2) = _
    rw [hm]
    rfl
  refine ⟨v, b'', c ++ c', hbind.trans hm', hpiece.trans hpiece', hty, ?_⟩
  intro post hpost regs hregs
  have hrun := hrun (c' ++ post) (hpiece.apart_append hpiece' hpost) regs hregs
  by_cases hgoes : goesOn
  · rw [if_pos hgoes] at hrun ⊢
    obtain ⟨regs₁, hregs₁, hagree, hreach⟩ := hrun
    have hreach' := hc post (hpiece.apart hpost) regs₁ hregs₁
    simp only [hpiece.lines, List.append_assoc] at hreach hreach' ⊢
    cases out with
    | none => exact hreach.trans hreach'
    | some y =>
      obtain ⟨regs₂, hreach₂, hy, hagree₂⟩ := hreach'
      exact ⟨regs₂, hreach.trans hreach₂, hy, hagree.trans hagree₂ hpiece.length_le⟩
  · rw [if_neg hgoes] at hrun ⊢
    simp only [List.append_assoc] at hrun ⊢
    exact hrun

/-- One instruction with two results, before a computation. -/
theorem values {i : I} {y : V} {ty'' : T} {f : ℕ × ℕ → Emit I T ε ℕ}
    (h : ∀ regs, P regs → M.exec i regs = some [x, y])
    (hf : ∀ b' c v v', Piece b b' c → b'.types[v]? = some ty → b'.types[v']? = some ty' →
      Emits M (f (v, v')) b' ty'' (fun regs => regs v = x ∧ regs v' = y) out) :
    Emits M (Emit.values ty ty' i >>= f) b ty'' P out := by
  set n := b.types.length with hn
  obtain ⟨b', hm, rfl⟩ : ∃ b', (Emit.values ty ty' i : Emit I T ε (ℕ × ℕ)) b = .ok ((n, n + 1), b') ∧
      b' = ⟨b.lines ++ [.inst [n, n + 1] i], b.types ++ [ty, ty'], b.params⟩ := by
    refine ⟨_, ?_, rfl⟩
    show Except.ok ((n, (b.types ++ [ty]).length), (⟨b.lines ++ [.inst [n, (b.types ++ [ty]).length] i],
      b.types ++ [ty] ++ [ty'], b.params⟩ : Builder I T)) = _
    simp [hn]
  have hpiece : Piece b ⟨b.lines ++ [.inst [n, n + 1] i], b.types ++ [ty, ty'], b.params⟩
      [.inst [n, n + 1] i] :=
    ⟨rfl, List.prefix_append .., List.prefix_rfl, by simp, by simp⟩
  have hlines := lines (P := P) True hm hpiece ?_
    (hf _ _ n (n + 1) hpiece (by simp [hn]) (by simp [hn]))
  · simpa using hlines
  intro post _ regs hregs
  refine ⟨_, ?_, ?_, .inst (h regs hregs) .refl⟩
  · simp
  · exact ((Agree.refl n regs).update le_rfl x).update (Nat.le_succ n) y

end Emits

end Pieces

end Blocks
