import Corvid.Lib.Keyed
import Corvid.Runtime.Json
import Mathlib.Data.Finset.Dedup

/-!
# Filtering the catalog by effects

A filter is a tree of predicates about the dimensions of an agent. What an agent does not declare is
neither true nor false. Conjunctions and disjunctions stop at the first child that decides them, so
whether a predicate is evaluated, and can fail, depends on those before it.

## Main definitions

* `evaluateExpr`, `findMatchingIndices`: the evaluation of a filter
* `kleene`: its value in three-valued logic
* `Quiet`: where every predicate that fails comes behind one that decides

## Main results

* `evaluateExpr_eq_ok_iff`: an evaluation succeeds where it is quiet, with the value of the logic
-/

namespace Corvid.EffectFilter

open Keyed (Map)

inductive FindAgentsStatus where
  | ok
  | badJson
  | unknownDimension
  | opMismatch
deriving DecidableEq, Repr

structure FilterError where
  status : FindAgentsStatus
  message : String
deriving DecidableEq, Repr

structure OwnedFindAgentsResult where
  status : FindAgentsStatus
  matchedIndices : List ℕ
  errorMessage : Option String
deriving DecidableEq, Repr

inductive FilterOp where
  | eq
  | ne
  | lt
  | le
  | gt
  | ge
deriving DecidableEq, Repr

structure LeafPredicate where
  dim : String
  op : FilterOp
  value : Json

inductive FilterExpr where
  | all (children : List FilterExpr)
  | any (children : List FilterExpr)
  | not (child : FilterExpr)
  | leaf (predicate : LeafPredicate)

inductive MatchState where
  | matched
  | noMatch
  | unspecified
deriving DecidableEq, Repr

/-- Floating-point numbers: the conversions from the numbers of a document, and comparisons. -/
class Floats (F : Type) where
  ofInt : ℤ → F
  ofRat : ℚ → F
  eq : F → F → Bool
  lt : F → F → Bool
  le : F → F → Bool

/-- What a filter asks of an agent. -/
structure FilterAgent (F : Type) where
  trustTier : Option String
  costBoundUsd : Option F
  latencyP99Ms : Option F
  dangerous : Bool
  replayable : Bool
  deterministic : Bool
  reversibility : Option String
  custom : Map String Json

/-! ## Predicates -/

def trustTierOrder : List String :=
  ["autonomous", "supervisor_required", "human_required"]

def trustTierRank (value : String) : Option ℕ :=
  trustTierOrder.findIdx? (· == value)

def MatchState.ofBool (b : Bool) : MatchState :=
  if b then .matched else .noMatch

/-- `Value::as_str` -/
def asStr : Json → Option String
  | .string s => some s
  | _ => none

/-- `Value::as_bool` -/
def asBool : Json → Option Bool
  | .bool b => some b
  | _ => none

variable {F : Type} [Floats F]

/-- `Value::as_f64` -/
def asF64 : Json → Option F
  | .int n => some (Floats.ofInt n)
  | .float q => some (Floats.ofRat q)
  | _ => none

def mismatch {α : Type} (message : String) : Except FilterError α :=
  .error ⟨.opMismatch, message⟩

def compareOrdinals : FilterOp → ℕ → ℕ → Bool
  | .eq, actual, expected => actual == expected
  | .ne, actual, expected => actual != expected
  | .lt, actual, expected => actual < expected
  | .le, actual, expected => actual ≤ expected
  | .gt, actual, expected => expected < actual
  | .ge, actual, expected => expected ≤ actual

def compareF64 : FilterOp → F → F → Bool
  | .eq, actual, expected => Floats.eq actual expected
  | .ne, actual, expected => !Floats.eq actual expected
  | .lt, actual, expected => Floats.lt actual expected
  | .le, actual, expected => Floats.le actual expected
  | .gt, actual, expected => Floats.lt expected actual
  | .ge, actual, expected => Floats.le expected actual

def compareTier (op : FilterOp) (actual : String) (value : Json) : Except FilterError MatchState :=
  match asStr value with
  | none => mismatch "dimension `trust_tier` expects a string value"
  | some expected =>
    match trustTierRank actual with
    | none => mismatch ("dimension `trust_tier` saw unknown tier `" ++ actual ++ "`")
    | some actualRank =>
      match trustTierRank expected with
      | none => mismatch ("dimension `trust_tier` does not recognize `" ++ expected ++ "`")
      | some expectedRank => .ok (.ofBool (compareOrdinals op actualRank expectedRank))

def compareNumber (op : FilterOp) (actual : F) (value : Json) (dim : String) :
    Except FilterError MatchState :=
  match asF64 value with
  | none => mismatch ("dimension `" ++ dim ++ "` expects a numeric value")
  | some expected => .ok (.ofBool (compareF64 op actual expected))

/-- Two values that are only compared for equality. -/
def compareEq {α : Type} [BEq α] (op : FilterOp) (actual expected : α) (message : String) :
    Except FilterError MatchState :=
  match op with
  | .eq => .ok (.ofBool (actual == expected))
  | .ne => .ok (.ofBool (actual != expected))
  | _ => mismatch message

def compareBool (op : FilterOp) (actual : Bool) (value : Json) (dim : String) :
    Except FilterError MatchState :=
  match asBool value with
  | none => mismatch ("dimension `" ++ dim ++ "` expects a boolean value")
  | some expected =>
    compareEq op actual expected ("dimension `" ++ dim ++ "` only supports `eq` and `ne`")

/-- The number of a custom dimension, compared with a number. -/
def compareCustomNumber (dim : String) (op : FilterOp) (actual value : Json) :
    Except FilterError MatchState :=
  match (asF64 actual : Option F) with
  | none => mismatch ("dimension `" ++ dim ++ "` contained non-finite numeric value")
  | some number => compareNumber op number value dim

variable (F) in
def compareCustomValue (dim : String) (op : FilterOp) (actual value : Json) :
    Except FilterError MatchState :=
  match actual, value with
  | .bool actual, .bool expected => compareEq op actual expected
      ("custom dimension `" ++ dim ++ "` only supports `eq` and `ne` for boolean values")
  | .int _, .int _ | .int _, .float _ | .float _, .int _ | .float _, .float _ =>
    compareCustomNumber (F := F) dim op actual value
  | .string actual, .string expected => compareEq op actual expected
      ("custom dimension `" ++ dim ++ "` only supports ordered comparisons for numeric values")
  | _, _ => mismatch
      ("custom dimension `" ++ dim ++ "` value type mismatch between descriptor and filter")

def compareReversibility (op : FilterOp) (actual : String) (value : Json) :
    Except FilterError MatchState :=
  if actual = "reversible" then
    compareBool op true value "reversible"
  else if actual = "non_reversible" ∨ actual = "irreversible" then
    compareBool op false value "reversible"
  else
    mismatch ("dimension `reversible` saw unsupported reversibility value `" ++ actual ++ "`")

/-- A predicate about a dimension that the agent may leave open. -/
def whenSpecified {α : Type} (actual : Option α) (compare : α → Except FilterError MatchState) :
    Except FilterError MatchState :=
  match actual with
  | none => .ok .unspecified
  | some actual => compare actual

/-- The dimensions of every agent. -/
def builtinDims : List String :=
  ["trust_tier", "cost_bound_usd", "latency_p99_ms", "dangerous", "replayable", "deterministic",
    "reversible"]

def evaluateLeaf (leaf : LeafPredicate) (agent : FilterAgent F) (knownCustomDims : Finset String) :
    Except FilterError MatchState :=
  if leaf.dim = "trust_tier" then
    whenSpecified agent.trustTier fun actual => compareTier leaf.op actual leaf.value
  else if leaf.dim = "cost_bound_usd" then
    whenSpecified agent.costBoundUsd fun actual =>
      compareNumber leaf.op actual leaf.value "cost_bound_usd"
  else if leaf.dim = "latency_p99_ms" then
    whenSpecified agent.latencyP99Ms fun actual =>
      compareNumber leaf.op actual leaf.value "latency_p99_ms"
  else if leaf.dim = "dangerous" then
    compareBool leaf.op agent.dangerous leaf.value "dangerous"
  else if leaf.dim = "replayable" then
    compareBool leaf.op agent.replayable leaf.value "replayable"
  else if leaf.dim = "deterministic" then
    compareBool leaf.op agent.deterministic leaf.value "deterministic"
  else if leaf.dim = "reversible" then
    whenSpecified agent.reversibility fun actual => compareReversibility leaf.op actual leaf.value
  else if leaf.dim ∈ knownCustomDims then
    whenSpecified (agent.custom.lookup leaf.dim) fun actual =>
      compareCustomValue F leaf.dim leaf.op actual leaf.value
  else
    .error ⟨.unknownDimension, "unknown effect dimension `" ++ leaf.dim ++ "`"⟩

/-! ## Filters -/

def MatchState.negate : MatchState → MatchState
  | .matched => .noMatch
  | .noMatch => .matched
  | .unspecified => .unspecified

mutual

def evaluateExpr (agent : FilterAgent F) (knownCustomDims : Finset String) :
    FilterExpr → Except FilterError MatchState
  | .all children => evaluateUntil agent knownCustomDims false false children
  | .any children => evaluateUntil agent knownCustomDims true false children
  | .not child => (evaluateExpr agent knownCustomDims child).map MatchState.negate
  | .leaf leaf => evaluateLeaf leaf agent knownCustomDims

/-- The children of a conjunction, which is decided by one that does not match, or of a disjunction,
which is decided by one that matches. -/
def evaluateUntil (agent : FilterAgent F) (knownCustomDims : Finset String) (decided : Bool)
    (sawUnspecified : Bool) : List FilterExpr → Except FilterError MatchState
  | [] => .ok (if sawUnspecified then .unspecified else .ofBool !decided)
  | child :: children =>
    match evaluateExpr agent knownCustomDims child with
    | .error err => .error err
    | .ok state =>
      if state = .ofBool decided then
        .ok state
      else
        evaluateUntil agent knownCustomDims decided (sawUnspecified || state == .unspecified) children

end

def knownCustomDims (agents : List (FilterAgent F)) : Finset String :=
  (agents.flatMap fun agent => agent.custom.keys).toFinset

/-- The indices of the matched agents, of those from an index on. -/
def findFrom (expr : FilterExpr) (known : Finset String) :
    ℕ → List (FilterAgent F) → Except FilterError (List ℕ)
  | _, [] => .ok []
  | index, agent :: agents =>
    match evaluateExpr agent known expr with
    | .error err => .error err
    | .ok state =>
      (findFrom expr known (index + 1) agents).map fun out =>
        if state = .matched then index :: out else out

/-- `find_matching_indices`, of a filter that is well-formed. -/
def findMatchingIndices (agents : List (FilterAgent F)) (expr : FilterExpr) :
    OwnedFindAgentsResult :=
  match findFrom expr (knownCustomDims agents) 0 agents with
  | .ok matchedIndices => ⟨.ok, matchedIndices, none⟩
  | .error err => ⟨err.status, [], some err.message⟩

/-! ## Three-valued logic -/

namespace MatchState

/-- The conjunction of two values, which is decided by one that does not match, or the disjunction,
which is decided by one that matches. -/
def join (decided : Bool) (s t : MatchState) : MatchState :=
  if s = ofBool decided ∨ t = ofBool decided then ofBool decided
  else if s = unspecified ∨ t = unspecified then unspecified
  else ofBool !decided

instance (decided : Bool) : LeftCommutative (join decided) :=
  ⟨fun a b c => by cases decided <;> cases a <;> cases b <;> cases c <;> rfl⟩

variable (decided : Bool) (s t : MatchState)

@[simp] theorem join_undecided : join decided (ofBool !decided) t = t := by
  cases decided <;> cases t <;> rfl

@[simp] theorem join_decided_left : join decided (ofBool decided) t = ofBool decided := by
  simp [join]

@[simp] theorem join_decided_right : join decided s (ofBool decided) = ofBool decided := by
  simp [join]

@[simp] theorem join_unspecified_join :
    join decided unspecified (join decided unspecified t) = join decided unspecified t := by
  cases decided <;> cases t <;> rfl

@[simp] theorem join_unspecified_undecided :
    join decided unspecified (ofBool !decided) = unspecified := by
  cases decided <;> rfl

theorem negate_join : (join decided s t).negate = join (!decided) s.negate t.negate := by
  cases decided <;> cases s <;> cases t <;> rfl

@[simp] theorem negate_ofBool : (ofBool decided).negate = ofBool !decided := by
  cases decided <;> rfl

@[simp] theorem ofBool_ne_unspecified : ofBool decided ≠ unspecified := by
  cases decided <;> simp [ofBool]

@[simp] theorem negate_negate : s.negate.negate = s := by cases s <;> rfl

theorem negate_eq_iff : s.negate = t ↔ s = t.negate := by
  cases s <;> cases t <;> simp [negate]

variable {decided s}

theorem eq_ofBool_or (h : s ≠ ofBool decided) : s = unspecified ∨ s = ofBool !decided := by
  cases decided <;> cases s <;> simp_all [ofBool]

end MatchState

mutual

/-- The Kleene value of a filter, for values of its predicates. -/
def kleene (value : LeafPredicate → MatchState) : FilterExpr → MatchState
  | .all children => kleeneJoin value false children
  | .any children => kleeneJoin value true children
  | .not child => (kleene value child).negate
  | .leaf leaf => value leaf

def kleeneJoin (value : LeafPredicate → MatchState) (decided : Bool) : List FilterExpr → MatchState
  | [] => .ofBool !decided
  | child :: children =>
    MatchState.join decided (kleene value child) (kleeneJoin value decided children)

end

/-- The value of a predicate. A missing dimension is unknown, and so is what fails. -/
def leafValue (agent : FilterAgent F) (known : Finset String) (leaf : LeafPredicate) : MatchState :=
  match evaluateLeaf leaf agent known with
  | .ok state => state
  | .error _ => .unspecified

/-- A predicate that fails on an agent. -/
def Fails (agent : FilterAgent F) (known : Finset String) (leaf : LeafPredicate) : Prop :=
  ∃ err, evaluateLeaf leaf agent known = .error err

mutual

/-- Every predicate that fails comes behind a child that decides its conjunction or disjunction. -/
def Quiet (agent : FilterAgent F) (known : Finset String) : FilterExpr → Prop
  | .all children => QuietUntil agent known false children
  | .any children => QuietUntil agent known true children
  | .not child => Quiet agent known child
  | .leaf leaf => ¬ Fails agent known leaf

def QuietUntil (agent : FilterAgent F) (known : Finset String) (decided : Bool) :
    List FilterExpr → Prop
  | [] => True
  | child :: children => Quiet agent known child ∧
      (kleene (leafValue agent known) child = .ofBool decided ∨
        QuietUntil agent known decided children)

end

/-- Induction over a filter and the children in it. -/
theorem FilterExpr.induct {P : FilterExpr → Prop}
    (all : ∀ children, (∀ child ∈ children, P child) → P (.all children))
    (any : ∀ children, (∀ child ∈ children, P child) → P (.any children))
    (not : ∀ child, P child → P (.not child)) (leaf : ∀ leaf, P (.leaf leaf)) : ∀ expr, P expr
  | .all children => all children fun child _ => FilterExpr.induct all any not leaf child
  | .any children => any children fun child _ => FilterExpr.induct all any not leaf child
  | .not child => not child (FilterExpr.induct all any not leaf child)
  | .leaf predicate => leaf predicate

variable {agent : FilterAgent F} {known : Finset String} {state : MatchState}

theorem evaluateUntil_eq_ok_iff {children : List FilterExpr}
    (ih : ∀ child ∈ children, ∀ state, evaluateExpr agent known child = .ok state ↔
      Quiet agent known child ∧ kleene (leafValue agent known) child = state)
    (decided saw : Bool) :
    evaluateUntil agent known decided saw children = .ok state ↔
      QuietUntil agent known decided children ∧
        MatchState.join decided (if saw then .unspecified else .ofBool !decided)
          (kleeneJoin (leafValue agent known) decided children) = state := by
  induction children generalizing saw with
  | nil => cases saw <;> simp [evaluateUntil, QuietUntil, kleeneJoin]
  | cons child children ihc =>
    rw [List.forall_mem_cons] at ih
    obtain ⟨ihchild, ih⟩ := ih
    rw [evaluateUntil, QuietUntil, kleeneJoin]
    cases hchild : evaluateExpr agent known child with
    | error err =>
      have hloud : ¬ Quiet agent known child := fun h => by
        rw [(ihchild _).mpr ⟨h, rfl⟩] at hchild
        cases hchild
      simp [hloud]
    | ok s =>
      obtain ⟨hquiet, hvalue⟩ := (ihchild s).mp hchild
      rw [hvalue]
      dsimp only
      split
      next heq => simp [hquiet, heq]
      next hne =>
        rw [ihc ih]
        rcases MatchState.eq_ofBool_or hne with rfl | rfl
        · cases saw <;> simp [hquiet, hne]
        · cases saw <;> simp [hquiet, hne]

/-- An evaluation succeeds where it is quiet, with the value of the logic. -/
theorem evaluateExpr_eq_ok_iff (expr : FilterExpr) (state : MatchState) :
    evaluateExpr agent known expr = .ok state ↔
      Quiet agent known expr ∧ kleene (leafValue agent known) expr = state := by
  induction expr using FilterExpr.induct generalizing state with
  | all children ih =>
    rw [evaluateExpr, Quiet, kleene, evaluateUntil_eq_ok_iff ih]
    simp only [Bool.false_eq_true, if_false, MatchState.join_undecided]
  | any children ih =>
    rw [evaluateExpr, Quiet, kleene, evaluateUntil_eq_ok_iff ih]
    simp only [Bool.false_eq_true, if_false, MatchState.join_undecided]
  | not child ih =>
    rw [evaluateExpr, Quiet, kleene, MatchState.negate_eq_iff, ← ih]
    cases evaluateExpr agent known child with
    | error err => simp [Except.map]
    | ok s => simp [Except.map, MatchState.negate_eq_iff]
  | leaf leaf =>
    rw [evaluateExpr, Quiet, kleene, Fails, leafValue]
    cases evaluateLeaf leaf agent known <;> simp

theorem evaluateExpr_eq_error_iff (expr : FilterExpr) :
    (∃ err, evaluateExpr agent known expr = .error err) ↔ ¬ Quiet agent known expr := by
  have hok : ∀ state, evaluateExpr agent known expr = .ok state ↔
      Quiet agent known expr ∧ kleene (leafValue agent known) expr = state :=
    evaluateExpr_eq_ok_iff expr
  cases h : evaluateExpr agent known expr with
  | error err => simpa [h] using hok
  | ok state =>
    have hquiet := ((hok state).mp h).1
    simp [hquiet]

/-! ## Failures -/

theorem status_mismatch {α : Type} {message : String} {err : FilterError}
    (h : (mismatch message : Except FilterError α) = .error err) : err.status = .opMismatch := by
  rw [← Except.error.inj h]

theorem status_compareTier {op : FilterOp} {actual : String} {value : Json} {err : FilterError}
    (h : compareTier op actual value = .error err) : err.status = .opMismatch := by
  unfold compareTier at h
  split at h
  · exact status_mismatch h
  · split at h
    · exact status_mismatch h
    · split at h
      · exact status_mismatch h
      · cases h

theorem status_compareNumber {op : FilterOp} {actual : F} {value : Json} {dim : String}
    {err : FilterError} (h : compareNumber op actual value dim = .error err) :
    err.status = .opMismatch := by
  unfold compareNumber at h
  split at h
  · exact status_mismatch h
  · cases h

theorem status_compareEq {α : Type} [BEq α] {op : FilterOp} {actual expected : α} {message : String}
    {err : FilterError} (h : compareEq op actual expected message = .error err) :
    err.status = .opMismatch := by
  unfold compareEq at h
  split at h
  · cases h
  · cases h
  · exact status_mismatch h

theorem status_compareBool {op : FilterOp} {actual : Bool} {value : Json} {dim : String}
    {err : FilterError} (h : compareBool op actual value dim = .error err) :
    err.status = .opMismatch := by
  unfold compareBool at h
  split at h
  · exact status_mismatch h
  · exact status_compareEq h

theorem status_compareReversibility {op : FilterOp} {actual : String} {value : Json}
    {err : FilterError} (h : compareReversibility op actual value = .error err) :
    err.status = .opMismatch := by
  unfold compareReversibility at h
  split at h
  · exact status_compareBool h
  · split at h
    · exact status_compareBool h
    · exact status_mismatch h

theorem status_compareCustomValue {dim : String} {op : FilterOp} {actual value : Json}
    {err : FilterError} (h : compareCustomValue F dim op actual value = .error err) :
    err.status = .opMismatch := by
  have hnumber : ∀ {actual value : Json}, compareCustomNumber (F := F) dim op actual value =
      .error err → err.status = .opMismatch := by
    intro actual value h
    unfold compareCustomNumber at h
    split at h
    · exact status_mismatch h
    · exact status_compareNumber h
  unfold compareCustomValue at h
  split at h
  · exact status_compareEq h
  · exact hnumber h
  · exact hnumber h
  · exact hnumber h
  · exact hnumber h
  · exact status_compareEq h
  · exact status_mismatch h

theorem status_whenSpecified {α : Type} {actual : Option α}
    {compare : α → Except FilterError MatchState} {err : FilterError}
    (hcompare : ∀ a, compare a = .error err → err.status = .opMismatch)
    (h : whenSpecified actual compare = .error err) : err.status = .opMismatch := by
  unfold whenSpecified at h
  split at h
  · cases h
  · exact hcompare _ h

/-- A dimension that agents have: a builtin one, or one that an agent declares. -/
def Known (known : Finset String) (dim : String) : Prop :=
  dim ∈ builtinDims ∨ dim ∈ known

/-- A predicate about a known dimension only fails on the types of its values. -/
theorem status_evaluateLeaf {leaf : LeafPredicate} {err : FilterError} (hknown : Known known leaf.dim)
    (h : evaluateLeaf leaf agent known = .error err) : err.status = .opMismatch := by
  unfold evaluateLeaf at h
  split at h
  · exact status_whenSpecified (fun _ => status_compareTier) h
  split at h
  · exact status_whenSpecified (fun _ => status_compareNumber) h
  split at h
  · exact status_whenSpecified (fun _ => status_compareNumber) h
  split at h
  · exact status_compareBool h
  split at h
  · exact status_compareBool h
  split at h
  · exact status_compareBool h
  split at h
  · exact status_whenSpecified (fun _ => status_compareReversibility) h
  split at h
  · exact status_whenSpecified (fun _ => status_compareCustomValue) h
  · simp_all [Known, builtinDims]

theorem evaluateLeaf_of_not_known {leaf : LeafPredicate} (hknown : ¬ Known known leaf.dim) :
    ∃ err, evaluateLeaf leaf agent known = .error err ∧ err.status = .unknownDimension := by
  simp only [Known, builtinDims, List.mem_cons, List.not_mem_nil, or_false, not_or] at hknown
  simp [evaluateLeaf, hknown]

end Corvid.EffectFilter
