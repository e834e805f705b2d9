import Corvid.Lib.Split
import Corvid.Lib.Text
import Corvid.TraceDiff.Delta

/-!
# Receipts and the default policy

The records of a summary go into a receipt. For a policy they are read into facts, by their keys, and
a record that the table of regressions knows becomes a fact of the class `regression`. The default
policy flags these facts, and traces that diverge newly.

## Main definitions

* `regressionFlagFor`: the flag of a record that is a regression
* `Policy.parseDeltaKey`, `policyDelta`, `policyReceipt`: what a policy gets
* `Policy.apply`: the default policy
* `Delta.isRegression`: which changes are regressions

## Main results

* `isSome_regressionFlagFor`: the record of a change has a flag just when the change is a regression
* `verdict_ok_iff`: the default policy passes a receipt without regressions and diverging traces
-/

namespace Corvid.TraceDiff

/-! ### Regressions -/

/-- Lower is more permissive. -/
def tierOrdinal : String → Option ℕ
  | "autonomous" => some 0
  | "human_supervised" => some 1
  | "human_required" => some 2
  | _ => none

def isTrustLowering (transition : String) : Bool :=
  match Text.splitOnce "->" transition with
  | none => false
  | some (fromTier, toTier) =>
    match tierOrdinal fromTier, tierOrdinal toTier with
    | some fromRank, some toRank => decide (toRank < fromRank)
    | _, _ => false

def isOwnershipLoosening (transition : String) : Bool :=
  match Text.splitOnce "->" transition with
  | none => false
  | some (fromMode, toMode) =>
    !Text.startsWith "@borrowed" fromMode && Text.startsWith "@borrowed" toMode

/-- The kind of a domain, if nothing before it contains a colon. -/
def domainSegment (key : String) : Option String :=
  (Text.split ':' key)[2]?

def regressionFlagFor (delta : DeltaRecord) : Option String :=
  let key := delta.key
  let transition := Text.lastPart ':' key
  if Text.startsWith "agent.dangerous_gained:" key then some delta.summary
  else if Text.startsWith "agent.provenance.grounded_lost:" key then some delta.summary
  else if Text.startsWith "agent.provenance.dep_removed:" key then some delta.summary
  else if Text.startsWith "agent.trust_tier_changed:" key && isTrustLowering transition then
    some delta.summary
  else if Text.startsWith "agent.approval.tier_changed:" key && isTrustLowering transition then
    some delta.summary
  else if Text.startsWith "agent.approval.reversibility_changed:" key &&
      Text.endsWith "->irreversible" transition then
    some delta.summary
  else if Text.startsWith "agent.extern.ownership_changed:" key &&
      isOwnershipLoosening transition then
    some delta.summary
  else if Text.startsWith "tool.contract.domain_added:" key &&
      (domainSegment key == some "money" || domainSegment key == some "irreversible") then
    some delta.summary
  else if Text.startsWith "tool.contract.approval_changed:" key &&
      Text.endsWith "->none" transition then
    some delta.summary
  else none

/-! ### Facts for policies -/

structure ParsedDelta where
  category : String
  operation : String
  subject : String
  direction : String
  fromValue : String
  toValue : String
deriving DecidableEq, Repr

def classifyDirection (operation transition : String) : String :=
  if Text.endsWith "gained" operation || Text.endsWith "added" operation then "added"
  else if Text.endsWith "lost" operation || Text.endsWith "removed" operation then "removed"
  else if operation == "trust_tier_changed" || operation == "approval.tier_changed" then
    if isTrustLowering transition then "lowered" else "raised_or_lateral"
  else if operation == "approval.reversibility_changed" then
    if Text.endsWith "->irreversible" transition then "became_irreversible" else "became_reversible"
  else if operation == "extern.ownership_changed" then
    if isOwnershipLoosening transition then "loosened" else "tightened_or_lateral"
  else if transition == "" then "informational"
  else "changed"

namespace Policy

def parseDeltaKey (key : String) : ParsedDelta :=
  let parts := Text.split ':' key
  let head := parts.headD ""
  let args := parts.tail
  let headParts := Text.split '.' head
  let operation := Text.join "." headParts.tail
  let transition := (args.reverse.find? (Text.contains "->")).getD ""
  let (fromValue, toValue) := (Text.splitOnce "->" transition).getD ("", "")
  { category := headParts.headD ""
    operation := operation
    subject := args.headD ""
    direction := classifyDirection operation transition
    fromValue := fromValue
    toValue := toValue }

end Policy

def safetyClass (delta : DeltaRecord) (parsed : ParsedDelta) : String :=
  if (regressionFlagFor delta).isSome then "regression"
  else if parsed.direction ∈ ["raised_or_lateral", "became_reversible", "tightened_or_lateral"] ∨
      Text.endsWith "gained" parsed.operation ∨ Text.endsWith "added" parsed.operation then
    "improvement"
  else "informational"

structure PolicyDelta where
  key : String
  summary : String
  category : String
  operation : String
  subject : String
  direction : String
  safetyClass : String
  fromValue : String
  toValue : String
deriving DecidableEq, Repr

def policyDelta (delta : DeltaRecord) : PolicyDelta :=
  let parsed := Policy.parseDeltaKey delta.key
  { key := delta.key
    summary := delta.summary
    category := parsed.category
    operation := parsed.operation
    subject := parsed.subject
    direction := parsed.direction
    safetyClass := safetyClass delta parsed
    fromValue := parsed.fromValue
    toValue := parsed.toValue }

/-- What replays of recorded traces have shown. -/
structure TraceImpact where
  hasTraces : Bool
  anyNewlyDiverged : Bool
  summaryLine : String
  impactPercentage : String
  newlyDivergedPaths : List String
deriving DecidableEq, Repr

structure Receipt where
  schemaVersion : ℕ
  baseSha : String
  headSha : String
  sourcePath : String
  deltas : List DeltaRecord
  impact : TraceImpact
  narrativeRejected : Bool
deriving DecidableEq, Repr

def receiptSchemaVersion : ℕ := 2

def Receipt.build (baseSha headSha sourcePath : String) (base head : CorvidAbi) (impact : TraceImpact)
    (narrativeRejected : Bool) : Receipt where
  schemaVersion := receiptSchemaVersion
  baseSha := baseSha
  headSha := headSha
  sourcePath := sourcePath
  deltas := computeDiffSummary base head
  impact := impact
  narrativeRejected := narrativeRejected

structure PolicyReceipt where
  schemaVersion : ℕ
  baseSha : String
  headSha : String
  sourcePath : String
  deltas : List PolicyDelta
  impact : TraceImpact
  narrativeRejected : Bool
deriving DecidableEq, Repr

def policyReceipt (receipt : Receipt) : PolicyReceipt where
  schemaVersion := receipt.schemaVersion
  baseSha := receipt.baseSha
  headSha := receipt.headSha
  sourcePath := receipt.sourcePath
  deltas := receipt.deltas.map policyDelta
  impact := receipt.impact
  narrativeRejected := receipt.narrativeRejected

/-! ### The default policy -/

namespace Policy

structure Verdict where
  ok : Bool
  flags : List String
deriving DecidableEq, Repr

/-- The flags so far, and whether there are any. -/
structure Flags where
  flags : List String
  hasFlags : Bool

def Flags.delta (s : Flags) (d : PolicyDelta) : Flags :=
  if d.safetyClass = "regression" then ⟨s.flags ++ [d.summary], true⟩ else s

/-- `apply_policy` of the default policy. -/
def apply (receipt : PolicyReceipt) : Verdict :=
  let s := receipt.deltas.foldl Flags.delta ⟨[], false⟩
  let s :=
    if receipt.impact.anyNewlyDiverged then
      ⟨s.flags ++ ["counterfactual replay: " ++ receipt.impact.summaryLine], true⟩
    else s
  ⟨!s.hasFlags, s.flags⟩

theorem hasFlags_foldl (deltas : List PolicyDelta) (s : Flags) :
    (deltas.foldl Flags.delta s).hasFlags = true ↔
      s.hasFlags = true ∨ ∃ d ∈ deltas, d.safetyClass = "regression" := by
  induction deltas generalizing s with
  | nil => simp
  | cons d deltas ih =>
    rw [List.foldl_cons, ih, Flags.delta]
    split
    next h => simp [h]
    next h => simp [h]

end Policy

theorem safetyClass_eq_regression {delta : DeltaRecord} {parsed : ParsedDelta} :
    safetyClass delta parsed = "regression" ↔ (regressionFlagFor delta).isSome = true := by
  unfold safetyClass
  split
  next h => simp [h]
  next h =>
    rw [iff_false_right h]
    split <;> simp

/-- The verdict passes just when no record has a flag and no trace diverges newly. -/
theorem verdict_ok_iff (receipt : Receipt) :
    (Policy.apply (policyReceipt receipt)).ok = true ↔
      (∀ record ∈ receipt.deltas, (regressionFlagFor record).isSome = false) ∧
        receipt.impact.anyNewlyDiverged = false := by
  have hflags : ((policyReceipt receipt).deltas.foldl Policy.Flags.delta ⟨[], false⟩).hasFlags = false ↔
      ∀ record ∈ receipt.deltas, (regressionFlagFor record).isSome = false := by
    rw [← Bool.not_eq_true, Policy.hasFlags_foldl]
    simp [policyReceipt, policyDelta, safetyClass_eq_regression]
  rw [← hflags]
  unfold Policy.apply
  cases himpact : receipt.impact.anyNewlyDiverged with
  | true => simp [policyReceipt, himpact]
  | false => simp [policyReceipt, himpact]

/-! ### Regressions among the changes -/

namespace Delta

/-- What is compared of a change of a value. Of a value with colons it is the part after the last. -/
def transitionText (fromValue toValue : String) : String :=
  Text.lastPart ':' (fromValue ++ "->" ++ toValue)

def isRegression : Delta → Bool
  | .lifecycle .dangerous true _ _ => true
  | .lifecycle .grounded false _ _ => true
  | .lifecycle .dependency false _ _ => true
  | .lifecycle .domain true subject details =>
    let segment := (Text.split ':' (entityOf subject details))[1]?
    segment == some "money" || segment == some "irreversible"
  | .transition .trustTier _ _ fromValue toValue => isTrustLowering (transitionText fromValue toValue)
  | .transition .approvalTier _ _ fromValue toValue =>
    isTrustLowering (transitionText fromValue toValue)
  | .transition .reversibility _ _ fromValue toValue =>
    Text.endsWith "->irreversible" (transitionText fromValue toValue)
  | .transition .ownership _ _ fromValue toValue =>
    isOwnershipLoosening (transitionText fromValue toValue)
  | .transition .toolApproval _ _ fromValue toValue =>
    Text.endsWith "->none" (transitionText fromValue toValue)
  | _ => false

theorem colon_notMem_head (δ : Delta) : ':' ∉ δ.head.toList := by
  cases δ with
  | lifecycle cls gained subject details => cases cls <;> cases gained <;> simp
  | transition cls subject details fromValue toValue => cases cls <;> simp

theorem startsWith_key (δ : Delta) (start p : String) (hstart : start.toList = p.toList ++ [':'])
    (hp : ':' ∉ p.toList) : Text.startsWith start δ.key = decide (δ.head = p) := by
  rw [Bool.eq_iff_iff, decide_eq_true_iff]
  exact Text.startsWith_iff hstart δ.toList_key hp δ.colon_notMem_head

theorem lastPart_key (δ : Delta) : Text.lastPart ':' δ.key = Text.lastPart ':' δ.rest :=
  Text.lastPart_append δ.toList_key

theorem lastPart_key_transition (cls : TransitionClass) (subject : String) (details : List String)
    (fromValue toValue : String) :
    Text.lastPart ':' (transition cls subject details fromValue toValue).key =
      transitionText fromValue toValue := by
  rw [lastPart_key, transitionText]
  exact Text.lastPart_append (s := entityOf subject details) (by simp)

theorem domainSegment_key (δ : Delta) : domainSegment δ.key = (Text.split ':' δ.rest)[1]? := by
  rw [domainSegment, Text.split_append δ.toList_key, Text.split_of_notMem δ.colon_notMem_head]
  rfl

end Delta

theorem isSome_regressionFlagFor (δ : Delta) (summary : String) :
    (regressionFlagFor ⟨δ.key, summary⟩).isSome = δ.isRegression := by
  rw [Bool.eq_iff_iff]
  unfold regressionFlagFor
  simp only [δ.startsWith_key "agent.dangerous_gained:" "agent.dangerous_gained" (by simp) (by simp),
    δ.startsWith_key "agent.provenance.grounded_lost:" "agent.provenance.grounded_lost" (by simp) (by simp),
    δ.startsWith_key "agent.provenance.dep_removed:" "agent.provenance.dep_removed" (by simp) (by simp),
    δ.startsWith_key "agent.trust_tier_changed:" "agent.trust_tier_changed" (by simp) (by simp),
    δ.startsWith_key "agent.approval.tier_changed:" "agent.approval.tier_changed" (by simp) (by simp),
    δ.startsWith_key "agent.approval.reversibility_changed:" "agent.approval.reversibility_changed" (by simp) (by simp),
    δ.startsWith_key "agent.extern.ownership_changed:" "agent.extern.ownership_changed" (by simp) (by simp),
    δ.startsWith_key "tool.contract.domain_added:" "tool.contract.domain_added" (by simp) (by simp),
    δ.startsWith_key "tool.contract.approval_changed:" "tool.contract.approval_changed" (by simp) (by simp),
    δ.domainSegment_key]
  cases δ with
  | lifecycle cls gained subject details =>
    cases cls <;> cases gained <;> simp [Delta.isRegression]
  | transition cls subject details fromValue toValue =>
    rw [Delta.lastPart_key_transition]
    cases cls <;> simp [Delta.isRegression]

end Corvid.TraceDiff
