import Corvid.Ast.Effect
import Corvid.Lib.Text
import Mathlib.Data.Finset.Sort

/-!
# The dimensional composition algebra

Every dimension composes by one of five rules. `Max` and `Min` on names use the rank tables of
the trust, capability, privacy and latency lattices, with the lexicographic order of the names
where the table has no entry; `Union` reads a name as a comma separated set. A pair of values
that no rule covers composes to the incoming one, and `dimensionSatisfies` accepts a pair of
values that it has no case for.

## Main definitions

* `composeDimension`: one composition step of a dimension
* `dimensionSatisfies`: whether a composed value meets the value of a constraint
* `trustMax`, `trustMin`, `capabilityMax`, `privacyTierMax`, `latencyMax`: the name lattices
-/

namespace Corvid.Effects

open DimensionValue

/-! Names are sorted by their text. -/

scoped instance isTrans_name : IsTrans String fun a b => a ≤ b := inferInstance

scoped instance antisymm_name : Std.Antisymm fun a b : String => a ≤ b := inferInstance

/-- Add one part of a comma separated set; blank parts and the `none` sentinel are skipped. -/
def insertCategory (categories : Finset String) (part : String) : Finset String :=
  let trimmed := Text.trim part
  if trimmed = "" ∨ trimmed = "none" then categories else insert trimmed categories

/-- The union of two comma separated category sets, sorted and without repetitions. The
`none` sentinel is absorbed by any category. -/
def mergeCommaSets (a b : String) : String :=
  let categories := (Text.split ',' a ++ Text.split ',' b).foldl insertCategory ∅
  if categories = ∅ then "none" else Text.join ", " categories.sort

/-! ## The name lattices -/

/-- Capability lattice: basic < standard < expert, then every unknown tier. -/
def capabilityRank : String → ℕ
  | "basic" => 0
  | "standard" => 1
  | "expert" => 2
  | _ => 3

def capabilityMax (a b : String) : String :=
  let ra := capabilityRank a
  let rb := capabilityRank b
  if ra = rb then
    -- Two unknown tiers: the lexicographic order decides.
    if a ≥ b then a else b
  else if ra > rb then a
  else b

def privacyTierRank : String → ℕ
  | "standard" => 0
  | "strict" => 1
  | "air_gapped" => 2
  | _ => 255

/-- Privacy-tier maximum: standard < strict < air_gapped; a pair with an unknown name falls
through to the lexicographic maximum. -/
def privacyTierMax (a b : String) : String :=
  let ra := privacyTierRank a
  let rb := privacyTierRank b
  if ra = 255 ∨ rb = 255 then
    if a ≥ b then a else b
  else if ra > rb then a
  else if rb > ra then b
  else a

/-- Trust level ordering: autonomous < supervisor_required < human_required. -/
def trustRank : String → ℕ
  | "autonomous" => 0
  | "supervisor_required" => 1
  | "human_required" => 2
  | _ => 3

/-- The stricter of two trust levels; `none` is the identity. -/
def trustMax (a b : String) : String :=
  if a = "none" then b
  else if b = "none" then a
  else
    let ra := trustRank a
    let rb := trustRank b
    if ra = rb then
      if a ≥ b then a else b
    else if ra > rb then a
    else b

/-- The rank table of `trustMin`, which sets unknown levels apart. -/
def trustMinRank : String → ℕ
  | "autonomous" => 0
  | "supervisor_required" => 1
  | "human_required" => 2
  | _ => 255

def trustMin (a b : String) : String :=
  let ra := trustMinRank a
  let rb := trustMinRank b
  -- A side that is not on the lattice makes the choice lexicographic.
  if ra = 255 ∨ rb = 255 then
    if a ≤ b then a else b
  else if ra ≤ rb then a
  else b

def latencyStreamingRank : ℕ := 4

def latencyRank : String → ℕ
  | "instant" => 0
  | "fast" => 1
  | "medium" => 2
  | "slow" => 3
  | "streaming" => latencyStreamingRank
  | _ => latencyStreamingRank + 1

def latencyMax (a b : String) : String :=
  if latencyRank a ≥ latencyRank b then a else b

/-! ## Composition -/

def composeBackpressure : BackpressurePolicy → BackpressurePolicy → BackpressurePolicy
  | .unbounded, _ => .unbounded
  | _, .unbounded => .unbounded
  | .pullsFrom a, .pullsFrom b => if a = b then .pullsFrom a else .bounded 1
  | .pullsFrom _, .bounded size => .bounded size
  | .bounded size, .pullsFrom _ => .bounded size
  | .bounded a, .bounded b => .bounded (max a b)

def composeLatencyDimension : DimensionValue → DimensionValue → DimensionValue
  | streaming currentBp, streaming incomingBp =>
    streaming (composeBackpressure currentBp incomingBp)
  | streaming bp, _ => streaming bp
  | _, streaming bp => streaming bp
  | name currentName, name incomingName => name (latencyMax currentName incomingName)
  | _, incoming => incoming

/-- The composers that only know names: two names compose by `g`, and any other pair to the
incoming value. -/
def composeNames (g : String → String → String) :
    DimensionValue → DimensionValue → DimensionValue
  | name a, name b => name (g a b)
  | _, incoming => incoming

def composeCapabilityDimension : DimensionValue → DimensionValue → DimensionValue :=
  composeNames capabilityMax

def composePrivacyTierDimension : DimensionValue → DimensionValue → DimensionValue :=
  composeNames privacyTierMax

/-- The generic `Max`, for the dimensions without a composer of their own. A gated trust level
composes by its `above` level; the runtime gate handles the rest. -/
def composeGenericMax : DimensionValue → DimensionValue → DimensionValue
  | number a, number b => number (max a b)
  | cost a, cost b => cost (max a b)
  | name a, name b => name (trustMax a b)
  | name a, confidenceGated _ above _ => name (trustMax a above)
  | confidenceGated _ above _, name b => name (trustMax above b)
  | confidenceGated t₁ a₁ b₁, confidenceGated t₂ a₂ _ =>
    confidenceGated (max t₁ t₂) (trustMax a₁ a₂) b₁
  | _, incoming => incoming

def composeMaxDimension (current incoming : DimensionValue) (dimName : String) :
    DimensionValue :=
  if dimName = "latency" then composeLatencyDimension current incoming
  else if dimName = "capability" then composeCapabilityDimension current incoming
  else if dimName = "privacy_tier" then composePrivacyTierDimension current incoming
  else composeGenericMax current incoming

/-- The `Sum` arm of `composeDimension`. -/
def composeSum : DimensionValue → DimensionValue → DimensionValue
  | cost a, cost b => cost (a + b)
  | number a, number b => number (a + b)
  | _, incoming => incoming

/-- The `Min` arm of `composeDimension`. -/
def composeMin : DimensionValue → DimensionValue → DimensionValue
  | number a, number b => number (min a b)
  | cost a, cost b => cost (min a b)
  | name a, name b => name (trustMin a b)
  | _, incoming => incoming

/-- The `Union` arm of `composeDimension`. -/
def composeUnion : DimensionValue → DimensionValue → DimensionValue :=
  composeNames mergeCommaSets

/-- The `LeastReversible` arm of `composeDimension`. -/
def composeLeastReversible : DimensionValue → DimensionValue → DimensionValue
  | .bool a, .bool b => .bool (a && b)
  | _, incoming => incoming

/-- One composition step: the value composed so far with the incoming one. -/
def composeDimension (rule : CompositionRule) (current incoming : DimensionValue)
    (dimName : String) : DimensionValue :=
  match rule with
  | .sum => composeSum current incoming
  | .max => composeMaxDimension current incoming dimName
  | .min => composeMin current incoming
  | .union => composeUnion current incoming
  | .leastReversible => composeLeastReversible current incoming

/-! ## Satisfaction -/

def backpressureSatisfies : BackpressurePolicy → BackpressurePolicy → Bool
  | _, .unbounded => true
  | .unbounded, .bounded _ => false
  | .unbounded, .pullsFrom _ => false
  | .pullsFrom actual, .pullsFrom required => actual = required
  | .pullsFrom _, .bounded _ => true
  | .bounded _, .pullsFrom _ => false
  | .bounded actual, .bounded required => actual ≤ required

/-- Whether a composed value meets the value of a constraint on its dimension. -/
def dimensionSatisfies (actual required : DimensionValue) (dimName : String) : Bool :=
  match actual, required with
  | cost actualCost, cost budget => actualCost ≤ budget
  | .bool actualRev, .bool requiredRev => !requiredRev || actualRev
  | name actualName, name requiredName =>
    if dimName = "trust" then trustRank actualName ≤ trustRank requiredName
    else if dimName = "latency" then latencyRank actualName ≤ latencyRank requiredName
    else actualName = requiredName
  | streaming _, name requiredName =>
    if dimName = "latency" then latencyStreamingRank ≤ latencyRank requiredName else true
  | streaming actualBp, streaming requiredBp =>
    if dimName = "latency" then backpressureSatisfies actualBp requiredBp else true
  | number actualNum, number limit =>
    -- Confidence: higher is better. Elsewhere lower is better.
    if dimName = "confidence" then limit ≤ actualNum else actualNum ≤ limit
  | confidenceGated _ above _, name required =>
    if dimName = "trust" then trustRank above ≤ trustRank required else true
  | name actualName, confidenceGated _ above _ =>
    if dimName = "trust" then trustRank actualName ≤ trustRank above else true
  | _, _ => true

/-! ## Schemas of dimensions -/

def inferCompositionRule (name : String) : CompositionRule :=
  match name with
  | "cost" => .sum
  | "tokens" => .sum
  | "trust" => .max
  | "reversible" => .leastReversible
  | "data" => .union
  | "latency_ms" => .max
  | "latency" => .max
  | "confidence" => .min
  | _ => .max

def defaultForRule : CompositionRule → DimensionValue
  | .sum => cost 0
  | .max => name "none"
  | .min => number 1
  | .union => name "none"
  | .leastReversible => .bool true

def defaultForDimension (name : String) (rule : CompositionRule) : DimensionValue :=
  match name with
  | "cost" => cost 0
  | "tokens" => number 0
  | "latency_ms" => number 0
  | _ => defaultForRule rule

def canonicalDimensionName (name : String) : String :=
  match name with
  | "budget" => "cost"
  | "min_confidence" => "confidence"
  | other => other

example : composeDimension .max (name "fast") (streaming (.bounded 32)) "latency" =
    streaming (.bounded 32) := by decide

example : dimensionSatisfies (streaming (.pullsFrom "producer_rate")) (streaming (.bounded 8))
    "latency" = true := by decide

end Corvid.Effects
