import Corvid.Lib.Keyed
import Mathlib.Algebra.Order.Ring.Rat
import Mathlib.Data.String.Basic

/-!
# The model catalog

The models a project registers, their prices and what they can do. When a provider fails, the
runtime turns to the compatible models of other providers, cheapest first.

## Main definitions

* `RegisteredModel`, `ModelCatalog`: the catalog
* `ModelCatalog.compatibleFallbacksFor`: the models tried after a failure
-/

namespace Corvid

open Keyed (Map)

structure RegisteredModel where
  name : String
  provider : Option String := none
  capability : Option String := none
  version : Option String := none
  outputFormat : Option String := none
  privacyTier : Option String := none
  jurisdiction : Option String := none
  contextWindow : Option ℕ := none
  structuredOutput : Bool := false
  toolCalling : Bool := false
  embeddings : Bool := false
  multimodal : List String := []
  taskCapabilities : List String := []
  costPerTokenIn : ℚ := 0
  costPerTokenOut : ℚ := 0

def RegisteredModel.estimatedCost (m : RegisteredModel) (promptTokens completionTokens : ℕ) : ℚ :=
  m.costPerTokenIn * promptTokens + m.costPerTokenOut * completionTokens

/-- The models by name. -/
abbrev ModelCatalog := Map String RegisteredModel

/-- The part of a selection that the runtime reads. -/
structure ModelSelection where
  model : String
  provider : Option String
  costEstimate : ℚ

def capabilityRank : String → Option ℕ
  | "basic" => some 0
  | "standard" => some 1
  | "expert" => some 2
  | _ => none

def capabilitySatisfies (modelCapability : Option String) (required : String) : Bool :=
  match modelCapability with
  | none => false
  | some c =>
    match capabilityRank c, capabilityRank required with
    | some modelRank, some requiredRank => requiredRank ≤ modelRank
    | _, _ => c == required

def modelIsCompatibleFallback (primary candidate : RegisteredModel) : Bool :=
  !(primary.provider.isSome && primary.provider == candidate.provider) &&
  primary.capability.all (capabilitySatisfies candidate.capability) &&
  !(primary.outputFormat.isSome && primary.outputFormat != candidate.outputFormat) &&
  !(primary.privacyTier.isSome && primary.privacyTier != candidate.privacyTier) &&
  !(primary.jurisdiction.isSome && primary.jurisdiction != candidate.jurisdiction) &&
  !(primary.structuredOutput && !candidate.structuredOutput) &&
  !(primary.toolCalling && !candidate.toolCalling) &&
  !(primary.embeddings && !candidate.embeddings) &&
  primary.contextWindow.all (fun required => required ≤ candidate.contextWindow.getD 0) &&
  primary.multimodal.all candidate.multimodal.contains &&
  primary.taskCapabilities.all candidate.taskCapabilities.contains

def ModelCatalog.describeNamedModel (catalog : ModelCatalog) (modelName : String)
    (promptTokens completionTokens : ℕ) : ModelSelection :=
  match catalog.lookup modelName with
  | some m => ⟨m.name, m.provider, m.estimatedCost promptTokens completionTokens⟩
  | none => ⟨modelName, none, 0⟩

/-- Cheaper first, then by name. -/
def ModelSelection.le (left right : ModelSelection) : Bool :=
  left.costEstimate < right.costEstimate ||
    (left.costEstimate == right.costEstimate && left.model ≤ right.model)

def ModelCatalog.compatibleFallbacksFor (catalog : ModelCatalog) (primaryModel : String)
    (promptTokens completionTokens : ℕ) : List ModelSelection :=
  match catalog.lookup primaryModel with
  | none => []
  | some primary =>
    let candidates := (Map.values catalog).filter fun candidate =>
      candidate.name != primary.name && modelIsCompatibleFallback primary candidate
    (candidates.map fun candidate =>
      catalog.describeNamedModel candidate.name promptTokens completionTokens).mergeSort
        ModelSelection.le

end Corvid
