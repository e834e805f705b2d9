import Corvid.TraceDiff.Abi
import Mathlib.Data.List.Dedup

/-!
# The changes between two descriptors

Each change is a record with a key, which names the kind of the change, the agent or tool, and what
has changed. An agent that is new comes with records of its approval labels and its provenance; of an
agent that is gone there is only its removal.

## Main definitions

* `computeDiffSummary`: the records of all changes
-/

namespace Corvid.TraceDiff

/-- The keys of effects are compared by their parts. -/
scoped instance lawfulBEq_key : LawfulBEq (String × String) := inferInstance

structure DeltaRecord where
  key : String
  summary : String
deriving DecidableEq, Repr

/-! ### Agents -/

def diffApproval (name : String) (base head : List AbiApprovalLabel) : List DeltaRecord :=
  let baseLabels := byName AbiApprovalLabel.label base
  let headLabels := byName AbiApprovalLabel.label head
  (baseLabels.toList.flatMap fun (label, bl) =>
    match headLabels[label]? with
    | none =>
      [⟨s!"agent.approval.label_removed:{name}:{label}",
        s!"approve site `{label}` removed from agent `{name}`"⟩]
    | some hl =>
      let bt := bl.requiredTier.getD "unspecified"
      let ht := hl.requiredTier.getD "unspecified"
      let br := bl.reversibility.getD "unspecified"
      let hr := hl.reversibility.getD "unspecified"
      (if bt ≠ ht then
        [⟨s!"agent.approval.tier_changed:{name}:{label}:{bt}->{ht}",
          s!"approve site `{label}` on agent `{name}` required-tier changed from `{bt}` to `{ht}`"⟩]
      else []) ++
      if br ≠ hr then
        [⟨s!"agent.approval.reversibility_changed:{name}:{label}:{br}->{hr}",
          s!"approve site `{label}` on agent `{name}` reversibility changed from `{br}` to `{hr}`"⟩]
      else []) ++
  headLabels.toList.flatMap fun (label, _) =>
    if baseLabels[label]?.isNone then
      [⟨s!"agent.approval.label_added:{name}:{label}",
        s!"approve site `{label}` added to agent `{name}`"⟩]
    else []

def diffProvenance (name : String) (base head : AbiProvenanceContract) : List DeltaRecord :=
  (if base.returnsGrounded ≠ head.returnsGrounded then
    if head.returnsGrounded then
      [⟨s!"agent.provenance.grounded_gained:{name}",
        s!"agent `{name}` return value gained `Grounded<T>` provenance"⟩]
    else
      [⟨s!"agent.provenance.grounded_lost:{name}",
        s!"agent `{name}` return value lost `Grounded<T>` provenance"⟩]
  else []) ++
  (base.groundedParamDeps.flatMap fun dep =>
    if dep ∉ head.groundedParamDeps then
      [⟨s!"agent.provenance.dep_removed:{name}:{dep}",
        s!"agent `{name}` lost grounded dependency on parameter `{dep}`"⟩]
    else []) ++
  head.groundedParamDeps.flatMap fun dep =>
    if dep ∉ base.groundedParamDeps then
      [⟨s!"agent.provenance.dep_added:{name}:{dep}",
        s!"agent `{name}` gained grounded dependency on parameter `{dep}`"⟩]
    else []

def diffOwnership (name : String) (base head : AbiAgent) : List DeltaRecord :=
  let baseReturn := ownershipLabel (effectiveReturnOwnership base)
  let headReturn := ownershipLabel (effectiveReturnOwnership head)
  (if baseReturn ≠ headReturn then
    [⟨s!"agent.extern.ownership_changed:{name}:ret:{baseReturn}->{headReturn}",
      s!"agent `{name}` return ownership changed from `{baseReturn}` to `{headReturn}`"⟩]
  else []) ++
  -- arguments without a counterpart are not compared
  (base.params.zip head.params).zipIdx.flatMap fun ((baseParam, headParam), index) =>
    let baseLabel := ownershipLabel (effectiveParamOwnership baseParam)
    let headLabel := ownershipLabel (effectiveParamOwnership headParam)
    if baseLabel ≠ headLabel then
      [⟨s!"agent.extern.ownership_changed:{name}:arg[{index}]:{baseLabel}->{headLabel}",
        s!"agent `{name}` argument #{index} ownership changed from `{baseLabel}` to `{headLabel}`"⟩]
    else []

def diffAgentPair (name : String) (base head : AbiAgent) : List DeltaRecord :=
  let baseTier := base.trustTier.getD "unspecified"
  let headTier := head.trustTier.getD "unspecified"
  (if baseTier ≠ headTier then
    [⟨s!"agent.trust_tier_changed:{name}:{baseTier}->{headTier}",
      s!"agent `{name}` trust-tier changed from `{baseTier}` to `{headTier}`"⟩]
  else []) ++
  (if base.dangerous ≠ head.dangerous then
    if head.dangerous then
      [⟨s!"agent.dangerous_gained:{name}", s!"agent `{name}` became `@dangerous`"⟩]
    else
      [⟨s!"agent.dangerous_lost:{name}", s!"agent `{name}` no longer `@dangerous`"⟩]
  else []) ++
  (if base.replayable ≠ head.replayable then
    if head.replayable then
      [⟨s!"agent.replayable_gained:{name}", s!"agent `{name}` gained `@replayable`"⟩]
    else
      [⟨s!"agent.replayable_lost:{name}", s!"agent `{name}` lost `@replayable`"⟩]
  else []) ++
  diffApproval name base.labels head.labels ++
  diffProvenance name base.provenance head.provenance ++
  diffOwnership name base head

/-- What a new agent comes with. -/
def emitInitialContract (agent : AbiAgent) : List DeltaRecord :=
  (agent.labels.map fun label =>
    ⟨s!"agent.approval.label_added:{agent.name}:{label.label}",
      s!"approve site `{label.label}` declared on new agent `{agent.name}`"⟩) ++
  (if agent.provenance.returnsGrounded then
    [⟨s!"agent.provenance.grounded_gained:{agent.name}",
      s!"new agent `{agent.name}` returns `Grounded<T>`"⟩]
  else []) ++
  agent.provenance.groundedParamDeps.map fun dep =>
    ⟨s!"agent.provenance.dep_added:{agent.name}:{dep}",
      s!"new agent `{agent.name}` declares grounded dependency on `{dep}`"⟩

/-! ### Tools -/

/-- The domains of a tool, each of them once. They are a hash set: their order means nothing. -/
def toolDomainKeys (tool : AbiTool) : List (String × String) :=
  (tool.domainEffects.map fun effect => (effect.kind, effect.target.getD "true")).dedup

def diffToolContract (name : String) (base head : AbiTool) : List DeltaRecord :=
  let baseDomains := toolDomainKeys base
  let headDomains := toolDomainKeys head
  let baseApproval := base.requiresApproval.getD "none"
  let headApproval := head.requiresApproval.getD "none"
  (headDomains.flatMap fun (kind, target) =>
    if (kind, target) ∉ baseDomains then
      [⟨s!"tool.contract.domain_added:{name}:{kind}:{target}",
        s!"tool `{name}` gained `{kind}({target})` contract effect"⟩]
    else []) ++
  (baseDomains.flatMap fun (kind, target) =>
    if (kind, target) ∉ headDomains then
      [⟨s!"tool.contract.domain_removed:{name}:{kind}:{target}",
        s!"tool `{name}` lost `{kind}({target})` contract effect"⟩]
    else []) ++
  if baseApproval ≠ headApproval then
    [⟨s!"tool.contract.approval_changed:{name}:{baseApproval}->{headApproval}",
      s!"tool `{name}` approval contract changed from `{baseApproval}` to `{headApproval}`"⟩]
  else []

def emitInitialToolContract (name : String) (tool : AbiTool) : List DeltaRecord :=
  ((toolDomainKeys tool).map fun (kind, target) =>
    ⟨s!"tool.contract.domain_added:{name}:{kind}:{target}",
      s!"new tool `{name}` declares `{kind}({target})` contract effect"⟩) ++
  match tool.requiresApproval with
  | some label =>
    [⟨s!"tool.contract.approval_changed:{name}:none->{label}",
      s!"new tool `{name}` requires approval `{label}`"⟩]
  | none => []

def emitRemovedToolContract (name : String) (tool : AbiTool) : List DeltaRecord :=
  (toolDomainKeys tool).map fun (kind, target) =>
    ⟨s!"tool.contract.domain_removed:{name}:{kind}:{target}",
      s!"removed tool `{name}` had `{kind}({target})` contract effect"⟩

def diffTools (base head : CorvidAbi) : List DeltaRecord :=
  let baseTools := byName AbiTool.name base.tools
  let headTools := byName AbiTool.name head.tools
  (headTools.toList.flatMap fun (name, headTool) =>
    match baseTools[name]? with
    | some baseTool => diffToolContract name baseTool headTool
    | none => emitInitialToolContract name headTool) ++
  baseTools.toList.flatMap fun (name, baseTool) =>
    if headTools[name]?.isNone then emitRemovedToolContract name baseTool else []

/-! ### All changes -/

def computeDiffSummary (base head : CorvidAbi) : List DeltaRecord :=
  let baseAgents := byName AbiAgent.name base.agents
  let headAgents := byName AbiAgent.name head.agents
  (baseAgents.toList.flatMap fun (name, ba) =>
    match headAgents[name]? with
    | none =>
      [⟨s!"agent.removed:{name}", s!"agent `{name}` removed from the exported surface"⟩]
    | some ha => diffAgentPair name ba ha) ++
  (headAgents.toList.flatMap fun (name, ha) =>
    if baseAgents[name]?.isNone then
      ⟨s!"agent.added:{name}", s!"new agent `{name}` added to the exported surface"⟩ ::
        emitInitialContract ha
    else []) ++
  diffTools base head

end Corvid.TraceDiff
