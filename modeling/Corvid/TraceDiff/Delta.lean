import Corvid.TraceDiff.Diff

/-!
# The changes behind the keys

A change adds or removes something, or it replaces one value by another. The key of its record is
composed from the class of the change, the agent or tool, further names, and the two values.

## Main definitions

* `Delta`: a change, with all that its key is composed from
* `Delta.key`: the key
* `computeDeltas`: the changes between two descriptors

## Main results

* `computeDiffSummary_keys`: the records of a summary have the keys of the changes
-/

namespace Corvid.TraceDiff

/-- What can be added and removed, or gained and lost. -/
inductive LifecycleClass where
  | agent
  | dangerous
  | replayable
  | approvalLabel
  | grounded
  | dependency
  | domain
deriving DecidableEq, Repr

/-- What can change its value. -/
inductive TransitionClass where
  | trustTier
  | approvalTier
  | reversibility
  | ownership
  | toolApproval
deriving DecidableEq, Repr

inductive Delta where
  | lifecycle (cls : LifecycleClass) (gained : Bool) (subject : String) (details : List String)
  | transition (cls : TransitionClass) (subject : String) (details : List String)
      (fromValue toValue : String)
deriving DecidableEq, Repr

/-- The agent or tool, and the further names, with colons between them. -/
def entityOf (subject : String) (details : List String) : String :=
  details.foldl (fun entity detail => entity ++ ":" ++ detail) subject

@[simp] theorem entityOf_nil (subject : String) : entityOf subject [] = subject := rfl

@[simp] theorem entityOf_cons (subject detail : String) (details : List String) :
    entityOf subject (detail :: details) = entityOf (subject ++ ":" ++ detail) details := rfl

@[simp] def LifecycleClass.head : LifecycleClass → Bool → String
  | agent, true => "agent.added"
  | agent, false => "agent.removed"
  | dangerous, true => "agent.dangerous_gained"
  | dangerous, false => "agent.dangerous_lost"
  | replayable, true => "agent.replayable_gained"
  | replayable, false => "agent.replayable_lost"
  | approvalLabel, true => "agent.approval.label_added"
  | approvalLabel, false => "agent.approval.label_removed"
  | grounded, true => "agent.provenance.grounded_gained"
  | grounded, false => "agent.provenance.grounded_lost"
  | dependency, true => "agent.provenance.dep_added"
  | dependency, false => "agent.provenance.dep_removed"
  | domain, true => "tool.contract.domain_added"
  | domain, false => "tool.contract.domain_removed"

@[simp] def TransitionClass.head : TransitionClass → String
  | trustTier => "agent.trust_tier_changed"
  | approvalTier => "agent.approval.tier_changed"
  | reversibility => "agent.approval.reversibility_changed"
  | ownership => "agent.extern.ownership_changed"
  | toolApproval => "tool.contract.approval_changed"

namespace Delta

@[simp] def subject : Delta → String
  | lifecycle _ _ subject _ => subject
  | transition _ subject _ _ _ => subject

@[simp] def head : Delta → String
  | lifecycle cls gained _ _ => cls.head gained
  | transition cls _ _ _ _ => cls.head

/-- What stands in the key after the class. -/
@[simp] def rest : Delta → String
  | lifecycle _ _ subject details => entityOf subject details
  | transition _ subject details fromValue toValue =>
    entityOf subject details ++ ":" ++ (fromValue ++ "->" ++ toValue)

def key (δ : Delta) : String :=
  δ.head ++ ":" ++ δ.rest

@[simp] theorem toList_key (δ : Delta) : δ.key.toList = δ.head.toList ++ ':' :: δ.rest.toList := by
  simp [key]

end Delta

/-- A change of a value, if it is one. -/
def transition (cls : TransitionClass) (subject : String) (details : List String)
    (fromValue toValue : String) : List Delta :=
  if fromValue ≠ toValue then [.transition cls subject details fromValue toValue] else []

/-- A change of a flag, if it is one. -/
def toggle (cls : LifecycleClass) (subject : String) (base head : Bool) : List Delta :=
  if base ≠ head then [.lifecycle cls head subject []] else []

/-! ### Agents -/

def approvalDeltas (name : String) (base head : List AbiApprovalLabel) : List Delta :=
  let baseLabels := byName AbiApprovalLabel.label base
  let headLabels := byName AbiApprovalLabel.label head
  (baseLabels.toList.flatMap fun (label, bl) =>
    match headLabels[label]? with
    | none => [.lifecycle .approvalLabel false name [label]]
    | some hl =>
      transition .approvalTier name [label] (bl.requiredTier.getD "unspecified")
        (hl.requiredTier.getD "unspecified") ++
      transition .reversibility name [label] (bl.reversibility.getD "unspecified")
        (hl.reversibility.getD "unspecified")) ++
  headLabels.toList.flatMap fun (label, _) =>
    if baseLabels[label]?.isNone then [.lifecycle .approvalLabel true name [label]] else []

def provenanceDeltas (name : String) (base head : AbiProvenanceContract) : List Delta :=
  toggle .grounded name base.returnsGrounded head.returnsGrounded ++
  (base.groundedParamDeps.flatMap fun dep =>
    if dep ∉ head.groundedParamDeps then [.lifecycle .dependency false name [dep]] else []) ++
  head.groundedParamDeps.flatMap fun dep =>
    if dep ∉ base.groundedParamDeps then [.lifecycle .dependency true name [dep]] else []

def ownershipDeltas (name : String) (base head : AbiAgent) : List Delta :=
  transition .ownership name ["ret"] (ownershipLabel (effectiveReturnOwnership base))
    (ownershipLabel (effectiveReturnOwnership head)) ++
  (base.params.zip head.params).zipIdx.flatMap fun ((baseParam, headParam), index) =>
    transition .ownership name [s!"arg[{index}]"] (ownershipLabel (effectiveParamOwnership baseParam))
      (ownershipLabel (effectiveParamOwnership headParam))

def agentDeltas (name : String) (base head : AbiAgent) : List Delta :=
  transition .trustTier name [] (base.trustTier.getD "unspecified")
    (head.trustTier.getD "unspecified") ++
  toggle .dangerous name base.dangerous head.dangerous ++
  toggle .replayable name base.replayable head.replayable ++
  approvalDeltas name base.labels head.labels ++
  provenanceDeltas name base.provenance head.provenance ++
  ownershipDeltas name base head

def initialDeltas (agent : AbiAgent) : List Delta :=
  (agent.labels.map fun label => .lifecycle .approvalLabel true agent.name [label.label]) ++
  (if agent.provenance.returnsGrounded then [.lifecycle .grounded true agent.name []] else []) ++
  agent.provenance.groundedParamDeps.map fun dep => .lifecycle .dependency true agent.name [dep]

/-! ### Tools -/

def toolDeltas (name : String) (base head : AbiTool) : List Delta :=
  let baseDomains := toolDomainKeys base
  let headDomains := toolDomainKeys head
  (headDomains.flatMap fun (kind, target) =>
    if (kind, target) ∉ baseDomains then [.lifecycle .domain true name [kind, target]] else []) ++
  (baseDomains.flatMap fun (kind, target) =>
    if (kind, target) ∉ headDomains then [.lifecycle .domain false name [kind, target]] else []) ++
  transition .toolApproval name [] (base.requiresApproval.getD "none")
    (head.requiresApproval.getD "none")

def initialToolDeltas (name : String) (tool : AbiTool) : List Delta :=
  ((toolDomainKeys tool).map fun (kind, target) => .lifecycle .domain true name [kind, target]) ++
  match tool.requiresApproval with
  | some label => [.transition .toolApproval name [] "none" label]
  | none => []

def removedToolDeltas (name : String) (tool : AbiTool) : List Delta :=
  (toolDomainKeys tool).map fun (kind, target) => .lifecycle .domain false name [kind, target]

/-! ### All changes -/

def computeDeltas (base head : CorvidAbi) : List Delta :=
  let baseAgents := byName AbiAgent.name base.agents
  let headAgents := byName AbiAgent.name head.agents
  let baseTools := byName AbiTool.name base.tools
  let headTools := byName AbiTool.name head.tools
  (baseAgents.toList.flatMap fun (name, ba) =>
    match headAgents[name]? with
    | none => [.lifecycle .agent false name []]
    | some ha => agentDeltas name ba ha) ++
  (headAgents.toList.flatMap fun (name, ha) =>
    if baseAgents[name]?.isNone then .lifecycle .agent true name [] :: initialDeltas ha else []) ++
  ((headTools.toList.flatMap fun (name, headTool) =>
    match baseTools[name]? with
    | some baseTool => toolDeltas name baseTool headTool
    | none => initialToolDeltas name headTool) ++
  baseTools.toList.flatMap fun (name, baseTool) =>
    if headTools[name]?.isNone then removedToolDeltas name baseTool else [])

/-! ### The keys of the records -/

/-- The records have the keys of the changes. -/
def Records (records : List DeltaRecord) (deltas : List Delta) : Prop :=
  records.map DeltaRecord.key = deltas.map Delta.key

section Records

variable {records records' : List DeltaRecord} {deltas deltas' : List Delta}

@[simp] theorem records_nil : Records [] [] := rfl

theorem records_single {key summary : String} {δ : Delta} (h : key.toList = δ.key.toList) :
    Records [⟨key, summary⟩] [δ] := by
  simp only [Records, List.map_cons, List.map_nil, String.toList_injective h]

theorem Records.append (h : Records records deltas) (h' : Records records' deltas') :
    Records (records ++ records') (deltas ++ deltas') := by
  unfold Records at *
  rw [List.map_append, List.map_append, h, h']

theorem Records.cons {key summary : String} {δ : Delta} (hkey : key.toList = δ.key.toList)
    (h : Records records deltas) : Records (⟨key, summary⟩ :: records) (δ :: deltas) :=
  (records_single hkey).append h

theorem Records.flatMap {α : Type} {f : α → List DeltaRecord} {g : α → List Delta}
    (h : ∀ x, Records (f x) (g x)) (l : List α) : Records (l.flatMap f) (l.flatMap g) := by
  unfold Records at *
  rw [List.map_flatMap, List.map_flatMap]
  simp only [h]

theorem Records.map {α : Type} {f : α → DeltaRecord} {g : α → Delta}
    (h : ∀ x, (f x).key.toList = (g x).key.toList) (l : List α) : Records (l.map f) (l.map g) := by
  unfold Records
  rw [List.map_map, List.map_map]
  exact List.map_congr_left fun x _ => String.toList_injective (h x)

theorem Records.ite {p : Prop} [Decidable p] (h : Records records deltas) :
    Records (if p then records else []) (if p then deltas else []) := by
  split
  · exact h
  · rfl

theorem records_transition {cls : TransitionClass} {subject : String} {details : List String}
    {fromValue toValue key summary : String}
    (h : key.toList = (Delta.transition cls subject details fromValue toValue).key.toList) :
    Records (if fromValue ≠ toValue then [⟨key, summary⟩] else [])
      (transition cls subject details fromValue toValue) :=
  (records_single h).ite

theorem records_toggle {cls : LifecycleClass} {subject : String} {base head : Bool}
    {gained lost gainedSummary lostSummary : String}
    (hgained : gained.toList = (Delta.lifecycle cls true subject []).key.toList)
    (hlost : lost.toList = (Delta.lifecycle cls false subject []).key.toList) :
    Records
      (if base ≠ head then
        if head then [⟨gained, gainedSummary⟩] else [⟨lost, lostSummary⟩]
      else [])
      (toggle cls subject base head) := by
  unfold toggle
  refine Records.ite ?_
  cases head with
  | true => exact records_single hgained
  | false => exact records_single hlost

end Records

theorem records_diffApproval (name : String) (base head : List AbiApprovalLabel) :
    Records (diffApproval name base head) (approvalDeltas name base head) := by
  unfold diffApproval approvalDeltas
  refine .append (.flatMap (fun (label, bl) => ?_) _) (.flatMap (fun (label, _) => ?_) _)
  · dsimp only
    generalize (byName AbiApprovalLabel.label head)[label]? = found
    cases found with
    | none => exact records_single (by simp [toString])
    | some hl =>
      exact .append (records_transition (by simp [toString])) (records_transition (by simp [toString]))
  · exact .ite (records_single (by simp [toString]))

theorem records_diffProvenance (name : String) (base head : AbiProvenanceContract) :
    Records (diffProvenance name base head) (provenanceDeltas name base head) := by
  unfold diffProvenance provenanceDeltas
  refine .append (.append (records_toggle (by simp [toString]) (by simp [toString])) ?_) ?_
  · exact .flatMap (fun dep => .ite (records_single (by simp [toString]))) _
  · exact .flatMap (fun dep => .ite (records_single (by simp [toString]))) _

theorem records_diffOwnership (name : String) (base head : AbiAgent) :
    Records (diffOwnership name base head) (ownershipDeltas name base head) := by
  unfold diffOwnership ownershipDeltas
  refine .append (records_transition (by simp [toString])) (.flatMap (fun ((baseParam, headParam), index) => ?_) _)
  exact records_transition (by simp [toString])

theorem records_diffAgentPair (name : String) (base head : AbiAgent) :
    Records (diffAgentPair name base head) (agentDeltas name base head) := by
  unfold diffAgentPair agentDeltas
  refine .append (.append (.append (.append (.append ?_ ?_) ?_) ?_) ?_) ?_
  · exact records_transition (by simp [toString])
  · exact records_toggle (by simp [toString]) (by simp [toString])
  · exact records_toggle (by simp [toString]) (by simp [toString])
  · exact records_diffApproval ..
  · exact records_diffProvenance ..
  · exact records_diffOwnership ..

theorem records_emitInitialContract (agent : AbiAgent) :
    Records (emitInitialContract agent) (initialDeltas agent) := by
  unfold emitInitialContract initialDeltas
  refine .append (.append (.map (fun label => by simp [toString]) _) ?_) (.map (fun dep => by simp [toString]) _)
  exact .ite (records_single (by simp [toString]))

theorem records_diffToolContract (name : String) (base head : AbiTool) :
    Records (diffToolContract name base head) (toolDeltas name base head) := by
  unfold diffToolContract toolDeltas
  refine .append (.append ?_ ?_) (records_transition (by simp [toString]))
  · exact .flatMap (fun (kind, target) => .ite (records_single (by simp [toString]))) _
  · exact .flatMap (fun (kind, target) => .ite (records_single (by simp [toString]))) _

theorem records_emitInitialToolContract (name : String) (tool : AbiTool) :
    Records (emitInitialToolContract name tool) (initialToolDeltas name tool) := by
  unfold emitInitialToolContract initialToolDeltas
  refine .append (.map (fun (kind, target) => by simp [toString]) _) ?_
  generalize tool.requiresApproval = requiresApproval
  cases requiresApproval with
  | none => rfl
  | some label => exact records_single (by simp [toString])

theorem records_emitRemovedToolContract (name : String) (tool : AbiTool) :
    Records (emitRemovedToolContract name tool) (removedToolDeltas name tool) :=
  .map (fun (kind, target) => by simp [toString]) _

/-- The keys of a summary are those of the changes, in the same order. -/
theorem computeDiffSummary_keys (base head : CorvidAbi) :
    Records (computeDiffSummary base head) (computeDeltas base head) := by
  unfold computeDiffSummary computeDeltas diffTools
  refine .append (.append (.flatMap (fun (name, ba) => ?_) _) (.flatMap (fun (name, ha) => ?_) _))
    (.append (.flatMap (fun (name, headTool) => ?_) _) (.flatMap (fun (name, baseTool) => ?_) _))
  · dsimp only
    generalize (byName AbiAgent.name head.agents)[name]? = found
    cases found with
    | none => exact records_single (by simp [toString])
    | some ha => exact records_diffAgentPair ..
  · exact .ite (.cons (by simp [toString]) (records_emitInitialContract ha))
  · dsimp only
    generalize (byName AbiTool.name base.tools)[name]? = found
    cases found with
    | none => exact records_emitInitialToolContract ..
    | some baseTool => exact records_diffToolContract ..
  · exact .ite (records_emitRemovedToolContract ..)

theorem exists_mem_computeDiffSummary {base head : CorvidAbi} {P : String → Prop} :
    (∃ record ∈ computeDiffSummary base head, P record.key) ↔
      ∃ δ ∈ computeDeltas base head, P δ.key := by
  have hkeys := computeDiffSummary_keys base head
  unfold Records at hkeys
  calc (∃ record ∈ computeDiffSummary base head, P record.key)
      ↔ ∃ key ∈ (computeDiffSummary base head).map DeltaRecord.key, P key := by simp
    _ ↔ ∃ key ∈ (computeDeltas base head).map Delta.key, P key := by rw [hkeys]
    _ ↔ ∃ δ ∈ computeDeltas base head, P δ.key := by simp

end Corvid.TraceDiff
