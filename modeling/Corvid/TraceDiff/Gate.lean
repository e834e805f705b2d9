import Corvid.TraceDiff.Receipt

/-!
# The gate on lowered safety

The default policy is to flag every lowering of safety. It has a table of trust tiers of its own,
with a tier `human_supervised` in the place where the checker has `supervisor_required`, and it knows
one of the two texts for what is not reversible.

## Main definitions

* `Lowering`: a change to less safety, in the order of the checker
* `Gate`: lowerings are flagged, and strengthenings are not
* `Overlooked`: the lowerings that the table does not know
* `Regression`: the changes that are flagged

## Main results

* `alarming_iff`: which changes are flagged
* `gate_iff`: the gate is right, unless all that is lowered is overlooked
-/

namespace Corvid.TraceDiff

/-- The approval label of a name. -/
def AbiAgent.findLabel (agent : AbiAgent) (label : String) : Option AbiApprovalLabel :=
  (byName AbiApprovalLabel.label agent.labels)[label]?

def CorvidAbi.findAgent (abi : CorvidAbi) (name : String) : Option AbiAgent :=
  (byName AbiAgent.name abi.agents)[name]?

def CorvidAbi.findTool (abi : CorvidAbi) (name : String) : Option AbiTool :=
  (byName AbiTool.name abi.tools)[name]?

/-! ### Safety in the order of the checker -/

def trustTierOrder : List String := ["autonomous", "supervisor_required", "human_required"]

/-- The tier moves down. Tiers outside the order do not move. -/
def LowersTier (base head : Option String) : Prop :=
  ∃ less more : ℕ, less < more ∧ more < trustTierOrder.length ∧
    trustTierOrder[more]? = base ∧ trustTierOrder[less]? = head

/-- The two texts for effects that cannot be taken back. -/
def irreversible : Option String → Bool
  | some "irreversible" | some "non_reversible" => true
  | _ => false

/-- The agent is less safe than it was. -/
inductive AgentLowering (base head : AbiAgent) : Prop
  | trust (h : LowersTier base.trustTier head.trustTier)
  | approval {label : String} {bl hl : AbiApprovalLabel}
      (hbase : base.findLabel label = some bl)
      (hhead : head.findLabel label = some hl)
      (h : LowersTier bl.requiredTier hl.requiredTier)
  | dangerous (hbase : base.dangerous = false) (hhead : head.dangerous = true)
  | grounded (hbase : base.provenance.returnsGrounded = true)
      (hhead : head.provenance.returnsGrounded = false)
  | dependency {dep : String} (hbase : dep ∈ base.provenance.groundedParamDeps)
      (hhead : dep ∉ head.provenance.groundedParamDeps)
  | reversibility {label : String} {bl hl : AbiApprovalLabel}
      (hbase : base.findLabel label = some bl)
      (hhead : head.findLabel label = some hl)
      (hreversible : irreversible bl.reversibility = false)
      (hirreversible : irreversible hl.reversibility = true)

/-- There is an agent of this kind in both descriptors. -/
def SomeAgent (r : AbiAgent → AbiAgent → Prop) (base head : CorvidAbi) : Prop :=
  ∃ name ba ha, base.findAgent name = some ba ∧
    head.findAgent name = some ha ∧ r ba ha

def Lowering : CorvidAbi → CorvidAbi → Prop :=
  SomeAgent AgentLowering

structure LabelStrengthened (base head : AbiApprovalLabel) : Prop where
  tier : head.requiredTier = base.requiredTier ∨ LowersTier head.requiredTier base.requiredTier
  reversibility : head.reversibility = base.reversibility ∨
    irreversible base.reversibility = true ∧ head.reversibility = some "reversible"

/-- The agent is at least as safe as it was, and nothing else has changed. -/
structure AgentStrengthened (base head : AbiAgent) : Prop where
  params : head.params = base.params
  returnType : head.returnType = base.returnType
  returnOwnership : head.returnOwnership = base.returnOwnership
  trust : head.trustTier = base.trustTier ∨ LowersTier head.trustTier base.trustTier
  dangerous : head.dangerous = true → base.dangerous = true
  replayable : base.replayable = true → head.replayable = true
  grounded : base.provenance.returnsGrounded = true → head.provenance.returnsGrounded = true
  dependencies : base.provenance.groundedParamDeps ⊆ head.provenance.groundedParamDeps
  labels : ∀ label, ∀ bl ∈ base.findLabel label,
    ∃ hl ∈ head.findLabel label, LabelStrengthened bl hl

structure ToolStrengthened (base head : AbiTool) : Prop where
  domains : toolDomainKeys head ⊆ toolDomainKeys base
  approval : head.requiresApproval = base.requiresApproval

/-- The descriptors differ by strengthenings only. -/
structure OnlyStrengthened (base head : CorvidAbi) : Prop where
  agents : ∀ name, Option.Rel AgentStrengthened (base.findAgent name) (head.findAgent name)
  tools : ∀ name, Option.Rel ToolStrengthened (base.findTool name) (head.findTool name)

/-- Lowerings have a regression in the receipt and stop it, and strengthenings pass. -/
structure Gate (base head : CorvidAbi) : Prop where
  flags : Lowering base head → ∀ baseSha headSha sourcePath impact narrativeRejected,
    let receipt := policyReceipt
      (Receipt.build baseSha headSha sourcePath base head impact narrativeRejected)
    (∃ delta ∈ receipt.deltas, delta.safetyClass = "regression") ∧ (Policy.apply receipt).ok = false
  passes : OnlyStrengthened base head → ∀ baseSha headSha sourcePath impact narrativeRejected,
    impact.anyNewlyDiverged = false →
    (Policy.apply (policyReceipt
      (Receipt.build baseSha headSha sourcePath base head impact narrativeRejected))).ok = true

/-! ### Safety in the table of the gate -/

/-- A change of a value that is flagged. -/
def Flagged (flag : String → Bool) (fromValue toValue : String) : Prop :=
  fromValue ≠ toValue ∧ flag (Delta.transitionText fromValue toValue) = true

/-- The changes of an agent that are flagged. -/
inductive AgentRegression (base head : AbiAgent) : Prop
  | trust (h : Flagged isTrustLowering (base.trustTier.getD "unspecified")
      (head.trustTier.getD "unspecified"))
  | dangerous (hbase : base.dangerous = false) (hhead : head.dangerous = true)
  | approval {label : String} {bl hl : AbiApprovalLabel}
      (hbase : base.findLabel label = some bl)
      (hhead : head.findLabel label = some hl)
      (h : Flagged isTrustLowering (bl.requiredTier.getD "unspecified")
        (hl.requiredTier.getD "unspecified"))
  | reversibility {label : String} {bl hl : AbiApprovalLabel}
      (hbase : base.findLabel label = some bl)
      (hhead : head.findLabel label = some hl)
      (h : Flagged (Text.endsWith "->irreversible") (bl.reversibility.getD "unspecified")
        (hl.reversibility.getD "unspecified"))
  | grounded (hbase : base.provenance.returnsGrounded = true)
      (hhead : head.provenance.returnsGrounded = false)
  | dependency {dep : String} (hbase : dep ∈ base.provenance.groundedParamDeps)
      (hhead : dep ∉ head.provenance.groundedParamDeps)
  | result (h : Flagged isOwnershipLoosening (ownershipLabel (effectiveReturnOwnership base))
      (ownershipLabel (effectiveReturnOwnership head)))
  | param {params : AbiParam × AbiParam} (hmem : params ∈ base.params.zip head.params)
      (h : Flagged isOwnershipLoosening (ownershipLabel (effectiveParamOwnership params.1))
        (ownershipLabel (effectiveParamOwnership params.2)))

/-- The changes of a tool that are flagged. A tool can be new. -/
inductive ToolRegression (name : String) (base : Option AbiTool) (head : AbiTool) : Prop
  | domain {kind target : String} (hhead : (kind, target) ∈ toolDomainKeys head)
      (hbase : ∀ tool ∈ base, (kind, target) ∉ toolDomainKeys tool)
      (h : (Delta.lifecycle .domain true name [kind, target]).isRegression = true)
  | approval {tool : AbiTool} (hbase : base = some tool)
      (h : Flagged (Text.endsWith "->none") (tool.requiresApproval.getD "none")
        (head.requiresApproval.getD "none"))
  | newApproval {label : String} (hbase : base = none) (hhead : head.requiresApproval = some label)
      (h : Text.endsWith "->none" (Delta.transitionText "none" label) = true)

/-- The changes that are flagged. -/
def Regression (base head : CorvidAbi) : Prop :=
  SomeAgent AgentRegression base head ∨
    ∃ name headTool, head.findTool name = some headTool ∧
      ToolRegression name (base.findTool name) headTool

/-- The lowerings of an agent that the table does not know. -/
inductive AgentOverlooked (base head : AbiAgent) : Prop
  | trust (h : LowersTier base.trustTier head.trustTier)
      (hsupervisor : base.trustTier = some "supervisor_required" ∨
        head.trustTier = some "supervisor_required")
  | approval {label : String} {bl hl : AbiApprovalLabel}
      (hbase : base.findLabel label = some bl)
      (hhead : head.findLabel label = some hl)
      (h : LowersTier bl.requiredTier hl.requiredTier)
      (hsupervisor : bl.requiredTier = some "supervisor_required" ∨
        hl.requiredTier = some "supervisor_required")
  | reversibility {label : String} {bl hl : AbiApprovalLabel}
      (hbase : base.findLabel label = some bl)
      (hhead : head.findLabel label = some hl)
      (hreversible : irreversible bl.reversibility = false)
      (hirreversible : hl.reversibility = some "non_reversible")

def Overlooked : CorvidAbi → CorvidAbi → Prop :=
  SomeAgent AgentOverlooked

/-! ### Which changes are flagged -/

/-- One of the changes is flagged. -/
def Alarming (deltas : List Delta) : Prop :=
  ∃ δ ∈ deltas, δ.isRegression = true

section Alarming

variable {deltas deltas' : List Delta}

@[simp] theorem alarming_nil : ¬ Alarming [] := by
  simp [Alarming]

@[simp] theorem alarming_cons {δ : Delta} :
    Alarming (δ :: deltas) ↔ δ.isRegression = true ∨ Alarming deltas := by
  simp [Alarming]

@[simp] theorem alarming_append :
    Alarming (deltas ++ deltas') ↔ Alarming deltas ∨ Alarming deltas' := by
  simp only [Alarming, List.mem_append, or_and_right, exists_or]

@[simp] theorem alarming_flatMap {α : Type} {l : List α} {f : α → List Delta} :
    Alarming (l.flatMap f) ↔ ∃ x ∈ l, Alarming (f x) := by
  simp only [Alarming, List.mem_flatMap]
  exact ⟨fun ⟨δ, ⟨x, hx, hδ⟩, h⟩ => ⟨x, hx, δ, hδ, h⟩, fun ⟨x, hx, δ, hδ, h⟩ => ⟨δ, ⟨x, hx, hδ⟩, h⟩⟩

theorem or_alarming_flatMap {α : Type} {p : Prop} {l : List α} {f : α → List Delta}
    (h : ∀ x ∈ l, ¬ Alarming (f x)) : p ∨ Alarming (l.flatMap f) ↔ p := by
  refine or_iff_left fun halarm => ?_
  obtain ⟨x, hx, hf⟩ := alarming_flatMap.mp halarm
  exact h x hx hf

@[simp] theorem alarming_map {α : Type} {l : List α} {f : α → Delta} :
    Alarming (l.map f) ↔ ∃ x ∈ l, (f x).isRegression = true := by
  simp [Alarming]

@[simp] theorem alarming_ite {p : Prop} [Decidable p] :
    Alarming (if p then deltas else []) ↔ p ∧ Alarming deltas := by
  split <;> simp [*]

theorem alarming_transition (cls : TransitionClass) (flag : String → Bool)
    (h : ∀ subject details fromValue toValue,
      (Delta.transition cls subject details fromValue toValue).isRegression =
        flag (Delta.transitionText fromValue toValue))
    {subject : String} {details : List String} {fromValue toValue : String} :
    Alarming (transition cls subject details fromValue toValue) ↔ Flagged flag fromValue toValue := by
  rw [transition, Flagged, alarming_ite, alarming_cons, h]
  simp

end Alarming

theorem alarming_approvalDeltas (name : String) (base head : AbiAgent) :
    Alarming (approvalDeltas name base.labels head.labels) ↔
      ∃ label bl hl, base.findLabel label = some bl ∧ head.findLabel label = some hl ∧
        (Flagged isTrustLowering (bl.requiredTier.getD "unspecified")
            (hl.requiredTier.getD "unspecified") ∨
          Flagged (Text.endsWith "->irreversible") (bl.reversibility.getD "unspecified")
            (hl.reversibility.getD "unspecified")) := by
  rw [approvalDeltas, alarming_append, or_iff_left, alarming_flatMap, Prod.exists]
  · simp only [mem_toList_byName]
    refine exists_congr fun label => exists_congr fun bl => ?_
    rw [AbiAgent.findLabel, AbiAgent.findLabel]
    generalize (byName AbiApprovalLabel.label head.labels)[label]? = found
    cases found with
    | none => simp [Delta.isRegression]
    | some hl =>
      rw [alarming_append, alarming_transition .approvalTier isTrustLowering fun _ _ _ _ => rfl,
        alarming_transition .reversibility (Text.endsWith "->irreversible") fun _ _ _ _ => rfl]
      simp
  · rw [alarming_flatMap]
    rintro ⟨⟨label, hl⟩, -, hnew⟩
    rw [alarming_ite, alarming_cons] at hnew
    simp [Delta.isRegression] at hnew

theorem alarming_toggle_gained {cls : LifecycleClass} {name : String} {base head : Bool}
    (hgained : ∀ subject details, (Delta.lifecycle cls true subject details).isRegression = true)
    (hlost : ∀ subject details, (Delta.lifecycle cls false subject details).isRegression = false) :
    Alarming (toggle cls name base head) ↔ base = false ∧ head = true := by
  cases base <;> cases head <;> simp [toggle, hgained, hlost]

theorem alarming_toggle_lost {cls : LifecycleClass} {name : String} {base head : Bool}
    (hgained : ∀ subject details, (Delta.lifecycle cls true subject details).isRegression = false)
    (hlost : ∀ subject details, (Delta.lifecycle cls false subject details).isRegression = true) :
    Alarming (toggle cls name base head) ↔ base = true ∧ head = false := by
  cases base <;> cases head <;> simp [toggle, hgained, hlost]

theorem not_alarming_toggle_replayable (name : String) (base head : Bool) :
    ¬ Alarming (toggle .replayable name base head) := by
  cases base <;> cases head <;> simp [toggle, Delta.isRegression]

theorem alarming_provenanceDeltas (name : String) (base head : AbiProvenanceContract) :
    Alarming (provenanceDeltas name base head) ↔
      (base.returnsGrounded = true ∧ head.returnsGrounded = false) ∨
        ∃ dep ∈ base.groundedParamDeps, dep ∉ head.groundedParamDeps := by
  have hadded : ¬ Alarming (head.groundedParamDeps.flatMap fun dep =>
      if dep ∉ base.groundedParamDeps then [.lifecycle .dependency true name [dep]] else []) := by
    rw [alarming_flatMap]
    rintro ⟨dep, -, hdep⟩
    rw [alarming_ite, alarming_cons] at hdep
    simp [Delta.isRegression] at hdep
  rw [provenanceDeltas, alarming_append, or_iff_left hadded, alarming_append, alarming_flatMap,
    alarming_toggle_lost (fun _ _ => rfl) (fun _ _ => rfl)]
  refine or_congr_right (exists_congr fun dep => and_congr_right fun _ => ?_)
  rw [alarming_ite, alarming_cons]
  simp [Delta.isRegression]

theorem alarming_ownershipDeltas (name : String) (base head : AbiAgent) :
    Alarming (ownershipDeltas name base head) ↔
      Flagged isOwnershipLoosening (ownershipLabel (effectiveReturnOwnership base))
          (ownershipLabel (effectiveReturnOwnership head)) ∨
        ∃ params ∈ base.params.zip head.params,
          Flagged isOwnershipLoosening (ownershipLabel (effectiveParamOwnership params.1))
            (ownershipLabel (effectiveParamOwnership params.2)) := by
  rw [ownershipDeltas, alarming_append, alarming_flatMap,
    alarming_transition .ownership isOwnershipLoosening fun _ _ _ _ => rfl]
  refine or_congr_right ⟨?_, ?_⟩
  · rintro ⟨⟨params, index⟩, hmem, h⟩
    rw [alarming_transition .ownership isOwnershipLoosening fun _ _ _ _ => rfl] at h
    exact ⟨params, List.fst_mem_of_mem_zipIdx hmem, h⟩
  · rintro ⟨params, hmem, h⟩
    obtain ⟨index, hindex, hget⟩ := List.getElem_of_mem hmem
    refine ⟨(params, index), ?_, ?_⟩
    · rw [List.mem_zipIdx_iff_getElem?]
      exact List.getElem?_eq_some_iff.mpr ⟨hindex, hget⟩
    · rw [alarming_transition .ownership isOwnershipLoosening fun _ _ _ _ => rfl]
      exact h

theorem alarming_agentDeltas (name : String) (base head : AbiAgent) :
    Alarming (agentDeltas name base head) ↔ AgentRegression base head := by
  simp only [agentDeltas, alarming_append, alarming_approvalDeltas, alarming_provenanceDeltas,
    alarming_ownershipDeltas, alarming_transition .trustTier isTrustLowering fun _ _ _ _ => rfl,
    not_alarming_toggle_replayable, or_false]
  rw [alarming_toggle_gained (fun _ _ => rfl) (fun _ _ => rfl)]
  constructor
  · rintro ((((htrust | hdangerous) | ⟨label, bl, hl, hbase, hhead, htier | hreversibility⟩) |
      hgrounded | ⟨dep, hbase, hhead⟩) | hresult | ⟨params, hmem, hparam⟩)
    · exact .trust htrust
    · exact .dangerous hdangerous.1 hdangerous.2
    · exact .approval hbase hhead htier
    · exact .reversibility hbase hhead hreversibility
    · exact .grounded hgrounded.1 hgrounded.2
    · exact .dependency hbase hhead
    · exact .result hresult
    · exact .param hmem hparam
  · intro h
    cases h with
    | trust h => exact .inl (.inl (.inl (.inl h)))
    | dangerous hbase hhead => exact .inl (.inl (.inl (.inr ⟨hbase, hhead⟩)))
    | approval hbase hhead h => exact .inl (.inl (.inr ⟨_, _, _, hbase, hhead, .inl h⟩))
    | reversibility hbase hhead h => exact .inl (.inl (.inr ⟨_, _, _, hbase, hhead, .inr h⟩))
    | grounded hbase hhead => exact .inl (.inr (.inl ⟨hbase, hhead⟩))
    | dependency hbase hhead => exact .inl (.inr (.inr ⟨_, hbase, hhead⟩))
    | result h => exact .inr (.inl h)
    | param hmem h => exact .inr (.inr ⟨_, hmem, h⟩)

theorem not_alarming_initialDeltas (agent : AbiAgent) : ¬ Alarming (initialDeltas agent) := by
  rw [initialDeltas, alarming_append, alarming_append, alarming_ite]
  simp [Delta.isRegression]

/-! ### Tools -/

theorem alarming_toolDeltas (name : String) (base head : AbiTool) :
    Alarming (toolDeltas name base head) ↔ ToolRegression name (some base) head := by
  rw [toolDeltas, alarming_append, alarming_append, or_alarming_flatMap, alarming_flatMap,
    alarming_transition .toolApproval (Text.endsWith "->none") fun _ _ _ _ => rfl]
  swap
  · -- a lost domain is no regression
    rintro ⟨kind, target⟩ - h
    rw [alarming_ite, alarming_cons] at h
    simp [Delta.isRegression] at h
  constructor
  · rintro (⟨⟨kind, target⟩, hmem, h⟩ | h)
    · rw [alarming_ite, alarming_cons] at h
      refine .domain hmem ?_ (h.2.resolve_right alarming_nil)
      rintro tool ⟨⟩
      exact h.1
    · exact .approval rfl h
  · intro h
    cases h with
    | domain hhead hbase h =>
      refine .inl ⟨_, hhead, ?_⟩
      rw [alarming_ite, alarming_cons]
      exact ⟨hbase base rfl, .inl h⟩
    | approval hbase h =>
      obtain rfl := Option.some.inj hbase
      exact .inr h
    | newApproval hbase => cases hbase

theorem alarming_initialToolDeltas (name : String) (tool : AbiTool) :
    Alarming (initialToolDeltas name tool) ↔ ToolRegression name none tool := by
  rw [initialToolDeltas, alarming_append, alarming_map]
  constructor
  · rintro (⟨⟨kind, target⟩, hmem, h⟩ | h)
    · exact .domain hmem (by simp) h
    · split at h
      next label heq =>
        exact .newApproval rfl heq (by simpa [Delta.isRegression] using h)
      next => exact absurd h alarming_nil
  · intro h
    cases h with
    | domain hhead hbase h => exact .inl ⟨_, hhead, h⟩
    | approval hbase => cases hbase
    | newApproval _ hhead h =>
      refine .inr ?_
      rw [hhead]
      exact alarming_cons.mpr (.inl h)

theorem not_alarming_removedToolDeltas (name : String) (tool : AbiTool) :
    ¬ Alarming (removedToolDeltas name tool) := by
  simp [removedToolDeltas, Delta.isRegression]

/-- A summary has a flagged change just when the descriptors have one. -/
theorem alarming_iff (base head : CorvidAbi) :
    Alarming (computeDeltas base head) ↔ Regression base head := by
  simp only [computeDeltas]
  rw [alarming_append, alarming_append, or_alarming_flatMap, alarming_append, or_alarming_flatMap,
    alarming_flatMap, alarming_flatMap, Prod.exists, Prod.exists]
  rotate_left
  · -- a removed tool is no regression
    rintro ⟨name, baseTool⟩ - h
    rw [alarming_ite] at h
    exact not_alarming_removedToolDeltas name baseTool h.2
  · -- nor is a new agent
    rintro ⟨name, ha⟩ - h
    rw [alarming_ite, alarming_cons] at h
    exact h.2.elim (fun h => by cases h) (not_alarming_initialDeltas ha)
  simp only [mem_toList_byName]
  refine or_congr (exists_congr fun name => exists_congr fun ba => ?_)
    (exists_congr fun name => exists_congr fun headTool => and_congr_right fun _ => ?_)
  · rw [exists_and_left, CorvidAbi.findAgent, CorvidAbi.findAgent]
    refine and_congr_right fun _ => ?_
    generalize (byName AbiAgent.name head.agents)[name]? = found
    cases found with
    | none => simp [Delta.isRegression]
    | some ha => simp [alarming_agentDeltas]
  · rw [CorvidAbi.findTool]
    generalize (byName AbiTool.name base.tools)[name]? = found
    cases found with
    | none => exact alarming_initialToolDeltas name headTool
    | some baseTool => exact alarming_toolDeltas name baseTool headTool

/-! ### The tiers -/

theorem lowersTier_iff {base head : Option String} :
    LowersTier base head ↔
      base = some "human_required" ∧ (head = some "autonomous" ∨ head = some "supervisor_required") ∨
      base = some "supervisor_required" ∧ head = some "autonomous" := by
  constructor
  · rintro ⟨less, more, hlt, hmore, rfl, rfl⟩
    have hcases : less = 0 ∧ more = 1 ∨ less = 0 ∧ more = 2 ∨ less = 1 ∧ more = 2 := by
      simp only [trustTierOrder, List.length_cons, List.length_nil] at hmore
      omega
    rcases hcases with ⟨rfl, rfl⟩ | ⟨rfl, rfl⟩ | ⟨rfl, rfl⟩ <;> simp [trustTierOrder]
  · rintro (⟨rfl, rfl | rfl⟩ | ⟨rfl, rfl⟩)
    · exact ⟨0, 2, by decide, by decide, rfl, rfl⟩
    · exact ⟨1, 2, by decide, by decide, rfl, rfl⟩
    · exact ⟨0, 1, by decide, by decide, rfl, rfl⟩

/-- A lowering is flagged, unless the tier between is one of the two. -/
theorem LowersTier.flagged {base head : Option String} (h : LowersTier base head) :
    (base = some "supervisor_required" ∨ head = some "supervisor_required") ∨
      Flagged isTrustLowering (base.getD "unspecified") (head.getD "unspecified") := by
  rcases lowersTier_iff.mp h with ⟨rfl, rfl | rfl⟩ | ⟨rfl, rfl⟩
  · exact .inr ⟨by simp, by decide +kernel⟩
  · exact .inl (.inr rfl)
  · exact .inl (.inl rfl)

theorem not_flagged_of_raised {base head : Option String}
    (h : head = base ∨ LowersTier head base) :
    ¬ Flagged isTrustLowering (base.getD "unspecified") (head.getD "unspecified") := by
  rintro ⟨hne, hflag⟩
  rcases h with rfl | h
  · exact hne rfl
  · rcases lowersTier_iff.mp h with ⟨rfl, rfl | rfl⟩ | ⟨rfl, rfl⟩
    · exact absurd hflag (by decide +kernel)
    · exact absurd hflag (by decide +kernel)
    · exact absurd hflag (by decide +kernel)

/-! ### Reversibility -/

theorem transitionText_of_notMem (fromValue : String) {toValue : String} (h : ':' ∉ toValue.toList) :
    Delta.transitionText fromValue toValue = Text.lastPart ':' fromValue ++ ("->" ++ toValue) := by
  rw [Delta.transitionText, String.append_assoc, Text.lastPart_append_of_notMem _ (by simp [h])]

theorem flagged_irreversible {base : Option String} (h : irreversible base = false) :
    Flagged (Text.endsWith "->irreversible") (base.getD "unspecified") "irreversible" := by
  refine ⟨?_, ?_⟩
  · cases base with
    | none => simp
    | some text =>
      rintro rfl
      cases h
  · rw [transitionText_of_notMem _ (by simp), Text.endsWith, decide_eq_true_iff]
    exact ⟨(Text.lastPart ':' (base.getD "unspecified")).toList, by simp⟩

theorem not_flagged_reversible (fromValue : String) :
    ¬ Flagged (Text.endsWith "->irreversible") fromValue "reversible" := by
  rintro ⟨-, h⟩
  rw [transitionText_of_notMem _ (by simp), Text.endsWith, decide_eq_true_iff, String.toList_append] at h
  have hsuffix : ("->" ++ "reversible").toList <:+ "->irreversible".toList :=
    List.suffix_of_suffix_length_le (List.suffix_append _ _) h (by simp)
  exact absurd hsuffix (by simp; decide)

theorem irreversible_eq_true {text : Option String} (h : irreversible text = true) :
    text = some "irreversible" ∨ text = some "non_reversible" := by
  unfold irreversible at h
  split at h
  next => exact .inl rfl
  next => exact .inr rfl
  next => cases h

/-! ### The gate -/

/-- A lowering is overlooked or flagged. -/
theorem Lowering.overlooked_or {base head : CorvidAbi} (h : Lowering base head) :
    Overlooked base head ∨ Regression base head := by
  obtain ⟨name, ba, ha, hba, hha, h⟩ := h
  cases h with
  | trust h =>
    rcases h.flagged with hsupervisor | hflagged
    · exact .inl ⟨name, ba, ha, hba, hha, .trust h hsupervisor⟩
    · exact .inr (.inl ⟨name, ba, ha, hba, hha, .trust hflagged⟩)
  | approval hbase hhead h =>
    rcases h.flagged with hsupervisor | hflagged
    · exact .inl ⟨name, ba, ha, hba, hha, .approval hbase hhead h hsupervisor⟩
    · exact .inr (.inl ⟨name, ba, ha, hba, hha, .approval hbase hhead hflagged⟩)
  | dangerous hbase hhead => exact .inr (.inl ⟨name, ba, ha, hba, hha, .dangerous hbase hhead⟩)
  | grounded hbase hhead => exact .inr (.inl ⟨name, ba, ha, hba, hha, .grounded hbase hhead⟩)
  | dependency hbase hhead => exact .inr (.inl ⟨name, ba, ha, hba, hha, .dependency hbase hhead⟩)
  | reversibility hbase hhead hreversible hirreversible =>
    rcases irreversible_eq_true hirreversible with htext | htext
    · have hflagged := flagged_irreversible hreversible
      exact .inr (.inl ⟨name, ba, ha, hba, hha, .reversibility hbase hhead (by rwa [htext])⟩)
    · exact .inl ⟨name, ba, ha, hba, hha, .reversibility hbase hhead hreversible htext⟩

theorem Overlooked.lowering {base head : CorvidAbi} (h : Overlooked base head) : Lowering base head := by
  obtain ⟨name, ba, ha, hba, hha, h⟩ := h
  cases h with
  | trust h => exact ⟨name, ba, ha, hba, hha, .trust h⟩
  | approval hbase hhead h => exact ⟨name, ba, ha, hba, hha, .approval hbase hhead h⟩
  | reversibility hbase hhead hreversible htext =>
    exact ⟨name, ba, ha, hba, hha, .reversibility hbase hhead hreversible (by rw [htext]; rfl)⟩

theorem AgentStrengthened.not_regression {base head : AbiAgent} (h : AgentStrengthened base head) :
    ¬ AgentRegression base head := by
  have hlabel : ∀ {label : String} {bl hl : AbiApprovalLabel}, base.findLabel label = some bl →
      head.findLabel label = some hl → LabelStrengthened bl hl := by
    intro label bl hl hbase hhead
    obtain ⟨hl', hhead', hstrengthened⟩ := h.labels label bl hbase
    rw [Option.mem_def, hhead] at hhead'
    rwa [Option.some.inj hhead']
  intro hregression
  cases hregression with
  | trust hflagged => exact not_flagged_of_raised h.trust hflagged
  | dangerous hbase hhead =>
    rw [h.dangerous hhead] at hbase
    cases hbase
  | approval hbase hhead hflagged => exact not_flagged_of_raised (hlabel hbase hhead).tier hflagged
  | reversibility hbase hhead hflagged =>
    rcases (hlabel hbase hhead).reversibility with heq | ⟨-, hreversible⟩
    · rw [heq] at hflagged
      exact hflagged.1 rfl
    · rw [hreversible] at hflagged
      exact not_flagged_reversible _ hflagged
  | grounded hbase hhead =>
    rw [h.grounded hbase] at hhead
    cases hhead
  | dependency hbase hhead => exact hhead (h.dependencies hbase)
  | result hflagged =>
    refine hflagged.1 ?_
    rw [effectiveReturnOwnership, effectiveReturnOwnership, h.returnOwnership, h.returnType]
  | param hmem hflagged =>
    rw [h.params] at hmem
    obtain ⟨index, hindex, hget⟩ := List.getElem_of_mem hmem
    rw [List.getElem_zip] at hget
    rw [← hget] at hflagged
    exact hflagged.1 rfl

theorem OnlyStrengthened.not_regression {base head : CorvidAbi} (h : OnlyStrengthened base head) :
    ¬ Regression base head := by
  rintro (⟨name, ba, ha, hba, hha, hregression⟩ | ⟨name, headTool, hhead, hregression⟩)
  · have hagent := h.agents name
    rw [hba, hha] at hagent
    cases hagent with
    | some hagent => exact hagent.not_regression hregression
  · have htool := h.tools name
    rw [hhead] at htool
    generalize base.findTool name = found at htool hregression
    cases htool with
    | some htool =>
      cases hregression with
      | domain hhead hbase _ => exact hbase _ rfl (htool.domains hhead)
      | approval hbase hflagged =>
        obtain rfl := Option.some.inj hbase
        rw [htool.approval] at hflagged
        exact hflagged.1 rfl
      | newApproval hbase => cases hbase

theorem isSome_regressionFlagFor_congr (key summary summary' : String) :
    (regressionFlagFor ⟨key, summary⟩).isSome = (regressionFlagFor ⟨key, summary'⟩).isSome := by
  unfold regressionFlagFor
  simp only [apply_ite Option.isSome, Option.isSome_some, Option.isSome_none]

/-- A summary has a record with a flag just when the descriptors have a flagged change. -/
theorem exists_flag_iff (base head : CorvidAbi) :
    (∃ record ∈ computeDiffSummary base head, (regressionFlagFor record).isSome = true) ↔
      Regression base head := by
  have hrecords : (∃ record ∈ computeDiffSummary base head,
      (regressionFlagFor ⟨record.key, ""⟩).isSome = true) ↔
        ∃ δ ∈ computeDeltas base head, (regressionFlagFor ⟨δ.key, ""⟩).isSome = true :=
    exists_mem_computeDiffSummary (P := fun key => (regressionFlagFor ⟨key, ""⟩).isSome = true)
  simp only [isSome_regressionFlagFor] at hrecords
  rw [← alarming_iff, Alarming, ← hrecords]
  refine exists_congr fun record => and_congr_right fun _ => ?_
  rw [isSome_regressionFlagFor_congr record.key "" record.summary]

section Receipts

variable (baseSha headSha sourcePath : String) (base head : CorvidAbi) (impact : TraceImpact)
  (narrativeRejected : Bool)

theorem exists_regression_iff :
    (∃ delta ∈ (policyReceipt
        (Receipt.build baseSha headSha sourcePath base head impact narrativeRejected)).deltas,
      delta.safetyClass = "regression") ↔ Regression base head := by
  rw [← exists_flag_iff]
  simp [policyReceipt, Receipt.build, policyDelta, safetyClass_eq_regression]

theorem verdict_ok_build_iff :
    (Policy.apply (policyReceipt
      (Receipt.build baseSha headSha sourcePath base head impact narrativeRejected))).ok = true ↔
      ¬ Regression base head ∧ impact.anyNewlyDiverged = false := by
  rw [verdict_ok_iff, ← exists_flag_iff]
  simp [Receipt.build]

end Receipts

/-- The gate is right about two descriptors just when a lowering to or from `supervisor_required`, or
to `non_reversible`, comes with another change that is flagged. -/
theorem gate_iff (base head : CorvidAbi) :
    Gate base head ↔ (Overlooked base head → Regression base head) := by
  constructor
  · intro h hoverlooked
    have hflags := h.flags hoverlooked.lowering "" "" "" ⟨false, false, "", "", []⟩ false
    exact (exists_regression_iff ..).mp hflags.1
  · intro h
    have hlowering : Lowering base head → Regression base head := fun hlowering =>
      hlowering.overlooked_or.elim h id
    refine ⟨fun hlow baseSha headSha sourcePath impact rejected => ⟨?_, ?_⟩,
      fun hstrengthened baseSha headSha sourcePath impact rejected himpact => ?_⟩
    · exact (exists_regression_iff ..).mpr (hlowering hlow)
    · rw [← Bool.not_eq_true, verdict_ok_build_iff, not_and]
      exact fun hnot => absurd (hlowering hlow) hnot
    · exact (verdict_ok_build_iff ..).mpr ⟨hstrengthened.not_regression, himpact⟩

private def trusted (tier : String) : CorvidAbi :=
  { agents :=
      [{ name := "bot", params := [], returnType := .scalar .nothing, returnOwnership := none,
         trustTier := some tier, dangerous := false, replayable := false, labels := [],
         provenance := ⟨false, []⟩ }]
    tools := [] }

/-- An agent that no longer needs a human, only a supervisor, passes. -/
theorem supervisor_passes : ¬ Gate (trusted "human_required") (trusted "supervisor_required") := by
  intro h
  have hlowering : Lowering (trusted "human_required") (trusted "supervisor_required") :=
    ⟨"bot", _, _, rfl, rfl, .trust ⟨1, 2, by decide, by decide, rfl, rfl⟩⟩
  have hverdict := (h.flags hlowering "" "" "" ⟨false, false, "", "", []⟩ false).2
  have hrecords : computeDiffSummary (trusted "human_required") (trusted "supervisor_required") =
      [⟨"agent.trust_tier_changed:bot:human_required->supervisor_required",
        "agent `bot` trust-tier changed from `human_required` to `supervisor_required`"⟩] := by
    decide +kernel
  have hok : (Policy.apply (policyReceipt (Receipt.build "" "" "" (trusted "human_required")
      (trusted "supervisor_required") ⟨false, false, "", "", []⟩ false))).ok = true := by
    rw [verdict_ok_iff, Receipt.build, hrecords]
    decide +kernel
  rw [hok] at hverdict
  cases hverdict

end Corvid.TraceDiff
