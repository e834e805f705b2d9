import Corvid.Runtime.Json

/-!
# Trace events

The runtime writes one event for every dispatch decision and every nondeterministic input of a run.
All events carry a time stamp and the id of the run; `EventBody` is what distinguishes them.

## Main definitions

* `TraceEvent`, `EventBody`: the events of a trace
* `isInitialMetadata`, `isDispatchMetadata`: the events a replay does not execute
* `validateSupportedSchema`: the versions a reader accepts
-/

namespace Corvid.Replay

inductive EventBody where
  | schemaHeader (version : ℕ) (writer : String) (commitSha sourcePath : Option String)
  | runStarted (agent : String) (args : List Json)
  | runCompleted (ok : Bool) (result : Option Json) (error : Option String)
  | toolCall (tool : String) (args : List Json)
  | toolResult (tool : String) (result : Json)
  | llmCall (prompt : String) (model modelVersion rendered : Option String) (args : List Json)
  | llmResult (prompt : String) (model modelVersion : Option String) (result : Json)
  | promptCache (prompt : String) (model modelVersion : Option String) (fingerprint : String)
      (hit : Bool)
  | approvalRequest (label : String) (args : List Json)
  | approvalDecision (site : String) (args : List Json) (accepted : Bool) (decider : String)
      (rationale : Option String)
  | approvalResponse (label : String) (approved : Bool)
  | approvalTokenIssued (tokenId label : String) (args : List Json) (scope : String)
      (issuedAtMs expiresAtMs : ℕ)
  | approvalScopeViolation (tokenId label reason : String)
  | humanInputRequest (prompt expectedType : String)
  | humanInputResponse (prompt : String) (value : Json)
  | humanChoiceRequest (options : List Json)
  | humanChoiceResponse (selectedIndex : ℕ) (selectedValue : Json)
  | hostEvent (name : String) (payload : Json)
  | seedRead (purpose : String) (value : ℕ)
  | clockRead (source : String) (value : ℤ)
  | modelSelected (prompt model : String) (modelVersion capabilityRequired capabilityPicked
      outputFormatRequired outputFormatPicked : Option String) (costEstimate : ℚ)
      (armIndex stageIndex : Option ℕ)
  | progressiveEscalation (prompt : String) (fromStage toStage : ℕ)
      (confidenceObserved threshold : ℚ)
  | progressiveExhausted (prompt : String) (stages : List String)
  | streamUpgrade (prompt toModel : String) (confidenceObserved threshold : ℚ)
      (partialOutput : Json)
  | abVariantChosen (prompt variant baseline : String) (rolloutPct : ℚ) (chosen : String)
  | ensembleVote (prompt : String) (members results : List String) (winner : String)
      (agreementRate : ℚ) (strategy : String) (weights : Option (List ℚ))
      (escalatedTo : Option String)
  | adversarialPipelineCompleted (prompt : String) (contradiction : Bool)
  | adversarialContradiction (prompt proposed challenge : String) (verdict : Json)
  | provenanceEdge (nodeId : String) (parents : List String) (op : String) (label : Option String)
deriving DecidableEq, Repr

structure TraceEvent where
  tsMs : ℕ
  runId : String
  body : EventBody
deriving DecidableEq, Repr

def schemaVersion : ℕ := 2

def minSupportedSchema : ℕ := 1

def writerInterpreter : String := "corvid-vm"

def writerNative : String := "corvid-codegen-cl"

/-- The preamble that a recorder writes before the run starts. -/
def isInitialMetadata (e : TraceEvent) : Bool :=
  match e.body with
  | .schemaHeader .. => true
  | .seedRead purpose _ => purpose == "rollout_default_seed"
  | _ => false

/-- Events that describe how a call was dispatched. The cursor of a replay steps over them. -/
def isDispatchMetadata (e : TraceEvent) : Bool :=
  match e.body with
  | .modelSelected .. | .hostEvent .. | .progressiveEscalation .. | .progressiveExhausted ..
  | .streamUpgrade .. | .promptCache .. | .approvalTokenIssued .. | .approvalScopeViolation ..
  | .abVariantChosen .. | .ensembleVote .. | .adversarialPipelineCompleted ..
  | .adversarialContradiction .. | .provenanceEdge .. => true
  | _ => false

structure UnsupportedSchema where
  found : ℕ
  supported : ℕ
deriving DecidableEq, Repr

def UnsupportedSchema.display (err : UnsupportedSchema) : String :=
  s!"trace schema version {err.found} is not supported by this binary (supported: {err.supported})"

/-- Every header of the trace has to name a version between the oldest supported one and the
current one, not only the first event. -/
def validateSupportedSchema : List TraceEvent → Except UnsupportedSchema Unit
  | [] => .ok ()
  | e :: es =>
    match e.body with
    | .schemaHeader version .. =>
      if version < minSupportedSchema ∨ version > schemaVersion then
        .error ⟨version, schemaVersion⟩
      else validateSupportedSchema es
    | _ => validateSupportedSchema es

end Corvid.Replay
