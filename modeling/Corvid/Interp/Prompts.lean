import Corvid.Interp.Machine
import Mathlib.Algebra.Ring.Rat

/-!
# Prompts

A call of a prompt selects a model, asks it once or several times, and decodes what comes back. There
are six strategies: a model chosen by requirements or by a route, an ensemble that votes, a pipeline of
three adversaries, a rollout between two models, and stages that escalate.

## Main definitions

* `Boundary`: conversions at the boundary of the runtime
* `Evaluator`: how expressions, blocks and prompts are evaluated with less fuel
* `executePromptCall`: one call of a model
* `dispatchPrompt`, `dispatchPromptExpr`: a call of a prompt
-/

namespace Corvid.Interp

open Interp
open Replay (EventBody)

structure EnsembleVoteOutcome where
  winner : String
  agreementRate : ℚ

/-- The conversions between values and JSON, and the checks of the runtime on texts. -/
structure Boundary where
  valueToJson : Value → Json
  jsonToValue : (DefId → Option IrType) → Json → Ty → Except String Value
  schemaFor : (DefId → Option IrType) → Ty → Json
  jsonText : Json → String
  traceText : Json → String
  displayError : InterpError → String
  floatText : Float → String
  fmod : Float → Float → Float
  citationVerified : String → String → Bool
  majorityVote : List String → EnsembleVoteOutcome
  weightedVote : List String → List ℚ → EnsembleVoteOutcome
  contradictionFlag : String → Json → Except RuntimeError Bool

inductive ExprFlow where
  | value (v : Value)
  | propagate (v : Value)

inductive Flow where
  | normal
  | return (v : Value)
  | break
  | continue

structure PromptCallResult where
  value : Value
  cost : ℚ
  confidence : ℚ
  tokens : ℕ
  costCharged : Bool

/-- Evaluation with less fuel. -/
structure Evaluator where
  expr : Expr → Interp ExprFlow
  block : Block → Interp Flow
  prompt : IrPrompt → String → List Value → Span → Interp PromptCallResult
  /-- How many chunks may be taken from a stream at once. -/
  chunks : ℕ

def defaultCompletionTokenEstimate : ℕ := 256

def defaultStreamBackpressure : BackpressurePolicy := .bounded 16

def estimateTokens (text : String) : ℕ :=
  let chars := text.length
  if chars = 0 then 0 else max (chars / 4) 1

def IrPrompt.streamBackpressure (prompt : IrPrompt) : BackpressurePolicy :=
  prompt.backpressure.getD defaultStreamBackpressure

def IrPrompt.effectiveConfidence (prompt : IrPrompt) (value : Value) : ℚ :=
  min prompt.effectConfidence (valueConfidence value)

def IrPrompt.completionTokens (prompt : IrPrompt) : ℕ :=
  prompt.maxTokens.getD defaultCompletionTokenEstimate

def Ty.isStream : Ty → Bool
  | stream _ => true
  | _ => false

/-- The type of the chunks of a stream. -/
def Ty.chunk : Ty → Ty
  | stream inner => inner
  | ty => ty

def Ty.ungrounded : Ty → Ty
  | grounded inner => inner
  | ty => ty

def ProvenanceChain.merge (chain other : ProvenanceChain) : ProvenanceChain :=
  other.foldl (fun chain entry =>
    if chain.any fun candidate => candidate.name = entry.name ∧ candidate.kind = entry.kind then chain
    else chain ++ [entry]) chain

section Models

def emitModelSelected (calleeName : String) (selection : ModelSelection)
    (outputFormatRequired : Option String) (armIndex stageIndex : Option ℕ) : Interp Unit :=
  ask (.emit (.modelSelected calleeName selection.model selection.version
    selection.capabilityRequired selection.capabilityPicked outputFormatRequired
    selection.outputFormatPicked selection.costEstimate armIndex stageIndex))

def selectNamedPromptModel (calleeName modelName : String) (requiredOutputFormat : Option String)
    (promptTokens completionTokens : ℕ) (armIndex stageIndex : Option ℕ) (span : Span) :
    Interp String := do
  let selection ← ofRuntime span
    (← ask (.describeNamedModel modelName promptTokens completionTokens))
  if requiredOutputFormat.isSome ∧ selection.outputFormatPicked ≠ requiredOutputFormat then
    failWith (.modelOutputFormatMismatch calleeName selection.model
      (requiredOutputFormat.getD "") selection.outputFormatPicked) span
  else do
    emitModelSelected calleeName selection requiredOutputFormat armIndex stageIndex
    return selection.model

def routeMatches (self : Evaluator) (arm : IrRouteArm) : Interp Bool :=
  match arm.pattern with
  | .wildcard => pure true
  | .guard e => do
    match ← self.expr e with
    | .value v | .propagate v => ofOp e.span (requireBool v "route guard")

/-- The model of the first arm whose guard holds. -/
def selectPromptRouteModel (self : Evaluator) (prompt : IrPrompt) (calleeName : String)
    (promptTokens completionTokens : ℕ) (span : Span) : ℕ → List IrRouteArm → Interp (Option String)
  | _, [] => failWith (.noMatchingRoute calleeName) span
  | armIndex, arm :: arms => do
    if ← routeMatches self arm then do
      let model ← selectNamedPromptModel calleeName arm.modelName prompt.outputFormatRequired
        promptTokens completionTokens (some armIndex) none span
      return some model
    else
      selectPromptRouteModel self prompt calleeName promptTokens completionTokens span
        (armIndex + 1) arms

/-- The parameters are bound while the guards are evaluated. -/
def bindPromptParams : List (IrParam × Value) → Interp Unit
  | [] => pure ()
  | (param, value) :: rest => do
    bindLocal param.id value
    nameLocal param.id param.name
    bindPromptParams rest

def selectPromptModel (self : Evaluator) (prompt : IrPrompt) (calleeName rendered : String)
    (args : List Value) (span : Span) : Interp (Option String) := do
  let promptTokens := estimateTokens rendered
  let completionTokens := prompt.completionTokens
  if prompt.route ≠ [] then do
    let saved ← savedLocals
    bindPromptParams (prompt.params.zip args)
    restoringLocals saved
      (selectPromptRouteModel self prompt calleeName promptTokens completionTokens span 0 prompt.route)
  else if prompt.capabilityRequired = none ∧ prompt.outputFormatRequired = none then
    return none
  else do
    let selection ← ofRuntime span (← ask (.selectCheapestModel prompt.capabilityRequired
      prompt.outputFormatRequired promptTokens completionTokens))
    emitModelSelected calleeName selection selection.outputFormatRequired none none
    return some selection.model

def promptCallCost (prompt : IrPrompt) (modelName rendered : String) (usage : TokenUsage) :
    Interp ℚ := do
  let promptTokens :=
    if usage.promptTokens > 0 then usage.promptTokens else estimateTokens rendered
  let completionTokens :=
    if usage.completionTokens > 0 then usage.completionTokens
    else if usage.totalTokens > usage.promptTokens then usage.totalTokens - usage.promptTokens
    else usage.totalTokens
  match ← ask (.describeNamedModel modelName promptTokens completionTokens) with
  | .ok selection =>
    return if selection.costEstimate > 0 then selection.costEstimate else prompt.effectCost
  | .error _ => return prompt.effectCost

end Models

section Calls

variable (b : Boundary) (ir : IrFile)

def decodeWith (json : Json) (ty : Ty) (context : String) (span : Span) : Interp Value :=
  ofExcept ((b.jsonToValue ir.typesById json ty).mapError fun e =>
    ⟨.marshal (context ++ ": " ++ e), span⟩)

/-- The text of a response has to cite the parameter that the prompt names. -/
def citationMissing (prompt : IrPrompt) (args : List Value) (value : Value) : Bool :=
  match prompt.citesStrictlyParam.bind fun index => args[index]? with
  | some arg =>
    let context := match arg with
      | .grounded inner _ _ => inner
      | other => other
    !b.citationVerified (b.jsonText (b.valueToJson context)) (b.jsonText (b.valueToJson value))
  | none => false

/-- The provenance of the arguments, if one of them has any. -/
def mergedProvenance (args : List Value) : Option ProvenanceChain :=
  args.foldl (fun chain arg => match arg with
    | .grounded _ provenance _ => some (ProvenanceChain.merge (chain.getD []) provenance)
    | _ => chain) none

def groundPromptValue (calleeName : String) (args : List Value) (value : Value) : Interp Value := do
  match mergedProvenance args with
  | some chain => do
    let now ← ask .nowMs
    return groundedWithConfidence value (chain ++ [⟨.promptTransform, calleeName, now⟩])
      (composedConfidence args)
  | none => return value

/-- A response may say whether it was right. -/
def recordCalibration (prompt : IrPrompt) (calleeName actualModel : String) (confidence : ℚ)
    (calibration : Option Bool) : Interp Unit :=
  match prompt.calibrated, calibration with
  | true, some correct => ask (.recordCalibration calleeName actualModel confidence correct)
  | _, _ => pure ()

def decodePromptResponse (prompt : IrPrompt) (calleeName : String) (args : List Value)
    (rendered actualModel : String) (response : LlmResponse) (span : Span) :
    Interp PromptCallResult := do
  let value ← decodeWith b ir response.value prompt.returnTy.chunk.ungrounded
    s!"prompt `{calleeName}`" span
  if citationMissing b prompt args value then
    failWith (.other (s!"citation verification failed for prompt `{calleeName}`: " ++
      "response does not reference content from the cited context parameter")) span
  else do
    let grounded ← groundPromptValue calleeName args value
    let value := match response.confidence with
      | some confidence => withValueConfidence grounded (min confidence (valueConfidence grounded))
      | none => grounded
    let confidence := prompt.effectiveConfidence value
    recordCalibration prompt calleeName actualModel confidence response.calibration
    let tokens :=
      if response.usage.completionTokens > 0 then response.usage.completionTokens
      else if response.usage.totalTokens > 0 then response.usage.totalTokens
      else estimateTokens (b.jsonText (b.valueToJson value))
    let cost ← promptCallCost prompt actualModel rendered response.usage
    return ⟨value, cost, confidence, tokens, false⟩

/-- The hook has given the result of the call. -/
def overriddenCall (prompt : IrPrompt) (calleeName rendered model : String) (json : Json)
    (span : Span) : Interp PromptCallResult := do
  let value ← decodeWith b ir json prompt.returnTy.chunk s!"prompt `{calleeName}` override" span
  let tokens := estimateTokens (b.jsonText (b.valueToJson value))
  let promptTokens := estimateTokens rendered
  let cost ← promptCallCost prompt model rendered
    ⟨promptTokens % 2 ^ 32, tokens % 2 ^ 32, (promptTokens + tokens) % 2 ^ 32⟩
  return ⟨value, cost, prompt.effectiveConfidence value, tokens, false⟩

def beforePromptCall (calleeName rendered : String) (model : Option String) (args : List Value)
    (span : Span) (s : Interpreter) : StepEvent :=
  .beforePromptCall calleeName rendered model (composedConfidence args) span s.envSnapshot

def actualModelOf (model : String) : Interp String :=
  if model = "" then ask .defaultModel else pure model

/-- A call of a model, after the hook has let it pass. -/
def askModel (prompt : IrPrompt) (calleeName : String) (args : List Value) (rendered : String)
    (selectedModel : Option String) (span : Span) : Interp PromptCallResult := do
  let req : LlmRequest := ⟨calleeName, selectedModel.getD "", rendered, args.map b.valueToJson,
    some (b.schemaFor ir.typesById prompt.returnTy.chunk)⟩
  let actualModel ← actualModelOf req.model
  let response ← ofRuntime span (← ask (.callLlm req prompt.cacheable))
  match ← yieldBoundary fun _ => .afterPromptCall calleeName response.value
    (min prompt.effectConfidence (composedConfidence args)) span with
  | some (.override json) => overriddenCall b ir prompt calleeName rendered actualModel json span
  | _ => decodePromptResponse b ir prompt calleeName args rendered actualModel response span

def executePromptCall (prompt : IrPrompt) (calleeName : String) (args : List Value)
    (rendered : String) (selectedModel : Option String) (span : Span) : Interp PromptCallResult := do
  match ← yieldBoundary (beforePromptCall calleeName rendered selectedModel args span) with
  | some (.override json) => match selectedModel with
    | some model => overriddenCall b ir prompt calleeName rendered model json span
    | none => do
      let model ← ask .defaultModel
      overriddenCall b ir prompt calleeName rendered model json span
  | _ => askModel b ir prompt calleeName args rendered selectedModel span

def renderPrompt (prompt : IrPrompt) (args : List Value) : String :=
  (prompt.params.zip args).foldl (fun out (param, value) =>
    out.replace ("\x7b" ++ param.name ++ "\x7d") (b.jsonText (b.valueToJson value))) prompt.template

/-- The hook has given the result of a prompt with several calls. -/
def overriddenPrompt (prompt : IrPrompt) (calleeName : String) (json : Json) (cost : ℚ)
    (costCharged : Bool) (span : Span) : Interp PromptCallResult := do
  let value ← decodeWith b ir json prompt.returnTy s!"prompt `{calleeName}` override" span
  return ⟨value, cost, prompt.effectiveConfidence value,
    estimateTokens (b.jsonText (b.valueToJson value)), costCharged⟩

/-! ### Ensembles -/

def ensembleRequest (prompt : IrPrompt) (calleeName rendered : String) (args : List Value)
    (model : String) : LlmRequest :=
  ⟨calleeName, model, rendered, args.map b.valueToJson,
    some (b.schemaFor ir.typesById prompt.returnTy.chunk)⟩

def selectMembers (prompt : IrPrompt) (calleeName rendered : String) (span : Span) :
    List String → Interp (List String)
  | [] => pure []
  | name :: names => do
    let model ← selectNamedPromptModel calleeName name prompt.outputFormatRequired
      (estimateTokens rendered) prompt.completionTokens none none span
    let models ← selectMembers prompt calleeName rendered span names
    return model :: models

/-- The responses are decoded in the order in which they come. -/
def decodeMembers (prompt : IrPrompt) (calleeName rendered : String) (args : List Value)
    (models : List String) (span : Span) : List (ℕ × Except RuntimeError LlmResponse) →
    List (ℕ × PromptCallResult) → Interp (List (ℕ × PromptCallResult))
  | [], results => pure results
  | (index, response) :: rest, results => do
    let response ← ofRuntime span response
    let result ← decodePromptResponse b ir prompt calleeName args rendered (models.getD index "")
      response span
    decodeMembers prompt calleeName rendered args models span rest ((index, result) :: results)

/-- The result of each member, or a panic if one is missing. -/
def memberResults (results : List (ℕ × PromptCallResult)) : ℕ → List String →
    Interp (List (String × PromptCallResult))
  | _, [] => pure []
  | index, model :: models => do
    match results.lookup index with
    | some result => do
      let rest ← memberResults results (index + 1) models
      return (model, result) :: rest
    | none => halt .panic

def memberWeights (calleeName : String) : List String → Interp (List ℚ)
  | [] => pure []
  | model :: models => do
    let accuracy ← ask (.calibrationAccuracy calleeName model)
    let weights ← memberWeights calleeName models
    return accuracy.getD 1 :: weights

def ensembleWeights (spec : IrEnsembleSpec) (calleeName : String) (models : List String) :
    Interp (Option (List ℚ)) :=
  if spec.weightedByAccuracyHistory then some <$> memberWeights calleeName models else pure none

def voteText : Value → String
  | .string s => s
  | .grounded inner _ _ => voteText inner
  | other => b.jsonText (b.valueToJson other)

/-- What an ensemble agrees on: its value, confidence, cost and tokens, and the model it has
escalated to. -/
structure EnsembleOutcome where
  value : Value
  confidence : ℚ
  cost : ℚ
  tokens : ℕ
  escalatedTo : Option String

def ensembleWinner (members : List (String × PromptCallResult)) (results : List String)
    (vote : EnsembleVoteOutcome) (cost : ℚ) (tokens : ℕ) : Interp EnsembleOutcome := do
  let least := members.foldl (fun least member => min least member.2.confidence) 1
  let combined := least * vote.agreementRate
  match (members.zip results).find? (·.2 = vote.winner) with
  | some (member, _) =>
    return ⟨withValueConfidence member.2.value combined, combined, cost, tokens, none⟩
  | none => halt .panic

def settleEnsemble (spec : IrEnsembleSpec) (prompt : IrPrompt) (calleeName rendered : String)
    (args : List Value) (members : List (String × PromptCallResult)) (results : List String)
    (vote : EnsembleVoteOutcome) (span : Span) : Interp EnsembleOutcome := do
  let cost := (members.map fun member => member.2.cost).sum
  let tokens := (members.map fun member => member.2.tokens).sum
  match spec.disagreementEscalation with
  | some escalation =>
    if vote.agreementRate < 1 - 1 / 2 ^ 52 then do
      let model ← selectNamedPromptModel calleeName escalation prompt.outputFormatRequired
        (estimateTokens rendered) prompt.completionTokens none none span
      let response ← ofRuntime span (← ask (.callLlm
        (ensembleRequest b ir prompt calleeName rendered args model) prompt.cacheable))
      let result ← decodePromptResponse b ir prompt calleeName args rendered model response span
      return ⟨result.value, result.confidence, cost + result.cost, tokens + result.tokens, some model⟩
    else ensembleWinner members results vote cost tokens
  | none => ensembleWinner members results vote cost tokens

def runEnsemble (spec : IrEnsembleSpec) (prompt : IrPrompt) (calleeName rendered : String)
    (args : List Value) (span : Span) : Interp PromptCallResult := do
  let models ← selectMembers prompt calleeName rendered span spec.models
  let responses ← ask (.callLlms
    (models.map (ensembleRequest b ir prompt calleeName rendered args)) prompt.cacheable)
  let decoded ← decodeMembers b ir prompt calleeName rendered args models span responses []
  let members ← memberResults decoded 0 models
  let results := members.map fun member => voteText b member.2.value
  let weights ← ensembleWeights spec calleeName models
  let vote := match weights with
    | some weights => b.weightedVote results weights
    | none => b.majorityVote results
  let outcome ← settleEnsemble b ir spec prompt calleeName rendered args members results vote span
  ask (.emit (.ensembleVote calleeName models results vote.winner vote.agreementRate
    (if spec.weightedByAccuracyHistory then "majority weighted_by accuracy_history" else "majority")
    weights outcome.escalatedTo))
  match ← yieldBoundary fun _ => .afterPromptCall calleeName (b.valueToJson outcome.value)
    outcome.confidence span with
  | some (.override json) => overriddenPrompt b ir prompt calleeName json outcome.cost false span
  | _ => return ⟨outcome.value, outcome.cost, outcome.confidence, outcome.tokens, false⟩

def dispatchEnsemble (spec : IrEnsembleSpec) (prompt : IrPrompt) (calleeName rendered : String)
    (args : List Value) (span : Span) : Interp PromptCallResult := do
  match ← yieldBoundary (beforePromptCall calleeName rendered none args span) with
  | some (.override json) => overriddenPrompt b ir prompt calleeName json prompt.effectCost false span
  | _ => runEnsemble b ir spec prompt calleeName rendered args span

/-! ### Adversarial pipelines -/

def promptById (id : DefId) (promptName : String) (span : Span) : Interp IrPrompt :=
  match ir.promptsById id with
  | some prompt => pure prompt
  | none => failWith (.dispatchFailed s!"prompt `{promptName}` is missing from the IR") span

/-- One of the prompts of a pipeline, which is charged at once. -/
def pipelineStage (self : Evaluator) (id : DefId) (name : String) (args : List Value) (span : Span) :
    Interp PromptCallResult := do
  let prompt ← promptById ir id name span
  let result ← self.prompt prompt name args span
  if !result.costCharged && !prompt.returnTy.isStream then do
    chargeCost result.cost span
    return result
  else
    return result

def runPipeline (self : Evaluator) (spec : IrAdversarialSpec) (prompt : IrPrompt)
    (calleeName : String) (args : List Value) (span : Span) : Interp PromptCallResult := do
  let proposed ← pipelineStage ir self spec.proposerId spec.proposerName args span
  let challenge ← pipelineStage ir self spec.challengerId spec.challengerName [proposed.value] span
  let verdict ← pipelineStage ir self spec.adjudicatorId spec.adjudicatorName
    [proposed.value, challenge.value] span
  let verdictJson := b.valueToJson verdict.value
  let contradiction ← ofRuntime span (b.contradictionFlag calleeName verdictJson)
  onlyIf contradiction
    (ask (.emit (.adversarialContradiction calleeName (b.traceText (b.valueToJson proposed.value))
      (b.traceText (b.valueToJson challenge.value)) verdictJson)))
  ask (.emit (.adversarialPipelineCompleted calleeName contradiction))
  let cost := proposed.cost + challenge.cost + verdict.cost
  let confidence := min (min proposed.confidence challenge.confidence) verdict.confidence
  match ← yieldBoundary fun _ => .afterPromptCall calleeName verdictJson confidence span with
  | some (.override json) => overriddenPrompt b ir prompt calleeName json cost true span
  | _ => return ⟨verdict.value, cost, confidence,
      proposed.tokens + challenge.tokens + verdict.tokens, true⟩

def dispatchAdversarial (self : Evaluator) (spec : IrAdversarialSpec) (prompt : IrPrompt)
    (calleeName rendered : String) (args : List Value) (span : Span) : Interp PromptCallResult := do
  match ← yieldBoundary (beforePromptCall calleeName rendered none args span) with
  | some (.override json) => overriddenPrompt b ir prompt calleeName json prompt.effectCost false span
  | _ => runPipeline b ir self spec prompt calleeName args span

/-! ### Rollouts and stages -/

def dispatchRollout (spec : IrRolloutSpec) (prompt : IrPrompt) (calleeName rendered : String)
    (args : List Value) (span : Span) : Interp PromptCallResult := do
  let variant ← ofRuntime span (← ask (.chooseRolloutVariant spec.variantPercent))
  let chosen := if variant then spec.variantName else spec.baselineName
  ask (.emit (.abVariantChosen calleeName spec.variantName spec.baselineName spec.variantPercent
    chosen))
  let model ← selectNamedPromptModel calleeName chosen prompt.outputFormatRequired
    (estimateTokens rendered) prompt.completionTokens none none span
  executePromptCall b ir prompt calleeName args rendered (some model) span

/-- The stages from the one at `stageIndex` on. The last one has no threshold. -/
def dispatchProgressive (prompt : IrPrompt) (calleeName rendered : String) (args : List Value)
    (span : Span) : ℕ → List IrProgressiveStage → Interp PromptCallResult
  | _, [] => halt .panic
  | stageIndex, stage :: stages => do
    let model ← selectNamedPromptModel calleeName stage.modelName prompt.outputFormatRequired
      (estimateTokens rendered) prompt.completionTokens none (some stageIndex) span
    let result ← executePromptCall b ir prompt calleeName args rendered (some model) span
    onlyIf (!prompt.returnTy.isStream) (chargeCost result.cost span)
    let result := { result with costCharged := !prompt.returnTy.isStream }
    match stage.threshold with
    | none => do
      onlyIf (stageIndex > 0)
        (ask (.emit (.progressiveExhausted calleeName (prompt.progressive.map (·.modelName)))))
      return result
    | some threshold =>
      if result.confidence ≥ threshold then return result
      else do
        ask (.emit (.progressiveEscalation calleeName stageIndex (stageIndex + 1) result.confidence
          threshold))
        dispatchProgressive prompt calleeName rendered args span (stageIndex + 1) stages

/-! ### Dispatch -/

def dispatchPrompt (self : Evaluator) (prompt : IrPrompt) (calleeName : String) (args : List Value)
    (span : Span) : Interp PromptCallResult :=
  let rendered := renderPrompt b prompt args
  match prompt.ensemble, prompt.adversarial, prompt.rollout with
  | some spec, _, _ => dispatchEnsemble b ir spec prompt calleeName rendered args span
  | none, some spec, _ => dispatchAdversarial b ir self spec prompt calleeName rendered args span
  | none, none, some spec => dispatchRollout b ir spec prompt calleeName rendered args span
  | none, none, none =>
    if prompt.progressive ≠ [] then
      dispatchProgressive b ir prompt calleeName rendered args span 0 prompt.progressive
    else do
      let selectedModel ← selectPromptModel self prompt calleeName rendered args span
      executePromptCall b ir prompt calleeName args rendered selectedModel span

/-- A stream prompt below its confidence floor is continued by another model. -/
def maybeEscalateStreamResult (prompt : IrPrompt) (calleeName : String) (args : List Value)
    (result : PromptCallResult) (span : Span) : Interp PromptCallResult := do
  match prompt.returnTy.isStream, prompt.minConfidence, prompt.escalateTo with
  | true, some threshold, some escalateTo =>
    if result.confidence ≥ threshold then return result
    else do
      let shown := b.valueToJson result.value
      let rendered := renderPrompt b prompt args ++ "\n\nContinue from partial output:\n" ++
        b.traceText shown
      let model ← selectNamedPromptModel calleeName escalateTo prompt.outputFormatRequired
        (estimateTokens rendered) prompt.completionTokens none none span
      ask (.emit (.streamUpgrade calleeName model result.confidence threshold shown))
      let upgraded ← executePromptCall b ir prompt calleeName args rendered (some model) span
      return { upgraded with
        cost := upgraded.cost + result.cost
        tokens := upgraded.tokens + result.tokens }
  | _, _, _ => return result

def singletonStream (item : Except InterpError StreamChunk) (policy : BackpressurePolicy) :
    Interp StreamRef := do
  let stream ← ask (.channel policy)
  let _ ← ask (.send stream item)
  return stream

def finalizePromptResult (prompt : IrPrompt) (calleeName : String) (args : List Value)
    (result : PromptCallResult) (span : Span) : Interp ExprFlow := do
  if prompt.returnTy.isStream then do
    let limitBreached := prompt.maxTokens.any fun limit => result.tokens > limit
    let floorBreached := prompt.minConfidence.any fun floor => result.confidence < floor
    if limitBreached then do
      let stream ← singletonStream (.error ⟨.tokenLimitExceeded (prompt.maxTokens.getD 0)
        result.tokens, span⟩) prompt.streamBackpressure
      return .value (.stream stream)
    else if floorBreached then do
      let stream ← singletonStream (.error ⟨.confidenceFloorBreached (prompt.minConfidence.getD 0)
        result.confidence, span⟩) prompt.streamBackpressure
      return .value (.stream stream)
    else do
      let stream ← singletonStream
        (.ok (.mk result.value result.cost result.confidence result.tokens)) prompt.streamBackpressure
      ask (.setResumeContext stream ⟨calleeName, args, none⟩)
      return .value (.stream stream)
  else
    return .value (withValueConfidence result.value result.confidence)

def dispatchPromptExpr (self : Evaluator) (id : DefId) (calleeName : String) (args : List Value)
    (span : Span) : Interp ExprFlow := do
  let prompt ← promptById ir id calleeName span
  let result ← self.prompt prompt calleeName args span
  let result ← maybeEscalateStreamResult b ir prompt calleeName args result span
  if !result.costCharged && !prompt.returnTy.isStream then do
    chargeCost result.cost span
    finalizePromptResult prompt calleeName args result span
  else
    finalizePromptResult prompt calleeName args result span

/-- A resumed stream goes on after what it has delivered. -/
def resumePromptStream (self : Evaluator) (id : DefId) (promptName tokenPrompt : String)
    (args : List Value) (delivered : List StreamChunk) (span : Span) : Interp ExprFlow := do
  let prompt ← promptById ir id promptName span
  if tokenPrompt ≠ promptName then
    failWith (.dispatchFailed s!"resume token is for prompt `{tokenPrompt}`, not `{promptName}`") span
  else do
    let shown := "\n".intercalate (delivered.map fun chunk => b.traceText (b.valueToJson chunk.value))
    let base := renderPrompt b prompt args
    let rendered :=
      if shown = "" then base ++ "\n\nResume from interruption with no delivered elements."
      else base ++ "\n\nResume after delivered elements:\n" ++ shown
    let selectedModel ← selectPromptModel self prompt promptName rendered args span
    let result ← executePromptCall b ir prompt promptName args rendered selectedModel span
    finalizePromptResult prompt promptName args result span

end Calls

end Corvid.Interp
