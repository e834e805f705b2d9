import Corvid.Interp.Pairing

/-!
# Prompts side by side

Every strategy of a prompt does the same in both runs of a pairing.

## Main definitions

* `PairedEvaluator`: evaluators that do the same in both runs

## Main results

* `paired_executePromptCall`: one call of a model
* `paired_dispatchPrompt`, `paired_dispatchPromptExpr`: a call of a prompt
-/

namespace Corvid.Interp

open Interp

structure PairedEvaluator (ρ : Pairing) (e e' : Evaluator) : Prop where
  expr : ∀ x, Paired ρ (e.expr x) (e'.expr x)
  block : ∀ stmts, Paired ρ (e.block stmts) (e'.block stmts)
  prompt : ∀ prompt calleeName args span,
    Paired ρ (e.prompt prompt calleeName args span) (e'.prompt prompt calleeName args span)
  chunks : e.chunks = e'.chunks

variable {ρ : Pairing} (b : Boundary) (ir : IrFile) (mocks : List IrMock) {self self' : Evaluator}

section Models

theorem paired_emitModelSelected (calleeName : String) (selection : ModelSelection)
    (outputFormat : Option String) (armIndex stageIndex : Option ℕ) :
    Paired ρ (emitModelSelected calleeName selection outputFormat armIndex stageIndex)
      (emitModelSelected calleeName selection outputFormat armIndex stageIndex) :=
  paired_ask trivial

theorem paired_selectNamedPromptModel (calleeName modelName : String) (outputFormat : Option String)
    (promptTokens completionTokens : ℕ) (armIndex stageIndex : Option ℕ) (span : Span) :
    Paired ρ
      (selectNamedPromptModel calleeName modelName outputFormat promptTokens completionTokens armIndex
        stageIndex span)
      (selectNamedPromptModel calleeName modelName outputFormat promptTokens completionTokens armIndex
        stageIndex span) := by
  refine Paired.bind (paired_ask trivial) ?_
  intro reply
  apply (paired_ofRuntime span reply).bind
  intro selection
  apply Paired.ite (paired_failWith _ _)
  exact (paired_emitModelSelected _ _ _ _ _).bind fun _ => paired_pure _

theorem paired_routeMatches (hself : PairedEvaluator ρ self self') (arm : IrRouteArm) :
    Paired ρ (routeMatches self arm) (routeMatches self' arm) := by
  unfold routeMatches
  cases arm.pattern with
  | wildcard => exact paired_pure true
  | guard e =>
    apply (hself.expr e).bind
    intro flow
    cases flow with
    | value v | propagate v => exact paired_ofOp _ _

theorem paired_selectPromptRouteModel (hself : PairedEvaluator ρ self self') (prompt : IrPrompt)
    (calleeName : String) (promptTokens completionTokens : ℕ) (span : Span) (armIndex : ℕ)
    (arms : List IrRouteArm) :
    Paired ρ
      (selectPromptRouteModel self prompt calleeName promptTokens completionTokens span armIndex arms)
      (selectPromptRouteModel self' prompt calleeName promptTokens completionTokens span armIndex
        arms) := by
  induction arms generalizing armIndex with
  | nil => exact paired_failWith _ _
  | cons arm arms ih =>
    apply (paired_routeMatches hself arm).bind
    intro matched
    apply Paired.ite
    · exact (paired_selectNamedPromptModel ..).bind fun _ => paired_pure _
    · exact ih _

theorem paired_bindPromptParams (bindings : List (IrParam × Value)) :
    Paired ρ (bindPromptParams bindings) (bindPromptParams bindings) := by
  induction bindings with
  | nil => exact paired_pure ()
  | cons binding rest ih =>
    exact (paired_bindLocal _ _).bind fun _ => (paired_nameLocal _ _).bind fun _ => ih

theorem paired_selectPromptModel (hself : PairedEvaluator ρ self self') (prompt : IrPrompt)
    (calleeName rendered : String) (args : List Value) (span : Span) :
    Paired ρ (selectPromptModel self prompt calleeName rendered args span)
      (selectPromptModel self' prompt calleeName rendered args span) := by
  apply Paired.ite
  · apply paired_savedLocals.bind
    intro saved
    apply (paired_bindPromptParams _).bind
    intro _
    exact (paired_selectPromptRouteModel hself ..).restoringLocals saved
  · apply Paired.ite (paired_pure none)
    refine Paired.bind (paired_ask trivial) ?_
    intro reply
    apply (paired_ofRuntime span reply).bind
    intro selection
    exact (paired_emitModelSelected ..).bind fun _ => paired_pure _

theorem paired_promptCallCost (prompt : IrPrompt) (modelName rendered : String) (usage : TokenUsage) :
    Paired ρ (promptCallCost prompt modelName rendered usage)
      (promptCallCost prompt modelName rendered usage) := by
  refine Paired.bind (paired_ask trivial) ?_
  intro reply
  cases reply with
  | ok selection => exact paired_pure _
  | error e => exact paired_pure _

end Models

section Calls

theorem paired_decodeWith (json : Json) (ty : Ty) (context : String) (span : Span) :
    Paired ρ (decodeWith b ir json ty context span)
      (decodeWith b (ir.remock mocks) json ty context span) :=
  paired_ofExcept _

theorem paired_groundPromptValue (calleeName : String) (args : List Value) (value : Value) :
    Paired ρ (groundPromptValue calleeName args value) (groundPromptValue calleeName args value) := by
  unfold groundPromptValue
  cases mergedProvenance args with
  | none => exact paired_pure value
  | some chain => exact Paired.bind (paired_ask trivial) fun _ => paired_pure _

theorem paired_recordCalibration (prompt : IrPrompt) (calleeName actualModel : String)
    (confidence : ℚ) (calibration : Option Bool) :
    Paired ρ (recordCalibration prompt calleeName actualModel confidence calibration)
      (recordCalibration prompt calleeName actualModel confidence calibration) := by
  unfold recordCalibration
  split
  · exact paired_ask trivial
  · exact paired_pure ()

theorem paired_decodePromptResponse (prompt : IrPrompt) (calleeName : String) (args : List Value)
    (rendered actualModel : String) (response : LlmResponse) (span : Span) :
    Paired ρ (decodePromptResponse b ir prompt calleeName args rendered actualModel response span)
      (decodePromptResponse b (ir.remock mocks) prompt calleeName args rendered actualModel response
        span) := by
  apply (paired_decodeWith b ir mocks ..).bind
  intro value
  apply Paired.ite (paired_failWith _ _)
  apply (paired_groundPromptValue ..).bind
  intro grounded
  apply (paired_recordCalibration ..).bind
  intro _
  exact (paired_promptCallCost ..).bind fun _ => paired_pure _

theorem paired_askModel (prompt : IrPrompt) (calleeName : String) (args : List Value)
    (rendered : String) (selectedModel : Option String) (span : Span) :
    Paired ρ (askModel b ir prompt calleeName args rendered selectedModel span)
      (askModel b (ir.remock mocks) prompt calleeName args rendered selectedModel span) := by
  have hmodel (model : String) : Paired ρ (actualModelOf model) (actualModelOf model) :=
    Paired.ite (paired_ask trivial) (paired_pure model)
  apply (hmodel _).bind
  intro actualModel
  refine Paired.bind (paired_ask trivial) ?_
  intro reply
  apply (paired_ofRuntime span reply).bind
  intro response
  exact paired_unlessOverridden (paired_decodePromptResponse b ir mocks ..)

theorem paired_executePromptCall (prompt : IrPrompt) (calleeName : String) (args : List Value)
    (rendered : String) (selectedModel : Option String) (span : Span) :
    Paired ρ (executePromptCall b ir prompt calleeName args rendered selectedModel span)
      (executePromptCall b (ir.remock mocks) prompt calleeName args rendered selectedModel span) :=
  paired_unlessOverridden (paired_askModel b ir mocks ..)

/-! ### Ensembles -/

theorem paired_selectMembers (prompt : IrPrompt) (calleeName rendered : String) (span : Span)
    (names : List String) :
    Paired ρ (selectMembers prompt calleeName rendered span names)
      (selectMembers prompt calleeName rendered span names) := by
  induction names with
  | nil => exact paired_pure []
  | cons name names ih =>
    apply (paired_selectNamedPromptModel ..).bind
    intro model
    exact ih.bind fun models => paired_pure _

theorem paired_decodeMembers (prompt : IrPrompt) (calleeName rendered : String) (args : List Value)
    (models : List String) (span : Span) (responses : List (ℕ × Except RuntimeError LlmResponse))
    (results : List (ℕ × PromptCallResult)) :
    Paired ρ (decodeMembers b ir prompt calleeName rendered args models span responses results)
      (decodeMembers b (ir.remock mocks) prompt calleeName rendered args models span responses
        results) := by
  induction responses generalizing results with
  | nil => exact paired_pure results
  | cons response rest ih =>
    apply (paired_ofRuntime span response.2).bind
    intro _
    apply (paired_decodePromptResponse b ir mocks ..).bind
    intro result
    exact ih _

theorem paired_memberResults (results : List (ℕ × PromptCallResult)) (index : ℕ)
    (models : List String) :
    Paired ρ (memberResults results index models) (memberResults results index models) := by
  induction models generalizing index with
  | nil => exact paired_pure []
  | cons model models ih =>
    unfold memberResults
    cases results.lookup index with
    | some result => exact (ih _).bind fun _ => paired_pure _
    | none => exact paired_halt .panic

theorem paired_memberWeights (calleeName : String) (models : List String) :
    Paired ρ (memberWeights calleeName models) (memberWeights calleeName models) := by
  induction models with
  | nil => exact paired_pure []
  | cons model models ih =>
    refine Paired.bind (paired_ask trivial) ?_
    intro accuracy
    exact ih.bind fun _ => paired_pure _

theorem paired_ensembleWinner (members : List (String × PromptCallResult)) (results : List String)
    (vote : EnsembleVoteOutcome) (cost : ℚ) (tokens : ℕ) :
    Paired ρ (ensembleWinner members results vote cost tokens)
      (ensembleWinner members results vote cost tokens) := by
  unfold ensembleWinner
  split
  · exact paired_pure _
  · exact paired_halt .panic

theorem paired_settleEnsemble (spec : IrEnsembleSpec) (prompt : IrPrompt)
    (calleeName rendered : String) (args : List Value) (members : List (String × PromptCallResult))
    (results : List String) (vote : EnsembleVoteOutcome) (span : Span) :
    Paired ρ
      (settleEnsemble b ir spec prompt calleeName rendered args members results vote span)
      (settleEnsemble b (ir.remock mocks) spec prompt calleeName rendered args members results vote
        span) := by
  unfold settleEnsemble
  cases spec.disagreementEscalation with
  | none => exact paired_ensembleWinner ..
  | some escalation =>
    refine Paired.ite ?_ (paired_ensembleWinner ..)
    apply (paired_selectNamedPromptModel ..).bind
    intro model
    refine Paired.bind (paired_ask trivial) ?_
    intro reply
    apply (paired_ofRuntime span reply).bind
    intro response
    exact (paired_decodePromptResponse b ir mocks ..).bind fun _ => paired_pure _

theorem paired_runEnsemble (spec : IrEnsembleSpec) (prompt : IrPrompt) (calleeName rendered : String)
    (args : List Value) (span : Span) :
    Paired ρ (runEnsemble b ir spec prompt calleeName rendered args span)
      (runEnsemble b (ir.remock mocks) spec prompt calleeName rendered args span) := by
  apply (paired_selectMembers ..).bind
  intro models
  refine Paired.bind (paired_ask trivial) ?_
  intro responses
  apply (paired_decodeMembers b ir mocks ..).bind
  intro decoded
  apply (paired_memberResults ..).bind
  intro members
  apply Paired.bind ((paired_memberWeights ..).map.ite (paired_pure none))
  intro weights
  apply (paired_settleEnsemble b ir mocks ..).bind
  intro outcome
  refine Paired.bind (paired_ask trivial) ?_
  intro _
  exact paired_unlessOverridden (paired_pure _)

theorem paired_dispatchEnsemble (spec : IrEnsembleSpec) (prompt : IrPrompt)
    (calleeName rendered : String) (args : List Value) (span : Span) :
    Paired ρ (dispatchEnsemble b ir spec prompt calleeName rendered args span)
      (dispatchEnsemble b (ir.remock mocks) spec prompt calleeName rendered args span) :=
  paired_unlessOverridden (paired_runEnsemble b ir mocks ..)

/-! ### Adversarial pipelines -/

theorem paired_promptById (id : DefId) (promptName : String) (span : Span) :
    Paired ρ (promptById ir id promptName span) (promptById (ir.remock mocks) id promptName span) := by
  have hsame : promptById (ir.remock mocks) id promptName span = promptById ir id promptName span := rfl
  rw [hsame]
  unfold promptById
  split
  · exact paired_pure _
  · exact paired_failWith _ _

theorem paired_pipelineStage (hself : PairedEvaluator ρ self self') (id : DefId) (name : String)
    (args : List Value) (span : Span) :
    Paired ρ (pipelineStage ir self id name args span)
      (pipelineStage (ir.remock mocks) self' id name args span) := by
  apply (paired_promptById ir mocks ..).bind
  intro prompt
  apply (hself.prompt ..).bind
  intro result
  apply Paired.ite
  · exact (paired_chargeCost ..).bind fun _ => paired_pure _
  · exact paired_pure result

theorem paired_runPipeline (hself : PairedEvaluator ρ self self') (spec : IrAdversarialSpec)
    (prompt : IrPrompt) (calleeName : String) (args : List Value) (span : Span) :
    Paired ρ (runPipeline b ir self spec prompt calleeName args span)
      (runPipeline b (ir.remock mocks) self' spec prompt calleeName args span) := by
  apply (paired_pipelineStage ir mocks hself ..).bind
  intro proposed
  apply (paired_pipelineStage ir mocks hself ..).bind
  intro challenge
  apply (paired_pipelineStage ir mocks hself ..).bind
  intro verdict
  apply (paired_ofRuntime ..).bind
  intro contradiction
  refine Paired.bind (Paired.onlyIf _ (paired_ask trivial)) ?_
  intro _
  refine Paired.bind (paired_ask trivial) ?_
  intro _
  exact paired_unlessOverridden (paired_pure _)

theorem paired_dispatchAdversarial (hself : PairedEvaluator ρ self self') (spec : IrAdversarialSpec)
    (prompt : IrPrompt) (calleeName rendered : String) (args : List Value) (span : Span) :
    Paired ρ (dispatchAdversarial b ir self spec prompt calleeName rendered args span)
      (dispatchAdversarial b (ir.remock mocks) self' spec prompt calleeName rendered args span) :=
  paired_unlessOverridden (paired_runPipeline b ir mocks hself ..)

/-! ### Rollouts and stages -/

theorem paired_dispatchRollout (spec : IrRolloutSpec) (prompt : IrPrompt)
    (calleeName rendered : String) (args : List Value) (span : Span) :
    Paired ρ (dispatchRollout b ir spec prompt calleeName rendered args span)
      (dispatchRollout b (ir.remock mocks) spec prompt calleeName rendered args span) := by
  refine Paired.bind (paired_ask trivial) ?_
  intro reply
  apply (paired_ofRuntime span reply).bind
  intro variant
  refine Paired.bind (paired_ask trivial) ?_
  intro _
  apply (paired_selectNamedPromptModel ..).bind
  intro model
  exact paired_executePromptCall b ir mocks ..

theorem paired_dispatchProgressive (prompt : IrPrompt) (calleeName rendered : String)
    (args : List Value) (span : Span) (stageIndex : ℕ) (stages : List IrProgressiveStage) :
    Paired ρ (dispatchProgressive b ir prompt calleeName rendered args span stageIndex stages)
      (dispatchProgressive b (ir.remock mocks) prompt calleeName rendered args span stageIndex
        stages) := by
  induction stages generalizing stageIndex with
  | nil => exact paired_halt .panic
  | cons stage stages ih =>
    apply (paired_selectNamedPromptModel ..).bind
    intro model
    apply (paired_executePromptCall b ir mocks ..).bind
    intro result
    apply (Paired.onlyIf _ (paired_chargeCost ..)).bind
    intro _
    cases stage.threshold with
    | none => exact Paired.bind (Paired.onlyIf _ (paired_ask trivial)) fun _ => paired_pure _
    | some threshold =>
      apply Paired.ite (paired_pure _)
      exact Paired.bind (paired_ask trivial) fun _ => ih _

/-! ### Dispatch -/

theorem paired_dispatchPrompt (hself : PairedEvaluator ρ self self') (prompt : IrPrompt)
    (calleeName : String) (args : List Value) (span : Span) :
    Paired ρ (dispatchPrompt b ir self prompt calleeName args span)
      (dispatchPrompt b (ir.remock mocks) self' prompt calleeName args span) := by
  unfold dispatchPrompt
  split
  · exact paired_dispatchEnsemble b ir mocks ..
  · exact paired_dispatchAdversarial b ir mocks hself ..
  · exact paired_dispatchRollout b ir mocks ..
  · apply Paired.ite
    · exact paired_dispatchProgressive b ir mocks ..
    · apply (paired_selectPromptModel hself ..).bind
      intro selectedModel
      exact paired_executePromptCall b ir mocks ..

theorem paired_maybeEscalateStreamResult (prompt : IrPrompt) (calleeName : String)
    (args : List Value) (result : PromptCallResult) (span : Span) :
    Paired ρ (maybeEscalateStreamResult b ir prompt calleeName args result span)
      (maybeEscalateStreamResult b (ir.remock mocks) prompt calleeName args result span) := by
  unfold maybeEscalateStreamResult
  split
  · apply Paired.ite (paired_pure result)
    apply (paired_selectNamedPromptModel ..).bind
    intro model
    refine Paired.bind (paired_ask trivial) ?_
    intro _
    exact (paired_executePromptCall b ir mocks ..).bind fun _ => paired_pure _
  · exact paired_pure result

theorem paired_singletonStream (item : Except InterpError StreamChunk) (policy : BackpressurePolicy) :
    Paired ρ (singletonStream item policy) (singletonStream item policy) := by
  refine Paired.bind (paired_ask trivial) ?_
  intro stream
  exact Paired.bind (paired_ask trivial) fun _ => paired_pure stream

theorem paired_finalizePromptResult (prompt : IrPrompt) (calleeName : String) (args : List Value)
    (result : PromptCallResult) (span : Span) :
    Paired ρ (finalizePromptResult prompt calleeName args result span)
      (finalizePromptResult prompt calleeName args result span) := by
  refine Paired.ite ?_ (paired_pure _)
  refine Paired.ite ((paired_singletonStream ..).bind fun _ => paired_pure _) ?_
  refine Paired.ite ((paired_singletonStream ..).bind fun _ => paired_pure _) ?_
  apply (paired_singletonStream ..).bind
  intro stream
  exact Paired.bind (paired_ask trivial) fun _ => paired_pure _

theorem paired_dispatchPromptExpr (hself : PairedEvaluator ρ self self') (id : DefId)
    (calleeName : String) (args : List Value) (span : Span) :
    Paired ρ (dispatchPromptExpr b ir self id calleeName args span)
      (dispatchPromptExpr b (ir.remock mocks) self' id calleeName args span) := by
  apply (paired_promptById ir mocks ..).bind
  intro prompt
  apply (hself.prompt ..).bind
  intro result
  apply (paired_maybeEscalateStreamResult b ir mocks ..).bind
  intro result
  apply Paired.ite
  · exact (paired_chargeCost ..).bind fun _ => paired_finalizePromptResult ..
  · exact paired_finalizePromptResult ..

theorem paired_resumePromptStream (hself : PairedEvaluator ρ self self') (id : DefId)
    (promptName tokenPrompt : String) (args : List Value) (delivered : List StreamChunk)
    (span : Span) :
    Paired ρ (resumePromptStream b ir self id promptName tokenPrompt args delivered span)
      (resumePromptStream b (ir.remock mocks) self' id promptName tokenPrompt args delivered span) := by
  apply (paired_promptById ir mocks ..).bind
  intro prompt
  apply Paired.ite (paired_failWith _ _)
  apply (paired_selectPromptModel hself ..).bind
  intro selectedModel
  apply (paired_executePromptCall b ir mocks ..).bind
  intro result
  exact paired_finalizePromptResult ..

end Calls

end Corvid.Interp
