import Corvid.Replay.Source
import Corvid.Runtime.Catalog

/-!
# The runtime

Every call of a program to a tool, a model, an approver or a human passes through the runtime,
which records it. A live runtime asks the host; a replaying one takes the answer from its source.
Both write a trace of their own.

## Main definitions

* `Host`: the services outside of the runtime, over a world they read and change
* `Runtime`, `RunState`: the configuration of a runtime and what it changes
* `callTool`, `callLlmRefImpl`, `approvalGate`, `askHuman`, `chooseHuman`, `nextRolloutSample`:
  the calls of a program
-/

namespace Corvid

open Keyed (Map)
open Replay

/-- A provider of models, dispatched by the name of the model. -/
structure Adapter (W : Type) where
  name : String
  handles : String → Bool
  call : LlmRequest → W → Except RuntimeError LlmResponse × W

structure ApprovalDecisionInfo where
  accepted : Bool
  decider : String
  rationale : Option String
deriving DecidableEq, Repr

/-- What a runtime is connected to. Every service may answer or fail, and may change the world.
The clock is read once for every event, `clock n` being the time when `n` events are recorded;
`display` is the text of an error, and `fingerprint` and `approvalTokenId` are digests. -/
structure Host (W : Type) where
  tools : String → Option (List Json → W → Except RuntimeError Json × W)
  adapters : List (Adapter W)
  approve : String → List Json → W → Except RuntimeError Bool × W
  takeLastApprovalDetail : W → Option ApprovalDecisionInfo × W
  ask : String → String → W → Except RuntimeError Json × W
  choose : List Json → W → Except RuntimeError ℕ × W
  clock : ℕ → ℕ
  display : RuntimeError → String
  fingerprint : LlmRequest → String
  approvalTokenId : String → String → List Json → String → ℕ → ℕ → String

structure Tracer where
  enabled : Bool
  runId : String

inductive RuntimeMode where
  | live
  | replay (source : ReplaySource)

structure Runtime (W : Type) where
  host : Host W
  tracer : Tracer
  traceSchemaWriter : String
  commitSha : Option String
  mode : RuntimeMode
  replayError : Option RuntimeError
  defaultModel : String
  modelCatalog : ModelCatalog

/-- What changes during a run: the world outside, the position in the source of a replay, the seed
of the rollouts, the cached answers, and the trace written so far. -/
structure RunState (W : Type) where
  world : W
  cursor : TraceCursor
  rolloutState : ℕ
  promptCache : Map String LlmResponse
  trace : List TraceEvent

/-- A call into the runtime. A call that fails keeps what it has changed. -/
abbrev RunM (W : Type) := EStateM RuntimeError (RunState W)

/-- Asks a service of the host and returns its answer or its error. -/
def attempt {W α : Type} (f : W → Except RuntimeError α × W) : RunM W (Except RuntimeError α) := do
  let s ← get
  let (answer, world) := f s.world
  set { s with world }
  return answer

/-- Asks a service of the host; its error is the error of the call. -/
def contact {W α : Type} (f : W → Except RuntimeError α × W) : RunM W α := do
  ofExcept (← attempt f)

/-- Reads from the source of a replay. -/
def reading {W ε α : Type} (x : CursorM ε α) : EStateM ε (RunState W) α := fun s =>
  match x.run s.cursor with
  | .ok a cursor => .ok a { s with cursor }
  | .error e cursor => .error e { s with cursor }

namespace Runtime

variable {W : Type} (rt : Runtime W)

/-- The state after recording an event. -/
def emitted (body : EventBody) (s : RunState W) : RunState W :=
  if rt.tracer.enabled then
    { s with trace := s.trace ++ [⟨rt.host.clock s.trace.length, rt.tracer.runId, body⟩] }
  else s

def emit {ε : Type} (body : EventBody) : EStateM ε (RunState W) Unit :=
  modify (rt.emitted body)

def emitHostEvent {ε : Type} (name : String) (payload : Json) : EStateM ε (RunState W) Unit :=
  rt.emit (.hostEvent name payload)

def replaySource : RunM W (Option ReplaySource) :=
  match rt.replayError with
  | some err => throw err
  | none =>
    match rt.mode with
    | .live => return none
    | .replay source => return some source

/-- The step of the rollout generator, 64 bits wide. -/
def advanceRollout (current : ℕ) : ℕ :=
  (current * 6364136223846793005 + 1442695040888963407) % 2 ^ 64

/-- The sample of a draw, between 0 and 1. -/
def rolloutSample (next : ℕ) : ℚ := ((next >>> 11 : ℕ) : ℚ) / 2 ^ 53

def nextRolloutSample : RunM W ℚ := do
  let next ← match ← rt.replaySource with
    | some source => reading (replayRolloutSample source)
    | none =>
      let s ← get
      pure (advanceRollout s.rolloutState)
  modify fun s => { s with rolloutState := next }
  rt.emit (.seedRead "rollout_cohort" next)
  return rolloutSample next

def prepareRun (agent : String) (args : List Json) : RunM W Unit := do
  match ← rt.replaySource with
  | some source => reading (Replay.prepareRun source agent args)
  | none => return ()

def completeRun (ok : Bool) (result : Option Json) (error : Option String) :
    EStateM Fault (RunState W) Unit := do
  match ← rt.replaySource.adaptExcept Fault.error with
  | some source => reading (Replay.completeRun source ok result error)
  | none => return ()

/-- Dispatches to the registered handler. -/
def toolsCall (name : String) (args : List Json) (w : W) : Except RuntimeError Json × W :=
  match rt.host.tools name with
  | none => (.error (.unknownTool name), w)
  | some handler => handler args w

/-- Calls a tool, with trace events around the call. -/
def callTool (name : String) (args : List Json) : RunM W Json := do
  rt.emit (.toolCall name args)
  let result ← match ← rt.replaySource with
    | some source => reading (replayToolCall source name args)
    | none => contact (rt.toolsCall name args)
  rt.emit (.toolResult name result)
  return result

def modelVersion (modelName : String) : Option String :=
  if modelName.isEmpty then none
  else (rt.modelCatalog.lookup modelName).bind RegisteredModel.version

/-- The name under which a trace records a model. -/
def named (model : String) : Option String :=
  if model.isEmpty then none else some model

def adapterFor (model : String) : Option (Adapter W) :=
  rt.host.adapters.find? fun a => a.handles model

def adapterNameForModel (model : String) : Option String :=
  (rt.adapterFor model).map Adapter.name

structure LlmCallOutcome where
  adapter : String
  response : LlmResponse

/-- Dispatches a request to the first adapter that handles its model. -/
def callWithAdapterName (req : LlmRequest) (w : W) : Except RuntimeError LlmCallOutcome × W :=
  if req.model.isEmpty then (.error .noModelConfigured, w)
  else
    match rt.adapterFor req.model with
    | none => (.error (.noAdapter req.model), w)
    | some adapter =>
      let (answer, w') := adapter.call req w
      (answer.map (LlmCallOutcome.mk adapter.name), w')

def providerOf (model : String) : Option String :=
  (rt.modelCatalog.lookup model).bind RegisteredModel.provider

def emitProviderDegraded (prompt model : String) (provider : Option String)
    (err : RuntimeError) : RunM W Unit :=
  rt.emitHostEvent "llm.provider_degraded" (.object
    [("prompt", .string prompt), ("model", .string model),
      ("provider", .ofOption .string provider), ("error", .string (rt.host.display err))])

/-- The model that answered, the adapter it was reached through and its answer. -/
structure LlmAnswer where
  model : String
  adapter : Option String
  response : LlmResponse

/-- Tries the fallbacks in order; `lastErr` is the error if none answers. -/
def tryFallbacks (req : LlmRequest) (lastErr : RuntimeError) :
    List ModelSelection → RunM W LlmAnswer
  | [] => throw lastErr
  | fallback :: fallbacks => do
    match ← attempt (rt.callWithAdapterName (req.withModel fallback.model)) with
    | .ok outcome =>
      rt.emitHostEvent "llm.provider_failover" (.object
        [("prompt", .string req.prompt), ("from_model", .string req.model),
          ("from_provider", .ofOption .string (rt.providerOf req.model)),
          ("to_model", .string fallback.model),
          ("to_provider", .ofOption .string fallback.provider),
          ("adapter", .string outcome.adapter)])
      return ⟨fallback.model, some outcome.adapter, outcome.response⟩
    | .error err =>
      rt.emitProviderDegraded req.prompt fallback.model fallback.provider err
      tryFallbacks req err fallbacks

def estimateTokens (text : String) : ℕ :=
  max ((text.utf8ByteSize + 3) / 4) 1

/-- Asks the requested model and, if it fails, the fallbacks of the catalog. -/
def callLlmLive (req : LlmRequest) (traceRendered : String) : RunM W LlmAnswer := do
  match ← attempt (rt.callWithAdapterName req) with
  | .ok outcome => return ⟨req.model, some outcome.adapter, outcome.response⟩
  | .error primaryErr =>
    rt.emitProviderDegraded req.prompt req.model (rt.providerOf req.model) primaryErr
    rt.tryFallbacks req primaryErr
      (rt.modelCatalog.compatibleFallbacksFor req.model (estimateTokens traceRendered) 0)

def normalizedTotalTokens (usage : TokenUsage) : ℕ :=
  if 0 < usage.totalTokens then usage.totalTokens
  else usage.promptTokens + usage.completionTokens

/-- The usage event of an answered request. -/
def usagePayload (prompt : String) (answer : LlmAnswer) : Json :=
  let usage := answer.response.usage
  let provider := rt.providerOf answer.model
  let privacyTier := (rt.modelCatalog.lookup answer.model).bind RegisteredModel.privacyTier
  let costUsd := if answer.model.isEmpty then 0 else
    (rt.modelCatalog.describeNamedModel answer.model usage.promptTokens
      usage.completionTokens).costEstimate
  .object
    [("prompt", .string prompt), ("model", .string answer.model),
      ("provider", .ofOption .string provider), ("adapter", .ofOption .string answer.adapter),
      ("privacy_tier", .ofOption .string privacyTier),
      ("prompt_tokens", .int usage.promptTokens),
      ("completion_tokens", .int usage.completionTokens),
      ("total_tokens", .int (normalizedTotalTokens usage)),
      ("cost_usd", .float costUsd), ("currency", .string "USD"), ("unit", .string "token"),
      ("local", .bool (provider == some "ollama" || privacyTier == some "local"))]

/-- The cached answer is free. -/
def cachedResponse (response : LlmResponse) : LlmResponse :=
  { response with usage := {} }

/-- A request without a model goes to the default one. -/
def resolved (req : LlmRequest) : LlmRequest :=
  if req.model.isEmpty then req.withModel rt.defaultModel else req

/-- The answer to a request, from the source of a replay or from the host. -/
def modelAnswer (req : LlmRequest) (traceRendered : String) :
    Option ReplaySource → RunM W LlmAnswer
  | some source => do
    let response ← reading (replayLlmCall source req.prompt (named req.model)
      (rt.modelVersion req.model) traceRendered req.args)
    return ⟨req.model, rt.adapterNameForModel req.model, response⟩
  | none => rt.callLlmLive req traceRendered

/-- Caches the answer to a cacheable request. -/
def cacheAnswer (req : LlmRequest) (response : LlmResponse) : Option String → RunM W Unit
  | some fingerprint => do
    modify fun s => { s with promptCache := s.promptCache.insert fingerprint response }
    rt.emit (.promptCache req.prompt (named req.model) (rt.modelVersion req.model) fingerprint
      false)
  | none => return ()

/-- The part of a model call that the cache did not answer. The result is recorded under the model
that answered. -/
def callLlmUncached (req : LlmRequest) (traceRendered : String) (replay : Option ReplaySource)
    (cacheFingerprint : Option String) : RunM W LlmResponse := do
  let answer ← rt.modelAnswer req traceRendered replay
  rt.cacheAnswer req answer.response cacheFingerprint
  rt.emitHostEvent "llm.usage" (rt.usagePayload req.prompt answer)
  rt.emit (.llmResult req.prompt (named answer.model) (rt.modelVersion answer.model)
    answer.response.value)
  return answer.response

/-- Answers a request from the cache. -/
def callLlmCached (req : LlmRequest) (fingerprint : String) (cached : LlmResponse) :
    RunM W LlmResponse := do
  rt.emit (.promptCache req.prompt (named req.model) (rt.modelVersion req.model) fingerprint true)
  rt.emit (.llmResult req.prompt (named req.model) (rt.modelVersion req.model) cached.value)
  return cachedResponse cached

/-- The event of a model call. -/
def llmCallEvent (req : LlmRequest) (traceRendered : String) : EventBody :=
  .llmCall req.prompt (named req.model) (rt.modelVersion req.model) (some traceRendered) req.args

/-- Calls a model. A cacheable request is answered from the cache when it can be, but only by a
live runtime; either way the trace has a call and a result. -/
def callLlmRefImpl (req : LlmRequest) (traceRenderedOverride : Option String)
    (cacheable : Bool) : RunM W LlmResponse := do
  let req := rt.resolved req
  let traceRendered := traceRenderedOverride.getD req.rendered
  let replay ← rt.replaySource
  rt.emit (rt.llmCallEvent req traceRendered)
  let cacheFingerprint :=
    if cacheable && replay.isNone then some (rt.host.fingerprint req) else none
  let s ← get
  match cacheFingerprint.bind fun fp => (s.promptCache.lookup fp).map (fp, ·) with
  | some (fingerprint, cached) => rt.callLlmCached req fingerprint cached
  | none => rt.callLlmUncached req traceRendered replay cacheFingerprint

/-- The interpreter's entry point for model calls. -/
def callLlmCacheable (req : LlmRequest) (cacheable : Bool) : RunM W LlmResponse :=
  rt.callLlmRefImpl (rt.resolved req) none cacheable

def approvalTokenTtlMs : ℕ := 5 * 60 * 1000

def approvalTokenScopeOneTime : String := "one_time"

/-- The one-time token that a granted approval issues. The expiry saturates at 64 bits. -/
def emitApprovalToken (label : String) (args : List Json) : RunM W Unit := do
  let s ← get
  let issuedAtMs := rt.host.clock s.trace.length
  let expiresAtMs := min (issuedAtMs + approvalTokenTtlMs) (2 ^ 64 - 1)
  rt.emit (.approvalTokenIssued
    (rt.host.approvalTokenId rt.tracer.runId label args approvalTokenScopeOneTime issuedAtMs
      expiresAtMs)
    label args approvalTokenScopeOneTime issuedAtMs expiresAtMs)

/-- The decision of a live approver, with the detail it left or a default one. -/
def approveLive (label : String) (args : List Json) :
    RunM W (Bool × Option ApprovalDecisionInfo) := do
  let approved ← contact (rt.host.approve label args)
  let detail ← contact fun w =>
    let (detail, w') := rt.host.takeLastApprovalDetail w
    (.ok detail, w')
  return (approved, some (detail.getD ⟨approved, "runtime-approver", none⟩))

/-- Asks the approver about an action; a denial is an error. -/
def approvalGate (label : String) (args : List Json) : RunM W Unit := do
  rt.emit (.approvalRequest label args)
  let (approved, detail) ← match ← rt.replaySource with
    | some source => do
      let outcome ← reading (replayApproval source label args)
      pure (outcome.approved, outcome.decision.map fun d =>
        ⟨d.accepted, d.decider, d.rationale⟩)
    | none => rt.approveLive label args
  match detail with
  | some d => rt.emit (.approvalDecision label args d.accepted d.decider d.rationale)
  | none => pure ()
  rt.emit (.approvalResponse label approved)
  if approved then
    rt.emitApprovalToken label args
  else
    throw (.approvalDenied label)

/-- Asks a human for a value. A replaying runtime asks as well. -/
def askHuman (prompt expectedType : String) : RunM W Json := do
  rt.emit (.humanInputRequest prompt expectedType)
  let value ← contact (rt.host.ask prompt expectedType)
  rt.emit (.humanInputResponse prompt value)
  return value

/-- Lets a human choose an option. A replaying runtime asks as well. -/
def chooseHuman (options : List Json) : RunM W ℕ := do
  rt.emit (.humanChoiceRequest options)
  let selectedIndex ← contact (rt.host.choose options)
  match options[selectedIndex]? with
  | none => throw (.other s!"human choice index {selectedIndex} out of range")
  | some selectedValue =>
    rt.emit (.humanChoiceResponse selectedIndex selectedValue)
    return selectedIndex

/-- The state in which a runtime is built: the preamble of its trace is written. -/
def build (world : W) (rolloutSeed : ℕ) : RunState W :=
  let cursor := match rt.mode with
    | .live => ⟨0⟩
    | .replay source => source.cursor
  rt.emitted (.seedRead "rollout_default_seed" rolloutSeed)
    (rt.emitted (.schemaHeader schemaVersion rt.traceSchemaWriter rt.commitSha none)
      { world, cursor, rolloutState := rolloutSeed, promptCache := ∅, trace := [] })

theorem resolved_resolved (req : LlmRequest) : rt.resolved (rt.resolved req) = rt.resolved req := by
  unfold resolved
  by_cases h : req.model.isEmpty = true
  · simp only [h, if_true]
    split <;> rfl
  · rw [if_neg h, if_neg h]

section Runs

variable {rt} {s : RunState W}

@[simp]
theorem emitted_world (b : EventBody) : (rt.emitted b s).world = s.world := by
  unfold emitted
  split <;> rfl

@[simp]
theorem emitted_cursor (b : EventBody) : (rt.emitted b s).cursor = s.cursor := by
  unfold emitted
  split <;> rfl

@[simp]
theorem emitted_rolloutState (b : EventBody) : (rt.emitted b s).rolloutState = s.rolloutState := by
  unfold emitted
  split <;> rfl

@[simp]
theorem emitted_promptCache (b : EventBody) : (rt.emitted b s).promptCache = s.promptCache := by
  unfold emitted
  split <;> rfl

@[simp]
theorem run_emit {ε : Type} (b : EventBody) :
    (rt.emit b : EStateM ε (RunState W) Unit).run s = .ok () (rt.emitted b s) := rfl

@[simp]
theorem run_attempt {α : Type} (f : W → Except RuntimeError α × W) :
    (attempt f).run s = .ok (f s.world).1 { s with world := (f s.world).2 } := rfl

theorem run_contact_ok {α : Type} {f : W → Except RuntimeError α × W} {a : α}
    (h : (f s.world).1 = .ok a) :
    (contact f).run s = .ok a { s with world := (f s.world).2 } := by
  rw [contact, Result.run_bind_of_ok (run_attempt f), h]
  rfl

theorem run_reading_ok {ε α : Type} {x : CursorM ε α} {a : α} {c : TraceCursor}
    (h : x.run s.cursor = .ok a c) :
    (reading x : EStateM ε (RunState W) α).run s = .ok a { s with cursor := c } := by
  show (match x.run s.cursor with
    | .ok a cursor => EStateM.Result.ok a { s with cursor }
    | .error e cursor => .error e { s with cursor }) = _
  rw [h]

/-- A runtime that asks the host. -/
def Live (rt : Runtime W) : Prop :=
  rt.mode = .live ∧ rt.replayError = none

/-- A runtime that takes its answers from `source`. -/
def Replaying (rt : Runtime W) (source : ReplaySource) : Prop :=
  rt.mode = .replay source ∧ rt.replayError = none

theorem Live.run_replaySource (h : rt.Live) : rt.replaySource.run s = .ok none s := by
  simp [replaySource, h.1, h.2]

theorem Replaying.run_replaySource {source : ReplaySource} (h : rt.Replaying source) :
    rt.replaySource.run s = .ok (some source) s := by
  simp [replaySource, h.1, h.2]

end Runs

end Runtime

end Corvid
