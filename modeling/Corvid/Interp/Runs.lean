import Corvid.Interp.Eval

/-!
# Runs

A run of an agent, with and without stepping.

## Main definitions

* `runAgentWithEnv`, `runAgent`: a run of an agent
* `runAgentStepping`: the same with stops
-/

namespace Corvid.Interp

open Store (Prog)
open Interp
open Keyed (Map)

variable (b : Boundary) (ir : IrFile)

/-- A computation of a new interpreter. -/
def runIn {α : Type} (start : Interpreter) (m : Interp α) : Prog Reply Halt (Except InterpError α) :=
  Prod.fst <$> m start

def noSpan : Span := ⟨0, 0⟩

abbrev Outcome := Except InterpError (Value × Map LocalId Value)

/-- A replay that has diverged is not validated once more. -/
def shouldValidateRunCompletion : Outcome → Bool
  | .error ⟨.runtime (.replayDivergence _), _⟩ => false
  | .error ⟨.runtime (.replayTraceLoad _ _), _⟩ => false
  | .error ⟨.runtime (.crossTierReplayUnsupported _ _), _⟩ => false
  | _ => true

def startRun (agentName : String) (jsonArgs : List Json) : Interp Unit := do
  ofRuntime noSpan (← ask (.prepareRun agentName jsonArgs))
  ask (.emit (.runStarted agentName jsonArgs))

def outcomeJson (outcome : Outcome) : Option Json :=
  match outcome with
  | .ok (v, _) => some (b.valueToJson v)
  | .error _ => none

def outcomeError (outcome : Outcome) : Option String :=
  match outcome with
  | .ok _ => none
  | .error e => some (b.displayError e)

def finishRun (outcome : Outcome) : Interp Unit := do
  onlyIf (shouldValidateRunCompletion outcome) (do
    let result ← ask (.completeRun outcome.isOk (outcomeJson b outcome) (outcomeError b outcome))
    ofRuntime noSpan result)
  ask (.emit (.runCompleted outcome.isOk (outcomeJson b outcome) (outcomeError b outcome)))

/-- The body of an agent, and the locals it leaves. -/
def runBound (self : Evaluator) (agent : IrAgent) (args : List Value) :
    Interp (Value × Map LocalId Value) := do
  bindParams s!"agent `{agent.name}`" agent.params args agent.span
  let v ← runBody self agent
  let env ← read (·.env)
  return (v, env)

def findAgent (agentName : String) : Interp IrAgent :=
  match ir.agents.find? (·.name = agentName) with
  | some agent => pure agent
  | none => failWith (.dispatchFailed s!"no agent named `{agentName}`") noSpan

def runAgentWithEnv (self : Evaluator) (agentName : String) (args : List Value) :
    Prog Reply Halt Outcome :=
  runIn {} do
    let agent ← findAgent ir agentName
    startRun agentName (args.map b.valueToJson)
    let outcome ← attempt (runBound self agent args)
    finishRun b outcome
    ofExcept outcome

def runAgent (self : Evaluator) (agentName : String) (args : List Value) :
    Prog Reply Halt (Except InterpError Value) :=
  (fun outcome => outcome.map Prod.fst) <$> runAgentWithEnv b ir self agentName args

def completed (agentName : String) (outcome : Outcome) (_ : Interpreter) : StepEvent :=
  match outcome with
  | .ok (v, _) => .completed agentName true (some v) (some (valueConfidence v)) none
  | .error e => .completed agentName false none none (some (b.displayError e))

def runAgentStepping (self : Evaluator) (agentName : String) (args : List Value) (mode : StepMode) :
    Prog Reply Halt Outcome :=
  runIn { stepper := some mode } do
    let agent ← findAgent ir agentName
    startRun agentName (args.map b.valueToJson)
    let outcome ← attempt (runBound self agent args)
    -- the last answer of the hook is ignored, also an abort
    let _ ← attempt (maybeYield (completed b agentName outcome))
    finishRun b outcome
    ofExcept outcome

/-! ### A still environment -/

/-- Conversions that give nothing. -/
def blank : Boundary where
  valueToJson _ := .null
  jsonToValue _ _ _ := .error ""
  schemaFor _ _ := .null
  jsonText _ := ""
  traceText _ := ""
  displayError _ := ""
  floatText _ := ""
  fmod x _ := x
  citationVerified _ _ := false
  majorityVote _ := ⟨"", 1⟩
  weightedVote _ _ := ⟨"", 1⟩
  contradictionFlag _ _ := .ok false

/-- Runs start and complete, tools answer `null`, and what is weakly referenced is dropped. -/
def idle : (q : Query) → Reply q
  | .step _ => .continue
  | .prepareRun .. | .completeRun .. | .approvalGate .. => .ok ()
  | .emit _ | .recordCalibration .. | .setResumeContext .. | .mocked _ | .fixture _ | .charged _ => ()
  | .callTool .. | .askHuman .. => .ok .null
  | .callLlm .. | .chooseHuman _ => .error .noModelConfigured
  | .callLlms .. => []
  | .describeNamedModel .. | .selectCheapestModel .. => .error .noModelConfigured
  | .chooseRolloutVariant _ => .ok false
  | .calibrationAccuracy .. | .upgrade _ | .nextChunk _ | .resumeToken _ => none
  | .defaultModel => ""
  | .nowMs | .downgrade _ => 0
  | .findFirstReplayMatch .. => .ok none
  | .channel policy => ⟨0, policy⟩
  | .prepend .. | .spawn _ => ⟨0, .unbounded⟩
  | .send .. => true

end Corvid.Interp
