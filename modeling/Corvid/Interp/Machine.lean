import Corvid.Interp.Ir
import Corvid.Lib.Store
import Corvid.Lib.Keyed
import Corvid.Runtime.Errors
import Corvid.Runtime.Llm
import Mathlib.Data.List.Sort

/-!
# The machine of the interpreter

The interpreter is a program that asks its environment one query after another: the runtime with its
tools, models, approvers and humans, the channels of streams and the tasks that fill them, the memory
behind weak references, and the hook of a stepping run. Its own state is a record that it threads
through.

## Main definitions

* `StepEvent`, `StepAction`, `StepMode`: stepping
* `InterpError`: errors
* `Query`, `Reply`: what the interpreter asks
* `Interpreter`, `Interp`: its state, and computations on it
* `maybeYield`, `yieldBoundary`: a stepping run stops here
-/

namespace Corvid.Interp

open Store (Prog)
open Replay (EventBody)
open Keyed (Map)

/-! ### Stepping -/

structure EnvSnapshot where
  locals : List (String × Value)
  confidence : ℚ

structure ConfidenceGateStep where
  threshold : ℚ
  actual : ℚ
  triggered : Bool

/-- The only statement that is announced is `let`. -/
inductive StmtKind where
  | letStmt (name : String)
deriving DecidableEq, Repr

/-- What the hook is told, timings apart. -/
inductive StepEvent where
  | beforeStatement (kind : StmtKind) (span : Span) (env : EnvSnapshot)
  | beforeToolCall (toolName : String) (args : List Json) (inputConfidence : ℚ)
      (confidenceGate : Option ConfidenceGateStep) (span : Span) (env : EnvSnapshot)
  | afterToolCall (toolName : String) (result : Json) (resultConfidence : ℚ) (span : Span)
  | beforePromptCall (promptName rendered : String) (model : Option String) (inputConfidence : ℚ)
      (span : Span) (env : EnvSnapshot)
  | afterPromptCall (promptName : String) (result : Json) (resultConfidence : ℚ) (span : Span)
  | beforeApproval (label : String) (args : List Json) (confidenceGate : Option ConfidenceGateStep)
      (span : Span) (env : EnvSnapshot)
  | afterApproval (label : String) (approved : Bool) (span : Span)
  | beforeAgentCall (agentName : String) (args : List Json) (inputConfidence : ℚ) (span : Span)
  | afterAgentCall (agentName : String) (result : Json) (resultConfidence : ℚ) (span : Span)
  | completed (agentName : String) (ok : Bool) (result : Option Value)
      (resultConfidence : Option ℚ) (error : Option String)

inductive StepAction where
  | continue
  | stepOver
  | resume
  | override (value : Json)
  | approve
  | deny
  | abort

inductive StepMode where
  | statement
  | boundary
  | run
deriving DecidableEq, Repr

/-- The mode after an answer of the hook. -/
def StepMode.after (mode : StepMode) : StepAction → StepMode
  | .resume => run
  | .stepOver => boundary
  | .continue => statement
  | .override _ | .approve | .deny | .abort => mode

/-! ### Errors -/

inductive InterpErrorKind where
  | undefinedLocal (id : LocalId)
  | typeMismatch (expected got : String)
  | unknownField (structName field : String)
  | arithmetic (message : String)
  | indexOutOfBounds (len : ℕ) (index : ℤ)
  | budgetExceeded (budget used : ℚ)
  | confidenceFloorBreached (floor actual : ℚ)
  | tokenLimitExceeded (limit used : ℕ)
  | notImplemented (what : String)
  | dispatchFailed (message : String)
  | runtime (err : RuntimeError)
  /-- Two errors that the interpreter raises in the name of the runtime. -/
  | modelOutputFormatMismatch (prompt model requiredOutputFormat : String)
      (modelOutputFormat : Option String)
  | noMatchingRoute (prompt : String)
  | marshal (message : String)
  | other (message : String)
deriving DecidableEq, Repr

structure InterpError where
  kind : InterpErrorKind
  span : Span
deriving DecidableEq, Repr

def OpError.at (e : OpError) (span : Span) : InterpError :=
  match e with
  | .typeMismatch expected got => ⟨.typeMismatch expected got, span⟩
  | .arithmetic message => ⟨.arithmetic message, span⟩

/-! ### Queries -/

/-- The description of a model in the catalog of the runtime. -/
structure ModelSelection where
  model : String
  version : Option String
  capabilityRequired : Option String
  capabilityPicked : Option String
  outputFormatRequired : Option String
  outputFormatPicked : Option String
  costEstimate : ℚ

inductive ReplayDispatchPattern where
  | llm (prompt : String)
  | tool (tool : String) (arg : ReplayToolArgPattern)
  | approve (label : String)

structure ReplayDispatchMatch where
  armIndex : ℕ
  wholeValue : Json
  toolArgValue : Option Json

structure StreamResumeContext where
  promptName : String
  args : List Value
  providerSession : Option String

/-- A task that runs the body of a stream agent. -/
structure StreamTask where
  agent : IrAgent
  env : Map LocalId Value
  localNames : Map LocalId String

inductive Query where
  /-- The hook of a stepping run. -/
  | step (event : StepEvent)
  | prepareRun (agent : String) (args : List Json)
  | completeRun (ok : Bool) (result : Option Json) (error : Option String)
  | emit (event : EventBody)
  | callTool (id : DefId) (name : String) (args : List Json)
  | callLlm (req : LlmRequest) (cacheable : Bool)
  /-- Requests made at once. The responses come in any order, each with its position. -/
  | callLlms (reqs : List LlmRequest) (cacheable : Bool)
  | approvalGate (label : String) (args : List Json)
  | askHuman (prompt expectedType : String)
  | chooseHuman (options : List Json)
  | describeNamedModel (model : String) (promptTokens completionTokens : ℕ)
  | selectCheapestModel (capability outputFormat : Option String)
      (promptTokens completionTokens : ℕ)
  | chooseRolloutVariant (percent : ℚ)
  | recordCalibration (prompt model : String) (confidence : ℚ) (correct : Bool)
  | calibrationAccuracy (prompt model : String)
  | defaultModel
  | nowMs
  | findFirstReplayMatch (path : String) (arms : List ReplayDispatchPattern)
  /-- Memory. -/
  | downgrade (v : Value)
  | upgrade (target : ℕ)
  /-- Channels and tasks. -/
  | channel (policy : BackpressurePolicy)
  | send (stream : StreamRef) (item : Except InterpError StreamChunk)
  | nextChunk (stream : StreamRef)
  | prepend (first : StreamChunk) (stream : StreamRef)
  | setResumeContext (stream : StreamRef) (context : StreamResumeContext)
  | resumeToken (stream : StreamRef)
  | spawn (task : StreamTask)
  /-- Marks of the model: a tool is answered by its mock, a fixture is called, a cost is charged.
  Nobody is asked. -/
  | mocked (id : DefId)
  | fixture (id : DefId)
  | charged (cost : ℚ)

abbrev Reply : Query → Type
  | .step _ => StepAction
  | .prepareRun .. | .completeRun .. | .approvalGate .. => Except RuntimeError Unit
  | .emit _ | .recordCalibration .. | .setResumeContext .. | .mocked _ | .fixture _ | .charged _ => Unit
  | .callTool .. | .askHuman .. => Except RuntimeError Json
  | .callLlm .. => Except RuntimeError LlmResponse
  | .callLlms .. => List (ℕ × Except RuntimeError LlmResponse)
  | .chooseHuman _ => Except RuntimeError ℕ
  | .describeNamedModel .. | .selectCheapestModel .. => Except RuntimeError ModelSelection
  | .chooseRolloutVariant _ => Except RuntimeError Bool
  | .calibrationAccuracy .. => Option ℚ
  | .defaultModel => String
  | .nowMs | .downgrade _ => ℕ
  | .findFirstReplayMatch .. => Except RuntimeError (Option ReplayDispatchMatch)
  | .upgrade _ => Option Value
  | .channel _ | .prepend .. | .spawn _ => StreamRef
  | .send .. => Bool
  | .nextChunk _ => Option (Except InterpError StreamChunk)
  | .resumeToken _ => Option Value

/-- Why a run does not come to its end: the fuel of the model is used up, or the code panics. -/
inductive Halt where
  | outOfFuel
  | panic
deriving DecidableEq, Repr

/-! ### The state -/

structure Interpreter where
  env : Map LocalId Value := ∅
  localNames : Map LocalId String := ∅
  /-- Calls of these tools are answered by their mocks. -/
  mockTools : DefId → Option IrMock := fun _ => none
  /-- The mode of a stepping run. -/
  stepper : Option StepMode := none
  streamSender : Option StreamRef := none
  streamLocals : Map LocalId StreamChunk := ∅
  costBudget : Option ℚ := none
  costUsed : ℚ := 0
  streamCostBudget : Option ℚ := none
  streamCostUsed : ℚ := 0

def Interpreter.withMocks (s : Interpreter) (ir : IrFile) : Interpreter :=
  { s with mockTools := ir.mocksById }

/-- A computation on the state. What fails keeps what it has changed. -/
def Interp (α : Type) : Type :=
  Interpreter → Prog Reply Halt (Except InterpError α × Interpreter)

namespace Interp

variable {α β : Type}

def bind (m : Interp α) (f : α → Interp β) : Interp β := fun s => do
  match ← m s with
  | (.ok a, s') => f a s'
  | (.error e, s') => .ret (.error e, s')

instance : Monad Interp where
  pure a := fun s => .ret (.ok a, s)
  bind := bind

def ask (q : Query) : Interp (Reply q) := fun s => .call q fun r => .ret (.ok r, s)

def fail (e : InterpError) : Interp α := fun s => .ret (.error e, s)

def halt (h : Halt) : Interp α := fun _ => .fail h

def read (f : Interpreter → α) : Interp α := fun s => .ret (.ok (f s), s)

def change (f : Interpreter → Interpreter) : Interp Unit := fun s => .ret (.ok (), f s)

/-- Errors as values. -/
def attempt (m : Interp α) : Interp (Except InterpError α) := fun s => do
  let (r, s') ← m s
  .ret (.ok r, s')

/-- A computation of another interpreter, which is made for it and dropped afterwards. -/
def within (sub : Interpreter → Interpreter) (m : Interp α) : Interp α := fun s => do
  let (r, _) ← m (sub s)
  .ret (r, s)

def ofExcept : Except InterpError α → Interp α
  | .ok a => pure a
  | .error e => fail e

def ofRuntime (span : Span) (r : Except RuntimeError α) : Interp α :=
  ofExcept (r.mapError fun err => ⟨.runtime err, span⟩)

def ofOp (span : Span) (r : Except OpError α) : Interp α := ofExcept (r.mapError (·.at span))

end Interp

open Interp

/-- The computation where the condition holds, nothing else. -/
def onlyIf (p : Prop) [Decidable p] (m : Interp Unit) : Interp Unit := if p then m else pure ()

def failWith {α : Type} (kind : InterpErrorKind) (span : Span) : Interp α := fail ⟨kind, span⟩

/-- The locals that have a name, sorted by it. -/
def Interpreter.envSnapshot (s : Interpreter) : EnvSnapshot :=
  let named := s.localNames.entries.filterMap fun entry =>
    (s.env.lookup entry.1).map fun v => (entry.2, v)
  let locals := named.insertionSort fun a b => a.1 ≤ b.1
  ⟨locals, locals.foldl (fun least entry => min least (valueConfidence entry.2)) 1⟩

/-- The event is shown to the hook in any mode, if there is one. -/
def maybeYield (event : Interpreter → StepEvent) : Interp StepAction := fun s =>
  match s.stepper with
  | some mode => .call (.step (event s)) fun action =>
    let s' := { s with stepper := some (mode.after action) }
    match action with
    | .abort => .ret (.error ⟨.other "execution aborted by step controller", ⟨0, 0⟩⟩, s')
    | action => .ret (.ok action, s')
  | none => .ret (.ok .resume, s)

def Interpreter.yieldsStatement (s : Interpreter) : Bool := s.stepper = some .statement

/-- The event is shown to the hook where the run stops at statements. The answer only sets the mode. -/
def yieldStatement (event : Interpreter → StepEvent) : Interp Unit := fun s =>
  if s.yieldsStatement then (maybeYield event >>= fun _ => pure ()) s else .ret (.ok (), s)

def Interpreter.yieldsBoundary (s : Interpreter) : Bool :=
  s.stepper = some .statement ∨ s.stepper = some .boundary

/-- The event is shown to the hook unless the run goes on without stops. -/
def yieldBoundary (event : Interpreter → StepEvent) : Interp (Option StepAction) := fun s =>
  if s.yieldsBoundary then (some <$> maybeYield event) s else .ret (.ok none, s)

def lookupLocal (id : LocalId) : Interp (Option Value) := read (·.env.lookup id)

def bindLocal (id : LocalId) (v : Value) : Interp Unit :=
  change fun s => { s with env := s.env.insert id v }

def nameLocal (id : LocalId) (name : String) : Interp Unit :=
  change fun s => { s with localNames := s.localNames.insert id name }

def forgetChunk (id : LocalId) : Interp Unit :=
  change fun s => { s with streamLocals := s.streamLocals.erase id }

/-- The locals are bound as they were before, whatever the outcome. -/
def restoringLocals {α : Type} (saved : Map LocalId Value × Map LocalId String) (m : Interp α) :
    Interp α := fun s => do
  let (r, s') ← m s
  .ret (r, { s' with env := saved.1, localNames := saved.2 })

def savedLocals : Interp (Map LocalId Value × Map LocalId String) :=
  read fun s => (s.env, s.localNames)

def budgetViolation (cost : ℚ) (span : Span) (s : Interpreter) : Option InterpError :=
  s.costBudget.bind fun budget =>
    if s.costUsed + cost > budget then some ⟨.budgetExceeded budget (s.costUsed + cost), span⟩
    else none

def chargeCost (cost : ℚ) (span : Span) : Interp Unit := do
  match ← read (budgetViolation cost span) with
  | some e => fail e
  | none => do
    ask (.charged cost)
    change fun s => { s with costUsed := s.costUsed + cost }

end Corvid.Interp
