import Corvid.Interp.Prompts

/-!
# Expressions and statements

The evaluator proper. A call of an agent, a mock or a fixture runs in an interpreter of its own; the
body of a stream agent runs in a task of its own.

## Main definitions

* `callTool`, `callAgent`, `callFixture`: calls
* `evalExpr`, `evalStmt`, `evalBlock`: one level of evaluation
* `runBody`, `streamTask`: bodies of agents
* `evaluator`: evaluation with an amount of fuel
-/

namespace Corvid.Interp

open Interp
open Keyed (Map)

section Streams

variable (b : Boundary)

/-- The chunks of a stream until it ends, each of them checked as it comes. -/
def collectStream {α : Type} (check : StreamChunk → Except InterpError α) :
    ℕ → StreamRef → Interp (List α)
  | 0, _ => halt .outOfFuel
  | n + 1, stream => do
    match ← ask (.nextChunk stream) with
    | none => return []
    | some item => do
      let chunk ← ofExcept item
      let a ← ofExcept (check chunk)
      let rest ← collectStream check n stream
      return a :: rest

def sendAll (stream : StreamRef) : List StreamChunk → Interp Unit
  | [] => pure ()
  | chunk :: chunks => do
    if ← ask (.send stream (.ok chunk)) then sendAll stream chunks else pure ()

def streamFromChunks (chunks : List StreamChunk) (policy : BackpressurePolicy) : Interp StreamRef := do
  let stream ← ask (.channel policy)
  sendAll stream chunks
  return stream

def streamTypeMismatch (expected got : String) (span : Span) : InterpError :=
  ⟨.typeMismatch expected got, span⟩

def groupKey (key : String) (span : Span) (chunk : StreamChunk) :
    Except InterpError (String × StreamChunk) :=
  match chunk.value with
  | .struct _ typeName fields =>
    match fields.lookup key with
    | none => .error ⟨.unknownField typeName key, span⟩
    | some (.string s) => .ok (s, chunk)
    | some (.int n) => .ok (toString n, chunk)
    | some (.float x) => .ok (b.floatText x, chunk)
    | some (.bool v) => .ok (toString v, chunk)
    | some other => .ok (b.jsonText (b.valueToJson other), chunk)
  | other => .error (streamTypeMismatch "struct stream element" other.typeName span)

def streamsFromChunks (policy : BackpressurePolicy) : List (List StreamChunk) → Interp (List Value)
  | [] => pure []
  | chunks :: rest => do
    let stream ← streamFromChunks chunks policy
    let streams ← streamsFromChunks policy rest
    return .stream stream :: streams

/-- The groups stand in the order of their first elements. -/
def splitBy (fuel : ℕ) (v : Value) (key : String) (span : Span) : Interp Value := do
  match v with
  | .stream stream => do
    let keyed ← collectStream (groupKey b key span) fuel stream
    let order := (keyed.map Prod.fst).reverse.dedup.reverse
    let groups := order.map fun k => (keyed.filter (·.1 = k)).map Prod.snd
    let streams ← streamsFromChunks stream.backpressure groups
    return .list streams
  | other => fail (streamTypeMismatch "Stream<T>" other.typeName span)

def composeBackpressure : BackpressurePolicy → BackpressurePolicy → BackpressurePolicy
  | .unbounded, _ | _, .unbounded => .unbounded
  | .pullsFrom a, .pullsFrom c => if a = c then .pullsFrom a else .bounded 1
  | .pullsFrom _, .bounded size | .bounded size, .pullsFrom _ => .bounded size
  | .bounded a, .bounded c => .bounded (max a c)

def streamsFromValues (span : Span) : List Value → Except InterpError (List StreamRef)
  | [] => .ok []
  | .stream stream :: rest => (streamsFromValues span rest).map (stream :: ·)
  | other :: _ => .error (streamTypeMismatch "Stream<T>" other.typeName span)

def mergedBackpressure : List StreamRef → BackpressurePolicy
  | [] => .bounded 1
  | stream :: streams =>
    streams.foldl (fun policy s => composeBackpressure policy s.backpressure) stream.backpressure

def collectFifo (fuel : ℕ) : List StreamRef → Interp (List StreamChunk)
  | [] => pure []
  | stream :: streams => do
    let chunks ← collectStream .ok fuel stream
    let rest ← collectFifo fuel streams
    return chunks ++ rest

/-- One chunk of each stream, and the streams that have not ended. -/
def fairRound : List StreamRef → Interp (List StreamRef × List StreamChunk)
  | [] => pure ([], [])
  | stream :: streams => do
    match ← ask (.nextChunk stream) with
    | none => fairRound streams
    | some item => do
      let chunk ← ofExcept item
      let (active, chunks) ← fairRound streams
      return (stream :: active, chunk :: chunks)

def collectFairRoundRobin : ℕ → List StreamRef → Interp (List StreamChunk)
  | _, [] => pure []
  | 0, _ => halt .outOfFuel
  | n + 1, streams => do
    let (active, chunks) ← fairRound streams
    let rest ← collectFairRoundRobin n active
    return chunks ++ rest

def sortChunks (chunks : List StreamChunk) : List StreamChunk :=
  chunks.mergeSort fun left right =>
    b.jsonText (b.valueToJson left.value) ≤ b.jsonText (b.valueToJson right.value)

def mergedChunks (fuel : ℕ) (streams : List StreamRef) : StreamMergePolicy → Interp (List StreamChunk)
  | .fifo => collectFifo fuel streams
  | .fairRoundRobin => collectFairRoundRobin fuel streams
  | .sorted => sortChunks b <$> collectFifo fuel streams

def mergeStreams (fuel : ℕ) (v : Value) (policy : StreamMergePolicy) (span : Span) : Interp Value := do
  match v with
  | .list items => do
    let streams ← ofExcept (streamsFromValues span items)
    let chunks ← mergedChunks b fuel streams policy
    let stream ← streamFromChunks chunks (mergedBackpressure streams)
    return .stream stream
  | other => fail (streamTypeMismatch "List<Stream<T>>" other.typeName span)

def orderedBy (fuel : ℕ) (v : Value) (policy : StreamMergePolicy) (span : Span) : Interp Value := do
  match v, policy with
  | .stream stream, .sorted => do
    let chunks ← collectStream .ok fuel stream
    let sorted ← streamFromChunks (sortChunks b chunks) stream.backpressure
    return .stream sorted
  | .stream stream, _ => return .stream stream
  | other, _ => fail (streamTypeMismatch "Stream<T>" other.typeName span)

end Streams

variable (b : Boundary) (ir : IrFile)

/-! ### Bodies of agents -/

def arityError (calleeName : String) (expected got : ℕ) : InterpErrorKind :=
  .dispatchFailed s!"{calleeName} expects {expected} arg(s), got {got}"

def bindAll : List (IrParam × Value) → Interp Unit
  | [] => pure ()
  | (param, value) :: rest => do
    bindLocal param.id value
    nameLocal param.id param.name
    forgetChunk param.id
    bindAll rest

def bindParams (calleeName : String) (params : List IrParam) (args : List Value) (span : Span) :
    Interp Unit :=
  if params.length ≠ args.length then
    failWith (arityError calleeName params.length args.length) span
  else bindAll (params.zip args)

def loopControlError (place : String) (span : Span) : InterpError :=
  ⟨.other ("loop control flow escaped " ++ place), span⟩

/-- The value of a body that returns or comes to its end. -/
def Flow.result (place : String) (span : Span) : Flow → Except InterpError Value
  | .return v => .ok v
  | .normal => .ok .nothing
  | .break | .continue => .error (loopControlError place span)

/-- The budget holds while the body runs. -/
def withBudget (budget : Option ℚ) {α : Type} (m : Interp α) : Interp α := fun s => do
  let (r, s') ← m { s with costBudget := budget, costUsed := 0 }
  .ret (r, { s' with costBudget := s.costBudget, costUsed := s.costUsed })

def spawnStreamAgent (agent : IrAgent) : Interp Value := do
  let (env, localNames) ← savedLocals
  let stream ← ask (.spawn ⟨agent, env, localNames⟩)
  return .stream stream

def runBody (self : Evaluator) (agent : IrAgent) : Interp Value :=
  if agent.returnTy.isStream then spawnStreamAgent agent
  else do
    let flow ← withBudget agent.costBudget (self.block agent.body)
    ofExcept (flow.result "its enclosing loop" agent.span)

/-- The state in which the task of a stream agent starts. -/
def StreamTask.start (task : StreamTask) (stream : StreamRef) : Interpreter :=
  { ({} : Interpreter).withMocks ir with
    env := task.env
    localNames := task.localNames
    streamSender := some stream
    streamCostBudget := task.agent.costBudget }

def streamTask (self : Evaluator) (task : StreamTask) (stream : StreamRef) : Interp Unit := do
  match ← attempt (self.block task.agent.body) with
  | .ok .normal | .ok (.return _) => pure ()
  | .ok .break | .ok .continue => do
    let _ ← ask (.send stream (.error (loopControlError "its enclosing loop" task.agent.span)))
  | .error e => do
    let _ ← ask (.send stream (.error e))

/-! ### Calls -/

/-- The arguments from left to right, or the first value that is propagated instead. -/
def evalArgs (self : Evaluator) : List Expr → Interp (Except Value (List Value))
  | [] => pure (.ok [])
  | e :: es => do
    match ← self.expr e with
    | .propagate v => return .error v
    | .value v => do
      match ← evalArgs self es with
      | .error v' => return .error v'
      | .ok vs => return .ok (v :: vs)

def beforeApproval (label : String) (args : List Json) (gate : Option ConfidenceGateStep)
    (span : Span) (s : Interpreter) : StepEvent :=
  .beforeApproval label args gate span s.envSnapshot

/-- The approval that a tool needs when it is not confident enough. -/
def approveConfidenceGate (calleeName : String) (args : List Json) (gate : ConfidenceGateStep)
    (span : Span) : Interp Unit := do
  let label := s!"ConfidenceGate:{calleeName}"
  match ← yieldBoundary (beforeApproval label args (some gate) span) with
  | none => do
    let result ← ask (.approvalGate label args)
    ofRuntime span result
  | some .approve => do
    let _ ← maybeYield fun _ => .afterApproval label true span
    pure ()
  | some .deny => do
    let _ ← maybeYield fun _ => .afterApproval label false span
    failWith (.runtime (.approvalDenied label)) span
  | some _ => do
    let result ← ask (.approvalGate label args)
    let _ ← maybeYield fun _ => .afterApproval label result.isOk span
    ofRuntime span result

def IrTool.isGrounded (tool : IrTool) : Bool := tool.effectNames.any (· = "retrieval")

def IrTool.decodeTy (tool : IrTool) : Ty :=
  if tool.isGrounded then tool.returnTy.ungrounded else tool.returnTy

def maybeGroundToolResult (tool : IrTool) (calleeName : String) (value : Value) : Interp Value := do
  if tool.isGrounded then do
    let now ← ask .nowMs
    return .grounded value [⟨.retrieval, calleeName, now⟩] 1
  else
    return value

def overriddenTool (tool : IrTool) (calleeName : String) (json : Json) (span : Span) :
    Interp ExprFlow := do
  let value ← decodeWith b ir json tool.decodeTy s!"tool `{calleeName}` override" span
  let grounded ← maybeGroundToolResult tool calleeName value
  return .value grounded

/-- The body of a mock, in an interpreter of its own. -/
def mockResult (self : Evaluator) (tool : IrTool) (mock : IrMock) (calleeName : String)
    (args : List Value) (span : Span) : Interp Value := do
  ask (.mocked tool.id)
  within (fun _ => ({} : Interpreter).withMocks ir) do
    bindParams calleeName mock.params args span
    let flow ← self.block mock.body
    ofExcept (flow.result "mock body" mock.span)

def runtimeResult (tool : IrTool) (calleeName : String) (args : List Value) (span : Span) :
    Interp Value := do
  let json ← ofRuntime span (← ask (.callTool tool.id calleeName (args.map b.valueToJson)))
  decodeWith b ir json tool.decodeTy s!"tool `{calleeName}`" span

/-- What answers a call of a tool: its mock where mocks are on, else the runtime. -/
def toolResult (self : Evaluator) (tool : IrTool) (calleeName : String) (args : List Value)
    (span : Span) : Interp Value := do
  match (← read (·.mockTools)) tool.id with
  | some mock => mockResult ir self tool mock calleeName args span
  | none => runtimeResult b ir tool calleeName args span

def IrTool.gate (tool : IrTool) (inputConfidence : ℚ) : Option ConfidenceGateStep :=
  tool.confidenceGate.map fun threshold =>
    ⟨threshold, inputConfidence, inputConfidence < threshold⟩

/-- A call of a tool that the hook has let pass. -/
def invokeTool (self : Evaluator) (tool : IrTool) (calleeName : String) (args : List Value)
    (span : Span) : Interp ExprFlow := do
  let result ← toolResult b ir self tool calleeName args span
  match ← yieldBoundary fun _ => .afterToolCall calleeName (b.valueToJson result) 1 span with
  | some (.override json) => overriddenTool b ir tool calleeName json span
  | _ => do
    let grounded ← maybeGroundToolResult tool calleeName result
    return .value grounded

def beforeToolCall (calleeName : String) (args : List Json) (inputConfidence : ℚ)
    (gate : Option ConfidenceGateStep) (span : Span) (s : Interpreter) : StepEvent :=
  .beforeToolCall calleeName args inputConfidence gate span s.envSnapshot

def passConfidenceGate (calleeName : String) (args : List Json) (gate : Option ConfidenceGateStep)
    (span : Span) : Interp Unit :=
  match gate with
  | some gate => onlyIf gate.triggered (approveConfidenceGate calleeName args gate span)
  | none => pure ()

def callTool (self : Evaluator) (id : DefId) (calleeName : String) (args : List Value) (span : Span) :
    Interp ExprFlow := do
  match ir.toolsById id with
  | none => failWith (.dispatchFailed s!"tool `{calleeName}` is missing from the IR") span
  | some tool => do
    let jsonArgs := args.map b.valueToJson
    let inputConfidence := composedConfidence args
    passConfidenceGate calleeName jsonArgs (tool.gate inputConfidence) span
    match ← yieldBoundary
      (beforeToolCall calleeName jsonArgs inputConfidence (tool.gate inputConfidence) span) with
    | some (.override json) => overriddenTool b ir tool calleeName json span
    | _ => invokeTool b ir self tool calleeName args span

/-- The events of agent calls do not depend on how the hook answers them. -/
def callAgent (self : Evaluator) (id : DefId) (calleeName : String) (args : List Value)
    (span : Span) : Interp ExprFlow := do
  match ir.agentsById id with
  | none => failWith (.dispatchFailed s!"agent `{calleeName}` is missing from the IR") span
  | some agent => do
    let _ ← yieldBoundary fun _ =>
      .beforeAgentCall calleeName (args.map b.valueToJson) (composedConfidence args) span
    let result ← within (fun s => { mockTools := s.mockTools, stepper := s.stepper }) do
      bindParams s!"agent `{agent.name}`" agent.params args agent.span
      attempt (runBody self agent)
    let _ ← yieldBoundary fun _ => .afterAgentCall calleeName
      (match result with | .ok v => b.valueToJson v | .error _ => .null)
      (match result with | .ok v => valueConfidence v | .error _ => 1) span
    let v ← ofExcept result
    return .value v

def callFixture (self : Evaluator) (id : DefId) (calleeName : String) (args : List Value)
    (span : Span) : Interp ExprFlow := do
  match ir.fixturesById id with
  | none => failWith (.dispatchFailed s!"fixture `{calleeName}` is missing from the IR") span
  | some fixture => do
    ask (.fixture id)
    within (fun _ => ({} : Interpreter).withMocks ir) do
      bindParams s!"`{calleeName}`" fixture.params args span
      let flow ← self.block fixture.body
      let v ← ofExcept (flow.result "fixture body" fixture.span)
      return .value v

def constructStruct (id : DefId) (calleeName : String) (args : List Value) (span : Span) :
    Interp ExprFlow :=
  match ir.typesById id with
  | none => failWith (.dispatchFailed s!"struct type `{calleeName}` is missing from the IR") span
  | some ty =>
    if args.length ≠ ty.fields.length then
      failWith (.dispatchFailed (s!"struct constructor `{calleeName}` expects " ++
        s!"{ty.fields.length} field(s), got {args.length}")) span
    else pure (.value (.struct ty.id ty.name ((ty.fields.map IrField.name).zip args)))

def evalCall (self : Evaluator) (kind : CallKind) (calleeName : String) (args : List Expr)
    (span : Span) : Interp ExprFlow := do
  match ← evalArgs self args with
  | .error v => return .propagate v
  | .ok values => do
    match kind with
    | .tool id => callTool b ir self id calleeName values span
    | .prompt id => dispatchPromptExpr b ir self id calleeName values span
    | .agent id => callAgent b ir self id calleeName values span
    | .fixture id => callFixture ir self id calleeName values span
    | .structConstructor id => constructStruct ir id calleeName values span
    | .unknown => failWith (.dispatchFailed
        s!"call to `{calleeName}` did not resolve to a tool, prompt, or agent") span

/-! ### Retries and replays -/

/-- What the failed attempts of a retry have left. -/
structure Retries where
  lastRuntimeError : Option InterpError := none
  lastResultErr : Option Value := none
  lastStreamStartErr : Option InterpError := none
  lastStreamStartChunk : Option StreamChunk := none
  sawOptionRetry : Bool := false

def Retries.settle (retries : Retries) : Interp ExprFlow := do
  match retries.lastResultErr, retries.lastStreamStartChunk with
  | some v, _ => return .value v
  | none, some chunk => do
    let stream ← singletonStream (.ok chunk) defaultStreamBackpressure
    return .value (.stream stream)
  | none, none =>
    if retries.sawOptionRetry then return .value .optionNone
    else match retries.lastStreamStartErr, retries.lastRuntimeError with
      | some e, _ => do
        let stream ← singletonStream (.error e) defaultStreamBackpressure
        return .value (.stream stream)
      | none, some e => fail e
      | none, none => return .value .nothing

def retryLoop (self : Evaluator) (body : Expr) : ℕ → Retries → Interp ExprFlow
  | 0, retries => retries.settle
  | n + 1, retries => do
    match ← attempt (self.expr body) with
    | .ok (.value (.stream stream)) => do
      match ← ask (.nextChunk stream) with
      | some (.ok chunk) =>
        if streamStartIsRetryable chunk.value then
          match chunk.value with
          | .optionNone => retryLoop self body n { retries with sawOptionRetry := true }
          | _ => retryLoop self body n { retries with lastStreamStartChunk := some chunk }
        else do
          let combined ← ask (.prepend chunk stream)
          return .value (.stream combined)
      | some (.error e) => retryLoop self body n { retries with lastStreamStartErr := some e }
      | none => return .value (.stream stream)
    | .ok (.value (.resultErr err)) =>
      retryLoop self body n { retries with lastResultErr := some (.resultErr err) }
    | .ok (.value .optionNone) => retryLoop self body n { retries with sawOptionRetry := true }
    | .ok (.value v) => return .value v
    | .ok (.propagate v) => return .propagate v
    | .error e => retryLoop self body n { retries with lastRuntimeError := some e }

def ReplayPattern.dispatch : ReplayPattern → ReplayDispatchPattern
  | llm prompt _ => .llm prompt
  | tool name arg _ => .tool name arg
  | approve label _ => .approve label

def replayWholeCaptureType (pattern : ReplayPattern) : Except InterpError Ty :=
  match pattern with
  | .llm prompt span => match ir.prompts.find? (·.name = prompt) with
    | some candidate => .ok candidate.returnTy
    | none => .error ⟨.dispatchFailed s!"no prompt named `{prompt}` for replay capture", span⟩
  | .tool tool _ span => match ir.tools.find? (·.name = tool) with
    | some candidate => .ok candidate.returnTy
    | none => .error ⟨.dispatchFailed s!"no tool named `{tool}` for replay capture", span⟩
  | .approve _ _ => .ok .bool

def replayToolArgCaptureType (tool : String) (span : Span) : Except InterpError Ty :=
  match ir.tools.find? (·.name = tool) with
  | none => .error ⟨.dispatchFailed s!"no tool named `{tool}` for replay arg capture", span⟩
  | some candidate => match candidate.params with
    | param :: _ => .ok param.ty
    | [] => .error ⟨.dispatchFailed
        s!"tool `{tool}` has no first parameter for replay arg capture", span⟩

def bindCapture (capture : ReplayCapture) (json : Json) (ty : Ty) : Interp Unit := do
  let value ← ofExcept ((b.jsonToValue ir.typesById json ty).mapError fun e =>
    ⟨.marshal e, capture.span⟩)
  bindLocal capture.id value
  nameLocal capture.id capture.name

def bindWholeCapture (pattern : ReplayPattern) (whole : Json) : Option ReplayCapture → Interp Unit
  | none => pure ()
  | some capture => do
    let ty ← ofExcept (replayWholeCaptureType ir pattern)
    bindCapture b ir capture whole ty

def bindToolArgCapture (pattern : ReplayPattern) (toolArg : Option Json) : Interp Unit :=
  match pattern with
  | .tool tool (.capture capture) _ =>
    match toolArg with
    | none => failWith (.other
        s!"replay tool arm for `{tool}` matched without a captured first arg") capture.span
    | some json => do
      let ty ← ofExcept (replayToolArgCaptureType ir tool capture.span)
      bindCapture b ir capture json ty
  | _ => pure ()

/-- The captures are bound while the body of the arm is evaluated. -/
def evalReplayArm (self : Evaluator) (arm : ReplayArm) (found : ReplayDispatchMatch) :
    Interp ExprFlow :=
  match arm with
  | .mk pattern capture body => do
    let saved ← savedLocals
    bindWholeCapture b ir pattern found.wholeValue capture
    bindToolArgCapture b ir pattern found.toolArgValue
    restoringLocals saved (self.expr body)

def evalReplay (self : Evaluator) (path : String) (arms : List ReplayArm) (elseBody : Expr)
    (span : Span) : Interp ExprFlow := do
  let found ← ofRuntime span
    (← ask (.findFirstReplayMatch path (arms.map fun arm => arm.pattern.dispatch)))
  match found with
  | none => self.expr elseBody
  | some found => match arms[found.armIndex]? with
    | some arm => evalReplayArm b ir self arm found
    | none => halt .panic

/-! ### Expressions -/

/-- Evaluates an expression and goes on with its value. -/
def onValue (self : Evaluator) (e : Expr) (next : Value → Interp ExprFlow) : Interp ExprFlow := do
  match ← self.expr e with
  | .value v => next v
  | .propagate v => return .propagate v

def mismatch {α : Type} (expected : String) (v : Value) (span : Span) : Interp α :=
  failWith (.typeMismatch expected v.typeName) span

/-- The field of a struct. A field that is still streaming is missing. -/
def fieldOf (v : Value) (field : String) (span : Span) : Interp ExprFlow :=
  match v with
  | .struct _ typeName fields => match fields.lookup field with
    | some value => pure (.value value)
    | none => failWith (.unknownField typeName field) span
  | .partialOf _ typeName fields => match fields.lookup field with
    | some (some value) => pure (.value (.optionSome value))
    | some none => pure (.value .optionNone)
    | none => failWith (.unknownField typeName field) span
  | other => mismatch "struct" other span

def elementAt (v i : Value) (span : Span) : Interp ExprFlow :=
  match v, i with
  | .list items, .int index =>
    if 0 ≤ index ∧ index.toNat < items.length then
      pure (.value (items.getD index.toNat .nothing))
    else failWith (.indexOutOfBounds items.length index) span
  | other, _ => mismatch "List" other span

def tryValue (v : Value) (span : Span) : Interp ExprFlow :=
  match v with
  | .resultOk inner => pure (.value inner)
  | .resultErr inner => pure (.propagate (.resultErr inner))
  | .optionSome inner => pure (.value inner)
  | .optionNone => pure (.propagate .optionNone)
  | other => mismatch "Result or Option" other span

/-- `and` and `or`: the right operand is evaluated where the left one is `undecided`. -/
def shortCircuit (self : Evaluator) (undecided : Bool) (name : String) (left right : Expr) :
    Interp ExprFlow :=
  onValue self left fun l => do
    let lb ← ofOp left.span (requireBool l s!"left operand of `{name}`")
    if lb = undecided then
      onValue self right fun r => do
        let rb ← ofOp right.span (requireBool r s!"right operand of `{name}`")
        return .value (.bool rb)
    else
      return .value (.bool lb)

def evalBinary (self : Evaluator) (op : BinaryOp) (left right : Expr) (wrapping : Bool) (span : Span) :
    Interp ExprFlow :=
  onValue self left fun l => onValue self right fun r => do
    let v ← ofOp span (evalBinop b.fmod op l r wrapping)
    return .value v

def evalUnary (self : Evaluator) (op : UnaryOp) (operand : Expr) (wrapping : Bool) (span : Span) :
    Interp ExprFlow :=
  onValue self operand fun v => do
    let v ← ofOp span (evalUnop op v wrapping)
    return .value v

def evalAsk (self : Evaluator) (prompt : Expr) (targetTy : Ty) (span : Span) : Interp ExprFlow :=
  onValue self prompt fun v => do
    match v with
    | .string s => do
      let json ← ofRuntime span (← ask (.askHuman s targetTy.displayName))
      let value ← ofExcept ((b.jsonToValue ir.typesById json targetTy).mapError fun e =>
        ⟨.runtime (.marshal e), span⟩)
      return .value value
    | other => mismatch "String" other prompt.span

def evalChoose (self : Evaluator) (options : Expr) (span : Span) : Interp ExprFlow :=
  onValue self options fun v => do
    match v with
    | .list values => do
      let index ← ofRuntime span (← ask (.chooseHuman (values.map b.valueToJson)))
      match values[index]? with
      | some value => return .value value
      | none => failWith (.runtime (.other s!"human choice index {index} out of range")) span
    | other => mismatch "List" other options.span

def evalWeakNew (self : Evaluator) (strong : Expr) (span : Span) : Interp ExprFlow :=
  onValue self strong fun v => do
    match v with
    | .string _ | .struct .. | .list _ => do
      let target ← ask (.downgrade v)
      return .value (.weak target)
    | other => mismatch "String, Struct, or List" other span

def evalWeakUpgrade (self : Evaluator) (weak : Expr) (span : Span) : Interp ExprFlow :=
  onValue self weak fun v => do
    match v with
    | .weak target => do
      match ← ask (.upgrade target) with
      | some value => return .value (.optionSome value)
      | none => return .value .optionNone
    | other => mismatch "Weak" other span

def evalResumeToken (self : Evaluator) (stream : Expr) (span : Span) : Interp ExprFlow :=
  onValue self stream fun v => do
    match v with
    | .stream ref => do
      match ← ask (.resumeToken ref) with
      | some token => return .value token
      | none => failWith (.other "stream does not carry a resumable prompt context") span
    | other => mismatch "Stream<T>" other span

def evalResumeStream (self : Evaluator) (id : DefId) (promptName : String) (token : Expr)
    (span : Span) : Interp ExprFlow :=
  onValue self token fun v =>
    match v with
    | .resumeToken tokenPrompt args delivered _ =>
      resumePromptStream b ir self id promptName tokenPrompt args delivered span
    | other => mismatch "ResumeToken<T>" other span

def evalExpr (self : Evaluator) : Expr → Interp ExprFlow
  | .mk kind span => match kind with
    | .literal lit => pure (.value (evalLiteral lit))
    | .localVar id => do
      match ← lookupLocal id with
      | some v => return .value v
      | none => failWith (.undefinedLocal id) span
    | .decl => failWith
        (.notImplemented "bare top-level declaration reference (imports/functions)") span
    | .call kind calleeName args => evalCall b ir self kind calleeName args span
    | .ask prompt targetTy => evalAsk b ir self prompt targetTy span
    | .choose options => evalChoose b self options span
    | .fieldAccess target field => onValue self target fun v => fieldOf v field span
    | .unwrapGrounded value => onValue self value fun v => match v with
      | .grounded inner _ _ => pure (.value inner)
      | other => mismatch "Grounded<T>" other span
    | .index target index =>
      onValue self target fun v => onValue self index fun i => elementAt v i span
    | .binOp op left right => match op with
      | .and => shortCircuit self true "and" left right
      | .or => shortCircuit self false "or" left right
      | op => evalBinary b self op left right false span
    | .wrappingBinOp op left right => evalBinary b self op left right true span
    | .unOp op operand => evalUnary self op operand false span
    | .wrappingUnOp op operand => evalUnary self op operand true span
    | .list items => do
      match ← evalArgs self items with
      | .error v => return .propagate v
      | .ok values => return .value (.list values)
    | .weakNew strong => evalWeakNew self strong span
    | .weakUpgrade weak => evalWeakUpgrade self weak span
    | .streamSplitBy stream key => onValue self stream fun v =>
        .value <$> splitBy b self.chunks v key span
    | .streamMerge groups policy => onValue self groups fun v =>
        .value <$> mergeStreams b self.chunks v policy span
    | .streamOrderedBy stream policy => onValue self stream fun v =>
        .value <$> orderedBy b self.chunks v policy span
    | .streamResumeToken stream => evalResumeToken self stream span
    | .resumeStream id promptName token => evalResumeStream b ir self id promptName token span
    | .resultOk inner => onValue self inner fun v => pure (.value (.resultOk v))
    | .resultErr inner => onValue self inner fun v => pure (.value (.resultErr v))
    | .optionSome inner => onValue self inner fun v => pure (.value (.optionSome v))
    | .optionNone => pure (.value .optionNone)
    | .tryPropagate inner => onValue self inner fun v => tryValue v span
    | .tryRetry body attempts => retryLoop self body (max attempts 1) {}
    | .replay trace arms elseBody => onValue self trace fun v => match v with
      | .string path => evalReplay b ir self path arms elseBody span
      | other => mismatch "TraceId" other trace.span

/-! ### Statements -/

/-- Evaluates an expression of a statement. A value that is propagated is returned. -/
def onStmtValue (self : Evaluator) (e : Expr) (next : Value → Interp Flow) : Interp Flow := do
  match ← self.expr e with
  | .value v => next v
  | .propagate v => return .return v

/-- The metrics of a chunk go with the local that is bound to its value. -/
def followChunk (id : LocalId) (value : Expr) : Interp Unit := change fun s =>
  match value.kind with
  | .localVar source => match s.streamLocals.lookup source with
    | some chunk =>
      let value := (s.env.lookup id).getD .nothing
      { s with streamLocals := s.streamLocals.insert id (chunk.withValue value) }
    | none => { s with streamLocals := s.streamLocals.erase id }
  | _ => { s with streamLocals := s.streamLocals.erase id }

def beforeLet (name : String) (span : Span) (s : Interpreter) : StepEvent :=
  .beforeStatement (.letStmt name) span s.envSnapshot

def evalLet (self : Evaluator) (id : LocalId) (name : String) (value : Expr) : Interp Flow := do
  yieldStatement (beforeLet name value.span)
  onStmtValue self value fun v => do
    bindLocal id v
    nameLocal id name
    followChunk id value
    return .normal

def chunkForExpr (value : Expr) (v : Value) (s : Interpreter) : StreamChunk :=
  match value.kind with
  | .localVar id => match s.streamLocals.lookup id with
    | some chunk => chunk.withValue v
    | none => .new v
  | _ => .new v

def streamLimitViolation (chunk : StreamChunk) (span : Span) (s : Interpreter) :
    Option InterpError :=
  s.streamCostBudget.bind fun budget =>
    if s.streamCostUsed + chunk.cost > budget then
      some ⟨.budgetExceeded budget (s.streamCostUsed + chunk.cost), span⟩
    else none

def yieldedValue (self : Evaluator) (value : Expr) : Interp Value := do
  match ← self.expr value with
  | .value v | .propagate v => return v

def evalYield (self : Evaluator) (value : Expr) (span : Span) : Interp Flow := do
  let yielded ← yieldedValue self value
  match ← read (·.streamSender) with
  | none => failWith (.notImplemented "stream yield statements") span
  | some sender => do
    let chunk ← read (chunkForExpr value yielded)
    match ← read (streamLimitViolation chunk span) with
    | some e => do
      let _ ← ask (.send sender (.error e))
      return .return .nothing
    | none => do
      change fun s => { s with streamCostUsed := s.streamCostUsed + chunk.cost }
      if ← ask (.send sender (.ok chunk)) then return .normal else return .return .nothing

def evalIf (self : Evaluator) (cond : Expr) (thenBlock : Block) (elseBlock : Option Block) :
    Interp Flow :=
  onStmtValue self cond fun v => match v with
    | .bool true => self.block thenBlock
    | .bool false => match elseBlock with
      | some block => self.block block
      | none => pure .normal
    | other => mismatch "Bool" other cond.span

/-- The loop over a list. -/
def forItems (self : Evaluator) (var : LocalId) (body : Block) : List Value → Interp Flow
  | [] => pure .normal
  | item :: items => do
    bindLocal var item
    match ← self.block body with
    | .normal | .continue => forItems self var body items
    | .break => return .normal
    | .return v => return .return v

def rememberChunk (id : LocalId) (chunk : StreamChunk) : Interp Unit :=
  change fun s => { s with streamLocals := s.streamLocals.insert id chunk }

/-- The loop over a stream, chunk by chunk. -/
def forChunks (self : Evaluator) (var : LocalId) (body : Block) (stream : StreamRef) : ℕ → Interp Flow
  | 0 => halt .outOfFuel
  | n + 1 => do
    match ← ask (.nextChunk stream) with
    | none => do
      forgetChunk var
      return .normal
    | some item => do
      let chunk ← ofExcept item
      bindLocal var chunk.value
      rememberChunk var chunk
      match ← self.block body with
      | .normal | .continue => forChunks self var body stream n
      | .break => return .normal
      | .return v => return .return v

def evalFor (self : Evaluator) (var : LocalId) (iter : Expr) (body : Block) (span : Span) :
    Interp Flow :=
  onStmtValue self iter fun v => do
    match v with
    | .list items => do
      forgetChunk var
      forItems self var body items
    | .string s => do
      forgetChunk var
      forItems self var body (s.toList.map fun c => .string c.toString)
    | .stream stream => forChunks self var body stream self.chunks
    | other => mismatch "List, Stream, or String" other span

def runtimeApproval (label : String) (args : List Json) (span : Span) : Interp Flow := do
  let result ← ask (.approvalGate label args)
  let _ ← yieldBoundary fun _ => .afterApproval label result.isOk span
  ofRuntime span result
  return .normal

/-- The decision of the hook, or else of the runtime. -/
def evalApprove (self : Evaluator) (label : String) (args : List Expr) (span : Span) :
    Interp Flow := do
  match ← evalArgs self args with
  | .error v => return .return v
  | .ok values => do
    let jsonArgs := values.map b.valueToJson
    match ← yieldBoundary (beforeApproval label jsonArgs none span) with
    | some .approve => do
      let _ ← yieldBoundary fun _ => .afterApproval label true span
      return .normal
    | some .deny => do
      let _ ← yieldBoundary fun _ => .afterApproval label false span
      failWith (.runtime (.approvalDenied label)) span
    | _ => runtimeApproval label jsonArgs span

def evalStmt (self : Evaluator) : Stmt → Interp Flow
  | .letStmt id name value => evalLet self id name value
  | .returnStmt (some value) => do
    match ← self.expr value with
    | .value v => return .return v
    | .propagate v => return .return v
  | .returnStmt none => pure (.return .nothing)
  | .yieldStmt value span => evalYield self value span
  | .ifStmt cond thenBlock elseBlock => evalIf self cond thenBlock elseBlock
  | .forStmt var iter body span => evalFor self var iter body span
  | .approve label args span => evalApprove b self label args span
  | .expr e => onStmtValue self e fun _ => pure .normal
  | .breakStmt => pure .break
  | .continueStmt => pure .continue
  | .pass | .dup _ | .drop _ => pure .normal

def evalBlock (self : Evaluator) : Block → Interp Flow
  | [] => pure .normal
  | stmt :: stmts => do
    match ← evalStmt b self stmt with
    | .normal => evalBlock self stmts
    | .break => return .break
    | .continue => return .continue
    | .return v => return .return v

/-! ### The evaluator -/

/-- Evaluation with an amount of fuel, which every level of nesting takes some of. -/
def evaluator : ℕ → Evaluator
  | 0 => ⟨fun _ => halt .outOfFuel, fun _ => halt .outOfFuel, fun _ _ _ _ => halt .outOfFuel, 0⟩
  | n + 1 =>
    let self := evaluator n
    ⟨evalExpr b ir self, evalBlock b self, dispatchPrompt b ir self, n⟩

end Corvid.Interp
