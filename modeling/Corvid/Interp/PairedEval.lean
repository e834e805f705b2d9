import Corvid.Interp.PairedPrompts
import Corvid.Interp.Runs

/-!
# Evaluation side by side

Every expression and every statement does the same in both runs of a pairing, as soon as calls of tools
and fixtures do.

## Main definitions

* `Fits`: what a pairing owes for mocks and fixtures

## Main results

* `paired_evalExpr`, `paired_evalBlock`: one level of evaluation
* `paired_evaluator`: evaluation with any amount of fuel
* `follows_streamTask`: the tasks of stream agents
-/

namespace Corvid.Interp

open Store (Prog)
open Interp
open Keyed (Map)

/-- A pairing fits a program and the same program with other mocks. -/
structure Fits (ρ : Pairing) (b : Boundary) (ir : IrFile) (mocks : List IrMock) : Prop where
  fixture : ∀ id, ρ.lost (.fixture id) ∨
    ρ.shared (.fixture id) ∧ ρ.mocks ir.mocksById (ir.remock mocks).mocksById
  tool : ∀ e e', PairedEvaluator ρ e e' → ∀ tool calleeName args span,
    Paired ρ (toolResult b ir e tool calleeName args span)
      (toolResult b (ir.remock mocks) e' tool calleeName args span)

section Streams

variable {ρ : Pairing} (b : Boundary)

theorem paired_collectStream {α : Type} (check : StreamChunk → Except InterpError α) (n : ℕ)
    (stream : StreamRef) :
    Paired ρ (collectStream check n stream) (collectStream check n stream) := by
  induction n with
  | zero => exact paired_halt .outOfFuel
  | succ n ih =>
    refine Paired.bind (paired_ask trivial) ?_
    intro next
    cases next with
    | none => exact paired_pure []
    | some item =>
      apply (paired_ofExcept item).bind
      intro chunk
      apply (paired_ofExcept (check chunk)).bind
      intro a
      exact ih.bind fun _ => paired_pure _

theorem paired_sendAll (stream : StreamRef) (chunks : List StreamChunk) :
    Paired ρ (sendAll stream chunks) (sendAll stream chunks) := by
  induction chunks with
  | nil => exact paired_pure ()
  | cons chunk chunks ih => exact Paired.bind (paired_ask trivial) fun _ => ih.ite (paired_pure ())

theorem paired_streamFromChunks (chunks : List StreamChunk) (policy : BackpressurePolicy) :
    Paired ρ (streamFromChunks chunks policy) (streamFromChunks chunks policy) := by
  refine Paired.bind (paired_ask trivial) ?_
  intro stream
  exact (paired_sendAll stream chunks).bind fun _ => paired_pure stream

theorem paired_streamsFromChunks (policy : BackpressurePolicy) (groups : List (List StreamChunk)) :
    Paired ρ (streamsFromChunks policy groups) (streamsFromChunks policy groups) := by
  induction groups with
  | nil => exact paired_pure []
  | cons chunks rest ih =>
    apply (paired_streamFromChunks ..).bind
    intro stream
    exact ih.bind fun _ => paired_pure _

theorem paired_splitBy (fuel : ℕ) (v : Value) (key : String) (span : Span) :
    Paired ρ (splitBy b fuel v key span) (splitBy b fuel v key span) := by
  unfold splitBy
  split
  · apply (paired_collectStream ..).bind
    intro keyed
    exact (paired_streamsFromChunks ..).bind fun _ => paired_pure _
  · exact paired_fail _

theorem paired_collectFifo (fuel : ℕ) (streams : List StreamRef) :
    Paired ρ (collectFifo fuel streams) (collectFifo fuel streams) := by
  induction streams with
  | nil => exact paired_pure []
  | cons stream streams ih =>
    apply (paired_collectStream ..).bind
    intro chunks
    exact ih.bind fun _ => paired_pure _

theorem paired_fairRound (streams : List StreamRef) :
    Paired ρ (fairRound streams) (fairRound streams) := by
  induction streams with
  | nil => exact paired_pure _
  | cons stream streams ih =>
    refine Paired.bind (paired_ask trivial) ?_
    intro next
    cases next with
    | none => exact ih
    | some item =>
      apply (paired_ofExcept item).bind
      intro chunk
      exact ih.bind fun _ => paired_pure _

theorem paired_collectFairRoundRobin (fuel : ℕ) (streams : List StreamRef) :
    Paired ρ (collectFairRoundRobin fuel streams) (collectFairRoundRobin fuel streams) := by
  induction fuel generalizing streams with
  | zero =>
    cases streams with
    | nil => exact paired_pure []
    | cons stream streams => exact paired_halt .outOfFuel
  | succ n ih =>
    cases streams with
    | nil => exact paired_pure []
    | cons stream streams =>
      apply (paired_fairRound ..).bind
      intro round
      exact (ih round.1).bind fun _ => paired_pure _

theorem paired_mergedChunks (fuel : ℕ) (streams : List StreamRef) (policy : StreamMergePolicy) :
    Paired ρ (mergedChunks b fuel streams policy) (mergedChunks b fuel streams policy) := by
  cases policy with
  | fifo => exact paired_collectFifo ..
  | fairRoundRobin => exact paired_collectFairRoundRobin ..
  | sorted => exact (paired_collectFifo ..).map

theorem paired_mergeStreams (fuel : ℕ) (v : Value) (policy : StreamMergePolicy) (span : Span) :
    Paired ρ (mergeStreams b fuel v policy span) (mergeStreams b fuel v policy span) := by
  unfold mergeStreams
  split
  · apply (paired_ofExcept _).bind
    intro streams
    apply (paired_mergedChunks ..).bind
    intro chunks
    exact (paired_streamFromChunks ..).bind fun _ => paired_pure _
  · exact paired_fail _

theorem paired_orderedBy (fuel : ℕ) (v : Value) (policy : StreamMergePolicy) (span : Span) :
    Paired ρ (orderedBy b fuel v policy span) (orderedBy b fuel v policy span) := by
  unfold orderedBy
  split
  · apply (paired_collectStream ..).bind
    intro chunks
    exact (paired_streamFromChunks ..).bind fun _ => paired_pure _
  · exact paired_pure _
  · exact paired_fail _

end Streams

/-! ### Bodies of agents -/

section Bodies

variable {ρ : Pairing} {self self' : Evaluator}

theorem paired_bindAll (bindings : List (IrParam × Value)) :
    Paired ρ (bindAll bindings) (bindAll bindings) := by
  induction bindings with
  | nil => exact paired_pure ()
  | cons binding rest ih =>
    apply (paired_bindLocal _ _).bind
    intro _
    apply (paired_nameLocal _ _).bind
    intro _
    exact (paired_forgetChunk _).bind fun _ => ih

theorem paired_bindParams (calleeName : String) (params : List IrParam) (args : List Value)
    (span : Span) :
    Paired ρ (bindParams calleeName params args span) (bindParams calleeName params args span) :=
  (paired_failWith _ _).ite (paired_bindAll _)

theorem paired_spawnStreamAgent (agent : IrAgent) :
    Paired ρ (spawnStreamAgent agent) (spawnStreamAgent agent) := by
  apply paired_savedLocals.bind
  intro saved
  exact Paired.bind (paired_ask trivial) fun _ => paired_pure _

theorem paired_runBody (hself : PairedEvaluator ρ self self') (agent : IrAgent) :
    Paired ρ (runBody self agent) (runBody self' agent) := by
  apply (paired_spawnStreamAgent agent).ite
  apply ((hself.block agent.body).withBudget agent.costBudget).bind
  intro flow
  exact paired_ofExcept _

/-- The task of a stream agent starts with the mocks of its program. -/
theorem beside_start {ir : IrFile} {mocks : List IrMock}
    (hstart : ρ.mocks ir.mocksById (ir.remock mocks).mocksById) (task : StreamTask)
    (stream : StreamRef) : Beside ρ (task.start ir stream) (task.start (ir.remock mocks) stream) :=
  ⟨rfl, hstart, fun h => (h rfl).elim⟩

theorem paired_streamTask (hself : PairedEvaluator ρ self self') (task : StreamTask)
    (stream : StreamRef) :
    Paired ρ (streamTask self task stream) (streamTask self' task stream) := by
  apply (hself.block task.agent.body).attempt.bind
  intro flow
  split
  · exact paired_pure ()
  · exact paired_pure ()
  · exact Paired.bind (paired_ask trivial) fun _ => paired_pure ()
  · exact Paired.bind (paired_ask trivial) fun _ => paired_pure ()
  · exact Paired.bind (paired_ask trivial) fun _ => paired_pure ()

end Bodies

/-! ### Calls -/

section Calls

variable {ρ : Pairing} {b : Boundary} {ir : IrFile} {mocks : List IrMock} {self self' : Evaluator}

theorem paired_evalArgs (hself : PairedEvaluator ρ self self') (es : List Expr) :
    Paired ρ (evalArgs self es) (evalArgs self' es) := by
  induction es with
  | nil => exact paired_pure _
  | cons e es ih =>
    apply (hself.expr e).bind
    intro flow
    cases flow with
    | propagate v => exact paired_pure _
    | value v =>
      apply ih.bind
      intro rest
      cases rest with
      | error v' => exact paired_pure _
      | ok vs => exact paired_pure _

/-- The hook does not decide, so that the runtime does, in both runs. -/
theorem paired_approveConfidenceGate (calleeName : String) (args : List Json)
    (gate : ConfidenceGateStep) (span : Span) :
    Paired ρ (approveConfidenceGate calleeName args gate span)
      (approveConfidenceGate calleeName args gate span) := by
  apply paired_yieldBoundary
  · exact Paired.bind (paired_ask trivial) fun result => paired_ofRuntime span result
  · intro action hpassive
    cases action with
    | «continue» | stepOver | resume =>
      refine Paired.bind (paired_ask trivial) ?_
      intro result
      exact paired_maybeYield fun _ _ => paired_ofRuntime span result
    | override _ | approve | deny | abort => exact hpassive.elim

theorem paired_passConfidenceGate (calleeName : String) (args : List Json)
    (gate : Option ConfidenceGateStep) (span : Span) :
    Paired ρ (passConfidenceGate calleeName args gate span)
      (passConfidenceGate calleeName args gate span) := by
  cases gate with
  | none => exact paired_pure ()
  | some gate => exact Paired.onlyIf _ (paired_approveConfidenceGate ..)

theorem paired_maybeGroundToolResult (tool : IrTool) (calleeName : String) (value : Value) :
    Paired ρ (maybeGroundToolResult tool calleeName value)
      (maybeGroundToolResult tool calleeName value) :=
  Paired.ite (Paired.bind (paired_ask trivial) fun _ => paired_pure _) (paired_pure value)

theorem paired_invokeTool (hfits : Fits ρ b ir mocks) (hself : PairedEvaluator ρ self self')
    (tool : IrTool) (calleeName : String) (args : List Value) (span : Span) :
    Paired ρ (invokeTool b ir self tool calleeName args span)
      (invokeTool b (ir.remock mocks) self' tool calleeName args span) := by
  apply (hfits.tool self self' hself tool calleeName args span).bind
  intro result
  apply paired_unlessOverridden
  exact (paired_maybeGroundToolResult ..).bind fun _ => paired_pure _

theorem paired_callTool (hfits : Fits ρ b ir mocks) (hself : PairedEvaluator ρ self self')
    (id : DefId) (calleeName : String) (args : List Value) (span : Span) :
    Paired ρ (callTool b ir self id calleeName args span)
      (callTool b (ir.remock mocks) self' id calleeName args span) := by
  have hsame : (ir.remock mocks).toolsById = ir.toolsById := rfl
  unfold callTool
  rw [hsame]
  cases ir.toolsById id with
  | none => exact paired_failWith _ _
  | some tool =>
    apply (paired_passConfidenceGate ..).bind
    intro _
    exact paired_unlessOverridden (paired_invokeTool hfits hself ..)

/-- An agent keeps the mocks and the stepper of its caller, and nothing else. -/
theorem Beside.agent {s s' : Interpreter} (h : Beside ρ s s') :
    Beside ρ { mockTools := s.mockTools, stepper := s.stepper }
      { mockTools := s'.mockTools, stepper := s'.stepper } := by
  have hstepper : s'.stepper = none := by
    rw [h.rest]
  refine ⟨?_, h.mocks, h.steps⟩
  simp [hstepper]

theorem paired_callAgent (hself : PairedEvaluator ρ self self') (id : DefId) (calleeName : String)
    (args : List Value) (span : Span) :
    Paired ρ (callAgent b ir self id calleeName args span)
      (callAgent b (ir.remock mocks) self' id calleeName args span) := by
  have hsame : (ir.remock mocks).agentsById = ir.agentsById := rfl
  unfold callAgent
  rw [hsame]
  cases ir.agentsById id with
  | none => exact paired_failWith _ _
  | some agent =>
    apply paired_notice
    apply Paired.bind
    · refine Paired.within ?_ fun _ _ => Beside.agent
      apply (paired_bindParams ..).bind
      intro _
      exact (paired_runBody hself agent).attempt
    · intro result
      apply paired_notice
      exact (paired_ofExcept result).bind fun _ => paired_pure _

/-- A new interpreter with the mocks of its program. -/
theorem beside_withMocks (hstart : ρ.mocks ir.mocksById (ir.remock mocks).mocksById) :
    Beside ρ (({} : Interpreter).withMocks ir) (({} : Interpreter).withMocks (ir.remock mocks)) :=
  ⟨rfl, hstart, fun h => (h rfl).elim⟩

theorem paired_mockResult (hself : PairedEvaluator ρ self self')
    (hstart : ρ.mocks ir.mocksById (ir.remock mocks).mocksById) (tool : IrTool) (mock : IrMock)
    (calleeName : String) (args : List Value) (span : Span) (hmocked : ρ.shared (.mocked tool.id)) :
    Paired ρ (mockResult ir self tool mock calleeName args span)
      (mockResult (ir.remock mocks) self' tool mock calleeName args span) := by
  apply (paired_ask_of_shared hmocked).bind
  intro _
  refine Paired.within ?_ fun _ _ _ => beside_withMocks hstart
  apply (paired_bindParams ..).bind
  intro _
  apply (hself.block mock.body).bind
  intro flow
  exact paired_ofExcept _

theorem paired_runtimeResult (tool : IrTool) (calleeName : String) (args : List Value) (span : Span)
    (hcall : ∀ jsonArgs, ρ.shared (.callTool tool.id calleeName jsonArgs)) :
    Paired ρ (runtimeResult b ir tool calleeName args span)
      (runtimeResult b (ir.remock mocks) tool calleeName args span) := by
  apply (paired_ask_of_shared (hcall _)).bind
  intro reply
  apply (paired_ofRuntime span reply).bind
  intro json
  exact paired_decodeWith b ir mocks ..

theorem paired_callFixture (hfits : Fits ρ b ir mocks) (hself : PairedEvaluator ρ self self')
    (id : DefId) (calleeName : String) (args : List Value) (span : Span) :
    Paired ρ (callFixture ir self id calleeName args span)
      (callFixture (ir.remock mocks) self' id calleeName args span) := by
  have hsame : (ir.remock mocks).fixturesById = ir.fixturesById := rfl
  unfold callFixture
  rw [hsame]
  cases ir.fixturesById id with
  | none => exact paired_failWith _ _
  | some fixture =>
    cases hfits.fixture id with
    | inl hlost => exact ⟨fun _ _ _ => .lost hlost⟩
    | inr h =>
      apply (paired_ask_of_shared h.1).bind
      intro _
      refine Paired.within ?_ fun _ _ _ => beside_withMocks h.2
      apply (paired_bindParams ..).bind
      intro _
      apply (hself.block fixture.body).bind
      intro flow
      exact (paired_ofExcept _).bind fun _ => paired_pure _

theorem paired_constructStruct (id : DefId) (calleeName : String) (args : List Value) (span : Span) :
    Paired ρ (constructStruct ir id calleeName args span)
      (constructStruct (ir.remock mocks) id calleeName args span) := by
  have hsame : (ir.remock mocks).typesById = ir.typesById := rfl
  unfold constructStruct
  rw [hsame]
  cases ir.typesById id with
  | none => exact paired_failWith _ _
  | some ty => exact (paired_failWith _ _).ite (paired_pure _)

theorem paired_evalCall (hfits : Fits ρ b ir mocks) (hself : PairedEvaluator ρ self self')
    (kind : CallKind) (calleeName : String) (args : List Expr) (span : Span) :
    Paired ρ (evalCall b ir self kind calleeName args span)
      (evalCall b (ir.remock mocks) self' kind calleeName args span) := by
  apply (paired_evalArgs hself args).bind
  intro values
  cases values with
  | error v => exact paired_pure _
  | ok values =>
    cases kind with
    | tool id => exact paired_callTool hfits hself ..
    | prompt id => exact paired_dispatchPromptExpr b ir mocks hself ..
    | agent id => exact paired_callAgent hself ..
    | fixture id => exact paired_callFixture hfits hself ..
    | structConstructor id => exact paired_constructStruct ..
    | unknown => exact paired_failWith _ _

end Calls

/-! ### Retries and replays -/

section Replays

variable {ρ : Pairing} {b : Boundary} {ir : IrFile} {mocks : List IrMock} {self self' : Evaluator}

theorem paired_settle (retries : Retries) : Paired ρ retries.settle retries.settle := by
  unfold Retries.settle
  split
  · exact paired_pure _
  · exact (paired_singletonStream ..).bind fun _ => paired_pure _
  · apply (paired_pure _).ite
    split
    · exact (paired_singletonStream ..).bind fun _ => paired_pure _
    · exact paired_fail _
    · exact paired_pure _

theorem paired_retryLoop (hself : PairedEvaluator ρ self self') (body : Expr) (n : ℕ)
    (retries : Retries) :
    Paired ρ (retryLoop self body n retries) (retryLoop self' body n retries) := by
  induction n generalizing retries with
  | zero => exact paired_settle retries
  | succ n ih =>
    apply (hself.expr body).attempt.bind
    intro outcome
    split
    · refine Paired.bind (paired_ask trivial) ?_
      intro start
      -- what the stream starts with decides whether there is another attempt
      split
      · apply Paired.ite
        · split
          · exact ih _
          · exact ih _
        · exact Paired.bind (paired_ask trivial) fun _ => paired_pure _
      · exact ih _
      · exact paired_pure _
    · exact ih _
    · exact ih _
    · exact paired_pure _
    · exact paired_pure _
    · exact ih _

theorem paired_bindCapture (capture : ReplayCapture) (json : Json) (ty : Ty) :
    Paired ρ (bindCapture b ir capture json ty) (bindCapture b (ir.remock mocks) capture json ty) := by
  apply (paired_ofExcept _).bind
  intro value
  exact (paired_bindLocal _ _).bind fun _ => paired_nameLocal _ _

theorem paired_bindWholeCapture (pattern : ReplayPattern) (whole : Json)
    (capture : Option ReplayCapture) :
    Paired ρ (bindWholeCapture b ir pattern whole capture)
      (bindWholeCapture b (ir.remock mocks) pattern whole capture) := by
  cases capture with
  | none => exact paired_pure ()
  | some capture => exact (paired_ofExcept _).bind fun _ => paired_bindCapture ..

theorem paired_bindToolArgCapture (pattern : ReplayPattern) (toolArg : Option Json) :
    Paired ρ (bindToolArgCapture b ir pattern toolArg)
      (bindToolArgCapture b (ir.remock mocks) pattern toolArg) := by
  unfold bindToolArgCapture
  split
  · cases toolArg with
    | none => exact paired_failWith _ _
    | some json => exact (paired_ofExcept _).bind fun _ => paired_bindCapture ..
  · exact paired_pure ()

theorem paired_evalReplayArm (hself : PairedEvaluator ρ self self') (arm : ReplayArm)
    (found : ReplayDispatchMatch) :
    Paired ρ (evalReplayArm b ir self arm found)
      (evalReplayArm b (ir.remock mocks) self' arm found) := by
  cases arm with
  | mk pattern capture body =>
    apply paired_savedLocals.bind
    intro saved
    apply (paired_bindWholeCapture ..).bind
    intro _
    apply (paired_bindToolArgCapture ..).bind
    intro _
    exact (hself.expr body).restoringLocals saved

theorem paired_evalReplay (hself : PairedEvaluator ρ self self') (path : String)
    (arms : List ReplayArm) (elseBody : Expr) (span : Span) :
    Paired ρ (evalReplay b ir self path arms elseBody span)
      (evalReplay b (ir.remock mocks) self' path arms elseBody span) := by
  refine Paired.bind (paired_ask trivial) ?_
  intro reply
  apply (paired_ofRuntime span reply).bind
  intro found
  cases found with
  | none => exact hself.expr elseBody
  | some found =>
    dsimp only
    split
    · exact paired_evalReplayArm hself ..
    · exact paired_halt .panic

end Replays

/-! ### Expressions -/

section Exprs

variable {ρ : Pairing} {b : Boundary} {ir : IrFile} {mocks : List IrMock} {self self' : Evaluator}

theorem paired_onValue (hself : PairedEvaluator ρ self self') (e : Expr)
    {next next' : Value → Interp ExprFlow} (hnext : ∀ v, Paired ρ (next v) (next' v)) :
    Paired ρ (onValue self e next) (onValue self' e next') := by
  apply (hself.expr e).bind
  intro flow
  cases flow with
  | value v => exact hnext v
  | propagate v => exact paired_pure _

theorem paired_mismatch {α : Type} (expected : String) (v : Value) (span : Span) :
    Paired ρ (mismatch expected v span : Interp α) (mismatch expected v span) :=
  paired_failWith _ _

theorem paired_fieldOf (v : Value) (field : String) (span : Span) :
    Paired ρ (fieldOf v field span) (fieldOf v field span) := by
  unfold fieldOf
  split
  · split
    · exact paired_pure _
    · exact paired_failWith _ _
  · split
    · exact paired_pure _
    · exact paired_pure _
    · exact paired_failWith _ _
  · exact paired_mismatch ..

theorem paired_elementAt (v i : Value) (span : Span) :
    Paired ρ (elementAt v i span) (elementAt v i span) := by
  unfold elementAt
  split
  · exact (paired_pure _).ite (paired_failWith _ _)
  · exact paired_mismatch ..

theorem paired_tryValue (v : Value) (span : Span) :
    Paired ρ (tryValue v span) (tryValue v span) := by
  unfold tryValue
  split
  · exact paired_pure _
  · exact paired_pure _
  · exact paired_pure _
  · exact paired_pure _
  · exact paired_mismatch ..

theorem paired_shortCircuit (hself : PairedEvaluator ρ self self') (undecided : Bool) (name : String)
    (left right : Expr) :
    Paired ρ (shortCircuit self undecided name left right)
      (shortCircuit self' undecided name left right) := by
  apply paired_onValue hself
  intro l
  apply (paired_ofOp _ _).bind
  intro lb
  refine Paired.ite (paired_onValue hself _ fun r => ?_) (paired_pure _)
  exact (paired_ofOp _ _).bind fun _ => paired_pure _

theorem paired_evalBinary (hself : PairedEvaluator ρ self self') (op : BinaryOp) (left right : Expr)
    (wrapping : Bool) (span : Span) :
    Paired ρ (evalBinary b self op left right wrapping span)
      (evalBinary b self' op left right wrapping span) := by
  apply paired_onValue hself
  intro l
  apply paired_onValue hself
  intro r
  exact (paired_ofOp _ _).bind fun _ => paired_pure _

theorem paired_evalUnary (hself : PairedEvaluator ρ self self') (op : UnaryOp) (operand : Expr)
    (wrapping : Bool) (span : Span) :
    Paired ρ (evalUnary self op operand wrapping span)
      (evalUnary self' op operand wrapping span) := by
  apply paired_onValue hself
  intro v
  exact (paired_ofOp _ _).bind fun _ => paired_pure _

theorem paired_evalAsk (hself : PairedEvaluator ρ self self') (prompt : Expr) (targetTy : Ty)
    (span : Span) :
    Paired ρ (evalAsk b ir self prompt targetTy span)
      (evalAsk b (ir.remock mocks) self' prompt targetTy span) := by
  apply paired_onValue hself
  intro v
  split
  · refine Paired.bind (paired_ask trivial) ?_
    intro reply
    apply (paired_ofRuntime span reply).bind
    intro json
    exact (paired_ofExcept _).bind fun _ => paired_pure _
  · exact paired_mismatch ..

theorem paired_evalChoose (hself : PairedEvaluator ρ self self') (options : Expr) (span : Span) :
    Paired ρ (evalChoose b self options span) (evalChoose b self' options span) := by
  apply paired_onValue hself
  intro v
  split
  · refine Paired.bind (paired_ask trivial) ?_
    intro reply
    apply (paired_ofRuntime span reply).bind
    intro index
    split
    · exact paired_pure _
    · exact paired_failWith _ _
  · exact paired_mismatch ..

theorem paired_evalWeakNew (hself : PairedEvaluator ρ self self') (strong : Expr) (span : Span) :
    Paired ρ (evalWeakNew self strong span) (evalWeakNew self' strong span) := by
  apply paired_onValue hself
  intro v
  split
  · exact Paired.bind (paired_ask trivial) fun _ => paired_pure _
  · exact Paired.bind (paired_ask trivial) fun _ => paired_pure _
  · exact Paired.bind (paired_ask trivial) fun _ => paired_pure _
  · exact paired_mismatch ..

theorem paired_evalWeakUpgrade (hself : PairedEvaluator ρ self self') (weak : Expr) (span : Span) :
    Paired ρ (evalWeakUpgrade self weak span) (evalWeakUpgrade self' weak span) := by
  apply paired_onValue hself
  intro v
  split
  · refine Paired.bind (paired_ask trivial) ?_
    intro reply
    cases reply with
    | none => exact paired_pure _
    | some value => exact paired_pure _
  · exact paired_mismatch ..

theorem paired_evalResumeToken (hself : PairedEvaluator ρ self self') (stream : Expr) (span : Span) :
    Paired ρ (evalResumeToken self stream span) (evalResumeToken self' stream span) := by
  apply paired_onValue hself
  intro v
  split
  · refine Paired.bind (paired_ask trivial) ?_
    intro reply
    cases reply with
    | none => exact paired_failWith _ _
    | some token => exact paired_pure _
  · exact paired_mismatch ..

theorem paired_evalResumeStream (hself : PairedEvaluator ρ self self') (id : DefId)
    (promptName : String) (token : Expr) (span : Span) :
    Paired ρ (evalResumeStream b ir self id promptName token span)
      (evalResumeStream b (ir.remock mocks) self' id promptName token span) := by
  apply paired_onValue hself
  intro v
  split
  · exact paired_resumePromptStream b ir mocks hself ..
  · exact paired_mismatch ..

theorem paired_evalExpr (hfits : Fits ρ b ir mocks) (hself : PairedEvaluator ρ self self') (e : Expr) :
    Paired ρ (evalExpr b ir self e) (evalExpr b (ir.remock mocks) self' e) := by
  obtain ⟨kind, span⟩ := e
  cases kind with
  | literal lit => exact paired_pure _
  | localVar id =>
    apply (paired_lookupLocal id).bind
    intro v
    cases v with
    | some v => exact paired_pure _
    | none => exact paired_failWith _ _
  | decl => exact paired_failWith _ _
  | call kind calleeName args => exact paired_evalCall hfits hself ..
  | ask prompt targetTy => exact paired_evalAsk hself ..
  | choose options => exact paired_evalChoose hself ..
  | fieldAccess target field => exact paired_onValue hself _ fun _ => paired_fieldOf ..
  | unwrapGrounded value =>
    apply paired_onValue hself
    intro v
    split
    · exact paired_pure _
    · exact paired_mismatch ..
  | index target index =>
    apply paired_onValue hself
    intro v
    exact paired_onValue hself _ fun _ => paired_elementAt ..
  | binOp op left right =>
    cases op with
    | and | or => exact paired_shortCircuit hself ..
    | _ => exact paired_evalBinary hself ..
  | wrappingBinOp op left right => exact paired_evalBinary hself ..
  | unOp op operand => exact paired_evalUnary hself ..
  | wrappingUnOp op operand => exact paired_evalUnary hself ..
  | list items =>
    apply (paired_evalArgs hself items).bind
    intro values
    cases values with
    | error v => exact paired_pure _
    | ok values => exact paired_pure _
  | weakNew strong => exact paired_evalWeakNew hself ..
  | weakUpgrade weak => exact paired_evalWeakUpgrade hself ..
  | streamSplitBy stream key =>
    apply paired_onValue hself
    intro v
    rw [hself.chunks]
    exact (paired_splitBy ..).map
  | streamMerge groups policy =>
    apply paired_onValue hself
    intro v
    rw [hself.chunks]
    exact (paired_mergeStreams ..).map
  | streamOrderedBy stream policy =>
    apply paired_onValue hself
    intro v
    rw [hself.chunks]
    exact (paired_orderedBy ..).map
  | streamResumeToken stream => exact paired_evalResumeToken hself ..
  | resumeStream id promptName token => exact paired_evalResumeStream hself ..
  | resultOk inner | resultErr inner | optionSome inner =>
    exact paired_onValue hself _ fun _ => paired_pure _
  | optionNone => exact paired_pure _
  | tryPropagate inner => exact paired_onValue hself _ fun _ => paired_tryValue ..
  | tryRetry body attempts => exact paired_retryLoop hself ..
  | replay trace arms elseBody =>
    apply paired_onValue hself
    intro v
    split
    · exact paired_evalReplay hself ..
    · exact paired_mismatch ..

end Exprs

/-! ### Statements -/

section Stmts

variable {ρ : Pairing} {b : Boundary} {ir : IrFile} {mocks : List IrMock} {self self' : Evaluator}

theorem paired_onStmtValue (hself : PairedEvaluator ρ self self') (e : Expr)
    {next next' : Value → Interp Flow} (hnext : ∀ v, Paired ρ (next v) (next' v)) :
    Paired ρ (onStmtValue self e next) (onStmtValue self' e next') := by
  apply (hself.expr e).bind
  intro flow
  cases flow with
  | value v => exact hnext v
  | propagate v => exact paired_pure _

theorem paired_followChunk (id : LocalId) (value : Expr) : Paired ρ (followChunk id value)
    (followChunk id value) := by
  apply paired_change
  intro s stepper mocks
  dsimp only
  split
  · split <;> rfl
  · rfl

theorem paired_evalLet (hself : PairedEvaluator ρ self self') (id : LocalId) (name : String)
    (value : Expr) : Paired ρ (evalLet self id name value) (evalLet self' id name value) := by
  apply paired_yieldStatement.bind
  intro _
  apply paired_onStmtValue hself
  intro v
  apply (paired_bindLocal _ _).bind
  intro _
  apply (paired_nameLocal _ _).bind
  intro _
  exact (paired_followChunk ..).bind fun _ => paired_pure _

theorem paired_yieldedValue (hself : PairedEvaluator ρ self self') (value : Expr) :
    Paired ρ (yieldedValue self value) (yieldedValue self' value) := by
  apply (hself.expr value).bind
  intro flow
  cases flow with
  | value v | propagate v => exact paired_pure v

theorem unaware_chunkForExpr (value : Expr) (v : Value) : Unaware (chunkForExpr value v) := by
  intro s stepper mocks
  rfl

theorem paired_evalYield (hself : PairedEvaluator ρ self self') (value : Expr) (span : Span) :
    Paired ρ (evalYield self value span) (evalYield self' value span) := by
  apply (paired_yieldedValue hself value).bind
  intro yielded
  apply (paired_read fun _ _ _ => rfl).bind
  intro sender
  cases sender with
  | none => exact paired_failWith _ _
  | some sender =>
    apply (paired_read (unaware_chunkForExpr value yielded)).bind
    intro chunk
    apply (paired_read fun _ _ _ => rfl).bind
    intro violation
    cases violation with
    | some e => exact Paired.bind (paired_ask trivial) fun _ => paired_pure _
    | none =>
      apply (paired_change fun _ _ _ => rfl).bind
      intro _
      exact Paired.bind (paired_ask trivial) fun _ => (paired_pure _).ite (paired_pure _)

theorem paired_evalIf (hself : PairedEvaluator ρ self self') (cond : Expr) (thenBlock : Block)
    (elseBlock : Option Block) :
    Paired ρ (evalIf self cond thenBlock elseBlock) (evalIf self' cond thenBlock elseBlock) := by
  apply paired_onStmtValue hself
  intro v
  split
  · exact hself.block thenBlock
  · cases elseBlock with
    | some block => exact hself.block block
    | none => exact paired_pure _
  · exact paired_mismatch ..

theorem paired_forItems (hself : PairedEvaluator ρ self self') (var : LocalId) (body : Block)
    (items : List Value) :
    Paired ρ (forItems self var body items) (forItems self' var body items) := by
  induction items with
  | nil => exact paired_pure _
  | cons item items ih =>
    apply (paired_bindLocal var item).bind
    intro _
    apply (hself.block body).bind
    intro flow
    cases flow with
    | normal | «continue» => exact ih
    | «break» => exact paired_pure _
    | «return» v => exact paired_pure _

theorem paired_forChunks (hself : PairedEvaluator ρ self self') (var : LocalId) (body : Block)
    (stream : StreamRef) (n : ℕ) :
    Paired ρ (forChunks self var body stream n) (forChunks self' var body stream n) := by
  induction n with
  | zero => exact paired_halt .outOfFuel
  | succ n ih =>
    refine Paired.bind (paired_ask trivial) ?_
    intro next
    cases next with
    | none => exact (paired_forgetChunk var).bind fun _ => paired_pure _
    | some item =>
      apply (paired_ofExcept item).bind
      intro chunk
      apply (paired_bindLocal _ _).bind
      intro _
      apply (paired_change fun _ _ _ => rfl).bind
      intro _
      apply (hself.block body).bind
      intro flow
      cases flow with
      | normal | «continue» => exact ih
      | «break» => exact paired_pure _
      | «return» v => exact paired_pure _

theorem paired_evalFor (hself : PairedEvaluator ρ self self') (var : LocalId) (iter : Expr)
    (body : Block) (span : Span) :
    Paired ρ (evalFor self var iter body span) (evalFor self' var iter body span) := by
  apply paired_onStmtValue hself
  intro v
  split
  · exact (paired_forgetChunk var).bind fun _ => paired_forItems hself ..
  · exact (paired_forgetChunk var).bind fun _ => paired_forItems hself ..
  · rw [hself.chunks]
    exact paired_forChunks hself ..
  · exact paired_mismatch ..

theorem paired_runtimeApproval (label : String) (args : List Json) (span : Span) :
    Paired ρ (runtimeApproval label args span) (runtimeApproval label args span) := by
  refine Paired.bind (paired_ask trivial) ?_
  intro result
  apply paired_notice
  exact (paired_ofRuntime span result).bind fun _ => paired_pure _

theorem paired_evalApprove (hself : PairedEvaluator ρ self self') (label : String) (args : List Expr)
    (span : Span) :
    Paired ρ (evalApprove b self label args span) (evalApprove b self' label args span) := by
  apply (paired_evalArgs hself args).bind
  intro values
  cases values with
  | error v => exact paired_pure _
  | ok values =>
    refine paired_yieldBoundary (paired_runtimeApproval ..) fun action hpassive => ?_
    cases action with
    | «continue» | stepOver | resume => exact paired_runtimeApproval ..
    | override _ | approve | deny | abort => exact hpassive.elim

theorem paired_evalStmt (hself : PairedEvaluator ρ self self') (stmt : Stmt) :
    Paired ρ (evalStmt b self stmt) (evalStmt b self' stmt) := by
  cases stmt with
  | letStmt id name value => exact paired_evalLet hself ..
  | returnStmt value =>
    cases value with
    | none => exact paired_pure _
    | some value =>
      apply (hself.expr value).bind
      intro flow
      cases flow with
      | value v | propagate v => exact paired_pure _
  | yieldStmt value span => exact paired_evalYield hself ..
  | ifStmt cond thenBlock elseBlock => exact paired_evalIf hself ..
  | forStmt var iter body span => exact paired_evalFor hself ..
  | approve label args span => exact paired_evalApprove hself ..
  | expr e => exact paired_onStmtValue hself e fun _ => paired_pure _
  | breakStmt | continueStmt | pass | dup _ | drop _ => exact paired_pure _

theorem paired_evalBlock (hself : PairedEvaluator ρ self self') (stmts : Block) :
    Paired ρ (evalBlock b self stmts) (evalBlock b self' stmts) := by
  induction stmts with
  | nil => exact paired_pure _
  | cons stmt stmts ih =>
    apply (paired_evalStmt hself stmt).bind
    intro flow
    cases flow with
    | normal => exact ih
    | «break» | «continue» => exact paired_pure _
    | «return» v => exact paired_pure _

end Stmts

/-! ### The evaluator -/

section Fuel

variable {ρ : Pairing} {b : Boundary} {ir : IrFile} {mocks : List IrMock}

/-- By induction on the fuel: what is evaluated with less fuel does the same in both runs. -/
theorem paired_evaluator (hfits : Fits ρ b ir mocks) (n : ℕ) :
    PairedEvaluator ρ (evaluator b ir n) (evaluator b (ir.remock mocks) n) := by
  induction n with
  | zero =>
    exact ⟨fun _ => paired_halt _, fun _ => paired_halt _, fun _ _ _ _ => paired_halt _, rfl⟩
  | succ n ih =>
    exact ⟨paired_evalExpr hfits ih, paired_evalBlock ih, fun _ _ _ _ =>
      paired_dispatchPrompt b ir mocks ih .., rfl⟩

/-- The task of a stream agent. -/
theorem follows_streamTask (hfits : Fits ρ b ir mocks)
    (hstart : ρ.mocks ir.mocksById (ir.remock mocks).mocksById) (n : ℕ) (task : StreamTask)
    (stream : StreamRef) :
    Prog.Follows ρ.comparison (Alongside ρ)
      (streamTask (evaluator b ir n) task stream (task.start ir stream))
      (streamTask (evaluator b (ir.remock mocks) n) task stream
        (task.start (ir.remock mocks) stream)) :=
  (paired_streamTask (paired_evaluator hfits n) task stream).follows _ _
    (beside_start hstart task stream)

end Fuel

/-! ### Runs -/

section Runs

variable {ρ : Pairing} {b : Boundary} {ir : IrFile} {mocks : List IrMock}

theorem paired_findAgent (agentName : String) :
    Paired ρ (findAgent ir agentName) (findAgent (ir.remock mocks) agentName) := by
  have hsame : findAgent (ir.remock mocks) agentName = findAgent ir agentName := rfl
  rw [hsame]
  unfold findAgent
  split
  · exact paired_pure _
  · exact paired_failWith _ _

theorem paired_startRun (agentName : String) (jsonArgs : List Json) :
    Paired ρ (startRun agentName jsonArgs) (startRun agentName jsonArgs) := by
  refine Paired.bind (paired_ask trivial) ?_
  intro reply
  apply (paired_ofRuntime noSpan reply).bind
  intro _
  exact paired_ask trivial

theorem paired_finishRun (outcome : Outcome) :
    Paired ρ (finishRun b outcome) (finishRun b outcome) := by
  have hvalidate : Paired ρ
      (ask (.completeRun outcome.isOk (outcomeJson b outcome) (outcomeError b outcome)) >>=
        fun result => ofRuntime noSpan result)
      (ask (.completeRun outcome.isOk (outcomeJson b outcome) (outcomeError b outcome)) >>=
        fun result => ofRuntime noSpan result) :=
    Paired.bind (paired_ask trivial) fun result => paired_ofRuntime noSpan result
  exact (Paired.onlyIf _ hvalidate).bind fun _ => (paired_ask trivial)

theorem paired_runBound {self self' : Evaluator} (hself : PairedEvaluator ρ self self')
    (agent : IrAgent) (args : List Value) :
    Paired ρ (runBound self agent args) (runBound self' agent args) := by
  apply (paired_bindParams ..).bind
  intro _
  apply (paired_runBody hself agent).bind
  intro v
  exact (paired_read fun _ _ _ => rfl).bind fun _ => paired_pure _

theorem Paired.follows_runIn {α : Type} {m m' : Interp α} (hm : Paired ρ m m')
    {start start' : Interpreter} (hstart : Beside ρ start start') :
    Prog.Follows ρ.comparison Eq (runIn start m) (runIn start' m') :=
  (hm.follows start start' hstart).map fun _ _ h => h.1

/-- A run of an agent, beside one with other mocks. Neither of them steps. -/
theorem follows_runAgentWithEnv (hfits : Fits ρ b ir mocks) (hnone : ρ.mocks (fun _ => none) fun _ => none)
    (n : ℕ) (agentName : String) (args : List Value) :
    Prog.Follows ρ.comparison Eq (runAgentWithEnv b ir (evaluator b ir n) agentName args)
      (runAgentWithEnv b (ir.remock mocks) (evaluator b (ir.remock mocks) n) agentName args) := by
  refine Paired.follows_runIn ?_ ⟨rfl, hnone, fun h => (h rfl).elim⟩
  apply (paired_findAgent agentName).bind
  intro agent
  apply (paired_startRun ..).bind
  intro _
  apply (paired_runBound (paired_evaluator hfits n) agent args).attempt.bind
  intro outcome
  exact (paired_finishRun outcome).bind fun _ => paired_ofExcept outcome

/-- A run with stops, beside one without them. -/
theorem follows_runAgentStepping (hfits : Fits ρ b ir mocks)
    (hnone : ρ.mocks (fun _ => none) fun _ => none) (hsteps : ρ.steps) (n : ℕ) (agentName : String)
    (args : List Value) (mode : StepMode) :
    Prog.Follows ρ.comparison Eq (runAgentStepping b ir (evaluator b ir n) agentName args mode)
      (runAgentWithEnv b (ir.remock mocks) (evaluator b (ir.remock mocks) n) agentName args) := by
  refine Paired.follows_runIn ?_ ⟨rfl, hnone, fun _ => hsteps⟩
  apply (paired_findAgent agentName).bind
  intro agent
  apply (paired_startRun ..).bind
  intro _
  apply (paired_runBound (paired_evaluator hfits n) agent args).attempt.bind
  intro outcome
  apply paired_shown
  exact (paired_finishRun outcome).bind fun _ => paired_ofExcept outcome

end Runs

end Corvid.Interp
