import Corvid.Replay.Strict
import Mathlib.Data.List.TakeWhile

/-!
# Replaying with one answer replaced

A mutated replay asks what a program does when one recorded answer is another. Up to that step the
program has to make the recorded calls, and the step itself is answered with the replacement; from
there on a call that differs from the recorded one is put on record and still takes the recorded
answer.

## Main definitions

* `validateMutation`, `loadMutated`: the recordings that admit a mutation
* `Mutation.replayToolCall` and its siblings: the calls of a program in mutation mode

## Main results

* `loadMutated_eq_ok_iff`: the steps of a recording whose answers can be replaced
-/

namespace Corvid.Replay

def eventKind (e : TraceEvent) : String :=
  match e.body with
  | .schemaHeader .. => "schema_header"
  | .runStarted .. => "run_started"
  | .runCompleted .. => "run_completed"
  | .toolCall .. => "tool_call"
  | .toolResult .. => "tool_result"
  | .llmCall .. => "llm_call"
  | .llmResult .. => "llm_result"
  | .promptCache .. => "prompt_cache"
  | .approvalRequest .. => "approval_request"
  | .approvalDecision .. => "approval_decision"
  | .approvalResponse .. => "approval_response"
  | .approvalTokenIssued .. => "approval_token_issued"
  | .approvalScopeViolation .. => "approval_scope_violation"
  | .humanInputRequest .. => "human_input_request"
  | .humanInputResponse .. => "human_input_response"
  | .humanChoiceRequest .. => "human_choice_request"
  | .humanChoiceResponse .. => "human_choice_response"
  | .hostEvent .. => "host_event"
  | .seedRead .. => "seed_read"
  | .clockRead .. => "clock_read"
  | .modelSelected .. => "model_selected"
  | .progressiveEscalation .. => "progressive_escalation"
  | .progressiveExhausted .. => "progressive_exhausted"
  | .streamUpgrade .. => "stream_upgrade"
  | .abVariantChosen .. => "ab_variant_chosen"
  | .ensembleVote .. => "ensemble_vote"
  | .adversarialPipelineCompleted .. => "adversarial_pipeline_completed"
  | .adversarialContradiction .. => "adversarial_contradiction"
  | .provenanceEdge .. => "provenance_edge"

def jsonKind : Json → String
  | .null => "null"
  | .bool _ => "bool"
  | .int _ | .float _ => "number"
  | .string _ => "string"
  | .array _ => "array"
  | .object _ => "object"

/-- Why a mutated replay fails: as any replay, or because the mutation does not fit the
recording. -/
inductive MutationFault where
  | fault (err : Fault)
  | invalidReplayMutation (step : ℕ) (message : String)
deriving DecidableEq, Repr

/-- A call that differs from the recorded one. -/
structure MutationDivergence where
  step : ℕ
  kind : String
  recorded : TraceEvent
  got : Call
deriving DecidableEq, Repr

structure RunCompletionDivergence where
  step : ℕ
  recordedOk : Bool
  recordedResult : Option Json
  recordedError : Option String
  liveOk : Bool
  liveResult : Option Json
  liveError : Option String
deriving DecidableEq, Repr

structure ReplayMutationReport where
  divergences : List MutationDivergence := []
  runCompletionDivergence : Option RunCompletionDivergence := none
deriving DecidableEq, Repr

def ReplayMutationReport.isEmpty (report : ReplayMutationReport) : Bool :=
  report.divergences.isEmpty && report.runCompletionDivergence.isNone

/-- The step whose answer is replaced, counted from 1 over the tool calls, the model calls and the
approvals of the run. -/
structure ReplayMutation where
  step1based : ℕ
  replacement : Json
deriving DecidableEq, Repr

/-! ### The recordings that admit a mutation -/

section Loading

variable (path : String) (m : ReplayMutation)

def validateMutationReplacement (recordedResult : TraceEvent) : Except MutationFault Unit :=
  match recordedResult.body with
  | .approvalResponse _ _ =>
    match m.replacement with
    | .bool _ => .ok ()
    | replacement => .error (.invalidReplayMutation m.step1based
        ("replacement for approval_response must be bool, got " ++ jsonKind replacement))
  | .toolResult _ result | .llmResult _ _ _ result =>
    if jsonKind result = jsonKind m.replacement then
      .ok ()
    else
      .error (.invalidReplayMutation m.step1based ("replacement kind " ++ jsonKind m.replacement ++
        " does not match recorded result kind " ++ jsonKind result))
  | _ => .error (.invalidReplayMutation m.step1based
      ("expected a result event after the mutated call, got " ++ eventKind recordedResult))

/-- The events that count as steps. -/
def isSubstitutable (e : TraceEvent) : Bool :=
  match e.body with
  | .toolCall .. | .llmCall .. | .approvalRequest .. => true
  | _ => false

/-- Looks for the mutated step in `events`, after `substitutableStep` steps, and at its result. -/
def validateMutationFrom (substitutableStep : ℕ) : List TraceEvent → Except MutationFault Unit
  | [] => .error (.invalidReplayMutation m.step1based
      s!"trace only has {substitutableStep} substitutable steps")
  | e :: events =>
    if isInitialMetadata e || isDispatchMetadata e then
      validateMutationFrom substitutableStep events
    else if isSubstitutable e then
      if substitutableStep + 1 = m.step1based then
        match events.find? fun e => !isDispatchMetadata e with
        | none => .error (.fault (.error (.replayTraceLoad path
            s!"trace is missing a result event for substitutable step {m.step1based}")))
        | some recordedResult => validateMutationReplacement m recordedResult
      else
        validateMutationFrom (substitutableStep + 1) events
    else
      validateMutationFrom substitutableStep events

def validateMutation (events : List TraceEvent) : Except MutationFault Unit :=
  if m.step1based = 0 then
    .error (.invalidReplayMutation 0 "step indices are 1-based")
  else
    validateMutationFrom path m 0 events

/-- Loads the events read from `path` for a replay with the mutation `m`. -/
def loadMutated (events : List TraceEvent) (replayWriter : String) :
    Except MutationFault ReplaySource := do
  let src ← (ReplaySource.load path events replayWriter).mapError fun err => .fault (.error err)
  validateMutation path m events
  return src

end Loading

/-! ### The calls of a mutated replay -/

/-- What a mutated replay changes as it goes. -/
structure MutationState where
  cursor : TraceCursor
  nextStep : ℕ := 0
  report : ReplayMutationReport := {}
deriving DecidableEq, Repr

abbrev MutationM := EStateM MutationFault MutationState

namespace Mutation

/-- Reads the recording through the cursor of the state. -/
def reading {ε α : Type} (fault : ε → MutationFault) (x : CursorM ε α) : MutationM α := fun s =>
  match x.run s.cursor with
  | .ok a cursor => .ok a { s with cursor }
  | .error err cursor => .error (fault err) { s with cursor }

/-- The number of the step that a call takes. -/
def nextStep : MutationM ℕ := do
  modify fun s => { s with nextStep := s.nextStep + 1 }
  return (← get).nextStep

def recordMutationDivergence (divergence : MutationDivergence) : MutationM Unit :=
  modify fun s => { s with report :=
    { s.report with divergences := s.report.divergences ++ [divergence] } }

def recordMutationRunCompletionDivergence (divergence : RunCompletionDivergence) :
    MutationM Unit :=
  modify fun s => { s with report :=
    { s.report with runCompletionDivergence := some divergence } }

variable (src : ReplaySource) (m : ReplayMutation)

/-- The event of the recording in the place of a call. Before the mutated step it has to be the
call; from there on any other event is put on record. -/
def recordedCall (step : ℕ) (event : EventBody) (got : Got) (call : Call) :
    MutationM TraceEvent := do
  if step < m.step1based then
    reading (fun err => .fault (.error err)) (expectNext src.events (fun e => e.body == event) got)
  else
    let recorded ← reading .fault (nextEvent src.events)
    if recorded.body != event then
      recordMutationDivergence ⟨step, got.kind, recorded, call⟩
    return recorded

def validateMutationResultPair (recordedCall recordedResult : TraceEvent) (step : ℕ) :
    Except MutationFault Unit :=
  match recordedCall.body, recordedResult.body with
  | .toolCall .., .toolResult .. | .llmCall .., .llmResult ..
  | .approvalRequest .., .approvalResponse .. => .ok ()
  | _, _ => .error (.invalidReplayMutation step ("recorded step pairs " ++ eventKind recordedCall ++
      " with " ++ eventKind recordedResult ++ ", expected matching call/result kinds"))

def mutatedJsonResult (recordedCall recordedResult : TraceEvent) : Except MutationFault Json := do
  validateMutationResultPair recordedCall recordedResult m.step1based
  return m.replacement

def mutatedLlmResult (recordedCall recordedResult : TraceEvent) :
    Except MutationFault LlmResponse := do
  return LlmResponse.new (← mutatedJsonResult m recordedCall recordedResult) {}

/-- A replaced approval keeps the decision of the recording. -/
def mutatedApprovalResult (recordedCall : TraceEvent)
    (outcome : Option ReplayApprovalDecision × TraceEvent) :
    Except MutationFault ReplayApprovalOutcome := do
  validateMutationResultPair recordedCall outcome.2 m.step1based
  match m.replacement with
  | .bool approved => return ⟨approved, outcome.1⟩
  | _ => throw (.invalidReplayMutation m.step1based
      "replacement for approval_response must be bool")

/-- The value of a model call after the mutated step, of whatever event stands there. -/
def replayedEventJson (e : TraceEvent) : Json :=
  match e.body with
  | .toolResult _ result | .llmResult _ _ _ result => result
  | .approvalResponse _ approved => .bool approved
  | _ => .null

def replaying {α : Type} (x : Except RuntimeError α) : MutationM α :=
  ofExcept (x.mapError fun err => .fault (.error err))

def replayToolCall (tool : String) (args : List Json) : MutationM Json := do
  let step ← nextStep
  let recorded ← recordedCall src m step (.toolCall tool args) (.toolCall tool args)
    (.toolCall tool args)
  let recordedResult ← reading .fault (nextEvent src.events)
  if step = m.step1based then
    ofExcept (mutatedJsonResult m recorded recordedResult)
  else
    replaying (replayedJsonResult tool recordedResult)

def replayLlmCall (prompt : String) (recordedModel recordedModelVersion : Option String)
    (rendered : String) (args : List Json) : MutationM LlmResponse := do
  let step ← nextStep
  let recorded ← recordedCall src m step
    (.llmCall prompt recordedModel recordedModelVersion (some rendered) args)
    (.llmCall prompt recordedModel args)
    (.llmCall prompt recordedModel recordedModelVersion rendered args)
  let recordedResult ← reading .fault (nextEvent src.events)
  if step = m.step1based then
    ofExcept (mutatedLlmResult m recorded recordedResult)
  else
    return LlmResponse.new (replayedEventJson recordedResult) {}

def replayApproval (label : String) (args : List Json) : MutationM ReplayApprovalOutcome := do
  let step ← nextStep
  let recorded ← recordedCall src m step (.approvalRequest label args)
    (.approvalRequest label args) (.approval label args)
  let recordedResult ← reading .fault (nextApprovalOutcomeEvent src.events)
  if step = m.step1based then
    ofExcept (mutatedApprovalResult m recorded recordedResult)
  else
    replaying (replayedApprovalResult label recordedResult)

/-- The end of a run. Another end than the recorded one is put on record; any other event is an
error. -/
def completeRun (ok : Bool) (result : Option Json) (error : Option String) : MutationM Unit := do
  let step := (← get).cursor.next + 1
  let recorded ← reading .fault (nextEvent src.events)
  match recorded.body with
  | .runCompleted recordedOk recordedResult recordedError =>
    if recordedOk ≠ ok ∨ recordedResult ≠ result ∨ recordedError ≠ error then
      recordMutationRunCompletionDivergence
        ⟨step, recordedOk, recordedResult, recordedError, ok, result, error⟩
  | _ => throw (.fault (.error (.replayDivergence
      ⟨(← get).cursor.next - 1, recorded, .runCompleted ok result error⟩)))
  reading .fault (finish src.events)

/-- A call of the program. The start of a run and the samples are replayed as in any replay. -/
def serve : Call → MutationM Answer
  | .prepareRun agent args => do
    reading (fun err => .fault (.error err)) (prepareRun src agent args)
    return .unit
  | .toolCall tool args => return .value (← replayToolCall src m tool args)
  | .llmCall prompt model version rendered args =>
    return .response (← replayLlmCall src m prompt model version rendered args)
  | .approval label args => return .outcome (← replayApproval src m label args)
  | .rolloutSample =>
    return .sample (← reading (fun err => .fault (.error err)) (replayRolloutSample src))
  | .completeRun ok result error => do
    completeRun src ok result error
    return .unit

/-- The answers to a sequence of calls that all return normally. -/
def replayCalls : List Call → MutationM (List Answer)
  | [] => return []
  | call :: calls => do
    let answer ← serve src m call
    let answers ← replayCalls calls
    return answer :: answers

end Mutation

/-! ### Steps of a recording -/

def Call.isSubstitutable : Call → Bool
  | toolCall .. | llmCall .. | approval .. => true
  | prepareRun .. | rolloutSample | completeRun .. => false

/-- A recorded answer in the place of which `replacement` can stand. The loader looks for the answer
of an approval directly after the request, where a decided approval has its decision. -/
def Answer.Admits (replacement : Json) : Answer → Prop
  | value v => jsonKind v = jsonKind replacement
  | response r => jsonKind r.value = jsonKind replacement
  | outcome o => o.decision = none ∧ ∃ approved, replacement = .bool approved
  | unit | sample _ => False

section Validation

variable {path : String} {m : ReplayMutation} {events : List TraceEvent} {b r : EventBody}
  {X : List EventBody} {n : ℕ}

theorem executable_eq_cons (h : executable events = b :: X) :
    ∃ pre e post, events = pre ++ e :: post ∧ (∀ x ∈ pre, isDispatchMetadata x = true) ∧
      isDispatchMetadata e = false ∧ e.body = b ∧ executable post = X := by
  obtain ⟨e, es, hfilter, rfl, hes⟩ := List.map_eq_cons_iff.mp h
  obtain ⟨pre, post, rfl, hpre, he, hpost⟩ := List.filter_eq_cons_iff.mp hfilter
  refine ⟨pre, e, post, rfl, fun x hx => by simpa using hpre x hx, by simpa using he, rfl, ?_⟩
  rw [executable, hpost, hes]

theorem find?_of_executable (h : executable events = b :: X) :
    ∃ e, events.find? (fun e => !isDispatchMetadata e) = some e ∧ e.body = b := by
  obtain ⟨pre, e, post, rfl, hpre, he, hb, -⟩ := executable_eq_cons h
  refine ⟨e, List.find?_eq_some_iff_append.mpr ⟨by simp [he], pre, post, rfl, fun x hx => ?_⟩, hb⟩
  simp [hpre x hx]

theorem validateMutationFrom_append {pre es : List TraceEvent}
    (h : ∀ x ∈ pre, isInitialMetadata x = true ∨ isDispatchMetadata x = true) :
    validateMutationFrom path m n (pre ++ es) = validateMutationFrom path m n es := by
  induction pre with
  | nil => rfl
  | cons x pre ih =>
    obtain ⟨hx, hpre⟩ := List.forall_mem_cons.mp h
    rw [List.cons_append, validateMutationFrom, if_pos (by simpa using hx), ih hpre]

theorem validateMutationFrom_dropWhile (n : ℕ) (events : List TraceEvent) :
    validateMutationFrom path m n events =
      validateMutationFrom path m n (events.dropWhile isInitialMetadata) := by
  conv_lhs => rw [← List.takeWhile_append_dropWhile (p := isInitialMetadata) (l := events)]
  exact validateMutationFrom_append fun x hx => .inl (List.mem_takeWhile_imp hx)

/-- An event that is no step is passed over. -/
theorem validateMutationFrom_skip (h : executable events = b :: X)
    (hb : ∀ e : TraceEvent, e.body = b → isSubstitutable e = false) :
    ∃ post, executable post = X ∧
      validateMutationFrom path m n events = validateMutationFrom path m n post := by
  obtain ⟨pre, e, post, rfl, hpre, -, he, hpost⟩ := executable_eq_cons h
  refine ⟨post, hpost, ?_⟩
  rw [validateMutationFrom_append fun x hx => .inr (hpre x hx), validateMutationFrom, hb e he]
  simp

/-- A step is either the mutated one, and then the event after it is looked at, or counted. -/
theorem validateMutationFrom_step (h : executable events = b :: r :: X)
    (hb : ∀ e : TraceEvent, e.body = b → isSubstitutable e = true ∧ isInitialMetadata e = false) :
    (n + 1 = m.step1based → ∃ e, e.body = r ∧
      validateMutationFrom path m n events = validateMutationReplacement m e) ∧
    (n + 1 ≠ m.step1based → ∃ post, executable post = r :: X ∧
      validateMutationFrom path m n events = validateMutationFrom path m (n + 1) post) := by
  obtain ⟨pre, e, post, rfl, hpre, hmeta, he, hpost⟩ := executable_eq_cons h
  obtain ⟨hstep, hinitial⟩ := hb e he
  rw [validateMutationFrom_append fun x hx => .inr (hpre x hx), validateMutationFrom, hinitial,
    hmeta, if_neg (by simp), if_pos hstep]
  constructor
  · intro hn
    obtain ⟨e', hfind, hr⟩ := find?_of_executable hpost
    exact ⟨e', hr, by rw [if_pos hn, hfind]⟩
  · intro hn
    exact ⟨post, hpost, if_neg hn⟩

end Validation

section Validation

variable {path : String} {m : ReplayMutation} {events : List TraceEvent} {n : ℕ}

theorem validateMutationReplacement_toolResult {e : TraceEvent} {tool : String} {result : Json}
    (h : e.body = .toolResult tool result) : validateMutationReplacement m e = .ok () ↔
      (Answer.value result).Admits m.replacement := by
  rw [validateMutationReplacement, h]
  dsimp only [Answer.Admits]
  split <;> simp_all

theorem validateMutationReplacement_llmResult {e : TraceEvent} {prompt : String}
    {model version : Option String} {result : Json}
    (h : e.body = .llmResult prompt model version result) :
    validateMutationReplacement m e = .ok () ↔
      (Answer.response (.new result {})).Admits m.replacement := by
  rw [validateMutationReplacement, h]
  dsimp only [Answer.Admits, LlmResponse.new]
  split <;> simp_all

theorem validateMutationReplacement_approvalResponse {e : TraceEvent} {label : String}
    {approved : Bool} (h : e.body = .approvalResponse label approved) :
    validateMutationReplacement m e = .ok () ↔
      (Answer.outcome ⟨approved, none⟩).Admits m.replacement := by
  rw [validateMutationReplacement, h]
  dsimp only [Answer.Admits]
  split
  next approved' heq => simp [heq]
  next replacement hne =>
    refine iff_of_false nofun ?_
    rintro ⟨-, approved', heq⟩
    exact hne approved' heq

/-- The pair of the mutated step, the `n` steps before `ps` being earlier ones. -/
def ReplayMutation.Fits (m : ReplayMutation) (n : ℕ) (ps : List (Call × Answer)) : Prop :=
  ∃ p, (ps.filter fun p => p.1.isSubstitutable)[m.step1based - (n + 1)]? = some p ∧
    p.2.Admits m.replacement

theorem ReplayMutation.fits_skip {p : Call × Answer} (ps : List (Call × Answer))
    (hp : p.1.isSubstitutable = false) : m.Fits n (p :: ps) ↔ m.Fits n ps := by
  rw [Fits, List.filter_cons_of_neg (by simp [hp])]
  exact Iff.rfl

theorem ReplayMutation.fits_here {p : Call × Answer} (ps : List (Call × Answer))
    (hp : p.1.isSubstitutable = true) (hn : n + 1 = m.step1based) :
    m.Fits n (p :: ps) ↔ p.2.Admits m.replacement := by
  rw [Fits, List.filter_cons_of_pos (p := fun p : Call × Answer => p.1.isSubstitutable) hp, hn,
    Nat.sub_self]
  simp

theorem ReplayMutation.fits_later {p : Call × Answer} (ps : List (Call × Answer))
    (hp : p.1.isSubstitutable = true) (hn : n + 1 < m.step1based) :
    m.Fits n (p :: ps) ↔ m.Fits (n + 1) ps := by
  rw [Fits, List.filter_cons_of_pos (p := fun p : Call × Answer => p.1.isSubstitutable) hp,
    show m.step1based - (n + 1) = m.step1based - (n + 1 + 1) + 1 by omega, List.getElem?_cons_succ]
  exact Iff.rfl

/-- A step at the head of a recording: the event `r` after it is compared where the step is the
mutated one, and otherwise the rest decides. -/
theorem validateMutationFrom_eq_ok_iff_of_step {b r : EventBody} {X : List EventBody}
    {p : Call × Answer} {ps : List (Call × Answer)} (hX : executable events = b :: r :: X)
    (hb : ∀ e : TraceEvent, e.body = b → isSubstitutable e = true ∧ isInitialMetadata e = false)
    (hp : p.1.isSubstitutable = true) (hn : n < m.step1based)
    (hhere : ∀ e : TraceEvent, e.body = r →
      (validateMutationReplacement m e = .ok () ↔ p.2.Admits m.replacement))
    (hlater : n + 1 < m.step1based → ∀ post, executable post = r :: X →
      (validateMutationFrom path m (n + 1) post = .ok () ↔ m.Fits (n + 1) ps)) :
    validateMutationFrom path m n events = .ok () ↔ m.Fits n (p :: ps) := by
  obtain ⟨hcompare, hcount⟩ := @validateMutationFrom_step path m events b r X n hX hb
  rcases eq_or_lt_of_le (Nat.succ_le_of_lt hn) with hk | hk
  · obtain ⟨e, he, heq⟩ := hcompare hk
    rw [heq, ReplayMutation.fits_here ps hp hk]
    exact hhere e he
  · obtain ⟨post, hpost, heq⟩ := hcount hk.ne
    rw [heq, ReplayMutation.fits_later ps hp hk]
    exact hlater hk post hpost

theorem validateMutationFrom_eq_ok_iff_of_skip {b : EventBody} {X : List EventBody}
    {ps : List (Call × Answer)} (hX : executable events = b :: X)
    (hb : ∀ e : TraceEvent, e.body = b → isSubstitutable e = false)
    (hrest : ∀ post, executable post = X →
      (validateMutationFrom path m n post = .ok () ↔ m.Fits n ps)) :
    validateMutationFrom path m n events = .ok () ↔ m.Fits n ps := by
  obtain ⟨post, hpost, heq⟩ := validateMutationFrom_skip hX hb
  rw [heq]
  exact hrest post hpost

/-- The loader finds the pair of the mutated step and compares its answer. -/
theorem validateMutationFrom_eq_ok_iff {X : List EventBody} {ps : List (Call × Answer)}
    (hrec : Records X ps) (hX : executable events = X) (hn : n < m.step1based) :
    validateMutationFrom path m n events = .ok () ↔ m.Fits n ps := by
  induction hrec generalizing events n with
  | nil =>
    have hskip : ∀ x ∈ events, isInitialMetadata x = true ∨ isDispatchMetadata x = true := by
      intro x hx
      have hfilter := List.filter_eq_nil_iff.mp (List.map_eq_nil_iff.mp hX) x hx
      exact .inr (by simpa using hfilter)
    rw [← List.append_nil events, validateMutationFrom_append hskip, validateMutationFrom]
    simp [ReplayMutation.Fits]
  | @runStarted agent args X ps _ ih =>
    rw [ReplayMutation.fits_skip ps rfl]
    exact validateMutationFrom_eq_ok_iff_of_skip hX (fun e he => by simp [isSubstitutable, he])
      fun post hpost => ih hpost hn
  | @sample value X ps _ ih =>
    rw [ReplayMutation.fits_skip ps rfl]
    exact validateMutationFrom_eq_ok_iff_of_skip hX (fun e he => by simp [isSubstitutable, he])
      fun post hpost => ih hpost hn
  | @runCompleted ok result error X ps _ ih =>
    rw [ReplayMutation.fits_skip ps rfl]
    exact validateMutationFrom_eq_ok_iff_of_skip hX (fun e he => by simp [isSubstitutable, he])
      fun post hpost => ih hpost hn
  | @tool tool args result X ps _ ih =>
    refine validateMutationFrom_eq_ok_iff_of_step hX
      (fun e he => by simp [isSubstitutable, isInitialMetadata, he]) rfl hn
      (fun e he => validateMutationReplacement_toolResult he) fun hk post hpost => ?_
    exact validateMutationFrom_eq_ok_iff_of_skip hpost (fun e he => by simp [isSubstitutable, he])
      fun post' hpost' => ih hpost' hk
  | @llm prompt model version rendered args result X ps _ ih =>
    refine validateMutationFrom_eq_ok_iff_of_step hX
      (fun e he => by simp [isSubstitutable, isInitialMetadata, he]) rfl hn
      (fun e he => validateMutationReplacement_llmResult he) fun hk post hpost => ?_
    exact validateMutationFrom_eq_ok_iff_of_skip hpost (fun e he => by simp [isSubstitutable, he])
      fun post' hpost' => ih hpost' hk
  | @approval label args approved X ps _ ih =>
    refine validateMutationFrom_eq_ok_iff_of_step hX
      (fun e he => by simp [isSubstitutable, isInitialMetadata, he]) rfl hn
      (fun e he => validateMutationReplacement_approvalResponse he) fun hk post hpost => ?_
    exact validateMutationFrom_eq_ok_iff_of_skip hpost (fun e he => by simp [isSubstitutable, he])
      fun post' hpost' => ih hpost' hk
  | @decidedApproval label args site siteArgs accepted decider rationale approved X ps _ ih =>
    refine validateMutationFrom_eq_ok_iff_of_step hX
      (fun e he => by simp [isSubstitutable, isInitialMetadata, he]) rfl hn (fun e he => ?_)
      fun hk post hpost => ?_
    · -- the decision stands where the result is looked for
      simp [validateMutationReplacement, he, Answer.Admits]
    · refine validateMutationFrom_eq_ok_iff_of_skip hpost
        (fun e he => by simp [isSubstitutable, he]) fun post' hpost' => ?_
      exact validateMutationFrom_eq_ok_iff_of_skip hpost'
        (fun e he => by simp [isSubstitutable, he]) fun post'' hpost'' => ih hpost'' hk

theorem loadMutated_eq_ok {src : ReplaySource} {replayWriter : String} :
    loadMutated path m events replayWriter = .ok src ↔
      ReplaySource.load path events replayWriter = .ok src ∧
        validateMutation path m events = .ok () := by
  rw [loadMutated, Result.bind_eq_ok]
  constructor
  · rintro ⟨src', hload, h⟩
    obtain ⟨_, hvalid, h⟩ := Result.bind_eq_ok.mp h
    obtain rfl := Result.pure_eq_ok.mp h
    refine ⟨?_, hvalid⟩
    cases hl : ReplaySource.load path events replayWriter with
    | error err =>
      rw [hl] at hload
      cases hload
    | ok src'' =>
      rw [hl] at hload
      exact congrArg _ (Except.ok.inj hload)
  · rintro ⟨hload, hvalid⟩
    exact ⟨src, by rw [hload]; rfl, by rw [hvalid]; rfl⟩

/-- A recording that can be replayed admits a mutation if and only if it has the step and the answer
of the step admits the replacement: no approval that was recorded with its decision can be
mutated. -/
theorem loadMutated_eq_ok_iff {src : ReplaySource} {replayWriter : String}
    {ps : List (Call × Answer)} (hload : ReplaySource.load path events replayWriter = .ok src)
    (hrec : Records (executable (events.dropWhile isInitialMetadata)) ps) :
    loadMutated path m events replayWriter = .ok src ↔ 0 < m.step1based ∧
      ∃ p, (ps.filter fun p => p.1.isSubstitutable)[m.step1based - 1]? = some p ∧
        p.2.Admits m.replacement := by
  rw [loadMutated_eq_ok, and_iff_right hload, validateMutation]
  split
  next hzero =>
    refine iff_of_false nofun ?_
    rintro ⟨hpos, -⟩
    exact absurd hzero hpos.ne'
  next hpos =>
    rw [validateMutationFrom_dropWhile, validateMutationFrom_eq_ok_iff hrec rfl (by omega),
      and_iff_right (by omega)]
    exact Iff.rfl

end Validation

/-! ### A program that drifts -/

/-- The recording of a run that asks for a label and looks it up. -/
def driftTrace : List TraceEvent :=
  [⟨0, "r", .schemaHeader 2 "corvid-vm" none none⟩,
    ⟨1, "r", .seedRead "rollout_default_seed" 7⟩,
    ⟨2, "r", .runStarted "drift_bot" []⟩,
    ⟨3, "r", .llmCall "choose_label" (some "mock-1") none (some "Choose label.") []⟩,
    ⟨4, "r", .modelSelected "choose_label" "mock-1" none none none none none 0 none none⟩,
    ⟨5, "r", .llmResult "choose_label" (some "mock-1") none (.string "standard")⟩,
    ⟨6, "r", .toolCall "lookup" [.string "standard"]⟩,
    ⟨7, "r", .toolResult "lookup" (.int 7)⟩,
    ⟨8, "r", .runCompleted true (some (.int 8)) none⟩]

def driftSource : ReplaySource where
  path := "drift.jsonl"
  events := driftTrace
  cursor := ⟨2⟩
  initialRolloutSeed := 7

def driftPairs : List (Call × Answer) :=
  [(.prepareRun "drift_bot" [], .unit),
    (.llmCall "choose_label" (some "mock-1") none "Choose label." [],
      .response (.new (.string "standard") {})),
    (.toolCall "lookup" [.string "standard"], .value (.int 7)),
    (.completeRun true (some (.int 8)) none, .unit)]

theorem records_driftTrace : Records (executable (driftTrace.dropWhile isInitialMetadata)) driftPairs :=
  .runStarted (.llm (.tool (.runCompleted .nil)))

/-- The label is replaced. -/
def driftMutation : ReplayMutation := ⟨1, .string "vip"⟩

theorem loadMutated_driftTrace_iff :
    loadMutated "drift.jsonl" driftMutation driftTrace writerInterpreter = .ok driftSource ↔
      0 < driftMutation.step1based ∧
        ∃ p, (driftPairs.filter fun p => p.1.isSubstitutable)[driftMutation.step1based - 1]? = some p ∧
          p.2.Admits driftMutation.replacement :=
  loadMutated_eq_ok_iff rfl records_driftTrace

end Corvid.Replay
