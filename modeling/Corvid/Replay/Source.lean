import Corvid.Replay.Cursor
import Corvid.Runtime.Llm

/-!
# Substituting recorded answers

`ReplaySource.load` accepts a recording, and the operations of the source answer the calls of a
program from it. Every call has to be the next one of the recording, with the recorded arguments;
its answer is the event after it.

## Main definitions

* `ReplaySource.load`: the recordings that can be replayed
* `prepareRun`, `replayToolCall`, `replayLlmCall`, `replayApproval`, `replayRolloutSample`,
  `completeRun`: the calls of a program in substitute mode

## Main results

* `load_eq_ok`: a loaded recording starts after its preamble
* `replayToolCall_eq_ok` and its siblings: the events that a successful call consumed
* `replayToolCall_of_remaining` and its siblings: the events from which a call succeeds
-/

namespace Corvid.Replay

structure ReplaySource where
  path : String
  events : List TraceEvent
  cursor : TraceCursor
  initialRolloutSeed : ℕ

/-- The value of the first seed that the preamble of a recording names. -/
def defaultSeed (e : TraceEvent) : Option ℕ :=
  match e.body with
  | .seedRead purpose value => if purpose == "rollout_default_seed" then some value else none
  | _ => none

/-- Loads the events read from `path` for replay by `replayWriter`. -/
def ReplaySource.load (path : String) (events : List TraceEvent) (replayWriter : String) :
    Except RuntimeError ReplaySource :=
  if events.isEmpty then
    .error (.replayTraceLoad path "trace is empty")
  else
    match validateSupportedSchema events with
    | .error err => .error (.replayTraceLoad path err.display)
    | .ok () =>
      match events.head?.map TraceEvent.body with
      | some (.schemaHeader _ writer _ _) =>
        if writer = replayWriter then
          match events.findSome? defaultSeed with
          | none => .error (.replayTraceLoad path "trace is missing rollout_default_seed")
          | some initialRolloutSeed =>
            match events.findIdx? fun e => !isInitialMetadata e with
            | none => .error (.replayTraceLoad path "trace contains no executable events")
            | some startIndex => .ok { path, events, cursor := ⟨startIndex⟩, initialRolloutSeed }
        else
          .error (.crossTierReplayUnsupported writer replayWriter)
      | _ => .error (.replayTraceLoad path "trace is missing a schema header")

structure ReplayApprovalDecision where
  accepted : Bool
  decider : String
  rationale : Option String
deriving DecidableEq, Repr

structure ReplayApprovalOutcome where
  approved : Bool
  decision : Option ReplayApprovalDecision
deriving DecidableEq, Repr

/-- The answer of a tool call from the event after it. Any kind of result is taken, and the tool
named by the result is not compared. -/
def replayedJsonResult (tool : String) (e : TraceEvent) : Except RuntimeError Json :=
  match e.body with
  | .toolResult _ result | .llmResult _ _ _ result => .ok result
  | .approvalResponse _ approved => .ok (.bool approved)
  | _ => .error (.replayDivergence ⟨0, e, .toolResult tool⟩)

/-- The answer of an approval. A result of another kind is coerced, and the label of the response
is not compared. -/
def replayedApprovalResult (label : String)
    (outcome : Option ReplayApprovalDecision × TraceEvent) :
    Except RuntimeError ReplayApprovalOutcome :=
  match outcome.2.body with
  | .approvalResponse _ approved => .ok ⟨approved, outcome.1⟩
  | .toolResult _ result | .llmResult _ _ _ result => .ok ⟨result.coerceToBool, outcome.1⟩
  | _ => .error (.replayDivergence ⟨0, outcome.2, .approvalResponse label⟩)

/-- The decision of an approval, where the recording has one, and the event after it. -/
def nextApprovalOutcomeEvent {ε : Type} (events : List TraceEvent) :
    CursorM ε (Option ReplayApprovalDecision × TraceEvent) := do
  let e ← nextEvent events
  match e.body with
  | .approvalDecision _ _ accepted decider rationale =>
    let response ← nextEvent events
    return (some ⟨accepted, decider, rationale⟩, response)
  | _ => return (none, e)

variable (src : ReplaySource)

def prepareRun (agent : String) (args : List Json) : CursorM RuntimeError Unit := do
  let _ ← expectNext src.events (fun e => e.body == .runStarted agent args) (.runStarted agent args)

def completeRun (ok : Bool) (result : Option Json) (error : Option String) :
    CursorM Fault Unit := do
  let _ ← (expectNext src.events (fun e => e.body == .runCompleted ok result error)
    (.runCompleted ok result error)).adaptExcept Fault.error
  finish src.events

def replayToolCall (tool : String) (args : List Json) : CursorM RuntimeError Json := do
  let _ ← expectNext src.events (fun e => e.body == .toolCall tool args) (.toolCall tool args)
  let e ← nextEvent src.events
  ofExcept (replayedJsonResult tool e)

/-- The recorded answer of a model call. It carries no usage and no confidence: the recording has
none. -/
def replayLlmCall (prompt : String) (recordedModel recordedModelVersion : Option String)
    (rendered : String) (args : List Json) : CursorM RuntimeError LlmResponse := do
  let _ ← expectNext src.events
    (fun e => e.body == .llmCall prompt recordedModel recordedModelVersion (some rendered) args)
    (.llmCall prompt recordedModel args)
  let e ← nextEvent src.events
  let c ← get
  match e.body with
  | .llmResult expectedPrompt expectedModel expectedModelVersion result =>
    if expectedPrompt = prompt ∧ expectedModel = recordedModel ∧
        expectedModelVersion = recordedModelVersion then
      return LlmResponse.new result {}
    else
      throw (.replayDivergence ⟨c.next - 1, e, .llmResult prompt recordedModel⟩)
  | _ => throw (.replayDivergence ⟨c.next - 1, e, .llmResult prompt recordedModel⟩)

def replayApproval (label : String) (args : List Json) :
    CursorM RuntimeError ReplayApprovalOutcome := do
  let _ ← expectNext src.events (fun e => e.body == .approvalRequest label args)
    (.approvalRequest label args)
  let outcome ← nextApprovalOutcomeEvent src.events
  ofExcept (replayedApprovalResult label outcome)

def replayRolloutSample : CursorM RuntimeError ℕ := do
  let e ← expectNext src.events
    (fun e => match e.body with
      | .seedRead purpose _ => purpose == "rollout_cohort"
      | _ => false)
    .seedRead
  let c ← get
  match e.body with
  | .seedRead _ value => return value
  | _ => throw (.replayDivergence ⟨c.next, e, .seedRead⟩)

variable {src} {c c' : TraceCursor}

section Loading

variable {path replayWriter : String} {events : List TraceEvent}

theorem load_eq_ok (h : ReplaySource.load path events replayWriter = .ok src) :
    src.events = events ∧
      remaining events src.cursor = executable (events.dropWhile isInitialMetadata) := by
  unfold ReplaySource.load at h
  split at h
  · cases h
  split at h
  · cases h
  split at h
  · split at h
    · split at h
      · cases h
      split at h
      · cases h
      · rename_i startIndex hs
        cases h
        refine ⟨rfl, ?_⟩
        rw [List.findIdx?_eq_some_iff_findIdx_eq] at hs
        rw [remaining, List.dropWhile_eq_drop_findIdx_not, hs.2]
    · cases h
  · cases h

end Loading

theorem Reads.of_ne_eof {events : List TraceEvent} {e : TraceEvent} (h : Reads events c e c')
    (hne : e.body ≠ eof.body) : remaining events c = e.body :: remaining events c' := by
  rcases h with h | ⟨rfl, -⟩
  · exact h
  · exact absurd rfl hne

/-- An expected event was the next one. Only the end of a failed run is also found past the end. -/
theorem expectNext_body {events : List TraceEvent} {b : EventBody} {got : Got} {e : TraceEvent}
    (h : (expectNext events (fun e => e.body == b) got).run c = .ok e c') (hb : b ≠ eof.body) :
    remaining events c = b :: remaining events c' := by
  obtain ⟨hp, hr⟩ := expectNext_eq_ok h
  have hp : e.body = b := by simpa using hp
  exact hp ▸ hr.of_ne_eof (hp ▸ hb)

theorem prepareRun_eq_ok {agent : String} {args : List Json}
    (h : (prepareRun src agent args).run c = .ok () c') :
    remaining src.events c = .runStarted agent args :: remaining src.events c' := by
  obtain ⟨e, t, he, h⟩ := Result.run_bind_eq_ok.mp h
  obtain ⟨-, rfl⟩ := Result.run_pure_eq_ok.mp h
  exact expectNext_body he (by simp [eof])

/-- The value that a tool call takes from the event after it. -/
def jsonResult : EventBody → Option Json
  | .toolResult _ result | .llmResult _ _ _ result => some result
  | .approvalResponse _ approved => some (.bool approved)
  | _ => none

theorem replayedJsonResult_eq_ok {tool : String} {e : TraceEvent} {r : Json} :
    replayedJsonResult tool e = .ok r ↔ jsonResult e.body = some r := by
  rcases e with ⟨ts, run, body⟩
  cases body <;> simp [replayedJsonResult, jsonResult]

theorem replayToolCall_eq_ok {tool : String} {args : List Json} {r : Json}
    (h : (replayToolCall src tool args).run c = .ok r c') :
    ∃ b, remaining src.events c = .toolCall tool args :: b :: remaining src.events c' ∧
      jsonResult b = some r := by
  obtain ⟨e, t, he, h⟩ := Result.run_bind_eq_ok.mp h
  obtain ⟨e', t', he', h⟩ := Result.run_bind_eq_ok.mp h
  obtain ⟨hr, rfl⟩ := Result.run_ofExcept_eq_ok.mp h
  rw [replayedJsonResult_eq_ok] at hr
  -- the synthetic event past the end is no result
  have hne : e'.body ≠ eof.body := by
    rintro heq
    rw [heq] at hr
    cases hr
  refine ⟨e'.body, ?_, hr⟩
  rw [expectNext_body he (by simp [eof]), (nextEvent_eq_ok he').of_ne_eof hne]

theorem replayLlmCall_eq_ok {prompt : String} {model version : Option String} {rendered : String}
    {args : List Json} {r : LlmResponse}
    (h : (replayLlmCall src prompt model version rendered args).run c = .ok r c') :
    ∃ v, remaining src.events c = .llmCall prompt model version (some rendered) args ::
      .llmResult prompt model version v :: remaining src.events c' ∧ r = LlmResponse.new v {} := by
  obtain ⟨e, t, he, h₁⟩ := Result.run_bind_eq_ok.mp h
  obtain ⟨e', t', he', h₂⟩ := Result.run_bind_eq_ok.mp h₁
  obtain ⟨_, t'', hget, h₃⟩ := Result.run_bind_eq_ok.mp h₂
  rw [EStateM.run_get] at hget
  obtain ⟨rfl, rfl⟩ := EStateM.Result.ok.inj hget
  split at h₃
  next p m mv v hbody =>
    split at h₃
    next hm =>
      obtain ⟨rfl, rfl, rfl⟩ := hm
      obtain ⟨rfl, rfl⟩ := Result.run_pure_eq_ok.mp h₃
      refine ⟨v, ?_, rfl⟩
      rw [expectNext_body he (by simp [eof]),
        (nextEvent_eq_ok he').of_ne_eof (by simp [hbody, eof]), hbody]
    next => cases h₃
  next => cases h₃

/-- The truth value that an approval takes from the event after it. -/
def approvalResult : EventBody → Option Bool
  | .approvalResponse _ approved => some approved
  | .toolResult _ result | .llmResult _ _ _ result => some result.coerceToBool
  | _ => none

theorem replayedApprovalResult_eq_ok {label : String} {d : Option ReplayApprovalDecision}
    {e : TraceEvent} {r : ReplayApprovalOutcome} :
    replayedApprovalResult label (d, e) = .ok r ↔ approvalResult e.body = some r.approved ∧
      r.decision = d := by
  rcases e with ⟨ts, run, body⟩
  rcases r with ⟨approved, decision⟩
  cases body <;> simp [replayedApprovalResult, approvalResult, eq_comm]

/-- The decision that an event of the recording carries. -/
def decisionOf : EventBody → Option ReplayApprovalDecision
  | .approvalDecision _ _ accepted decider rationale => some ⟨accepted, decider, rationale⟩
  | _ => none

theorem nextApprovalOutcomeEvent_eq_ok {ε : Type} {events : List TraceEvent}
    {d : Option ReplayApprovalDecision} {e : TraceEvent}
    (h : (nextApprovalOutcomeEvent events : CursorM ε _).run c = .ok (d, e) c')
    (hne : e.body ≠ eof.body) :
    (d = none ∧ decisionOf e.body = none ∧
      remaining events c = e.body :: remaining events c') ∨
    ∃ b, decisionOf b = d ∧ d ≠ none ∧
      remaining events c = b :: e.body :: remaining events c' := by
  obtain ⟨e₁, t, he, h⟩ := Result.run_bind_eq_ok.mp h
  split at h
  next site args accepted decider rationale hbody =>
    obtain ⟨e₂, t', he', h⟩ := Result.run_bind_eq_ok.mp h
    obtain ⟨heq, rfl⟩ := Result.run_pure_eq_ok.mp h
    obtain ⟨rfl, rfl⟩ := Prod.mk.inj heq
    refine .inr ⟨e₁.body, by rw [hbody]; rfl, nofun, ?_⟩
    rw [(nextEvent_eq_ok he).of_ne_eof (by simp [hbody, eof]),
      (nextEvent_eq_ok he').of_ne_eof hne]
  next hbody =>
    obtain ⟨heq, rfl⟩ := Result.run_pure_eq_ok.mp h
    obtain ⟨rfl, rfl⟩ := Prod.mk.inj heq
    refine .inl ⟨rfl, ?_, (nextEvent_eq_ok he).of_ne_eof hne⟩
    unfold decisionOf
    split
    next heq => exact absurd heq (hbody _ _ _ _ _)
    next => rfl

theorem replayApproval_eq_ok {label : String} {args : List Json} {r : ReplayApprovalOutcome}
    (h : (replayApproval src label args).run c = .ok r c') :
    ∃ b, approvalResult b = some r.approved ∧
      ((r.decision = none ∧
        remaining src.events c = .approvalRequest label args :: b :: remaining src.events c') ∨
      ∃ d, decisionOf d = r.decision ∧ r.decision ≠ none ∧
        remaining src.events c =
          .approvalRequest label args :: d :: b :: remaining src.events c') := by
  obtain ⟨e, t, he, h⟩ := Result.run_bind_eq_ok.mp h
  obtain ⟨⟨d, e'⟩, t', he', h⟩ := Result.run_bind_eq_ok.mp h
  obtain ⟨hok, rfl⟩ := Result.run_ofExcept_eq_ok.mp h
  obtain ⟨hr, rfl⟩ := replayedApprovalResult_eq_ok.mp hok
  have hne : e'.body ≠ eof.body := by
    rintro heq
    rw [heq] at hr
    cases hr
  have hreq := expectNext_body he (by simp [eof])
  refine ⟨e'.body, hr, ?_⟩
  rcases nextApprovalOutcomeEvent_eq_ok he' hne with ⟨hd, -, hrem⟩ | ⟨b, hb, hd, hrem⟩
  · exact .inl ⟨hd, by rw [hreq, hrem]⟩
  · exact .inr ⟨b, hb, hd, by rw [hreq, hrem]⟩

theorem replayRolloutSample_eq_ok {n : ℕ} (h : (replayRolloutSample src).run c = .ok n c') :
    remaining src.events c = .seedRead "rollout_cohort" n :: remaining src.events c' := by
  obtain ⟨e, t, he, h⟩ := Result.run_bind_eq_ok.mp h
  obtain ⟨_, _, hget, h⟩ := Result.run_bind_eq_ok.mp h
  rw [EStateM.run_get] at hget
  obtain ⟨rfl, rfl⟩ := EStateM.Result.ok.inj hget
  obtain ⟨hp, hr⟩ := expectNext_eq_ok he
  split at h
  next purpose value hbody =>
    obtain ⟨rfl, rfl⟩ := Result.run_pure_eq_ok.mp h
    have hp : purpose = "rollout_cohort" := by simpa [hbody] using hp
    rw [hr.of_ne_eof (by simp [hbody, eof]), hbody, hp]
  next => cases h

/-- A run completes only at the end of the recording: completing against the synthetic event
leaves the cursor outside of it, and `finish` does not return. -/
theorem completeRun_eq_ok {ok : Bool} {result : Option Json} {error : Option String}
    (h : (completeRun src ok result error).run c = .ok () c') :
    remaining src.events c = [.runCompleted ok result error] ∧ remaining src.events c' = [] := by
  obtain ⟨e, t, he, h⟩ := Result.run_bind_eq_ok.mp h
  rw [Result.run_adaptExcept_eq_ok] at he
  obtain ⟨hp, hr⟩ := expectNext_eq_ok he
  obtain ⟨ht, hc', hle⟩ := finish_eq_ok h
  have hp : e.body = .runCompleted ok result error := by simpa using hp
  rcases hr with hr | ⟨-, -, hlt⟩
  · rw [hr, ht, hp]
    exact ⟨rfl, hc'⟩
  · exact absurd hle (by omega)

section Forward

variable {rest : List EventBody}

theorem expectNext_body_of_remaining {events : List TraceEvent} {b : EventBody} (got : Got)
    (h : remaining events c = b :: rest) :
    ∃ e c', (expectNext events (fun e => e.body == b) got).run c = .ok e c' ∧
      remaining events c' = rest ∧ c'.Valid events := by
  obtain ⟨e, c', he, -, hr, hv⟩ := expectNext_of_remaining (fun e => e.body == b) got h
    fun e hb => by simp [hb]
  exact ⟨e, c', he, hr, hv⟩

theorem prepareRun_of_remaining {agent : String} {args : List Json}
    (h : remaining src.events c = .runStarted agent args :: rest) :
    ∃ c', (prepareRun src agent args).run c = .ok () c' ∧ remaining src.events c' = rest ∧
      c'.Valid src.events := by
  obtain ⟨e, c', he, hr, hv⟩ := expectNext_body_of_remaining (.runStarted agent args) h
  exact ⟨c', by rw [prepareRun, Result.run_bind_of_ok he]; rfl, hr, hv⟩

theorem replayToolCall_of_remaining {tool : String} {args : List Json} {r : Json}
    (h : remaining src.events c = .toolCall tool args :: .toolResult tool r :: rest) :
    ∃ c', (replayToolCall src tool args).run c = .ok r c' ∧ remaining src.events c' = rest ∧
      c'.Valid src.events := by
  obtain ⟨e, t, he, ht, -⟩ := expectNext_body_of_remaining (.toolCall tool args) h
  obtain ⟨e', c', he', hb, hr, hv⟩ := nextEvent_of_remaining (ε := RuntimeError) ht
  refine ⟨c', ?_, hr, hv⟩
  rw [replayToolCall, Result.run_bind_of_ok he, Result.run_bind_of_ok he',
    Result.run_ofExcept_eq_ok, replayedJsonResult_eq_ok, hb]
  exact ⟨rfl, rfl⟩

theorem replayLlmCall_of_remaining {prompt : String} {model version : Option String}
    {rendered : String} {args : List Json} {v : Json}
    (h : remaining src.events c = .llmCall prompt model version (some rendered) args ::
      .llmResult prompt model version v :: rest) :
    ∃ c', (replayLlmCall src prompt model version rendered args).run c =
        .ok (LlmResponse.new v {}) c' ∧
      remaining src.events c' = rest ∧ c'.Valid src.events := by
  obtain ⟨e, t, he, ht, -⟩ := expectNext_body_of_remaining (.llmCall prompt model args) h
  obtain ⟨e', c', he', hb, hr, hv⟩ := nextEvent_of_remaining (ε := RuntimeError) ht
  refine ⟨c', ?_, hr, hv⟩
  rw [replayLlmCall, Result.run_bind_of_ok he, Result.run_bind_of_ok he',
    Result.run_bind_of_ok (EStateM.run_get c')]
  simp [hb]

/-- An approval with a decision before its response. -/
theorem replayApproval_of_remaining {label : String} {args siteArgs : List Json} {site : String}
    {d : ReplayApprovalDecision} {approved : Bool}
    (h : remaining src.events c = .approvalRequest label args ::
      .approvalDecision site siteArgs d.accepted d.decider d.rationale ::
      .approvalResponse label approved :: rest) :
    ∃ c', (replayApproval src label args).run c = .ok ⟨approved, some d⟩ c' ∧
      remaining src.events c' = rest ∧ c'.Valid src.events := by
  obtain ⟨e, t, he, ht, -⟩ := expectNext_body_of_remaining (.approvalRequest label args) h
  obtain ⟨e₁, t₁, he₁, hb₁, ht₁, -⟩ := nextEvent_of_remaining (ε := RuntimeError) ht
  obtain ⟨e₂, c', he₂, hb₂, hr, hv⟩ := nextEvent_of_remaining (ε := RuntimeError) ht₁
  refine ⟨c', ?_, hr, hv⟩
  have hout : (nextApprovalOutcomeEvent src.events : CursorM RuntimeError _).run t =
      .ok (some d, e₂) c' := by
    rw [nextApprovalOutcomeEvent, Result.run_bind_of_ok he₁]
    simp only [hb₁]
    rw [Result.run_bind_of_ok he₂]
    rfl
  rw [replayApproval, Result.run_bind_of_ok he, Result.run_bind_of_ok hout,
    Result.run_ofExcept_eq_ok, replayedApprovalResult_eq_ok, hb₂]
  exact ⟨⟨rfl, rfl⟩, rfl⟩

theorem replayRolloutSample_of_remaining {n : ℕ}
    (h : remaining src.events c = .seedRead "rollout_cohort" n :: rest) :
    ∃ c', (replayRolloutSample src).run c = .ok n c' ∧ remaining src.events c' = rest ∧
      c'.Valid src.events := by
  obtain ⟨e, c', he, hb, hr, hv⟩ := expectNext_of_remaining (fun e =>
    match e.body with
    | .seedRead purpose _ => purpose == "rollout_cohort"
    | _ => false) .seedRead h fun e hb => by simp [hb]
  refine ⟨c', ?_, hr, hv⟩
  rw [replayRolloutSample, Result.run_bind_of_ok he, Result.run_bind_of_ok (EStateM.run_get c')]
  simp [hb]

theorem completeRun_of_remaining {ok : Bool} {result : Option Json} {error : Option String}
    (h : remaining src.events c = [.runCompleted ok result error]) :
    ∃ c', (completeRun src ok result error).run c = .ok () c' := by
  obtain ⟨e, t, he, ht, hv⟩ := expectNext_body_of_remaining (.runCompleted ok result error) h
  obtain ⟨c', hc'⟩ := finish_of_remaining hv ht
  exact ⟨c', by rw [completeRun, Result.run_bind_of_ok (Result.run_adaptExcept_eq_ok.mpr he), hc']⟩

end Forward

end Corvid.Replay
