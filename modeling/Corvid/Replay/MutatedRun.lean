import Corvid.Replay.Mutation

/-!
# Mutated runs

What a mutated replay answers and reports is determined by the call/result pairs of the recording,
which the calls of the program meet by position: a call can take the answer of a call of another
kind. The report is empty exactly if the program made the recorded calls.

## Main definitions

* `ReplayMutation.answers`, `divergencesOf`, `completionDivergence`: a mutated run on the pairs of a
  recording
* `Mutation.Follows`: the state after a call in the place of a recorded pair

## Main results

* `Mutation.run_serve`, `Mutation.run_replayCalls`: a call and a run in the places of recorded pairs
* `Mutation.replayCalls_of_answers`: the answers and the report of a mutated replay
* `Mutation.isEmpty_report_iff`: when the report is empty
-/

namespace Corvid.Replay

def Call.isCompletion : Call → Bool
  | completeRun .. => true
  | _ => false

/-- The event of a call. The event of a sample also has its value. -/
def Call.event : Call → Option EventBody
  | prepareRun agent args => some (.runStarted agent args)
  | toolCall tool args => some (.toolCall tool args)
  | llmCall prompt model version rendered args =>
    some (.llmCall prompt model version (some rendered) args)
  | approval label args => some (.approvalRequest label args)
  | rolloutSample => none
  | completeRun ok result error => some (.runCompleted ok result error)

def Call.kind : Call → String
  | prepareRun .. => "run_started"
  | toolCall .. => "tool_call"
  | llmCall .. => "llm_call"
  | approval .. => "approval_request"
  | rolloutSample => "seed_read"
  | completeRun .. => "run_completed"

/-- The value of a recorded answer that takes one event. -/
def Answer.json : Answer → Option Json
  | value v => some v
  | response r => some r.value
  | outcome ⟨approved, none⟩ => some (.bool approved)
  | outcome ⟨_, some _⟩ | unit | sample _ => none

/-- A recorded answer as an approval takes it. -/
def Answer.asOutcome : Answer → Option ReplayApprovalOutcome
  | outcome o => some o
  | a => a.json.map fun v => ⟨v.coerceToBool, none⟩

/-- A recorded answer, as a call in the place of the recorded one takes it. -/
def Answer.takenBy (a : Answer) : Call → Option Answer
  | .toolCall .. => a.json.map .value
  | .llmCall .. => a.json.map fun v => .response (.new v {})
  | .approval .. => a.asOutcome.map .outcome
  | _ => none

/-- The replacement of a recorded answer, as a call takes it: only an approval needs it to be a truth
value, and keeps the decision of the recording. -/
def Answer.replacedBy (replacement : Json) (a : Answer) : Call → Option Answer
  | .toolCall .. => a.json.map fun _ => .value replacement
  | .llmCall .. => a.json.map fun _ => .response (.new replacement {})
  | .approval .. =>
    match replacement with
    | .bool approved => a.asOutcome.map fun o => .outcome { o with approved }
    | _ => none
  | _ => none

/-- What a mutated replay puts on record of a call in the place of `recorded`: the step, the kind, the
recorded event and the call. -/
def divergenceOf (step : ℕ) (recorded call : Call) : List (ℕ × String × EventBody × Call) :=
  if call = recorded then [] else recorded.event.toList.map fun b => (step, call.kind, b, call)

namespace ReplayMutation

variable (m : ReplayMutation)

/-- The answer of `call` in the place of a recorded pair. -/
def answer (step : ℕ) (recorded : Call × Answer) (call : Call) : Option Answer :=
  if call.isSubstitutable && m.step1based ≤ step then
    if step = m.step1based then recorded.2.replacedBy m.replacement call
    else recorded.2.takenBy call
  else if call = recorded.1 ∨ call.isCompletion && recorded.1.isCompletion then
    some recorded.2
  else
    none

/-- The answers of the calls of a mutated run, `n` steps having been taken before the pairs `ps`: one
pair for each call, and the end of the run on the last pair. -/
def answers : ℕ → List (Call × Answer) → List Call → Option (List Answer)
  | _, _, [] => some []
  | _, [], _ :: _ => none
  | n, recorded :: ps, call :: calls =>
    let step := if call.isSubstitutable then n + 1 else n
    if call.isCompletion && !ps.isEmpty then
      none
    else do
      let a ← m.answer step recorded call
      let as ← answers step ps calls
      return a :: as

end ReplayMutation

/-- The divergences that the calls of a run put on record. -/
def divergencesOf : ℕ → List (Call × Answer) → List Call → List (ℕ × String × EventBody × Call)
  | n, recorded :: ps, call :: calls =>
    if call.isSubstitutable then
      divergenceOf (n + 1) recorded.1 call ++ divergencesOf (n + 1) ps calls
    else
      divergencesOf n ps calls
  | _, [], _ | _, _ :: _, [] => []

/-- The recorded and the live end of a run, where they differ. -/
def completionDivergence (ps : List (Call × Answer)) (calls : List Call) : Option (Call × Call) :=
  ((ps.map Prod.fst).zip calls).find? fun x => x.2.isCompletion && x.1 ≠ x.2

def MutationDivergence.entry (d : MutationDivergence) : ℕ × String × EventBody × Call :=
  (d.step, d.kind, d.recorded.body, d.got)

def RunCompletionDivergence.ends (d : RunCompletionDivergence) : Call × Call :=
  (.completeRun d.recordedOk d.recordedResult d.recordedError,
    .completeRun d.liveOk d.liveResult d.liveError)

/-! ### What one call takes from the recording -/

section Pairs

variable {recorded : Call × Answer} {ps : List (Call × Answer)} {X : List EventBody}

theorem Call.event_injective {call call' : Call} {b : EventBody} (h : call.event = some b)
    (h' : call'.event = some b) : call = call' := by
  cases call <;> cases call' <;> simp [Call.event] at h h' <;> subst h <;> simp_all

/-- The event that a recorder writes for a call. -/
def Call.RecordedBy : Call → EventBody → Prop
  | rolloutSample, b => ∃ value, b = .seedRead "rollout_cohort" value
  | call, b => call.event = some b

theorem Records.eq_of_recordedBy {call : Call} {b : EventBody} (h : Records (b :: X) (recorded :: ps))
    (hb : call.RecordedBy b) : call = recorded.1 := by
  cases call <;> cases h <;> simp_all [Call.RecordedBy, Call.event]

/-- A recorded answer with a value stands in one event after its call. -/
theorem Records.of_json {v : Json} (h : Records X (recorded :: ps))
    (hv : recorded.2.json = some v) :
    ∃ b r Y, X = b :: r :: Y ∧ Records Y ps ∧ recorded.1.event = some b ∧ jsonResult r = some v ∧
      ∀ (e e' : TraceEvent) (step : ℕ), e.body = b → e'.body = r →
        Mutation.validateMutationResultPair e e' step = .ok () := by
  cases h with
  | runStarted | sample | runCompleted => cases hv
  | decidedApproval => cases hv
  | tool h | llm h | approval h =>
    refine ⟨_, _, _, rfl, h, rfl, hv, fun e e' step he he' => ?_⟩
    simp [Mutation.validateMutationResultPair, he, he']

theorem Records.of_isCompletion (h : Records X [recorded]) (hc : recorded.1.isCompletion = true) :
    ∃ ok result error, recorded = (.completeRun ok result error, .unit) ∧
      X = [.runCompleted ok result error] := by
  cases h with
  | runCompleted h =>
    cases h
    exact ⟨_, _, _, rfl, rfl⟩
  | _ => cases hc

variable {events : List TraceEvent} {ε : Type} {c : TraceCursor}

theorem nextApprovalOutcomeEvent_of_undecided {r : EventBody} (h : remaining events c = r :: X)
    (hr : decisionOf r = none) :
    ∃ e c', (nextApprovalOutcomeEvent events : CursorM ε _).run c = .ok (none, e) c' ∧
      e.body = r ∧ remaining events c' = X := by
  obtain ⟨e, c', he, hb, hrest, -⟩ := nextEvent_of_remaining (ε := ε) h
  refine ⟨e, c', ?_, hb, hrest⟩
  rw [nextApprovalOutcomeEvent, Result.run_bind_of_ok he]
  split
  next site args accepted decider rationale hdecision =>
    rw [← hb, hdecision] at hr
    cases hr
  next => rfl

theorem nextApprovalOutcomeEvent_of_decided {r : EventBody} {site : String} {args : List Json}
    {accepted : Bool} {decider : String} {rationale : Option String}
    (h : remaining events c = .approvalDecision site args accepted decider rationale :: r :: X) :
    ∃ e c', (nextApprovalOutcomeEvent events : CursorM ε _).run c =
        .ok (some ⟨accepted, decider, rationale⟩, e) c' ∧ e.body = r ∧ remaining events c' = X := by
  obtain ⟨e, t, he, hb, hrest, -⟩ := nextEvent_of_remaining (ε := ε) h
  obtain ⟨e', c', he', hb', hrest', -⟩ := nextEvent_of_remaining (ε := ε) hrest
  refine ⟨e', c', ?_, hb', hrest'⟩
  rw [nextApprovalOutcomeEvent, Result.run_bind_of_ok he]
  simp only [hb]
  rw [Result.run_bind_of_ok he']
  rfl

/-- A recorded answer that an approval can take, as an approval reads it after the call. -/
theorem Records.of_asOutcome {o : ReplayApprovalOutcome} (events : List TraceEvent) (ε : Type)
    (h : Records X (recorded :: ps))
    (ho : recorded.2.asOutcome = some o) :
    ∃ b Y, X = b :: Y ∧ recorded.1.event = some b ∧ ∀ c, remaining events c = Y →
      ∃ r c', (nextApprovalOutcomeEvent events : CursorM ε _).run c = .ok (o.decision, r) c' ∧
        Records (remaining events c') ps ∧ approvalResult r.body = some o.approved ∧
        ∀ (e : TraceEvent) (step : ℕ), e.body = b →
          Mutation.validateMutationResultPair e r step = .ok () := by
  cases h with
  | runStarted | sample | runCompleted => cases ho
  | decidedApproval h =>
    cases ho
    refine ⟨_, _, rfl, rfl, fun c hc => ?_⟩
    obtain ⟨r, c', hrun, hr, hrest⟩ := nextApprovalOutcomeEvent_of_decided hc
    refine ⟨r, c', hrun, hrest ▸ h, by rw [hr]; rfl, fun e step he => ?_⟩
    simp [Mutation.validateMutationResultPair, he, hr]
  | tool h | llm h | approval h =>
    cases ho
    refine ⟨_, _, rfl, rfl, fun c hc => ?_⟩
    obtain ⟨r, c', hrun, hr, hrest⟩ := nextApprovalOutcomeEvent_of_undecided hc rfl
    refine ⟨r, c', hrun, hrest ▸ h, by rw [hr]; rfl, fun e step he => ?_⟩
    simp [Mutation.validateMutationResultPair, he, hr]

end Pairs

/-! ### A mutated run follows the pairs -/

def ReplayMutationReport.extend (report : ReplayMutationReport) (ds : List MutationDivergence) :
    ReplayMutationReport :=
  { report with divergences := report.divergences ++ ds }

namespace Mutation

variable {src : ReplaySource} {m : ReplayMutation} {s s' : MutationState} {recorded : Call × Answer}
  {ps : List (Call × Answer)}

theorem run_reading {ε α : Type} {fault : ε → MutationFault} {x : CursorM ε α} {a : α} {c : TraceCursor}
    (h : x.run s.cursor = .ok a c) :
    (reading fault x).run s = .ok a { s with cursor := c } := by
  simp only [reading, EStateM.run] at h ⊢
  rw [h]

theorem run_nextStep : nextStep.run s = .ok (s.nextStep + 1) { s with nextStep := s.nextStep + 1 } :=
  rfl

/-- The next event stands in the place of a call. -/
theorem recordedCall_of_remaining {b : EventBody} {X : List EventBody} (step : ℕ)
    (event : EventBody) (got : Got) (call : Call) (h : remaining src.events s.cursor = b :: X)
    (hb : step < m.step1based → b = event) :
    ∃ e c, (recordedCall src m step event got call).run s = .ok e { s with
        cursor := c
        report := s.report.extend (if b = event then [] else [⟨step, got.kind, e, call⟩]) } ∧
      e.body = b ∧ remaining src.events c = X := by
  rw [recordedCall]
  split
  next hstep =>
    obtain rfl := hb hstep
    obtain ⟨e, c, hrun, he, hrest, -⟩ :=
      expectNext_of_remaining (fun e => e.body == b) got h fun e he => by simp [he]
    refine ⟨e, c, ?_, he, hrest⟩
    rw [run_reading hrun, if_pos rfl, ReplayMutationReport.extend, List.append_nil]
  next =>
    obtain ⟨e, c, hrun, he, hrest, -⟩ := nextEvent_of_remaining (ε := Fault) h
    refine ⟨e, c, ?_, he, hrest⟩
    rw [Result.run_bind_of_ok (run_reading hrun)]
    by_cases hevent : b = event
    · rw [if_pos hevent, if_neg (by simp [he, hevent]), ReplayMutationReport.extend, List.append_nil]
      rfl
    · rw [if_neg hevent, if_pos (by simp [he, hevent])]
      rfl

/-- Where the recorded call has the event `b`, the difference of the events is that of the calls. -/
theorem entries_eq {step : ℕ} {event b : EventBody} {kind : String} {call : Call} {e : TraceEvent}
    (hrecorded : recorded.1.event = some b) (hcall : call.event = some event) (hkind : call.kind = kind)
    (he : e.body = b) :
    (if b = event then [] else [(⟨step, kind, e, call⟩ : MutationDivergence)]).map
      MutationDivergence.entry = divergenceOf step recorded.1 call := by
  have hiff : b = event ↔ call = recorded.1 := by
    constructor
    · rintro rfl
      exact Call.event_injective hcall hrecorded
    · rintro rfl
      exact Option.some.inj (hrecorded.symm.trans hcall)
  rw [divergenceOf, hrecorded]
  by_cases h : b = event
  · rw [if_pos h, if_pos (hiff.mp h)]
    rfl
  · rw [if_neg h, if_neg (mt hiff.mpr h)]
    simp [MutationDivergence.entry, he, hkind]

/-- The state after a call that took the pair at the head of the recording. -/
def Took (src : ReplaySource) (recorded call : Call) (ps : List (Call × Answer))
    (s s' : MutationState) : Prop :=
  Records (remaining src.events s'.cursor) ps ∧ s'.nextStep = s.nextStep + 1 ∧
    ∃ ds, s'.report = s.report.extend ds ∧
      ds.map MutationDivergence.entry = divergenceOf (s.nextStep + 1) recorded call

theorem replayedEventJson_of_jsonResult {e : TraceEvent} {v : Json} (h : jsonResult e.body = some v) :
    replayedEventJson e = v := by
  unfold jsonResult at h
  unfold replayedEventJson
  split at h <;> simp_all

section Step

variable {a : Answer}

theorem answer_of_lt {step : ℕ} {call : Call} (hstep : step < m.step1based)
    (h : m.answer step recorded call = some a) (hcall : call.isSubstitutable = true) :
    call = recorded.1 ∧ a = recorded.2 := by
  have hcompletion : call.isCompletion = false := by cases call <;> first | rfl | cases hcall
  rw [ReplayMutation.answer, if_neg (by simp [hstep]), hcompletion] at h
  split at h
  next heq => exact ⟨by simpa using heq, (Option.some.inj h).symm⟩
  next => cases h

theorem answer_of_le {step : ℕ} {call : Call} (hstep : m.step1based ≤ step)
    (hcall : call.isSubstitutable = true) : m.answer step recorded call =
      if step = m.step1based then recorded.2.replacedBy m.replacement call
      else recorded.2.takenBy call := by
  rw [ReplayMutation.answer, if_pos (by simp [hcall, hstep])]

theorem json_of_answer_toolCall {step : ℕ} {tool : String} {args : List Json} {X : List EventBody}
    (hrec : Records X (recorded :: ps))
    (h : m.answer step recorded (.toolCall tool args) = some a) :
    ∃ v, recorded.2.json = some v ∧ a = .value (if step = m.step1based then m.replacement else v) := by
  rcases lt_or_ge step m.step1based with hstep | hstep
  · obtain ⟨heq, rfl⟩ := answer_of_lt hstep h rfl
    cases hrec <;> cases heq
    exact ⟨_, rfl, by rw [if_neg hstep.ne]⟩
  · rw [answer_of_le hstep rfl] at h
    split at h
    next hk =>
      obtain ⟨v, hv, rfl⟩ := Option.map_eq_some_iff.mp h
      exact ⟨v, hv, by rw [if_pos hk]⟩
    next hk =>
      obtain ⟨v, hv, rfl⟩ := Option.map_eq_some_iff.mp h
      exact ⟨v, hv, by rw [if_neg hk]⟩

theorem json_of_answer_llmCall {step : ℕ} {prompt : String} {model version : Option String}
    {rendered : String} {args : List Json} {X : List EventBody} (hrec : Records X (recorded :: ps))
    (h : m.answer step recorded (.llmCall prompt model version rendered args) = some a) :
    ∃ v, recorded.2.json = some v ∧
      a = .response (.new (if step = m.step1based then m.replacement else v) {}) := by
  rcases lt_or_ge step m.step1based with hstep | hstep
  · obtain ⟨heq, rfl⟩ := answer_of_lt hstep h rfl
    cases hrec <;> cases heq
    exact ⟨_, rfl, by rw [if_neg hstep.ne]; rfl⟩
  · rw [answer_of_le hstep rfl] at h
    split at h
    next hk =>
      obtain ⟨v, hv, rfl⟩ := Option.map_eq_some_iff.mp h
      exact ⟨v, hv, by rw [if_pos hk]⟩
    next hk =>
      obtain ⟨v, hv, rfl⟩ := Option.map_eq_some_iff.mp h
      exact ⟨v, hv, by rw [if_neg hk]⟩

theorem outcome_of_answer_approval {step : ℕ} {label : String} {args : List Json}
    {X : List EventBody} (hrec : Records X (recorded :: ps))
    (h : m.answer step recorded (.approval label args) = some a) :
    ∃ o, recorded.2.asOutcome = some o ∧
      if step = m.step1based then
        ∃ approved, m.replacement = .bool approved ∧ a = .outcome { o with approved }
      else a = .outcome o := by
  rcases lt_or_ge step m.step1based with hstep | hstep
  · obtain ⟨heq, rfl⟩ := answer_of_lt hstep h rfl
    cases hrec <;> cases heq
    all_goals exact ⟨_, rfl, by rw [if_neg hstep.ne]⟩
  · rw [answer_of_le hstep rfl] at h
    split at h
    next hk =>
      dsimp only [Answer.replacedBy] at h
      split at h
      next approved hreplacement =>
        obtain ⟨o, ho, rfl⟩ := Option.map_eq_some_iff.mp h
        exact ⟨o, ho, by rw [if_pos hk]; exact ⟨approved, hreplacement, rfl⟩⟩
      next => cases h
    next hk =>
      obtain ⟨o, ho, rfl⟩ := Option.map_eq_some_iff.mp h
      exact ⟨o, ho, by rw [if_neg hk]⟩

variable (hrec : Records (remaining src.events s.cursor) (recorded :: ps))
include hrec

theorem run_replayToolCall {tool : String} {args : List Json}
    (h : m.answer (s.nextStep + 1) recorded (.toolCall tool args) = some a) :
    ∃ v s', (replayToolCall src m tool args).run s = .ok v s' ∧ a = .value v ∧
      Took src recorded.1 (.toolCall tool args) ps s s' := by
  obtain ⟨v, hv, rfl⟩ := json_of_answer_toolCall hrec h
  obtain ⟨b, r, Y, hX, hY, hb, hr, hpair⟩ := hrec.of_json hv
  have hevent (hlt : s.nextStep + 1 < m.step1based) : b = .toolCall tool args := by
    rw [← (answer_of_lt hlt h rfl).1] at hb
    exact (Option.some.inj hb).symm
  obtain ⟨e, t, hcall, he, ht⟩ := recordedCall_of_remaining (m := m)
    (s := { s with nextStep := s.nextStep + 1 }) (s.nextStep + 1) (.toolCall tool args)
    (.toolCall tool args) (.toolCall tool args) hX hevent
  obtain ⟨e', c, hresult, he', hc, -⟩ := nextEvent_of_remaining (ε := Fault) ht
  refine ⟨_, ⟨c, s.nextStep + 1, _⟩, ?_, rfl, hc ▸ hY, rfl, _, rfl, entries_eq hb rfl rfl he⟩
  rw [replayToolCall, Result.run_bind_of_ok run_nextStep, Result.run_bind_of_ok hcall,
    Result.run_bind_of_ok (run_reading hresult)]
  split
  next =>
    rw [Result.run_ofExcept_eq_ok, mutatedJsonResult, hpair e e' _ he he']
    exact ⟨rfl, rfl⟩
  next =>
    rw [replaying, Result.run_ofExcept_eq_ok, replayedJsonResult_eq_ok.mpr (he' ▸ hr)]
    exact ⟨rfl, rfl⟩

theorem run_replayLlmCall {prompt : String} {model version : Option String} {rendered : String}
    {args : List Json}
    (h : m.answer (s.nextStep + 1) recorded (.llmCall prompt model version rendered args) = some a) :
    ∃ r s', (replayLlmCall src m prompt model version rendered args).run s = .ok r s' ∧
      a = .response r ∧
      Took src recorded.1 (.llmCall prompt model version rendered args) ps s s' := by
  obtain ⟨v, hv, rfl⟩ := json_of_answer_llmCall hrec h
  obtain ⟨b, r, Y, hX, hY, hb, hr, hpair⟩ := hrec.of_json hv
  have hevent (hlt : s.nextStep + 1 < m.step1based) :
      b = .llmCall prompt model version (some rendered) args := by
    rw [← (answer_of_lt hlt h rfl).1] at hb
    exact (Option.some.inj hb).symm
  obtain ⟨e, t, hcall, he, ht⟩ := recordedCall_of_remaining (m := m)
    (s := { s with nextStep := s.nextStep + 1 }) (s.nextStep + 1)
    (.llmCall prompt model version (some rendered) args) (.llmCall prompt model args)
    (.llmCall prompt model version rendered args) hX hevent
  obtain ⟨e', c, hresult, he', hc, -⟩ := nextEvent_of_remaining (ε := Fault) ht
  refine ⟨_, ⟨c, s.nextStep + 1, _⟩, ?_, rfl, hc ▸ hY, rfl, _, rfl, entries_eq hb rfl rfl he⟩
  rw [replayLlmCall, Result.run_bind_of_ok run_nextStep, Result.run_bind_of_ok hcall,
    Result.run_bind_of_ok (run_reading hresult)]
  split
  next =>
    rw [Result.run_ofExcept_eq_ok, mutatedLlmResult, mutatedJsonResult, hpair e e' _ he he']
    exact ⟨rfl, rfl⟩
  next =>
    rw [replayedEventJson_of_jsonResult (he' ▸ hr)]
    rfl

theorem run_replayApproval {label : String} {args : List Json}
    (h : m.answer (s.nextStep + 1) recorded (.approval label args) = some a) :
    ∃ o s', (replayApproval src m label args).run s = .ok o s' ∧ a = .outcome o ∧
      Took src recorded.1 (.approval label args) ps s s' := by
  obtain ⟨o, ho, ha⟩ := outcome_of_answer_approval hrec h
  obtain ⟨b, Y, hX, hb, hread⟩ := hrec.of_asOutcome src.events Fault ho
  have hevent (hlt : s.nextStep + 1 < m.step1based) : b = .approvalRequest label args := by
    rw [← (answer_of_lt hlt h rfl).1] at hb
    exact (Option.some.inj hb).symm
  obtain ⟨e, t, hcall, he, ht⟩ := recordedCall_of_remaining (m := m)
    (s := { s with nextStep := s.nextStep + 1 }) (s.nextStep + 1) (.approvalRequest label args)
    (.approvalRequest label args) (.approval label args) hX hevent
  obtain ⟨r, c, houtcome, hY, hr, hpair⟩ := hread t ht
  have hrun : (replayApproval src m label args).run s =
      (if s.nextStep + 1 = m.step1based then
        ofExcept (mutatedApprovalResult m e (o.decision, r))
      else
        replaying (replayedApprovalResult label (o.decision, r)) : MutationM _).run
        ⟨c, s.nextStep + 1, s.report.extend (if b = .approvalRequest label args then [] else
          [⟨s.nextStep + 1, "approval_request", e, .approval label args⟩])⟩ := by
    rw [replayApproval, Result.run_bind_of_ok run_nextStep, Result.run_bind_of_ok hcall,
      Result.run_bind_of_ok (run_reading houtcome)]
    rfl
  rw [hrun]
  have htook (d) (hd : d = if b = .approvalRequest label args then [] else
      [⟨s.nextStep + 1, "approval_request", e, .approval label args⟩]) :
      d.map MutationDivergence.entry =
        divergenceOf (s.nextStep + 1) recorded.1 (.approval label args) := by
    rw [hd]
    exact entries_eq hb rfl rfl he
  split at ha
  next hk =>
    obtain ⟨approved, hreplacement, rfl⟩ := ha
    refine ⟨_, ⟨c, s.nextStep + 1, _⟩, ?_, rfl, hY, rfl, _, rfl, htook _ rfl⟩
    rw [if_pos hk, Result.run_ofExcept_eq_ok, mutatedApprovalResult, hpair e _ he, hreplacement]
    exact ⟨rfl, rfl⟩
  next hk =>
    refine ⟨o, ⟨c, s.nextStep + 1, _⟩, ?_, ha, hY, rfl, _, rfl, htook _ rfl⟩
    rw [if_neg hk, replaying, Result.run_ofExcept_eq_ok,
      replayedApprovalResult_eq_ok.mpr ⟨hr, rfl⟩]
    exact ⟨rfl, rfl⟩

end Step

/-- The end of a run, where the recording ends too. -/
theorem run_completeRun {ok' : Bool} {result' : Option Json} {error' : Option String} (ok : Bool)
    (result : Option Json) (error : Option String)
    (h : remaining src.events s.cursor = [.runCompleted ok' result' error']) :
    ∃ c d, (completeRun src ok result error).run s = .ok () { s with
        cursor := c
        report := if ok' ≠ ok ∨ result' ≠ result ∨ error' ≠ error then
          { s.report with runCompletionDivergence := some d } else s.report } ∧
      remaining src.events c = [] ∧
      d.ends = (.completeRun ok' result' error', .completeRun ok result error) := by
  obtain ⟨e, t, hevent, he, ht, hvalid⟩ := nextEvent_of_remaining (ε := Fault) h
  obtain ⟨c, hfinish⟩ := finish_of_remaining hvalid ht
  refine ⟨c, ⟨s.cursor.next + 1, ok', result', error', ok, result, error⟩, ?_,
    (finish_eq_ok hfinish).2.1, rfl⟩
  rw [completeRun, Result.run_bind_of_ok (EStateM.run_get s), Result.run_bind_of_ok (run_reading hevent)]
  simp only [he]
  split
  next =>
    rw [recordMutationRunCompletionDivergence, Result.run_bind_of_ok (EStateM.run_modify _ _)]
    exact run_reading hfinish
  next => exact run_reading hfinish

/-- What a call in the place of a recorded pair leaves behind. -/
structure Follows (src : ReplaySource) (recorded : Call × Answer) (ps : List (Call × Answer))
    (call : Call) (s s' : MutationState) : Prop where
  records : Records (remaining src.events s'.cursor) ps
  nextStep : s'.nextStep = if call.isSubstitutable then s.nextStep + 1 else s.nextStep
  divergences : s'.report.divergences.map MutationDivergence.entry =
    s.report.divergences.map MutationDivergence.entry ++
      if call.isSubstitutable then divergenceOf (s.nextStep + 1) recorded.1 call else []
  completion : s'.report.runCompletionDivergence.map RunCompletionDivergence.ends =
    if call.isCompletion = true ∧ recorded.1 ≠ call then some (recorded.1, call)
    else s.report.runCompletionDivergence.map RunCompletionDivergence.ends

theorem Took.follows {call : Call} (h : Took src recorded.1 call ps s s')
    (hcall : call.isSubstitutable = true) : Follows src recorded ps call s s' := by
  obtain ⟨hrecords, hstep, ds, hreport, hds⟩ := h
  have hcompletion : call.isCompletion = false := by cases call <;> first | rfl | cases hcall
  constructor
  · exact hrecords
  · rw [if_pos hcall, hstep]
  · rw [if_pos hcall, hreport, ReplayMutationReport.extend, List.map_append, hds]
  · rw [if_neg (by simp [hcompletion]), hreport, ReplayMutationReport.extend]

/-- A call in the place of a recorded pair is answered from it, and what differs is put on record. -/
theorem run_serve {call : Call} {a : Answer}
    (hrec : Records (remaining src.events s.cursor) (recorded :: ps))
    (h : m.answer (if call.isSubstitutable then s.nextStep + 1 else s.nextStep) recorded call = some a)
    (hend : call.isCompletion = true → ps = []) :
    ∃ s', (serve src m call).run s = .ok a s' ∧ Follows src recorded ps call s s' := by
  cases call with
  | toolCall tool args =>
    obtain ⟨v, s', hrun, rfl, htook⟩ := run_replayToolCall hrec h
    exact ⟨s', by rw [serve, Result.run_bind_of_ok hrun]; rfl, htook.follows rfl⟩
  | llmCall prompt model version rendered args =>
    obtain ⟨r, s', hrun, rfl, htook⟩ := run_replayLlmCall hrec h
    exact ⟨s', by rw [serve, Result.run_bind_of_ok hrun]; rfl, htook.follows rfl⟩
  | approval label args =>
    obtain ⟨o, s', hrun, rfl, htook⟩ := run_replayApproval hrec h
    exact ⟨s', by rw [serve, Result.run_bind_of_ok hrun]; rfl, htook.follows rfl⟩
  | prepareRun agent args =>
    obtain ⟨heq, rfl⟩ : Call.prepareRun agent args = recorded.1 ∧ recorded.2 = a := by
      simpa [ReplayMutation.answer, Call.isSubstitutable, Call.isCompletion] using h
    generalize hX : remaining src.events s.cursor = X at hrec
    cases hrec <;> cases heq
    next hrest =>
      obtain ⟨c, hrun, hc, -⟩ := prepareRun_of_remaining hX
      refine ⟨_, by rw [serve, Result.run_bind_of_ok (run_reading hrun)]; rfl, ?_⟩
      exact ⟨hc ▸ hrest, rfl, by simp [Call.isSubstitutable], by simp [Call.isCompletion]⟩
  | rolloutSample =>
    obtain ⟨heq, rfl⟩ : Call.rolloutSample = recorded.1 ∧ recorded.2 = a := by
      simpa [ReplayMutation.answer, Call.isSubstitutable, Call.isCompletion] using h
    generalize hX : remaining src.events s.cursor = X at hrec
    cases hrec <;> cases heq
    next hrest =>
      obtain ⟨c, hrun, hc, -⟩ := replayRolloutSample_of_remaining hX
      refine ⟨_, by rw [serve, Result.run_bind_of_ok (run_reading hrun)]; rfl, ?_⟩
      exact ⟨hc ▸ hrest, rfl, by simp [Call.isSubstitutable], by simp [Call.isCompletion]⟩
  | completeRun ok result error =>
    obtain rfl := hend rfl
    obtain ⟨hcompletion, rfl⟩ : recorded.1.isCompletion = true ∧ recorded.2 = a := by
      have hcompletion (heq : Call.completeRun ok result error = recorded.1) :
          recorded.1.isCompletion = true := heq ▸ rfl
      rw [ReplayMutation.answer, if_neg (by simp [Call.isSubstitutable])] at h
      split at h
      next hor => exact ⟨hor.elim hcompletion (by simp), Option.some.inj h⟩
      next => cases h
    obtain ⟨ok', result', error', rfl, hX⟩ := hrec.of_isCompletion hcompletion
    obtain ⟨c, d, hrun, hc, hd⟩ := run_completeRun ok result error hX
    refine ⟨_, by rw [serve, Result.run_bind_of_ok hrun]; rfl, ?_⟩
    constructor
    · rw [hc]
      exact .nil
    · rfl
    · split <;> simp [Call.isSubstitutable]
    · by_cases hdiffer : ok' ≠ ok ∨ result' ≠ result ∨ error' ≠ error
      · rw [if_pos hdiffer, if_pos]
        · exact congrArg some hd
        · refine ⟨rfl, fun heq => ?_⟩
          cases heq
          simp at hdiffer
      · rw [if_neg hdiffer, if_neg]
        push Not at hdiffer
        obtain ⟨rfl, rfl, rfl⟩ := hdiffer
        simp

/-- The calls of a mutated replay, in the places of the pairs `ps` of the recording. -/
theorem run_replayCalls {calls : List Call} {answers : List Answer}
    (hrec : Records (remaining src.events s.cursor) ps)
    (h : m.answers s.nextStep ps calls = some answers) :
    ∃ s', (replayCalls src m calls).run s = .ok answers s' ∧
      s'.report.divergences.map MutationDivergence.entry =
        s.report.divergences.map MutationDivergence.entry ++ divergencesOf s.nextStep ps calls ∧
      s'.report.runCompletionDivergence.map RunCompletionDivergence.ends =
        (completionDivergence ps calls).or
          (s.report.runCompletionDivergence.map RunCompletionDivergence.ends) := by
  induction calls generalizing s ps answers with
  | nil =>
    rw [ReplayMutation.answers] at h
    obtain rfl := Option.some.inj h
    refine ⟨s, rfl, ?_, ?_⟩
    · cases ps <;> simp [divergencesOf]
    · simp [completionDivergence]
  | cons call calls ih =>
    cases ps with
    | nil => cases h
    | cons recorded ps =>
      rw [ReplayMutation.answers] at h
      split at h
      next => cases h
      next hlast =>
        obtain ⟨a, ha, h⟩ := Option.bind_eq_some_iff.mp h
        obtain ⟨rest, hrest, h⟩ := Option.bind_eq_some_iff.mp h
        obtain rfl := Option.some.inj h
        have hend : call.isCompletion = true → ps = [] := by simpa using hlast
        obtain ⟨t, hcall, hf⟩ := run_serve hrec ha hend
        rw [← hf.nextStep] at hrest
        obtain ⟨s', hrun, hdivergences, hcompletion⟩ := ih hf.records hrest
        refine ⟨s', ?_, ?_, ?_⟩
        · rw [replayCalls, Result.run_bind_of_ok hcall, Result.run_bind_of_ok hrun]
          rfl
        · rw [hdivergences, hf.divergences, hf.nextStep, divergencesOf]
          cases hs : call.isSubstitutable <;> simp
        · rw [hcompletion, hf.completion, completionDivergence, completionDivergence, List.map_cons,
            List.zip_cons_cons, List.find?_cons]
          by_cases hdiffer : call.isCompletion = true ∧ recorded.1 ≠ call
          · -- the run ends here
            obtain rfl := hend hdiffer.1
            rw [if_pos hdiffer]
            simp [hdiffer.1, hdiffer.2]
          · rw [if_neg hdiffer]
            have hno : (call.isCompletion && decide (recorded.1 ≠ call)) = false := by
              simpa using hdiffer
            rw [hno]

/-! ### An empty report -/

/-- A computation that puts nothing on record. -/
def KeepsReport {α : Type} (x : MutationM α) : Prop :=
  ∀ s a s', x.run s = .ok a s' → s'.report = s.report

theorem run_reading_eq_ok {ε α : Type} {fault : ε → MutationFault} {x : CursorM ε α} {a : α}
    (h : (reading fault x).run s = .ok a s') :
    ∃ c, x.run s.cursor = .ok a c ∧ s' = { s with cursor := c } := by
  simp only [reading, EStateM.run] at h
  split at h
  next a' c hx =>
    obtain ⟨rfl, rfl⟩ := EStateM.Result.ok.inj h
    exact ⟨c, hx, rfl⟩
  next => cases h

theorem keepsReport_reading {ε α : Type} (fault : ε → MutationFault) (x : CursorM ε α) :
    KeepsReport (reading fault x) := by
  intro s a s' h
  obtain ⟨c, -, rfl⟩ := run_reading_eq_ok h
  rfl

theorem keepsReport_ofExcept {α : Type} (x : Except MutationFault α) :
    KeepsReport (ofExcept x : MutationM α) := by
  intro s a s' h
  obtain ⟨-, rfl⟩ := Result.run_ofExcept_eq_ok.mp h
  rfl

theorem keepsReport_pure {α : Type} (a : α) : KeepsReport (pure a : MutationM α) := by
  intro s b s' h
  obtain ⟨-, rfl⟩ := Result.run_pure_eq_ok.mp h
  rfl

theorem KeepsReport.bind {α β : Type} {x : MutationM α} {f : α → MutationM β} (hx : KeepsReport x)
    (hf : ∀ a, KeepsReport (f a)) : KeepsReport (x >>= f) := by
  intro s b s' h
  obtain ⟨a, t, ha, hb⟩ := Result.run_bind_eq_ok.mp h
  exact (hf a _ _ _ hb).trans (hx _ _ _ ha)

/-- The report is empty after a step only if it was before and the step stood for itself. -/
theorem recordedCall_isEmpty {step : ℕ} {event : EventBody} {got : Got} {call : Call} {e : TraceEvent}
    (h : (recordedCall src m step event got call).run s = .ok e s') (hevent : event ≠ eof.body)
    (hempty : s'.report.isEmpty = true) :
    s.report.isEmpty = true ∧ ∃ X, remaining src.events s.cursor = event :: X := by
  rw [recordedCall] at h
  split at h
  next =>
    obtain ⟨c, hrun, rfl⟩ := run_reading_eq_ok h
    exact ⟨hempty, _, expectNext_body hrun hevent⟩
  next =>
    obtain ⟨e', t, hread, h⟩ := Result.run_bind_eq_ok.mp h
    obtain ⟨c, hrun, rfl⟩ := run_reading_eq_ok hread
    dsimp only at h
    split at h
    next =>
      obtain ⟨_, t, hnote, h⟩ := Result.run_bind_eq_ok.mp h
      obtain ⟨-, rfl⟩ := Result.run_pure_eq_ok.mp h
      obtain ⟨-, rfl⟩ := EStateM.Result.ok.inj hnote
      simp [ReplayMutationReport.isEmpty] at hempty
    next heq =>
      obtain ⟨-, rfl⟩ := Result.run_pure_eq_ok.mp h
      have heq : e'.body = event := by simpa using heq
      refine ⟨hempty, remaining src.events c, ?_⟩
      rw [(nextEvent_eq_ok hrun).of_ne_eof (heq ▸ hevent), heq]

/-- The common part of the calls that a mutation can meet. -/
theorem step_isEmpty {α : Type} {event : EventBody} {got : Got} {call : Call}
    {rest : ℕ → TraceEvent → MutationM α} {a : α}
    (h : (nextStep >>= fun step => recordedCall src m step event got call >>= rest step).run s =
      .ok a s') (hrest : ∀ step e, KeepsReport (rest step e)) (hevent : event ≠ eof.body)
    (hempty : s'.report.isEmpty = true) :
    s.report.isEmpty = true ∧ ∃ X, remaining src.events s.cursor = event :: X := by
  rw [Result.run_bind_of_ok run_nextStep] at h
  obtain ⟨e, t, hcall, h⟩ := Result.run_bind_eq_ok.mp h
  rw [hrest _ e _ _ _ h] at hempty
  exact recordedCall_isEmpty (s := { s with nextStep := s.nextStep + 1 }) hcall hevent hempty

/-- A run can only complete on the last event of the recording. -/
theorem completeRun_eq_ok {ok : Bool} {result : Option Json} {error : Option String}
    (h : (completeRun src ok result error).run s = .ok () s') :
    ∃ b, remaining src.events s.cursor = [b] ∧ (s'.report.isEmpty = true →
      s.report.isEmpty = true ∧ b = .runCompleted ok result error) := by
  rw [completeRun, Result.run_bind_of_ok (EStateM.run_get s)] at h
  obtain ⟨e, t, hread, h⟩ := Result.run_bind_eq_ok.mp h
  obtain ⟨c, hrun, rfl⟩ := run_reading_eq_ok hread
  have hlast {c'} (hfinish : (finish src.events).run c = .ok () c') :
      remaining src.events s.cursor = [e.body] := by
    obtain ⟨hend, -, hle⟩ := finish_eq_ok hfinish
    rcases nextEvent_eq_ok hrun with hr | ⟨-, -, hlt⟩
    · rw [hr, hend]
    · exact absurd hle (by omega)
  dsimp only at h
  split at h
  next ok' result' error' hbody =>
    split at h
    next =>
      obtain ⟨_, t, hnote, h⟩ := Result.run_bind_eq_ok.mp h
      obtain ⟨-, rfl⟩ := EStateM.Result.ok.inj hnote
      obtain ⟨c', hfinish, rfl⟩ := run_reading_eq_ok h
      refine ⟨_, hlast hfinish, fun hempty => ?_⟩
      simp [ReplayMutationReport.isEmpty] at hempty
    next hsame =>
      obtain ⟨c', hfinish, rfl⟩ := run_reading_eq_ok h
      refine ⟨_, hlast hfinish, fun hempty => ⟨hempty, ?_⟩⟩
      push Not at hsame
      obtain ⟨rfl, rfl, rfl⟩ := hsame
      exact hbody
  next =>
    obtain ⟨_, t, hget, h⟩ := Result.run_bind_eq_ok.mp h
    obtain ⟨_, _, hthrow, -⟩ := Result.run_bind_eq_ok.mp h
    cases hthrow

/-- The report is empty after a call only if it was before and the call was the next one of the
recording. -/
theorem serve_isEmpty {call : Call} {a : Answer} (h : (serve src m call).run s = .ok a s')
    (hempty : s'.report.isEmpty = true) : s.report.isEmpty = true ∧
      ∃ b X, remaining src.events s.cursor = b :: X ∧ call.RecordedBy b := by
  cases call with
  | prepareRun agent args =>
    obtain ⟨_, t, hrun, h⟩ := Result.run_bind_eq_ok.mp h
    obtain ⟨-, rfl⟩ := Result.run_pure_eq_ok.mp h
    obtain ⟨c, hstart, rfl⟩ := run_reading_eq_ok hrun
    exact ⟨hempty, _, _, prepareRun_eq_ok hstart, rfl⟩
  | rolloutSample =>
    obtain ⟨n, t, hrun, h⟩ := Result.run_bind_eq_ok.mp h
    obtain ⟨-, rfl⟩ := Result.run_pure_eq_ok.mp h
    obtain ⟨c, hsample, rfl⟩ := run_reading_eq_ok hrun
    exact ⟨hempty, _, _, replayRolloutSample_eq_ok hsample, n, rfl⟩
  | completeRun ok result error =>
    obtain ⟨_, t, hrun, h⟩ := Result.run_bind_eq_ok.mp h
    obtain ⟨-, rfl⟩ := Result.run_pure_eq_ok.mp h
    obtain ⟨b, hb, hreport⟩ := completeRun_eq_ok hrun
    obtain ⟨hs, rfl⟩ := hreport hempty
    exact ⟨hs, _, _, hb, rfl⟩
  | toolCall tool args =>
    obtain ⟨v, t, hrun, h⟩ := Result.run_bind_eq_ok.mp h
    obtain ⟨-, rfl⟩ := Result.run_pure_eq_ok.mp h
    obtain ⟨hs, X, hX⟩ := step_isEmpty hrun (fun step e => (keepsReport_reading _ _).bind fun r => by
      split
      next => exact keepsReport_ofExcept _
      next => exact keepsReport_ofExcept _) (by simp [eof]) hempty
    exact ⟨hs, _, X, hX, rfl⟩
  | llmCall prompt model version rendered args =>
    obtain ⟨v, t, hrun, h⟩ := Result.run_bind_eq_ok.mp h
    obtain ⟨-, rfl⟩ := Result.run_pure_eq_ok.mp h
    obtain ⟨hs, X, hX⟩ := step_isEmpty hrun (fun step e => (keepsReport_reading _ _).bind fun r => by
      split
      next => exact keepsReport_ofExcept _
      next => exact keepsReport_pure _) (by simp [eof]) hempty
    exact ⟨hs, _, X, hX, rfl⟩
  | approval label args =>
    obtain ⟨o, t, hrun, h⟩ := Result.run_bind_eq_ok.mp h
    obtain ⟨-, rfl⟩ := Result.run_pure_eq_ok.mp h
    obtain ⟨hs, X, hX⟩ := step_isEmpty hrun (fun step e => (keepsReport_reading _ _).bind fun r => by
      split
      next => exact keepsReport_ofExcept _
      next => exact keepsReport_ofExcept _) (by simp [eof]) hempty
    exact ⟨hs, _, X, hX, rfl⟩

theorem replayCalls_isEmpty {calls : List Call} {answers : List Answer}
    (h : (replayCalls src m calls).run s = .ok answers s') (hempty : s'.report.isEmpty = true) :
    s.report.isEmpty = true := by
  induction calls generalizing s answers with
  | nil =>
    obtain ⟨-, rfl⟩ := Result.run_pure_eq_ok.mp h
    exact hempty
  | cons call calls ih =>
    obtain ⟨a, t, hcall, h⟩ := Result.run_bind_eq_ok.mp h
    obtain ⟨rest, u, hrest, h⟩ := Result.run_bind_eq_ok.mp h
    obtain ⟨-, rfl⟩ := Result.run_pure_eq_ok.mp h
    exact (serve_isEmpty hcall (ih hrest)).1

/-- An approval is replaced by a truth value. -/
theorem bool_of_replayApproval {label : String} {args : List Json} {o : ReplayApprovalOutcome}
    (h : (replayApproval src m label args).run s = .ok o s') (hk : s.nextStep + 1 = m.step1based) :
    ∃ approved, m.replacement = .bool approved := by
  rw [replayApproval, Result.run_bind_of_ok run_nextStep] at h
  obtain ⟨e, t, -, h⟩ := Result.run_bind_eq_ok.mp h
  obtain ⟨r, u, -, h⟩ := Result.run_bind_eq_ok.mp h
  rw [if_pos hk] at h
  obtain ⟨hr, -⟩ := Result.run_ofExcept_eq_ok.mp h
  obtain ⟨_, -, hr⟩ := Result.bind_eq_ok.mp hr
  split at hr
  next approved hreplacement => exact ⟨approved, hreplacement⟩
  next => cases hr

/-- The recorded call is answered, except an approval by what is no truth value. -/
theorem answer_self {X : List EventBody} (hrec : Records X (recorded :: ps)) (step : ℕ)
    (happroval : ∀ label args, recorded.1 = .approval label args → step = m.step1based →
      ∃ approved, m.replacement = .bool approved) :
    ∃ a, m.answer step recorded recorded.1 = some a := by
  rcases lt_or_ge step m.step1based with hstep | hstep
  · exact ⟨_, by rw [ReplayMutation.answer, if_neg (by simp [hstep]), if_pos (.inl rfl)]⟩
  by_cases hk : step = m.step1based
  · subst hk
    cases hrec with
    | approval | decidedApproval =>
      obtain ⟨approved, hreplacement⟩ := happroval _ _ rfl rfl
      exact ⟨_, by rw [answer_of_le le_rfl rfl, if_pos rfl, hreplacement]; rfl⟩
    | tool | llm => exact ⟨_, by rw [answer_of_le le_rfl rfl, if_pos rfl]; rfl⟩
    | runStarted | sample | runCompleted =>
      exact ⟨_, by simp [ReplayMutation.answer, Call.isSubstitutable]; rfl⟩
  · cases hrec with
    | approval | decidedApproval | tool | llm =>
      exact ⟨_, by rw [answer_of_le hstep rfl, if_neg hk]; rfl⟩
    | runStarted | sample | runCompleted =>
      exact ⟨_, by simp [ReplayMutation.answer, Call.isSubstitutable]; rfl⟩

/-- A call that was answered, and that is the one of the recorded pair in its place, followed the
pair. -/
theorem follows_of_run {a : Answer} (hrec : Records (remaining src.events s.cursor) (recorded :: ps))
    (h : (serve src m recorded.1).run s = .ok a s') :
    Follows src recorded ps recorded.1 s s' ∧ (recorded.1.isCompletion = true → ps = []) := by
  have hend : recorded.1.isCompletion = true → ps = [] := by
    intro hcompletion
    cases hcall : recorded.1 with
    | completeRun ok result error =>
      rw [hcall] at h
      obtain ⟨_, t, hrun, -⟩ := Result.run_bind_eq_ok.mp h
      obtain ⟨b, hb, -⟩ := completeRun_eq_ok hrun
      rw [hb] at hrec
      cases hrec with
      | sample | runStarted => cases hcompletion
      | runCompleted hnil =>
        cases hnil
        rfl
    | _ =>
      rw [hcall] at hcompletion
      cases hcompletion
  refine ⟨?_, hend⟩
  obtain ⟨b, hb⟩ : ∃ b, m.answer
      (if recorded.1.isSubstitutable then s.nextStep + 1 else s.nextStep) recorded recorded.1 = some b := by
    refine answer_self hrec _ fun label args hcall hk => ?_
    rw [hcall] at h hk
    obtain ⟨o, t, hrun, -⟩ := Result.run_bind_eq_ok.mp h
    exact bool_of_replayApproval hrun hk
  obtain ⟨t, hrun, hf⟩ := run_serve hrec hb hend
  rw [h] at hrun
  obtain ⟨-, rfl⟩ := EStateM.Result.ok.inj hrun
  exact hf

/-- The report of a mutated replay that returned normally, with the pairs `ps` before it. -/
theorem isEmpty_iff_prefix {calls : List Call} {answers : List Answer}
    (hrec : Records (remaining src.events s.cursor) ps) (hs : s.report.isEmpty = true)
    (h : (replayCalls src m calls).run s = .ok answers s') :
    s'.report.isEmpty = true ↔ calls <+: ps.map Prod.fst := by
  induction calls generalizing s ps answers with
  | nil =>
    obtain ⟨-, rfl⟩ := Result.run_pure_eq_ok.mp h
    exact iff_of_true hs List.nil_prefix
  | cons call calls ih =>
    obtain ⟨a, t, hcall, h⟩ := Result.run_bind_eq_ok.mp h
    obtain ⟨rest, u, hrest, h⟩ := Result.run_bind_eq_ok.mp h
    obtain ⟨-, rfl⟩ := Result.run_pure_eq_ok.mp h
    -- a call that is the recorded one leaves the report empty
    have hsame (recorded ps') (hps : ps = recorded :: ps') (heq : call = recorded.1) :
        u.report.isEmpty = true ↔ calls <+: ps'.map Prod.fst := by
      subst hps heq
      obtain ⟨hf, -⟩ := follows_of_run hrec hcall
      refine ih hf.records ?_ hrest
      have hdivergences := hf.divergences
      have hcompletion := hf.completion
      simp_all [ReplayMutationReport.isEmpty, divergenceOf]
    cases ps with
    | nil =>
      refine iff_of_false (fun hempty => ?_) (by simp)
      obtain ⟨-, b, X, hX, -⟩ := serve_isEmpty hcall (replayCalls_isEmpty hrest hempty)
      rw [hX] at hrec
      cases hrec
    | cons recorded ps =>
      rw [List.map_cons, List.cons_prefix_cons]
      constructor
      · intro hempty
        obtain ⟨-, b, X, hX, hb⟩ := serve_isEmpty hcall (replayCalls_isEmpty hrest hempty)
        have heq : call = recorded.1 := by
          rw [hX] at hrec
          exact hrec.eq_of_recordedBy hb
        exact ⟨heq, (hsame recorded ps rfl heq).mp hempty⟩
      · rintro ⟨heq, hprefix⟩
        exact (hsame recorded ps rfl heq).mpr hprefix

section Loaded

variable {path replayWriter : String} {events : List TraceEvent} {calls : List Call}
  {answers : List Answer}

/-- The report of a mutated replay that returned normally is empty if and only if the program made
the recorded calls, as far as it came. -/
theorem isEmpty_report_iff {s : MutationState}
    (hload : loadMutated path m events replayWriter = .ok src)
    (hrec : Records (executable (events.dropWhile isInitialMetadata)) ps)
    (hrun : (replayCalls src m calls).run { cursor := src.cursor } = .ok answers s) :
    s.report.isEmpty = true ↔ calls <+: ps.map Prod.fst := by
  obtain ⟨rfl, hstart⟩ := load_eq_ok (loadMutated_eq_ok.mp hload).1
  rw [← hstart] at hrec
  exact isEmpty_iff_prefix (s := { cursor := src.cursor }) hrec rfl hrun

end Loaded

end Mutation

theorem isEmpty_report_driftTrace_iff :
    ({ } : ReplayMutationReport).isEmpty = true ↔
      [Call.prepareRun "drift_bot" [],
        .llmCall "choose_label" (some "mock-1") none "Choose label." []] <+: driftPairs.map Prod.fst := by
  have hload : loadMutated "drift.jsonl" driftMutation driftTrace writerInterpreter = .ok driftSource :=
    rfl
  have hrun : (Mutation.replayCalls driftSource driftMutation
      [.prepareRun "drift_bot" [], .llmCall "choose_label" (some "mock-1") none "Choose label." []]).run
        { cursor := ⟨2⟩ } =
      .ok [.unit, .response (.new (.string "vip") {})] ⟨⟨6⟩, 1, {}⟩ := rfl
  exact Mutation.isEmpty_report_iff hload records_driftTrace hrun

end Corvid.Replay
