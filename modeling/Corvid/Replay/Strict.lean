import Corvid.Replay.Source

/-!
# What a successful replay has seen

A program that runs against a recording issues calls and receives answers. `Records` pairs the
calls of a recording with their results, reading the recording from front to back and leaving
nothing out. The calls of a replay that completed are those of the recording exactly where every
tool call and every approval of the recording is followed by its own result: the results of these
two kinds are taken without comparing the tool or the label.

## Main definitions

* `Call`, `Answer`, `replayCalls`: a program as the sequence of its calls
* `Records`: the call/result pairs of a recording
* `WellPaired`: every tool call and approval is followed by its own result

## Main results

* `replayCalls_eq_ok`: the part of the recording that a replay consumed
* `records_replayCalls_iff`: when a completed replay has seen the recorded pairs
-/

namespace Corvid.Replay

/-- A call of the program into the source. -/
inductive Call where
  | prepareRun (agent : String) (args : List Json)
  | toolCall (tool : String) (args : List Json)
  | llmCall (prompt : String) (model modelVersion : Option String) (rendered : String)
      (args : List Json)
  | approval (label : String) (args : List Json)
  | rolloutSample
  | completeRun (ok : Bool) (result : Option Json) (error : Option String)
deriving DecidableEq, Repr

inductive Answer where
  | unit
  | value (v : Json)
  | response (r : LlmResponse)
  | outcome (o : ReplayApprovalOutcome)
  | sample (n : ℕ)
deriving DecidableEq, Repr

/-- A call that can only fail with an error. -/
def answering {α : Type} (f : α → Answer) (x : CursorM RuntimeError α) : CursorM Fault Answer := do
  let a ← x.adaptExcept Fault.error
  return f a

def Call.run (src : ReplaySource) : Call → CursorM Fault Answer
  | prepareRun agent args => answering (fun _ => .unit) (Replay.prepareRun src agent args)
  | toolCall tool args => answering .value (replayToolCall src tool args)
  | llmCall prompt model version rendered args =>
    answering .response (replayLlmCall src prompt model version rendered args)
  | approval label args => answering .outcome (replayApproval src label args)
  | rolloutSample => answering .sample (replayRolloutSample src)
  | completeRun ok result error => do
    Replay.completeRun src ok result error
    return .unit

/-- The answers to a sequence of calls that all return normally. -/
def replayCalls (src : ReplaySource) : List Call → CursorM Fault (List Answer)
  | [] => return []
  | call :: calls => do
    let answer ← call.run src
    let answers ← replayCalls src calls
    return answer :: answers

/-- The call/result pairs of a recording: a call is followed by the result of the same tool, of
the same prompt and model, or with the same label. An approval may have a decision before its
response. -/
inductive Records : List EventBody → List (Call × Answer) → Prop
  | nil : Records [] []
  | runStarted {agent args X ps} : Records X ps →
      Records (.runStarted agent args :: X) ((.prepareRun agent args, .unit) :: ps)
  | tool {tool args result X ps} : Records X ps →
      Records (.toolCall tool args :: .toolResult tool result :: X)
        ((.toolCall tool args, .value result) :: ps)
  | llm {prompt model version rendered args result X ps} : Records X ps →
      Records (.llmCall prompt model version (some rendered) args ::
          .llmResult prompt model version result :: X)
        ((.llmCall prompt model version rendered args, .response (.new result {})) :: ps)
  | approval {label args approved X ps} : Records X ps →
      Records (.approvalRequest label args :: .approvalResponse label approved :: X)
        ((.approval label args, .outcome ⟨approved, none⟩) :: ps)
  | decidedApproval {label args site siteArgs accepted decider rationale approved X ps} :
      Records X ps →
      Records (.approvalRequest label args ::
          .approvalDecision site siteArgs accepted decider rationale ::
          .approvalResponse label approved :: X)
        ((.approval label args, .outcome ⟨approved, some ⟨accepted, decider, rationale⟩⟩) :: ps)
  | sample {value X ps} : Records X ps →
      Records (.seedRead "rollout_cohort" value :: X) ((.rolloutSample, .sample value) :: ps)
  | runCompleted {ok result error X ps} : Records X ps →
      Records (.runCompleted ok result error :: X) ((.completeRun ok result error, .unit) :: ps)

/-- A recording determines its pairs. -/
theorem Records.unique {X : List EventBody} {ps qs : List (Call × Answer)} (h : Records X ps)
    (h' : Records X qs) : ps = qs := by
  induction h generalizing qs with
  | nil => cases h'; rfl
  | runStarted _ ih => cases h' with | runStarted h' => rw [ih h']
  | tool _ ih => cases h' with | tool h' => rw [ih h']
  | llm _ ih => cases h' with | llm h' => rw [ih h']
  | approval _ ih => cases h' with | approval h' => rw [ih h']
  | decidedApproval _ ih => cases h' with | decidedApproval h' => rw [ih h']
  | sample _ ih => cases h' with | sample h' => rw [ih h']
  | runCompleted _ ih => cases h' with | runCompleted h' => rw [ih h']

theorem Records.append {X Y : List EventBody} {ps qs : List (Call × Answer)} (h : Records X ps)
    (h' : Records Y qs) : Records (X ++ Y) (ps ++ qs) := by
  induction h with
  | nil => exact h'
  | runStarted _ ih => exact .runStarted ih
  | tool _ ih => exact .tool ih
  | llm _ ih => exact .llm ih
  | approval _ ih => exact .approval ih
  | decidedApproval _ ih => exact .decidedApproval ih
  | sample _ ih => exact .sample ih
  | runCompleted _ ih => exact .runCompleted ih

/-- The event after a tool call is a result of the same tool, and an approval is followed by a
response with the same label, possibly after a decision. -/
def Answered : EventBody → List EventBody → Prop
  | .toolCall tool _, X => ∃ result Y, X = .toolResult tool result :: Y
  | .approvalRequest label _, X => ∃ approved Y, X = .approvalResponse label approved :: Y ∨
      ∃ d, decisionOf d ≠ none ∧ X = d :: .approvalResponse label approved :: Y
  | _, _ => True

/-- Every tool call and every approval of the recording is answered by its own result. -/
def WellPaired : List EventBody → Prop
  | [] => True
  | b :: X => Answered b X ∧ WellPaired X

theorem WellPaired.of_append {X Y : List EventBody} (h : WellPaired (X ++ Y)) : WellPaired Y := by
  induction X with
  | nil => exact h
  | cons b X ih => exact ih h.2

theorem Records.wellPaired {X : List EventBody} {ps : List (Call × Answer)} (h : Records X ps) :
    WellPaired X := by
  induction h with
  | nil => trivial
  | runStarted _ ih | sample _ ih | runCompleted _ ih => exact ⟨trivial, ih⟩
  | tool _ ih => exact ⟨⟨_, _, rfl⟩, trivial, ih⟩
  | llm _ ih => exact ⟨trivial, trivial, ih⟩
  | approval _ ih => exact ⟨⟨_, _, .inl rfl⟩, trivial, ih⟩
  | decidedApproval _ ih =>
    refine ⟨⟨_, _, .inr ⟨_, ?_, rfl⟩⟩, trivial, trivial, ih⟩
    exact Option.some_ne_none _

variable {src : ReplaySource} {c c' : TraceCursor}

theorem answering_eq_ok {α : Type} {f : α → Answer} {x : CursorM RuntimeError α} {answer : Answer}
    (h : (answering f x).run c = .ok answer c') :
    ∃ a, x.run c = .ok a c' ∧ answer = f a := by
  obtain ⟨a, t, ha, h⟩ := Result.run_bind_eq_ok.mp h
  rw [Result.run_adaptExcept_eq_ok] at ha
  obtain ⟨rfl, rfl⟩ := Result.run_pure_eq_ok.mp h
  exact ⟨a, ha, rfl⟩

theorem approvalResponse_of_answered {label : String} {args : List Json} {b : EventBody}
    {X : List EventBody} {approved : Bool} (hb : approvalResult b = some approved)
    (h : Answered (.approvalRequest label args) (b :: X)) :
    b = .approvalResponse label approved := by
  obtain ⟨approved', Y, heq | ⟨d, hd, heq⟩⟩ := h
  · obtain ⟨rfl, -⟩ := List.cons.inj heq
    exact congrArg _ (Option.some.inj hb)
  · -- a decision is no answer
    obtain ⟨rfl, -⟩ := List.cons.inj heq
    cases b <;> simp [approvalResult, decisionOf] at hb hd

theorem approvalResponse_of_decided {label : String} {args : List Json} {d b : EventBody}
    {X : List EventBody} {approved : Bool} (hd : decisionOf d ≠ none)
    (hb : approvalResult b = some approved)
    (h : Answered (.approvalRequest label args) (d :: b :: X)) :
    b = .approvalResponse label approved := by
  obtain ⟨approved', Y, heq | ⟨d', -, heq⟩⟩ := h
  · obtain ⟨rfl, -⟩ := List.cons.inj heq
    exact absurd rfl hd
  · obtain ⟨-, hX⟩ := List.cons.inj heq
    obtain ⟨rfl, -⟩ := List.cons.inj hX
    exact congrArg _ (Option.some.inj hb)

theorem decisionOf_eq_some {b : EventBody} {d : ReplayApprovalDecision}
    (h : decisionOf b = some d) :
    ∃ site args, b = .approvalDecision site args d.accepted d.decider d.rationale := by
  cases b with
  | approvalDecision site args accepted decider rationale =>
    cases h
    exact ⟨site, args, rfl⟩
  | _ => cases h

/-- The events that one successful call consumed, with the pair they record if the recording is
well paired. -/
theorem Call.run_eq_ok {call : Call} {answer : Answer}
    (h : (call.run src).run c = .ok answer c') :
    ∃ X, X ≠ [] ∧ remaining src.events c = X ++ remaining src.events c' ∧
      (WellPaired (remaining src.events c) → Records X [(call, answer)]) := by
  cases call with
  | prepareRun agent args =>
    obtain ⟨u, hu, rfl⟩ := answering_eq_ok h
    exact ⟨[_], by simp, prepareRun_eq_ok hu, fun _ => .runStarted .nil⟩
  | toolCall tool args =>
    obtain ⟨r, hr, rfl⟩ := answering_eq_ok h
    obtain ⟨b, hrem, hb⟩ := replayToolCall_eq_ok hr
    refine ⟨[_, b], by simp, hrem, fun hw => ?_⟩
    rw [hrem] at hw
    obtain ⟨result, Y, heq⟩ := hw.1
    obtain ⟨rfl, -⟩ := List.cons.inj heq
    obtain rfl := Option.some.inj hb
    exact .tool .nil
  | llmCall prompt model version rendered args =>
    obtain ⟨r, hr, rfl⟩ := answering_eq_ok h
    obtain ⟨v, hrem, rfl⟩ := replayLlmCall_eq_ok hr
    exact ⟨[_, _], by simp, hrem, fun _ => .llm .nil⟩
  | approval label args =>
    obtain ⟨⟨approved, decision⟩, hr, rfl⟩ := answering_eq_ok h
    obtain ⟨b, hb, ⟨hd, hrem⟩ | ⟨d, hd, hne, hrem⟩⟩ := replayApproval_eq_ok hr
    · refine ⟨[_, b], by simp, hrem, fun hw => ?_⟩
      rw [hrem] at hw
      obtain rfl : decision = none := hd
      rw [approvalResponse_of_answered hb hw.1]
      exact .approval .nil
    · refine ⟨[_, d, b], by simp, hrem, fun hw => ?_⟩
      rw [hrem] at hw
      rw [approvalResponse_of_decided (by rwa [hd]) hb hw.1]
      obtain ⟨dec, rfl⟩ := Option.ne_none_iff_exists'.mp hne
      obtain ⟨site, siteArgs, rfl⟩ := decisionOf_eq_some hd
      exact .decidedApproval .nil
  | rolloutSample =>
    obtain ⟨n, hn, rfl⟩ := answering_eq_ok h
    exact ⟨[_], by simp, replayRolloutSample_eq_ok hn, fun _ => .sample .nil⟩
  | completeRun ok result error =>
    obtain ⟨u, t, hu, h⟩ := Result.run_bind_eq_ok.mp h
    obtain ⟨rfl, rfl⟩ := Result.run_pure_eq_ok.mp h
    obtain ⟨hrem, hend⟩ := completeRun_eq_ok hu
    exact ⟨[_], by simp, by rw [hrem, hend]; rfl, fun _ => .runCompleted .nil⟩

/-- The part of the recording that a whole replay consumed. -/
theorem replayCalls_eq_ok {calls : List Call} {answers : List Answer}
    (h : (replayCalls src calls).run c = .ok answers c') :
    ∃ X, remaining src.events c = X ++ remaining src.events c' ∧
      (WellPaired (remaining src.events c) → Records X (calls.zip answers)) := by
  induction calls generalizing c answers with
  | nil =>
    obtain ⟨rfl, rfl⟩ := Result.run_pure_eq_ok.mp h
    exact ⟨[], rfl, fun _ => .nil⟩
  | cons call calls ih =>
    obtain ⟨answer, t, hcall, h⟩ := Result.run_bind_eq_ok.mp h
    obtain ⟨rest, t', hrest, h⟩ := Result.run_bind_eq_ok.mp h
    obtain ⟨rfl, rfl⟩ := Result.run_pure_eq_ok.mp h
    obtain ⟨X, -, hX, hrec⟩ := Call.run_eq_ok hcall
    obtain ⟨Y, hY, hrecs⟩ := ih hrest
    refine ⟨X ++ Y, by rw [hX, hY, List.append_assoc], fun hw => ?_⟩
    have hwY : WellPaired (remaining src.events t) := by
      rw [hX] at hw
      exact hw.of_append
    exact (hrec hw).append (hrecs hwY)

/-- Completing the run is the last successful call, and nothing of the recording remains. -/
theorem remaining_eq_nil_of_completeRun {calls : List Call} {answers : List Answer} {ok : Bool}
    {result : Option Json} {error : Option String}
    (h : (replayCalls src calls).run c = .ok answers c')
    (hmem : Call.completeRun ok result error ∈ calls) : remaining src.events c' = [] := by
  induction calls generalizing c answers with
  | nil => cases hmem
  | cons call calls ih =>
    obtain ⟨answer, t, hcall, h⟩ := Result.run_bind_eq_ok.mp h
    obtain ⟨rest, t', hrest, h⟩ := Result.run_bind_eq_ok.mp h
    obtain ⟨rfl, rfl⟩ := Result.run_pure_eq_ok.mp h
    rcases List.mem_cons.mp hmem with rfl | hmem
    · obtain ⟨u, s, hu, hret⟩ := Result.run_bind_eq_ok.mp hcall
      obtain ⟨-, rfl⟩ := Result.run_pure_eq_ok.mp hret
      have hend := (completeRun_eq_ok hu).2
      obtain ⟨X, hX, -⟩ := replayCalls_eq_ok hrest
      rw [hend] at hX
      exact (List.append_eq_nil_iff.mp hX.symm).2
    · exact ih hrest hmem

/-- The recording of a run that calls one tool, with `answer` as the event after the call. -/
def singleToolTrace (answer : EventBody) : List TraceEvent :=
  [⟨0, "r", .schemaHeader 2 "corvid-vm" none none⟩,
    ⟨1, "r", .seedRead "rollout_default_seed" 7⟩,
    ⟨2, "r", .runStarted "refund_bot" []⟩,
    ⟨3, "r", .toolCall "get_order" [.string "ord_42"]⟩,
    ⟨4, "r", answer⟩,
    ⟨5, "r", .runCompleted true (some .null) none⟩]

def singleToolSource (answer : EventBody) : ReplaySource where
  path := "run.jsonl"
  events := singleToolTrace answer
  cursor := ⟨2⟩
  initialRolloutSeed := 7

def singleToolCalls : List Call :=
  [.prepareRun "refund_bot" [], .toolCall "get_order" [.string "ord_42"],
    .completeRun true (some .null) none]

end Corvid.Replay
