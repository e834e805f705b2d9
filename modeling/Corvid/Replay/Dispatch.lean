import Corvid.Replay.Trace
import Corvid.Runtime.Errors

/-!
# Matching the steps of a recording

The replay expression reads a recorded trace and dispatches on its first step that one of its arms
matches. The reader takes the result of a step from the event directly after its call; only an
approval may have its decision between the request and the response.

## Main definitions

* `ReplayDispatchPattern`, `ReplayDispatchMatch`: the arms, and what a match names
* `findFirstReplayMatch`: the reader
* `RecordedStep`, `Matches`, `IsFirst`: the first match of a list of steps, by its meaning
* `RecordsSteps`: the events that a recorder writes for a list of steps

## Main results

* `matchStep_eq_some_iff`: the match functions name the first arm
* `RecordsSteps.scan_iff`: a recording is read if and only if no model call stands before its first
  match
-/

namespace Corvid.Replay

inductive ReplayDispatchToolArgPattern where
  | wildcard
  | stringLit (expected : String)
  | capture
deriving DecidableEq, Repr

inductive ReplayDispatchPattern where
  | llm (prompt : String)
  | tool (tool : String) (arg : ReplayDispatchToolArgPattern)
  | approve (label : String)
deriving DecidableEq, Repr

structure ReplayDispatchArm where
  pattern : ReplayDispatchPattern
deriving DecidableEq, Repr

/-- The arm that matched, the result of the step, and the argument it captured. -/
structure ReplayDispatchMatch where
  armIndex : ℕ
  wholeValue : Json
  toolArgValue : Option Json
deriving DecidableEq, Repr

/-- The arms are tried in order. -/
def firstArm (f : ReplayDispatchPattern → ℕ → Option ReplayDispatchMatch)
    (arms : List ReplayDispatchArm) : Option ReplayDispatchMatch :=
  arms.zipIdx.findSome? fun arm => f arm.1.pattern arm.2

def matchLlmCall (prompt : String) (result : Json) (arms : List ReplayDispatchArm) :
    Option ReplayDispatchMatch :=
  firstArm (fun pattern armIndex =>
    match pattern with
    | .llm expected => if expected = prompt then some ⟨armIndex, result, none⟩ else none
    | _ => none) arms

def matchToolCall (tool : String) (args : List Json) (result : Json)
    (arms : List ReplayDispatchArm) : Option ReplayDispatchMatch :=
  firstArm (fun pattern armIndex =>
    match pattern with
    | .tool expectedTool arg =>
      if expectedTool ≠ tool then none
      else
        match arg with
        | .wildcard => some ⟨armIndex, result, none⟩
        | .stringLit expected =>
          if args.head? = some (.string expected) then some ⟨armIndex, result, none⟩ else none
        | .capture => args.head?.map fun firstArg => ⟨armIndex, result, some firstArg⟩
    | _ => none) arms

def matchApproval (label : String) (approved : Bool) (arms : List ReplayDispatchArm) :
    Option ReplayDispatchMatch :=
  firstArm (fun pattern armIndex =>
    match pattern with
    | .approve expected => if expected = label then some ⟨armIndex, .bool approved, none⟩ else none
    | _ => none) arms

def malformedPair {α : Type} (path eventKind : String) (expectedStep : ℕ) :
    Except RuntimeError α :=
  .error (.replayTraceLoad path
    (s!"malformed replay trace: `{eventKind}` at event {expectedStep} " ++
      "is not followed by its recorded result"))

/-- Reads on after a step that no arm matched. -/
def orElseScan (found : Option ReplayDispatchMatch)
    (rest : Except RuntimeError (Option ReplayDispatchMatch)) :
    Except RuntimeError (Option ReplayDispatchMatch) :=
  match found with
  | some found => .ok (some found)
  | none => rest

/-- Reads the events from position `i` on. -/
def scan (path : String) (arms : List ReplayDispatchArm) :
    ℕ → List EventBody → Except RuntimeError (Option ReplayDispatchMatch)
  | _, [] => .ok none
  | i, event :: events =>
    match event with
    | .toolCall tool args =>
      match events with
      | .toolResult resultTool result :: rest =>
        if resultTool ≠ tool then malformedPair path "tool_call" (i + 1)
        else orElseScan (matchToolCall tool args result arms) (scan path arms (i + 2) rest)
      | _ => malformedPair path "tool_call" (i + 1)
    | .llmCall prompt _ _ _ _ =>
      match events with
      | .llmResult resultPrompt _ _ result :: rest =>
        if resultPrompt ≠ prompt then malformedPair path "llm_call" (i + 1)
        else orElseScan (matchLlmCall prompt result arms) (scan path arms (i + 2) rest)
      | _ => malformedPair path "llm_call" (i + 1)
    | .approvalRequest label _ =>
      match events with
      | .approvalDecision .. :: .approvalResponse responseLabel approved :: rest =>
        if responseLabel ≠ label then malformedPair path "approval_request" (i + 2)
        else orElseScan (matchApproval label approved arms) (scan path arms (i + 3) rest)
      | .approvalDecision .. :: _ => malformedPair path "approval_request" (i + 2)
      | .approvalResponse responseLabel approved :: rest =>
        if responseLabel ≠ label then malformedPair path "approval_request" (i + 1)
        else orElseScan (matchApproval label approved arms) (scan path arms (i + 2) rest)
      | _ => malformedPair path "approval_request" (i + 1)
    | _ => scan path arms (i + 1) events

/-- Reads the events found at `path` for a replay by `replayWriter`. -/
def findFirstReplayMatch (path : String) (events : List TraceEvent) (replayWriter : String)
    (arms : List ReplayDispatchArm) : Except RuntimeError (Option ReplayDispatchMatch) :=
  if events.isEmpty then
    .error (.replayTraceLoad path "trace is empty")
  else
    match validateSupportedSchema events with
    | .error err => .error (.replayTraceLoad path err.display)
    | .ok () =>
      match events.head?.map TraceEvent.body with
      | some (.schemaHeader _ writer _ _) =>
        if writer = replayWriter then scan path arms 0 (events.map TraceEvent.body)
        else .error (.crossTierReplayUnsupported writer replayWriter)
      | some _ => .error (.replayTraceLoad path "trace missing schema_header")
      | none => .ok none

/-! ## The first match -/

/-- A step that completed, with what it was answered. -/
inductive RecordedStep where
  | tool (tool : String) (args : List Json) (result : Json)
  | llm (prompt : String) (result : Json)
  | approve (label : String) (approved : Bool)
deriving DecidableEq, Repr

/-- The recorded result of a step. -/
def RecordedStep.value : RecordedStep → Json
  | .tool _ _ result => result
  | .llm _ result => result
  | .approve _ approved => .bool approved

/-- What a pattern matches: a model call by its prompt, a tool call by the tool and its first
argument, an approval by its label. -/
inductive Matches : ReplayDispatchPattern → RecordedStep → Prop
  | llm (prompt : String) (result : Json) : Matches (.llm prompt) (.llm prompt result)
  | wildcard (tool : String) (args : List Json) (result : Json) :
      Matches (.tool tool .wildcard) (.tool tool args result)
  | stringLit (tool expected : String) (args : List Json) (result : Json) :
      Matches (.tool tool (.stringLit expected)) (.tool tool (.string expected :: args) result)
  | capture (tool : String) (firstArg : Json) (args : List Json) (result : Json) :
      Matches (.tool tool .capture) (.tool tool (firstArg :: args) result)
  | approve (label : String) (approved : Bool) : Matches (.approve label) (.approve label approved)

/-- The argument that a capturing pattern binds. -/
def captured : ReplayDispatchPattern → RecordedStep → Option Json
  | .tool _ .capture, .tool _ args _ => args.head?
  | _, _ => none

/-- Some arm matches the step. -/
def Matched (arms : List ReplayDispatchArm) (step : RecordedStep) : Prop :=
  ∃ arm ∈ arms, Matches arm.pattern step

/-- `found` names the first arm that matches `step`, with its result and its captured argument. -/
def IsFirstArm (arms : List ReplayDispatchArm) (step : RecordedStep)
    (found : ReplayDispatchMatch) : Prop :=
  ∃ before arm after, arms = before ++ arm :: after ∧ Matches arm.pattern step ∧
    (∀ a ∈ before, ¬ Matches a.pattern step) ∧
    found = ⟨before.length, step.value, captured arm.pattern step⟩

/-- `found` names the first arm that matches the earliest matched step. -/
def IsFirst (arms : List ReplayDispatchArm) (steps : List RecordedStep)
    (found : ReplayDispatchMatch) : Prop :=
  ∃ before step after, steps = before ++ step :: after ∧ (∀ s ∈ before, ¬ Matched arms s) ∧
    IsFirstArm arms step found

/-- The outcome of a reading: a match if and only if some step is matched, and then the first. -/
structure Names (arms : List ReplayDispatchArm) (steps : List RecordedStep)
    (found : Option ReplayDispatchMatch) : Prop where
  isSome_iff : found.isSome ↔ ∃ step ∈ steps, Matched arms step
  isFirst : ∀ m, found = some m → IsFirst arms steps m

/-- The events are read, and the reading is right about the steps. -/
def ReadsRecording (path : String) (events : List TraceEvent) (replayWriter : String)
    (arms : List ReplayDispatchArm) (steps : List RecordedStep) : Prop :=
  ∃ found, findFirstReplayMatch path events replayWriter arms = .ok found ∧ Names arms steps found

/-- Every model call comes after a step that some arm matches. -/
def ModelCallsShielded (arms : List ReplayDispatchArm) (steps : List RecordedStep) : Prop :=
  ∀ before prompt result after, steps = before ++ .llm prompt result :: after →
    ∃ step ∈ before, Matched arms step

section Arms

variable {arms : List ReplayDispatchArm} {step : RecordedStep} {steps : List RecordedStep}

/-- `f` tries a pattern on `step`: an arm that matches gives its match, another one nothing. -/
def Tries (f : ReplayDispatchPattern → ℕ → Option ReplayDispatchMatch) (step : RecordedStep) :
    Prop :=
  ∀ pattern armIndex,
    (Matches pattern step → f pattern armIndex = some ⟨armIndex, step.value, captured pattern step⟩) ∧
    (¬ Matches pattern step → f pattern armIndex = none)

variable {f : ReplayDispatchPattern → ℕ → Option ReplayDispatchMatch}

/-- By induction on the arms, numbered from `n` on. -/
theorem Tries.findSome?_zipIdx (h : Tries f step) (n : ℕ) {found : ReplayDispatchMatch} :
    ((arms.zipIdx n).findSome? fun arm => f arm.1.pattern arm.2) = some found ↔
      ∃ before arm after, arms = before ++ arm :: after ∧ Matches arm.pattern step ∧
        (∀ a ∈ before, ¬ Matches a.pattern step) ∧
        found = ⟨n + before.length, step.value, captured arm.pattern step⟩ := by
  induction arms generalizing n with
  | nil => simp
  | cons a arms ih =>
    rw [List.zipIdx_cons, List.findSome?_cons]
    by_cases ha : Matches a.pattern step
    · rw [(h a.pattern n).1 ha]
      constructor
      · intro hfound
        exact ⟨[], a, arms, rfl, ha, by simp, by simpa using hfound.symm⟩
      · rintro ⟨before, arm, after, harms, -, hbefore, rfl⟩
        cases before with
        | nil =>
          obtain ⟨rfl, -⟩ := List.cons.inj harms
          simp
        | cons b before =>
          obtain ⟨rfl, -⟩ := List.cons.inj harms
          exact absurd ha (hbefore a (by simp))
    · simp only [(h a.pattern n).2 ha, ih (n + 1)]
      constructor
      · rintro ⟨before, arm, after, rfl, harm, hbefore, rfl⟩
        refine ⟨a :: before, arm, after, rfl, harm, ?_, by simp [Nat.add_right_comm, Nat.add_assoc]⟩
        simpa [ha] using hbefore
      · rintro ⟨before, arm, after, harms, harm, hbefore, rfl⟩
        cases before with
        | nil =>
          obtain ⟨rfl, -⟩ := List.cons.inj harms
          exact absurd harm ha
        | cons b before =>
          obtain ⟨rfl, rfl⟩ := List.cons.inj harms
          exact ⟨before, arm, after, rfl, harm, fun a' ha' => hbefore a' (by simp [ha']),
            by simp [Nat.add_right_comm, Nat.add_assoc]⟩

theorem Tries.firstArm_eq_some_iff (h : Tries f step) {found : ReplayDispatchMatch} :
    firstArm f arms = some found ↔ IsFirstArm arms step found := by
  rw [firstArm, h.findSome?_zipIdx 0, IsFirstArm]
  simp only [Nat.zero_add]

/-- The match of a step among the arms. -/
def matchStep (arms : List ReplayDispatchArm) : RecordedStep → Option ReplayDispatchMatch
  | .tool tool args result => matchToolCall tool args result arms
  | .llm prompt result => matchLlmCall prompt result arms
  | .approve label approved => matchApproval label approved arms

theorem matchStep_eq_some_iff {found : ReplayDispatchMatch} :
    matchStep arms step = some found ↔ IsFirstArm arms step found := by
  cases step with
  | tool tool args result =>
    unfold matchStep matchToolCall
    refine Tries.firstArm_eq_some_iff fun pattern armIndex => ⟨?_, ?_⟩
    · rintro (_ | _ | _)
      all_goals simp [captured, RecordedStep.value]
    · intro hm
      cases pattern with
      | llm prompt => rfl
      | approve label => rfl
      | tool expectedTool arg =>
        by_cases ht : expectedTool = tool
        · subst ht
          cases arg with
          | wildcard => exact absurd (.wildcard ..) hm
          | stringLit expected =>
            cases args with
            | nil => simp
            | cons a args =>
              have : a ≠ .string expected := by
                rintro rfl
                exact hm (.stringLit ..)
              simp [this]
          | capture =>
            cases args with
            | nil => simp
            | cons a args => exact absurd (.capture ..) hm
        · simp [ht]
  | llm prompt result =>
    unfold matchStep matchLlmCall
    refine Tries.firstArm_eq_some_iff fun pattern armIndex => ⟨?_, ?_⟩
    · rintro ⟨⟩
      simp [captured, RecordedStep.value]
    · intro hm
      cases pattern with
      | tool expectedTool arg => rfl
      | approve label => rfl
      | llm expected =>
        have : expected ≠ prompt := by
          rintro rfl
          exact hm (.llm ..)
        simp [this]
  | approve label approved =>
    unfold matchStep matchApproval
    refine Tries.firstArm_eq_some_iff fun pattern armIndex => ⟨?_, ?_⟩
    · rintro ⟨⟩
      simp [captured, RecordedStep.value]
    · intro hm
      cases pattern with
      | tool expectedTool arg => rfl
      | llm prompt => rfl
      | approve expected =>
        have : expected ≠ label := by
          rintro rfl
          exact hm (.approve ..)
        simp [this]

/-- A matched step has a first arm. -/
theorem Matched.exists_isFirstArm (h : Matched arms step) :
    ∃ found, IsFirstArm arms step found := by
  induction arms with
  | nil =>
    obtain ⟨arm, harm, -⟩ := h
    cases harm
  | cons a arms ih =>
    by_cases ha : Matches a.pattern step
    · exact ⟨_, [], a, arms, rfl, ha, by simp, rfl⟩
    · have htail : Matched arms step := by
        obtain ⟨arm, harm, hm⟩ := h
        rcases List.mem_cons.mp harm with rfl | harm
        · exact absurd hm ha
        · exact ⟨arm, harm, hm⟩
      obtain ⟨-, before, arm, after, rfl, harm, hbefore, -⟩ := ih htail
      exact ⟨_, a :: before, arm, after, rfl, harm, by simpa [ha] using hbefore, rfl⟩

theorem IsFirstArm.matched {found : ReplayDispatchMatch} (h : IsFirstArm arms step found) :
    Matched arms step := by
  obtain ⟨before, arm, after, rfl, harm, -, -⟩ := h
  exact ⟨arm, by simp, harm⟩

theorem matchStep_eq_none_iff : matchStep arms step = none ↔ ¬ Matched arms step := by
  constructor
  · intro hnone hm
    obtain ⟨found, hfound⟩ := hm.exists_isFirstArm
    rw [matchStep_eq_some_iff.mpr hfound] at hnone
    cases hnone
  · intro hm
    cases hfound : matchStep arms step with
    | none => rfl
    | some found => exact absurd (matchStep_eq_some_iff.mp hfound).matched hm

theorem names_nil : Names arms [] none := ⟨by simp, by simp⟩

theorem Names.cons_of_matched {found : ReplayDispatchMatch} (h : IsFirstArm arms step found) :
    Names arms (step :: steps) (some found) where
  isSome_iff := by simp [h.matched]
  isFirst m hm := by
    obtain rfl := Option.some.inj hm
    exact ⟨[], step, steps, rfl, by simp, h⟩

theorem Names.cons_of_not_matched {found : Option ReplayDispatchMatch} (hm : ¬ Matched arms step)
    (h : Names arms steps found) : Names arms (step :: steps) found where
  isSome_iff := by simp [h.isSome_iff, hm]
  isFirst m hfound := by
    obtain ⟨before, s, after, rfl, hbefore, hs⟩ := h.isFirst m hfound
    exact ⟨step :: before, s, after, rfl, by simpa [hm] using hbefore, hs⟩

/-- Reading past a step: its match, or the match among the later steps. -/
theorem orElseScan_matchStep {rest : Except RuntimeError (Option ReplayDispatchMatch)}
    (hrest : ¬ Matched arms step → ∃ found, rest = .ok found ∧ Names arms steps found) :
    ∃ found, orElseScan (matchStep arms step) rest = .ok found ∧
      Names arms (step :: steps) found := by
  cases hm : matchStep arms step with
  | some found => exact ⟨some found, rfl, .cons_of_matched (matchStep_eq_some_iff.mp hm)⟩
  | none =>
    have hnot := matchStep_eq_none_iff.mp hm
    obtain ⟨found, hfound, hnames⟩ := hrest hnot
    exact ⟨found, hfound, hnames.cons_of_not_matched hnot⟩

theorem not_modelCallsShielded_llm (prompt : String) (result : Json) :
    ¬ ModelCallsShielded arms (.llm prompt result :: steps) := by
  intro h
  obtain ⟨s, hs, -⟩ := h [] prompt result steps rfl
  cases hs

theorem modelCallsShielded_cons (hstep : ∀ prompt result, step ≠ .llm prompt result) :
    ModelCallsShielded arms (step :: steps) ↔ Matched arms step ∨ ModelCallsShielded arms steps := by
  constructor
  · intro h
    by_cases hm : Matched arms step
    · exact .inl hm
    · refine .inr fun before prompt result after hsteps => ?_
      obtain ⟨s, hs, hsm⟩ := h (step :: before) prompt result after (by rw [hsteps]; rfl)
      rcases List.mem_cons.mp hs with rfl | hs
      · exact absurd hsm hm
      · exact ⟨s, hs, hsm⟩
  · rintro h before prompt result after hsteps
    cases before with
    | nil => exact absurd (List.cons.inj hsteps).1 (hstep prompt result)
    | cons b before =>
      obtain ⟨rfl, htail⟩ := List.cons.inj hsteps
      rcases h with hm | h
      · exact ⟨step, by simp, hm⟩
      · obtain ⟨s, hs, hsm⟩ := h before prompt result after htail
        exact ⟨s, by simp [hs], hsm⟩

end Arms

/-! ## The events of a recording -/

/-- Events beside the steps of a run: they belong to no call, and are no header. -/
def EventBody.isNote : EventBody → Bool
  | .schemaHeader .. | .toolCall .. | .toolResult .. | .llmCall .. | .llmResult ..
  | .approvalRequest .. | .approvalDecision .. | .approvalResponse .. => false
  | _ => true

/-- What a recorder writes for a list of steps. Between a model call and its result stands at least
one event of how the call was answered. -/
inductive RecordsSteps : List EventBody → List RecordedStep → Prop
  | nil : RecordsSteps [] []
  | note {event events steps} (h : event.isNote = true) (hr : RecordsSteps events steps) :
      RecordsSteps (event :: events) steps
  | tool {tool args result events steps} (hr : RecordsSteps events steps) :
      RecordsSteps (.toolCall tool args :: .toolResult tool result :: events)
        (.tool tool args result :: steps)
  | llm {prompt model modelVersion rendered args event notes model' modelVersion' result events
      steps} (h : event.isNote = true) (hn : ∀ e ∈ notes, e.isNote = true)
      (hr : RecordsSteps events steps) :
      RecordsSteps (.llmCall prompt model modelVersion rendered args :: event ::
        (notes ++ .llmResult prompt model' modelVersion' result :: events))
        (.llm prompt result :: steps)
  | approve {label args site args' accepted decider rationale approved events steps}
      (hr : RecordsSteps events steps) :
      RecordsSteps (.approvalRequest label args ::
        .approvalDecision site args' accepted decider rationale ::
        .approvalResponse label approved :: events) (.approve label approved :: steps)

section Scan

variable {path : String} {arms : List ReplayDispatchArm} {events : List EventBody}
  {steps : List RecordedStep}

theorem scan_note {event : EventBody} (h : event.isNote = true) (i : ℕ) :
    scan path arms i (event :: events) = scan path arms (i + 1) events := by
  cases event
  all_goals first | rfl | cases h

theorem scan_tool {tool : String} {args : List Json} {result : Json} (i : ℕ) :
    scan path arms i (.toolCall tool args :: .toolResult tool result :: events) =
      orElseScan (matchStep arms (.tool tool args result)) (scan path arms (i + 2) events) := by
  simp [scan, matchStep]

theorem scan_approve {label : String} {args : List Json} {approved : Bool} {site : String}
    {args' : List Json} {accepted : Bool} {decider : String} {rationale : Option String} (i : ℕ) :
    scan path arms i (.approvalRequest label args ::
        .approvalDecision site args' accepted decider rationale ::
        .approvalResponse label approved :: events) =
      orElseScan (matchStep arms (.approve label approved)) (scan path arms (i + 3) events) := by
  simp [scan, matchStep]

/-- The event after a model call is not its result. -/
theorem scan_llm {prompt : String} {model modelVersion rendered : Option String} {args : List Json}
    {event : EventBody} (h : event.isNote = true) (i : ℕ) :
    scan path arms i (.llmCall prompt model modelVersion rendered args :: event :: events) =
      malformedPair path "llm_call" (i + 1) := by
  cases event
  all_goals first | rfl | cases h

theorem RecordsSteps.scan_of_shielded (h : RecordsSteps events steps)
    (hs : ModelCallsShielded arms steps) (i : ℕ) :
    ∃ found, scan path arms i events = .ok found ∧ Names arms steps found := by
  induction h generalizing i with
  | nil => exact ⟨none, rfl, names_nil⟩
  | note hnote hr ih =>
    rw [scan_note hnote]
    exact ih hs _
  | tool hr ih =>
    rw [scan_tool]
    refine orElseScan_matchStep fun hm => ih ?_ _
    exact ((modelCallsShielded_cons (by simp)).mp hs).resolve_left hm
  | llm hnote hnotes hr ih => exact absurd hs (not_modelCallsShielded_llm _ _)
  | approve hr ih =>
    rw [scan_approve]
    refine orElseScan_matchStep fun hm => ih ?_ _
    exact ((modelCallsShielded_cons (by simp)).mp hs).resolve_left hm

theorem RecordsSteps.scan_of_not_shielded (h : RecordsSteps events steps)
    (hs : ¬ ModelCallsShielded arms steps) (i : ℕ) :
    ∃ err, scan path arms i events = .error err := by
  induction h generalizing i with
  | nil => exact absurd (fun before prompt result after h => by simp at h) hs
  | note hnote hr ih =>
    rw [scan_note hnote]
    exact ih hs _
  | tool hr ih =>
    rw [modelCallsShielded_cons (by simp), not_or] at hs
    rw [scan_tool, matchStep_eq_none_iff.mpr hs.1]
    exact ih hs.2 _
  | llm hnote hnotes hr ih => exact ⟨_, scan_llm hnote i⟩
  | approve hr ih =>
    rw [modelCallsShielded_cons (by simp), not_or] at hs
    rw [scan_approve, matchStep_eq_none_iff.mpr hs.1]
    exact ih hs.2 _

/-- The events of a recording are read to the end, or to the first match, if and only if no model
call stands before. -/
theorem RecordsSteps.scan_iff (h : RecordsSteps events steps) (i : ℕ) :
    (∃ found, scan path arms i events = .ok found ∧ Names arms steps found) ↔
      ModelCallsShielded arms steps := by
  constructor
  · rintro ⟨found, hfound, -⟩
    by_contra hs
    obtain ⟨err, herr⟩ := h.scan_of_not_shielded hs i
    cases hfound.symm.trans herr
  · exact fun hs => h.scan_of_shielded hs i

theorem RecordsSteps.append_notes {notes : List EventBody} (h : RecordsSteps events steps)
    (hn : ∀ e ∈ notes, e.isNote = true) : RecordsSteps (notes ++ events) steps := by
  induction notes with
  | nil => exact h
  | cons e notes ih =>
    exact .note (hn e (by simp)) (ih fun e' he' => hn e' (by simp [he']))

def EventBody.isHeader : EventBody → Bool
  | .schemaHeader .. => true
  | _ => false

theorem EventBody.not_isHeader_of_isNote {event : EventBody} (h : event.isNote = true) :
    event.isHeader = false := by
  cases event
  all_goals first | rfl | cases h

theorem RecordsSteps.not_isHeader (h : RecordsSteps events steps) :
    ∀ e ∈ events, e.isHeader = false := by
  induction h with
  | nil => simp
  | note hnote hr ih => simpa [EventBody.not_isHeader_of_isNote hnote] using ih
  | tool hr ih => simpa [EventBody.isHeader] using ih
  | llm hnote hnotes hr ih =>
    intro e he
    simp only [List.mem_cons, List.mem_append] at he
    rcases he with rfl | rfl | he | rfl | he
    · rfl
    · exact EventBody.not_isHeader_of_isNote hnote
    · exact EventBody.not_isHeader_of_isNote (hnotes e he)
    · rfl
    · exact ih e he
  | approve hr ih => simpa [EventBody.isHeader] using ih

theorem validateSupportedSchema_of_not_isHeader {es : List TraceEvent}
    (h : ∀ e ∈ es, e.body.isHeader = false) : validateSupportedSchema es = .ok () := by
  induction es with
  | nil => rfl
  | cons e es ih =>
    have he := h e (by simp)
    unfold validateSupportedSchema
    split
    next hbody => simp [hbody, EventBody.isHeader] at he
    next => exact ih fun e' he' => h e' (by simp [he'])

/-- Reading a file is reading what stands after its header. -/
theorem findFirstReplayMatch_recording {header : TraceEvent} {es : List TraceEvent}
    {writer : String} {commitSha : Option String}
    (hh : header.body = .schemaHeader schemaVersion writer commitSha none)
    (h : RecordsSteps (es.map TraceEvent.body) steps) :
    findFirstReplayMatch path (header :: es) writer arms =
      scan path arms 1 (es.map TraceEvent.body) := by
  have hvalid : validateSupportedSchema (header :: es) = .ok () := by
    have hes : validateSupportedSchema es = .ok () :=
      validateSupportedSchema_of_not_isHeader fun e he =>
        h.not_isHeader e.body (List.mem_map_of_mem he)
    simp [validateSupportedSchema, hh, hes, schemaVersion, minSupportedSchema]
  simp [findFirstReplayMatch, hvalid, hh, scan]

end Scan

end Corvid.Replay
