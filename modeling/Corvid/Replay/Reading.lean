import Corvid.Replay.Dispatch
import Corvid.Replay.RoundTrip

/-!
# Reading what the runtime writes

A live runtime records every step of a run. Its record of a model call has the usage of the call,
or the hit of the cache, between the call and the result, where a replay steps over it; the reader
of the replay expression does not. So a recording is read as far as its first model call.

## Main definitions

* `Ran`: the runs of a runtime whose steps completed
* `RunState.bodies`: the trace of a state, without times

## Main results

* `callTool_bodies`, `callLlmRefImpl_answered`, `approvalGate_bodies`: what one step records
* `Ran.records`: what a whole run records
* `reads_recording_iff`: the runs whose recording the replay expression reads
-/

namespace Corvid

open Replay

variable {W : Type}

/-- The events of the trace so far. -/
def RunState.bodies (s : RunState W) : List EventBody := s.trace.map TraceEvent.body

/-- Requests that are no step of a recording. -/
def Request.isAside : Request → Bool
  | .ask .. | .choose .. | .rollout => true
  | _ => false

/-- Runs of a runtime in which each tool call, model call and approval completed, with its steps in
order. Requests to a human may fail. Between the calls the program may record events of its own. -/
inductive Ran (rt : Runtime W) : RunState W → List RecordedStep → RunState W → Prop
  | done (s : RunState W) : Ran rt s [] s
  | note {s t : RunState W} {steps : List RecordedStep} (event : EventBody)
      (h : event.isNote = true) (hr : Ran rt (rt.emitted event s) steps t) : Ran rt s steps t
  | aside {s t : RunState W} {steps : List RecordedStep} (r : Request) (h : r.isAside = true)
      (hr : Ran rt (Result.settle ((rt.serve r).run s)).2 steps t) : Ran rt s steps t
  | tool {s t u : RunState W} {steps : List RecordedStep} {name : String} {args : List Json}
      {result : Json} (h : (rt.callTool name args).run s = .ok result t) (hr : Ran rt t steps u) :
      Ran rt s (.tool name args result :: steps) u
  | llm {s t u : RunState W} {steps : List RecordedStep} {req : LlmRequest}
      {traceRendered : Option String} {cacheable : Bool} {response : LlmResponse}
      (h : (rt.callLlmRefImpl req traceRendered cacheable).run s = .ok response t)
      (hr : Ran rt t steps u) : Ran rt s (.llm req.prompt response.value :: steps) u
  | approve {s t : RunState W} {steps : List RecordedStep} {label : String} {args : List Json}
      {approved : Bool} (h : (rt.host.approve label args s.world).1 = .ok approved)
      (hr : Ran rt (Result.settle ((rt.approvalGate label args).run s)).2 steps t) :
      Ran rt s (.approve label approved :: steps) t

section Notes

variable {rt : Runtime W} {s t u : RunState W} {α β : Type}

theorem bodies_emitted (he : rt.tracer.enabled = true) (event : EventBody) :
    (rt.emitted event s).bodies = s.bodies ++ [event] := by
  simp [RunState.bodies, Runtime.emitted_trace he]

/-- From `s` to `t` the trace grew by events that belong to no step. -/
def Noted (s t : RunState W) : Prop :=
  ∃ notes, t.bodies = s.bodies ++ notes ∧ ∀ e ∈ notes, e.isNote = true

theorem Noted.of_trace_eq (h : t.trace = s.trace) : Noted s t :=
  ⟨[], by simp [RunState.bodies, h], by simp⟩

theorem Noted.trans (h : Noted s t) (h' : Noted t u) : Noted s u := by
  obtain ⟨notes, hnotes, hn⟩ := h
  obtain ⟨notes', hnotes', hn'⟩ := h'
  refine ⟨notes ++ notes', by rw [hnotes', hnotes, List.append_assoc], fun e he => ?_⟩
  rcases List.mem_append.mp he with he | he
  · exact hn e he
  · exact hn' e he

/-- A computation that records no step, whatever it returns. -/
def Quiet (x : RunM W α) : Prop :=
  ∀ s, Noted s (Result.settle (x.run s)).2

theorem Quiet.ok {x : RunM W α} (h : Quiet x) {a : α} (hx : x.run s = .ok a t) : Noted s t := by
  have := h s
  rwa [hx] at this

theorem quiet_pure (a : α) : Quiet (pure a : RunM W α) := fun _ => .of_trace_eq rfl

theorem quiet_throw (err : RuntimeError) : Quiet (throw err : RunM W α) :=
  fun _ => .of_trace_eq rfl

theorem quiet_ofExcept (x : Except RuntimeError α) : Quiet (ofExcept x : RunM W α) := by
  cases x with
  | error err => exact quiet_throw err
  | ok a => exact quiet_pure a

theorem Quiet.bind {x : RunM W α} {f : α → RunM W β} (hx : Quiet x) (hf : ∀ a, Quiet (f a)) :
    Quiet (x >>= f) := by
  intro s
  have hs := hx s
  rw [EStateM.run_bind]
  cases h : x.run s with
  | ok a t =>
    rw [h] at hs
    exact Noted.trans hs (hf a t)
  | error err t =>
    rw [h] at hs
    exact hs

theorem quiet_get : Quiet (get : RunM W (RunState W)) := fun _ => .of_trace_eq rfl

theorem quiet_modify {f : RunState W → RunState W} (hf : ∀ s, (f s).trace = s.trace) :
    Quiet (modify f : RunM W Unit) :=
  fun s => .of_trace_eq (hf s)

theorem quiet_attempt (f : W → Except RuntimeError α × W) : Quiet (attempt f) :=
  fun _ => .of_trace_eq rfl

theorem quiet_contact (f : W → Except RuntimeError α × W) : Quiet (contact f) :=
  (quiet_attempt f).bind quiet_ofExcept

theorem quiet_reading (x : CursorM RuntimeError α) : Quiet (reading x : RunM W α) := by
  intro s
  cases h : x.run s.cursor with
  | ok a c =>
    rw [Runtime.run_reading_ok h]
    exact .of_trace_eq rfl
  | error e c =>
    have hrun : (reading x : RunM W α).run s = .error e { s with cursor := c } := by
      simp only [reading, EStateM.run] at h ⊢
      rw [h]
    rw [hrun]
    exact .of_trace_eq rfl

theorem quiet_emit (he : rt.tracer.enabled = true) {event : EventBody}
    (h : event.isNote = true) : Quiet (rt.emit event : RunM W Unit) :=
  fun _ => ⟨[event], bodies_emitted he event, by simpa using h⟩

theorem quiet_replaySource : Quiet rt.replaySource := by
  unfold Runtime.replaySource
  split
  · exact quiet_throw _
  · split
    · exact quiet_pure _
    · exact quiet_pure _

end Notes

section Steps

variable {rt : Runtime W} {s t : RunState W}

/-! ### Requests beside the steps -/

theorem quiet_askHuman (he : rt.tracer.enabled = true) (prompt expectedType : String) :
    Quiet (rt.askHuman prompt expectedType) :=
  (quiet_emit he rfl).bind fun _ => (quiet_contact _).bind fun _ =>
    (quiet_emit he rfl).bind fun _ => quiet_pure _

theorem quiet_chooseHuman (he : rt.tracer.enabled = true) (options : List Json) :
    Quiet (rt.chooseHuman options) := by
  refine (quiet_emit he rfl).bind fun _ => (quiet_contact _).bind fun selectedIndex => ?_
  cases options[selectedIndex]? with
  | none => exact quiet_throw _
  | some selectedValue => exact (quiet_emit he rfl).bind fun _ => quiet_pure _

theorem quiet_nextRolloutSample (he : rt.tracer.enabled = true) : Quiet rt.nextRolloutSample := by
  refine quiet_replaySource.bind fun source => ?_
  have hrest : ∀ next : ℕ, Quiet (do
      modify fun s => { s with rolloutState := next }
      rt.emit (.seedRead "rollout_cohort" next)
      return Runtime.rolloutSample next : RunM W ℚ) := fun next =>
    Quiet.bind (quiet_modify fun _ => rfl) fun _ =>
      Quiet.bind (quiet_emit he rfl) fun _ => quiet_pure _
  cases source with
  | none => exact quiet_get.bind fun s => (quiet_pure _).bind hrest
  | some source => exact (quiet_reading _).bind hrest

theorem quiet_serve (he : rt.tracer.enabled = true) {r : Request} (h : r.isAside = true) :
    Quiet (rt.serve r) := by
  cases r with
  | ask prompt expectedType => exact quiet_askHuman he prompt expectedType
  | choose options => exact quiet_chooseHuman he options
  | rollout => exact quiet_nextRolloutSample he
  | tool => cases h
  | llm => cases h
  | approve => cases h

/-! ### Tools and approvals -/

theorem callTool_bodies (hl : rt.Live) (he : rt.tracer.enabled = true) {name : String}
    {args : List Json} {result : Json} (h : (rt.callTool name args).run s = .ok result t) :
    t.bodies = s.bodies ++ [.toolCall name args, .toolResult name result] := by
  unfold Runtime.callTool at h
  rw [Result.run_bind_of_ok (Runtime.run_emit _), Result.run_bind_of_ok hl.run_replaySource,
    Result.run_bind_eq_ok] at h
  obtain ⟨result', u, hu, h⟩ := h
  rw [Result.run_bind_of_ok (Runtime.run_emit _), Result.run_pure_eq_ok] at h
  obtain ⟨rfl, rfl⟩ := h
  have hnone : u.bodies = s.bodies ++ [.toolCall name args] := by
    rw [← bodies_emitted he]
    obtain ⟨answer, v, hv, hu⟩ := Result.run_bind_eq_ok.mp hu
    obtain ⟨-, rfl⟩ := Result.run_ofExcept_eq_ok.mp hu
    rw [Runtime.run_attempt] at hv
    obtain ⟨-, rfl⟩ := EStateM.Result.ok.inj hv
    rfl
  rw [bodies_emitted he, hnone, List.append_assoc]
  rfl

theorem approvalGate_bodies (hl : rt.Live) (he : rt.tracer.enabled = true) {label : String}
    {args : List Json} {approved : Bool}
    (h : (rt.host.approve label args s.world).1 = .ok approved) :
    ∃ (d : ApprovalDecisionInfo) (notes : List EventBody),
      (Result.settle ((rt.approvalGate label args).run s)).2.bodies =
        s.bodies ++ .approvalRequest label args ::
          .approvalDecision label args d.accepted d.decider d.rationale ::
          .approvalResponse label approved :: notes ∧ ∀ e ∈ notes, e.isNote = true := by
  rw [← @Runtime.emitted_world _ rt s (.approvalRequest label args)] at h
  obtain ⟨d, w, hd⟩ := approveLive_ok h
  have hbodies : RunState.bodies { rt.emitted (.approvalRequest label args) s with world := w } =
      s.bodies ++ [.approvalRequest label args] := bodies_emitted he _
  have htail : Quiet (if approved then rt.emitApprovalToken label args
      else throw (.approvalDenied label) : RunM W Unit) := by
    cases approved with
    | true => exact quiet_get.bind fun _ => quiet_emit he rfl
    | false => exact quiet_throw _
  obtain ⟨notes, hnotes, hn⟩ := htail (rt.emitted (.approvalResponse label approved)
    (rt.emitted (.approvalDecision label args d.accepted d.decider d.rationale)
      { rt.emitted (.approvalRequest label args) s with world := w }))
  refine ⟨d, notes, ?_, hn⟩
  rw [bodies_emitted he, bodies_emitted he, hbodies] at hnotes
  simp only [Runtime.approvalGate, EStateM.run_bind, Runtime.run_emit, hl.run_replaySource, hd]
  simpa using hnotes

/-! ### Models -/

theorem quiet_emitProviderDegraded (he : rt.tracer.enabled = true) (prompt model : String)
    (provider : Option String) (err : RuntimeError) :
    Quiet (rt.emitProviderDegraded prompt model provider err) :=
  quiet_emit he rfl

/-- By induction on the fallbacks: each one that fails leaves a note, and so does the one that
answers. -/
theorem quiet_tryFallbacks (he : rt.tracer.enabled = true) (req : LlmRequest)
    (fallbacks : List ModelSelection) (lastErr : RuntimeError) :
    Quiet (rt.tryFallbacks req lastErr fallbacks) := by
  induction fallbacks generalizing lastErr with
  | nil => exact quiet_throw _
  | cons fallback fallbacks ih =>
    refine (quiet_attempt _).bind fun answer => ?_
    cases answer with
    | ok outcome => exact Quiet.bind (quiet_emit he rfl) fun _ => quiet_pure _
    | error err => exact (quiet_emitProviderDegraded he _ _ _ _).bind fun _ => ih err

theorem quiet_callLlmLive (he : rt.tracer.enabled = true) (req : LlmRequest)
    (traceRendered : String) : Quiet (rt.callLlmLive req traceRendered) := by
  refine (quiet_attempt _).bind fun answer => ?_
  cases answer with
  | ok outcome => exact quiet_pure _
  | error err =>
    exact (quiet_emitProviderDegraded he _ _ _ _).bind fun _ => quiet_tryFallbacks he _ _ _

theorem quiet_cacheAnswer (he : rt.tracer.enabled = true) (req : LlmRequest)
    (response : LlmResponse) (fingerprint : Option String) :
    Quiet (rt.cacheAnswer req response fingerprint) := by
  cases fingerprint with
  | none => exact quiet_pure _
  | some fingerprint => exact Quiet.bind (quiet_modify fun _ => rfl) fun _ => quiet_emit he rfl

/-- From `s` to `t` a model call was answered: the trace grew by at least one note and the result. -/
def AnsweredCall (s t : RunState W) (prompt : String) (value : Json) : Prop :=
  ∃ notes model modelVersion, notes ≠ [] ∧ (∀ e ∈ notes, e.isNote = true) ∧
    t.bodies = s.bodies ++ (notes ++ [.llmResult prompt model modelVersion value])

/-- The last note of an answer and its result. -/
theorem Noted.answered (he : rt.tracer.enabled = true) (h : Noted s t) {note : EventBody}
    (hnote : note.isNote = true) (prompt : String) (model modelVersion : Option String)
    (value : Json) :
    AnsweredCall s (rt.emitted (.llmResult prompt model modelVersion value) (rt.emitted note t)) prompt
      value := by
  obtain ⟨notes, hnotes, hn⟩ := h
  refine ⟨notes ++ [note], model, modelVersion, by simp, fun e hmem => ?_, ?_⟩
  · rcases List.mem_append.mp hmem with hmem | hmem
    · exact hn e hmem
    · obtain rfl := List.mem_singleton.mp hmem
      exact hnote
  · rw [bodies_emitted he, bodies_emitted he, hnotes]
    simp

theorem callLlmCached_answered (he : rt.tracer.enabled = true) {req : LlmRequest}
    {fingerprint : String} {cached response : LlmResponse}
    (h : (rt.callLlmCached req fingerprint cached).run s = .ok response t) :
    AnsweredCall s t req.prompt response.value := by
  unfold Runtime.callLlmCached at h
  rw [Result.run_bind_of_ok (Runtime.run_emit _), Result.run_bind_of_ok (Runtime.run_emit _),
    Result.run_pure_eq_ok] at h
  obtain ⟨rfl, rfl⟩ := h
  exact Noted.answered he (.of_trace_eq rfl) rfl _ _ _ _

theorem callLlmUncached_answered (he : rt.tracer.enabled = true) {req : LlmRequest}
    {traceRendered : String} {fingerprint : Option String} {response : LlmResponse}
    (h : (rt.callLlmUncached req traceRendered none fingerprint).run s = .ok response t) :
    AnsweredCall s t req.prompt response.value := by
  unfold Runtime.callLlmUncached at h
  obtain ⟨answer, u, hanswer, h⟩ := Result.run_bind_eq_ok.mp h
  obtain ⟨⟨⟩, v, hcache, h⟩ := Result.run_bind_eq_ok.mp h
  rw [Runtime.emitHostEvent, Result.run_bind_of_ok (Runtime.run_emit _),
    Result.run_bind_of_ok (Runtime.run_emit _), Result.run_pure_eq_ok] at h
  obtain ⟨rfl, rfl⟩ := h
  have hnoted : Noted s v := ((quiet_callLlmLive he req traceRendered).ok hanswer).trans
    ((quiet_cacheAnswer he req answer.response fingerprint).ok hcache)
  -- the usage of the call stands before its result
  exact hnoted.answered he rfl _ _ _ _

theorem resolved_prompt (req : LlmRequest) : (rt.resolved req).prompt = req.prompt := by
  unfold Runtime.resolved
  split <;> rfl

theorem callLlmRefImpl_answered (hl : rt.Live) (he : rt.tracer.enabled = true) {req : LlmRequest}
    {traceRendered : Option String} {cacheable : Bool} {response : LlmResponse}
    (h : (rt.callLlmRefImpl req traceRendered cacheable).run s = .ok response t) :
    ∃ rendered, AnsweredCall (rt.emitted (rt.llmCallEvent (rt.resolved req) rendered) s) t req.prompt
      response.value := by
  unfold Runtime.callLlmRefImpl at h
  rw [Result.run_bind_of_ok hl.run_replaySource, Result.run_bind_of_ok (Runtime.run_emit _),
    Result.run_bind_of_ok (EStateM.run_get _)] at h
  refine ⟨traceRendered.getD (rt.resolved req).rendered, ?_⟩
  rw [← @resolved_prompt _ rt req]
  split at h
  · exact callLlmCached_answered he h
  · exact callLlmUncached_answered he h

end Steps

/-! ### Runs -/

section Runs

variable {rt : Runtime W} {s t : RunState W} {steps : List RecordedStep}

/-- A run records its steps. -/
theorem Ran.records (hl : rt.Live) (he : rt.tracer.enabled = true) (h : Ran rt s steps t) :
    ∃ events, t.bodies = s.bodies ++ events ∧ RecordsSteps events steps := by
  induction h with
  | done s => exact ⟨[], by simp, .nil⟩
  | note event hnote hr ih =>
    obtain ⟨events, hevents, hrec⟩ := ih
    refine ⟨event :: events, ?_, .note hnote hrec⟩
    rw [hevents, bodies_emitted he, List.append_assoc]
    rfl
  | aside r haside hr ih =>
    obtain ⟨events, hevents, hrec⟩ := ih
    obtain ⟨notes, hnotes, hn⟩ := quiet_serve he haside _
    exact ⟨notes ++ events, by rw [hevents, hnotes, List.append_assoc], .append_notes hrec hn⟩
  | tool htool hr ih =>
    obtain ⟨events, hevents, hrec⟩ := ih
    refine ⟨_, ?_, .tool hrec⟩
    rw [hevents, callTool_bodies hl he htool, List.append_assoc]
    rfl
  | llm hllm hr ih =>
    obtain ⟨events, hevents, hrec⟩ := ih
    obtain ⟨rendered, notes, model, modelVersion, hne, hn, hb⟩ :=
      callLlmRefImpl_answered hl he hllm
    obtain ⟨event, notes, rfl⟩ := List.exists_cons_of_ne_nil hne
    have hnotes : ∀ e ∈ notes, e.isNote = true := fun e hmem => hn e (by simp [hmem])
    rw [bodies_emitted he, Runtime.llmCallEvent, resolved_prompt, List.append_assoc] at hb
    exact ⟨_, by rw [hevents, hb, List.append_assoc, List.append_assoc, List.append_assoc]; rfl,
      .llm (hn event (by simp)) hnotes hrec⟩
  | approve happrove hr ih =>
    obtain ⟨events, hevents, hrec⟩ := ih
    obtain ⟨d, notes, hb, hn⟩ := approvalGate_bodies hl he happrove
    exact ⟨_, by rw [hevents, hb, List.append_assoc]; rfl, .approve (hrec.append_notes hn)⟩

/-- The trace of a new runtime is the preamble. -/
theorem build_bodies (he : rt.tracer.enabled = true) (world : W) (seed : ℕ) :
    (rt.build world seed).bodies =
      [.schemaHeader schemaVersion rt.traceSchemaWriter rt.commitSha none,
        .seedRead "rollout_default_seed" seed] := by
  rw [Runtime.build, bodies_emitted he, bodies_emitted he]
  rfl

/-- **Reading a recording.** The replay expression reads what a live runtime recorded if and only if
every model call of the run comes after a step that some arm matches. -/
theorem reads_recording_iff {world : W} {seed : ℕ} (hl : rt.Live) (he : rt.tracer.enabled = true)
    (h : Ran rt (rt.build world seed) steps t) (path : String) (arms : List ReplayDispatchArm) :
    ReadsRecording path t.trace rt.traceSchemaWriter arms steps ↔ ModelCallsShielded arms steps := by
  obtain ⟨events, hevents, hrec⟩ := h.records hl he
  rw [build_bodies he, RunState.bodies, List.cons_append, List.map_eq_cons_iff] at hevents
  obtain ⟨header, es, htrace, hheader, hes⟩ := hevents
  -- the seed of the preamble is read over like any note
  have hpreamble : RecordsSteps (es.map TraceEvent.body) steps := by
    rw [hes]
    exact .note rfl hrec
  rw [ReadsRecording, htrace]
  simp only [findFirstReplayMatch_recording hheader hpreamble]
  exact hpreamble.scan_iff 1

end Runs

/-- What the refund run records: the order is looked up, classified, and its refund is denied. -/
def refundSteps : List RecordedStep :=
  [.tool "get_order" [.string "ord_42"] (.int 12), .llm "classify" (.string "refund"),
    .approve "IssueRefund" false]

theorem ran_classify {rt : Runtime W} {s t u : RunState W} {steps : List RecordedStep}
    (h : (rt.callLlmRefImpl (rt.resolved ⟨"classify", "", "Classify ord_42", [], none⟩) none
      false).run s = .ok (.new (.string "refund") {}) t) (hr : Ran rt t steps u) :
    Ran rt s (.llm "classify" (.string "refund") :: steps) u := by
  simpa [resolved_prompt, LlmResponse.new] using Ran.llm h hr

theorem ran_refundStrategy :
    Ran (countingRuntime (.ok (.int 12))) ((countingRuntime (.ok (.int 12))).build 0 7) refundSteps
      (refundStrategy.run (countingRuntime (.ok (.int 12)))
        ((countingRuntime (.ok (.int 12))).build 0 7)).state :=
  .tool rfl (ran_classify rfl (.approve rfl (.aside .rollout rfl (.done _))))

/-- The looked up order is found, as no model call stands before it. -/
theorem reads_recording_refundStrategy :
    ReadsRecording "run.jsonl"
      (refundStrategy.run (countingRuntime (.ok (.int 12)))
        ((countingRuntime (.ok (.int 12))).build 0 7)).state.trace
      writerInterpreter [⟨.tool "get_order" .capture⟩] refundSteps := by
  refine (reads_recording_iff ⟨rfl, rfl⟩ rfl ran_refundStrategy "run.jsonl" _).mpr ?_
  rw [refundSteps, modelCallsShielded_cons (by simp)]
  exact .inl ⟨_, List.mem_singleton_self _, .capture ..⟩

/-- Classifies an order, and then looks it up. -/
def classifyStrategy : Strategy :=
  .call (.llm ⟨"classify", "", "Classify ord_42", [], none⟩ false) fun _ =>
  .call (.tool "get_order" [.string "ord_42"]) fun _ => .done (.ok .null)

def classifySteps : List RecordedStep :=
  [.llm "classify" (.string "refund"), .tool "get_order" [.string "ord_42"] (.int 12)]

/-- The usage of the model call stands between the call and its result. -/
theorem not_reads_classifyStrategy :
    Ran (countingRuntime (.ok (.int 12))) ((countingRuntime (.ok (.int 12))).build 0 7) classifySteps
        (classifyStrategy.run (countingRuntime (.ok (.int 12)))
          ((countingRuntime (.ok (.int 12))).build 0 7)).state ∧
      ¬ ReadsRecording "run.jsonl"
        (classifyStrategy.run (countingRuntime (.ok (.int 12)))
          ((countingRuntime (.ok (.int 12))).build 0 7)).state.trace
        writerInterpreter [⟨.tool "get_order" .wildcard⟩] classifySteps := by
  refine ⟨ran_classify rfl (.tool rfl (.done _)), ?_⟩
  rintro ⟨found, hfound, -⟩
  have hfailed : findFirstReplayMatch "run.jsonl"
      (classifyStrategy.run (countingRuntime (.ok (.int 12)))
        ((countingRuntime (.ok (.int 12))).build 0 7)).state.trace
      writerInterpreter [⟨.tool "get_order" .wildcard⟩] =
      malformedPair "run.jsonl" "llm_call" 3 := rfl
  rw [hfailed] at hfound
  cases hfound

end Corvid
