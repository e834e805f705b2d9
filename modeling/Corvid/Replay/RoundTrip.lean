import Corvid.Runtime.Session

/-!
# Replaying a recorded session

A live session writes a trace; a replay of the same program on that trace should give it the same
answers without asking anyone. It does so for sessions in which every service answers: the trace
keeps no error, no answer of a fallback model under the name of the requested one, no usage and no
confidence of an answer, and a replay has no recorded answer for a human.

## Main definitions

* `Recordable`, `Faithful`: the requests and the runs whose answers the trace keeps
* `Reproduces`: a replay of the recorded session gives the same answers

## Main results

* `Recordable.serve`: one request, live and replayed
* `Faithful.run`: a whole run, live and replayed
* `reproduces_of_faithful`: a faithful session is reproduced
-/

namespace Corvid

open Replay

variable {W : Type}

/-- The trace keeps the answer to a request made in state `s`: the tool, the model itself or the
approver answers, a model answer is nothing but a value, and no human is asked. -/
def Recordable (rt : Runtime W) (s : RunState W) : Request → Prop
  | .tool name args => ∃ result, (rt.toolsCall name args s.world).1 = .ok result
  | .llm req cacheable =>
    match if cacheable then s.promptCache.lookup (rt.host.fingerprint (rt.resolved req)) else none with
    | some cached => cached.confidence = none ∧ cached.calibration = none
    | none => ∃ adapter value, (rt.callWithAdapterName (rt.resolved req) s.world).1 =
        .ok ⟨adapter, LlmResponse.new value {}⟩
  | .approve label args => ∃ approved, (rt.host.approve label args s.world).1 = .ok approved
  | .ask _ _ => False
  | .choose _ => False
  | .rollout => True

/-- Every request of the run from `s` is recordable in the state it is made in. -/
def Faithful (rt : Runtime W) : Strategy → RunState W → Prop
  | .done _, _ => True
  | .call r k, s => Recordable rt s r ∧
      Faithful rt (k (Result.settle ((rt.serve r).run s)).1) (Result.settle ((rt.serve r).run s)).2

/-- From `s` to `t` the trace grew by the executable events `X`, none of them a header. -/
def Recorded (s t : RunState W) (X : List EventBody) : Prop :=
  ∃ E : List TraceEvent, t.trace = s.trace ++ E ∧ executable E = X ∧
    validateSupportedSchema E = .ok ()

section Recording

variable {rt : Runtime W} {s t u : RunState W} {X Y : List EventBody}

theorem validateSupportedSchema_append {E F : List TraceEvent}
    (hE : validateSupportedSchema E = .ok ()) (hF : validateSupportedSchema F = .ok ()) :
    validateSupportedSchema (E ++ F) = .ok () := by
  induction E with
  | nil => exact hF
  | cons e E ih =>
    rw [List.cons_append]
    unfold validateSupportedSchema at hE ⊢
    split at hE
    · split at hE
      · cases hE
      · rw [if_neg ‹_›, ih hE]
    · exact ih hE

theorem Recorded.refl (h : t.trace = s.trace) : Recorded s t [] :=
  ⟨[], by rw [h, List.append_nil], rfl, rfl⟩

theorem Recorded.trans (h : Recorded s t X) (h' : Recorded t u Y) : Recorded s u (X ++ Y) := by
  obtain ⟨E, hE, rfl, hv⟩ := h
  obtain ⟨F, hF, rfl, hv'⟩ := h'
  exact ⟨E ++ F, by rw [hF, hE, List.append_assoc], executable_append E F,
    validateSupportedSchema_append hv hv'⟩

/-- Only the trace counts. -/
theorem Recorded.congr (h : Recorded s t X) (ht : u.trace = t.trace) : Recorded s u X := by
  obtain ⟨E, hE, hX, hv⟩ := h
  exact ⟨E, ht.trans hE, hX, hv⟩

theorem Runtime.emitted_trace (h : rt.tracer.enabled = true) (b : EventBody) :
    (rt.emitted b s).trace =
      s.trace ++ [⟨rt.host.clock s.trace.length, rt.tracer.runId, b⟩] := by
  rw [emitted, if_pos h]

/-- Recording an event that a replay executes. -/
theorem recorded_executable (h : rt.tracer.enabled = true) (b : EventBody)
    (hm : ∀ ts run, isDispatchMetadata ⟨ts, run, b⟩ = false)
    (hv : ∀ ts run, validateSupportedSchema [⟨ts, run, b⟩] = .ok ()) :
    Recorded s (rt.emitted b s) [b] :=
  ⟨_, Runtime.emitted_trace h b, executable_cons [] (hm _ _), hv _ _⟩

/-- Recording an event that a replay steps over. -/
theorem recorded_metadata (h : rt.tracer.enabled = true) (b : EventBody)
    (hm : ∀ ts run, isDispatchMetadata ⟨ts, run, b⟩ = true)
    (hv : ∀ ts run, validateSupportedSchema [⟨ts, run, b⟩] = .ok ()) :
    Recorded s (rt.emitted b s) [] :=
  ⟨_, Runtime.emitted_trace h b, executable_cons_of_metadata [] (hm _ _), hv _ _⟩

end Recording

/-- The replay of one request: from a source whose next executable events are `X`, the request is
answered with `a`, and the source stands after `X`. Nothing outside is asked. -/
def ReplaysAs (rt : Runtime W) (source : ReplaySource) (r : Request)
    (a : Except RuntimeError r.Answer) (X : List EventBody) : Prop :=
  ∀ (s : RunState W) (rest : List EventBody), remaining source.events s.cursor = X ++ rest →
    ∃ t, Result.settle ((rt.serve r).run s) = (a, t) ∧ t.world = s.world ∧
      remaining source.events t.cursor = rest ∧ t.cursor.Valid source.events

section Tool

variable {rt : Runtime W} {s : RunState W} {name : String} {args : List Json} {result : Json}

theorem callTool_live (hl : rt.Live) (he : rt.tracer.enabled = true)
    (h : (rt.toolsCall name args s.world).1 = .ok result) :
    ∃ t, (rt.callTool name args).run s = .ok result t ∧
      Recorded s t [.toolCall name args, .toolResult name result] := by
  have h' : (rt.toolsCall name args (rt.emitted (.toolCall name args) s).world).1 =
      .ok result := by
    rwa [Runtime.emitted_world]
  refine ⟨_, by
    simp only [Runtime.callTool, EStateM.run_bind, Runtime.run_emit, hl.run_replaySource,
      Runtime.run_contact_ok h']
    rfl, ?_⟩
  have hcall : Recorded s (rt.emitted (.toolCall name args) s) [.toolCall name args] :=
    recorded_executable he _ (fun _ _ => rfl) (fun _ _ => rfl)
  exact (hcall.congr rfl).trans (recorded_executable he _ (fun _ _ => rfl) (fun _ _ => rfl))

theorem callTool_replay {source : ReplaySource} (hr : rt.Replaying source) :
    ReplaysAs rt source (.tool name args) (.ok result)
      [.toolCall name args, .toolResult name result] := by
  intro s rest hrem
  obtain ⟨c, hc, hrest, hv⟩ := replayToolCall_of_remaining hrem
  have hc' : (replayToolCall source name args).run (rt.emitted (.toolCall name args) s).cursor =
      .ok result c := by
    rwa [Runtime.emitted_cursor]
  refine ⟨_, by
    simp only [Runtime.serve, Runtime.callTool, EStateM.run_bind, Runtime.run_emit,
      hr.run_replaySource, Runtime.run_reading_ok hc']
    rfl, ?_⟩
  simp [hrest, hv]

end Tool

section Approval

variable {rt : Runtime W} {s : RunState W} {label : String} {args : List Json} {approved : Bool}

theorem approveLive_ok (h : (rt.host.approve label args s.world).1 = .ok approved) :
    ∃ d w, (rt.approveLive label args).run s = .ok (approved, some d) { s with world := w } := by
  let w := (rt.host.approve label args s.world).2
  refine ⟨(rt.host.takeLastApprovalDetail w).1.getD ⟨approved, "runtime-approver", none⟩,
    (rt.host.takeLastApprovalDetail w).2, ?_⟩
  rw [Runtime.approveLive, Result.run_bind_of_ok (Runtime.run_contact_ok h),
    Result.run_bind_of_ok (Runtime.run_contact_ok rfl)]
  rfl

/-- The answer of the gate to a decision. -/
def gateAnswer (label : String) (approved : Bool) : Except RuntimeError Unit :=
  if approved then .ok () else .error (.approvalDenied label)

theorem approvalGate_live (hl : rt.Live) (he : rt.tracer.enabled = true)
    (h : (rt.host.approve label args s.world).1 = .ok approved) :
    ∃ (d : ApprovalDecisionInfo) (t : RunState W),
      Result.settle ((rt.approvalGate label args).run s) = (gateAnswer label approved, t) ∧
      Recorded s t [.approvalRequest label args,
        .approvalDecision label args d.accepted d.decider d.rationale,
        .approvalResponse label approved] := by
  have h' : (rt.host.approve label args (rt.emitted (.approvalRequest label args) s).world).1 =
      .ok approved := by
    rwa [Runtime.emitted_world]
  obtain ⟨d, w, hd⟩ := approveLive_ok h'
  refine ⟨d, ?_⟩
  have hreq : Recorded s { rt.emitted (.approvalRequest label args) s with world := w }
      [.approvalRequest label args] :=
    (recorded_executable he _ (fun _ _ => rfl) (fun _ _ => rfl)).congr rfl
  have hresp := (hreq.trans
    (recorded_executable he (.approvalDecision label args d.accepted d.decider d.rationale)
      (fun _ _ => rfl) (fun _ _ => rfl))).trans
    (recorded_executable he (.approvalResponse label approved) (fun _ _ => rfl) (fun _ _ => rfl))
  cases approved with
  | true =>
    refine ⟨_, by
      simp only [Runtime.approvalGate, Runtime.emitApprovalToken, EStateM.run_bind,
        Runtime.run_emit, hl.run_replaySource, hd]
      rfl, ?_⟩
    -- the token of a granted approval is metadata
    exact hresp.trans (recorded_metadata he _ (fun _ _ => rfl) (fun _ _ => rfl))
  | false =>
    refine ⟨_, by
      simp only [Runtime.approvalGate, EStateM.run_bind, Runtime.run_emit, hl.run_replaySource, hd]
      rfl, ?_⟩
    exact hresp

theorem approvalGate_replay {source : ReplaySource} (hr : rt.Replaying source)
    (d : ApprovalDecisionInfo) :
    ReplaysAs rt source (.approve label args) (gateAnswer label approved)
      [.approvalRequest label args,
        .approvalDecision label args d.accepted d.decider d.rationale,
        .approvalResponse label approved] := by
  intro s rest hrem
  obtain ⟨c, hc, hrest, hv⟩ :=
    replayApproval_of_remaining (d := ⟨d.accepted, d.decider, d.rationale⟩) hrem
  have hc' : (replayApproval source label args).run
      (rt.emitted (.approvalRequest label args) s).cursor =
      .ok ⟨approved, some ⟨d.accepted, d.decider, d.rationale⟩⟩ c := by
    rwa [Runtime.emitted_cursor]
  cases approved with
  | true =>
    refine ⟨_, by
      simp only [Runtime.serve, Runtime.approvalGate, Runtime.emitApprovalToken,
        EStateM.run_bind, Runtime.run_emit, hr.run_replaySource, Runtime.run_reading_ok hc']
      rfl, ?_⟩
    simp [hrest, hv]
  | false =>
    refine ⟨_, by
      simp only [Runtime.serve, Runtime.approvalGate, EStateM.run_bind, Runtime.run_emit,
        hr.run_replaySource, Runtime.run_reading_ok hc']
      rfl, ?_⟩
    simp [hrest, hv]

end Approval

section Rollout

variable {rt : Runtime W} {s : RunState W}

theorem nextRolloutSample_live (hl : rt.Live) (he : rt.tracer.enabled = true) :
    ∃ next t, rt.nextRolloutSample.run s = .ok (Runtime.rolloutSample next) t ∧
      Recorded s t [.seedRead "rollout_cohort" next] := by
  refine ⟨Runtime.advanceRollout s.rolloutState, _, by
    simp only [Runtime.nextRolloutSample, EStateM.run_bind, hl.run_replaySource, EStateM.run_get,
      EStateM.run_pure, EStateM.run_modify, Runtime.run_emit]
    rfl, ?_⟩
  have hset : Recorded s { s with rolloutState := Runtime.advanceRollout s.rolloutState } [] :=
    .refl rfl
  exact hset.trans (recorded_executable he _ (fun _ _ => rfl) (fun _ _ => rfl))

theorem nextRolloutSample_replay {source : ReplaySource} (hr : rt.Replaying source) (next : ℕ) :
    ReplaysAs rt source .rollout (.ok (Runtime.rolloutSample next)) [.seedRead "rollout_cohort" next] := by
  intro s rest hrem
  obtain ⟨c, hc, hrest, hv⟩ := replayRolloutSample_of_remaining hrem
  refine ⟨_, by
    simp only [Runtime.serve, Runtime.nextRolloutSample, EStateM.run_bind, hr.run_replaySource,
      Runtime.run_reading_ok hc, EStateM.run_modify, Runtime.run_emit]
    rfl, ?_⟩
  simp [hrest, hv]

end Rollout

section Llm

variable {rt : Runtime W} {s : RunState W} {req : LlmRequest} {cacheable : Bool}

/-- The result event of a request that the requested model answered. -/
def llmResultEvent (rt : Runtime W) (req : LlmRequest) (value : Json) : EventBody :=
  .llmResult req.prompt (Runtime.named req.model) (rt.modelVersion req.model) value

theorem callLlmLive_ok {outcome : Runtime.LlmCallOutcome}
    (h : (rt.callWithAdapterName req s.world).1 = .ok outcome) (rendered : String) :
    (rt.callLlmLive req rendered).run s =
      .ok ⟨req.model, some outcome.adapter, outcome.response⟩
        { s with world := (rt.callWithAdapterName req s.world).2 } := by
  rw [Runtime.callLlmLive, Result.run_bind_of_ok (Runtime.run_attempt _), h]
  rfl

theorem cacheAnswer_ok (he : rt.tracer.enabled = true) (req : LlmRequest) (response : LlmResponse)
    (fingerprint : Option String) :
    ∃ t, (rt.cacheAnswer req response fingerprint).run s = .ok () t ∧ Recorded s t [] := by
  cases fingerprint with
  | none => exact ⟨s, rfl, .refl rfl⟩
  | some fingerprint =>
    refine ⟨_, rfl, ?_⟩
    have hset : Recorded s
        { s with promptCache := s.promptCache.insert fingerprint response } [] := .refl rfl
    exact hset.trans (recorded_metadata he _ (fun _ _ => rfl) (fun _ _ => rfl))

theorem callLlmUncached_live (he : rt.tracer.enabled = true) {outcome : Runtime.LlmCallOutcome}
    (h : (rt.callWithAdapterName req s.world).1 = .ok outcome) (rendered : String)
    (fingerprint : Option String) :
    ∃ t, (rt.callLlmUncached req rendered none fingerprint).run s = .ok outcome.response t ∧
      Recorded s t [llmResultEvent rt req outcome.response.value] := by
  obtain ⟨t, ht, hrec⟩ := cacheAnswer_ok
    (s := { s with world := (rt.callWithAdapterName req s.world).2 }) he req outcome.response
    fingerprint
  refine ⟨_, by
    rw [Runtime.callLlmUncached, Runtime.modelAnswer,
      Result.run_bind_of_ok (callLlmLive_ok h rendered), Result.run_bind_of_ok ht]
    rfl, ?_⟩
  have hstart : Recorded s t [] := hrec
  exact (hstart.trans (recorded_metadata he _ (fun _ _ => rfl) (fun _ _ => rfl))).trans
    (recorded_executable he _ (fun _ _ => rfl) (fun _ _ => rfl))

theorem callLlmCached_ok (he : rt.tracer.enabled = true) (req : LlmRequest) (fingerprint : String)
    (cached : LlmResponse) :
    ∃ t, (rt.callLlmCached req fingerprint cached).run s =
        .ok (Runtime.cachedResponse cached) t ∧
      Recorded s t [llmResultEvent rt req cached.value] := by
  refine ⟨_, rfl, ?_⟩
  have hhit : Recorded s _ [] := recorded_metadata he
    (.promptCache req.prompt (Runtime.named req.model) (rt.modelVersion req.model) fingerprint true)
    (fun _ _ => rfl) (fun _ _ => rfl)
  exact hhit.trans (recorded_executable he _ (fun _ _ => rfl) (fun _ _ => rfl))

theorem callLlmCacheable_hit (hl : rt.Live) {cached : LlmResponse}
    (hc : s.promptCache.lookup (rt.host.fingerprint (rt.resolved req)) = some cached) :
    (rt.callLlmCacheable req true).run s =
      (rt.callLlmCached (rt.resolved req) (rt.host.fingerprint (rt.resolved req)) cached).run
        (rt.emitted (rt.llmCallEvent (rt.resolved req) (rt.resolved req).rendered) s) := by
  rw [Runtime.callLlmCacheable, Runtime.callLlmRefImpl, rt.resolved_resolved,
    Result.run_bind_of_ok hl.run_replaySource, Result.run_bind_of_ok (Runtime.run_emit _),
    Result.run_bind_of_ok (EStateM.run_get _), Runtime.emitted_promptCache]
  simp [hc]

theorem callLlmCacheable_miss (hl : rt.Live)
    (hc : (if cacheable then s.promptCache.lookup (rt.host.fingerprint (rt.resolved req))
      else none) = none) :
    ∃ fingerprint, (rt.callLlmCacheable req cacheable).run s =
      (rt.callLlmUncached (rt.resolved req) (rt.resolved req).rendered none fingerprint).run
        (rt.emitted (rt.llmCallEvent (rt.resolved req) (rt.resolved req).rendered) s) := by
  refine ⟨if cacheable then some (rt.host.fingerprint (rt.resolved req)) else none, ?_⟩
  rw [Runtime.callLlmCacheable, Runtime.callLlmRefImpl, rt.resolved_resolved,
    Result.run_bind_of_ok hl.run_replaySource, Result.run_bind_of_ok (Runtime.run_emit _),
    Result.run_bind_of_ok (EStateM.run_get _), Runtime.emitted_promptCache]
  cases cacheable with
  | false => simp
  | true =>
    rw [if_pos rfl] at hc
    simp [hc]

/-- A model call that the requested model or the cache answers with a plain value. -/
theorem callLlmCacheable_live (hl : rt.Live) (he : rt.tracer.enabled = true)
    (h : Recordable rt s (.llm req cacheable)) :
    ∃ value t, (rt.callLlmCacheable req cacheable).run s = .ok (LlmResponse.new value {}) t ∧
      Recorded s t [rt.llmCallEvent (rt.resolved req) (rt.resolved req).rendered,
        llmResultEvent rt (rt.resolved req) value] := by
  have hcall : Recorded s (rt.emitted (rt.llmCallEvent (rt.resolved req)
      (rt.resolved req).rendered) s) [rt.llmCallEvent (rt.resolved req) (rt.resolved req).rendered] :=
    recorded_executable he _ (fun _ _ => rfl) (fun _ _ => rfl)
  simp only [Recordable] at h
  split at h
  next cached hc =>
    obtain rfl : cacheable = true := by
      by_contra hne
      simp [hne] at hc
    rw [if_pos rfl] at hc
    obtain ⟨t, ht, hrec⟩ := callLlmCached_ok he (rt.resolved req)
      (rt.host.fingerprint (rt.resolved req)) cached
    refine ⟨cached.value, t, ?_, hcall.trans hrec⟩
    rw [callLlmCacheable_hit hl hc, ht, Runtime.cachedResponse, LlmResponse.new, h.1, h.2]
  next hc =>
    obtain ⟨adapter, value, hv⟩ := h
    obtain ⟨fingerprint, hmiss⟩ := callLlmCacheable_miss hl hc
    rw [← @Runtime.emitted_world _ rt _
      (rt.llmCallEvent (rt.resolved req) (rt.resolved req).rendered)] at hv
    obtain ⟨t, ht, hrec⟩ := callLlmUncached_live he hv (rt.resolved req).rendered fingerprint
    exact ⟨value, t, hmiss.trans ht, hcall.trans hrec⟩

theorem callLlmCacheable_replay {source : ReplaySource} (hr : rt.Replaying source) (value : Json) :
    ReplaysAs rt source (.llm req cacheable) (.ok (LlmResponse.new value {}))
      [rt.llmCallEvent (rt.resolved req) (rt.resolved req).rendered,
        llmResultEvent rt (rt.resolved req) value] := by
  intro s rest hrem
  obtain ⟨c, hc, hrest, hv⟩ := replayLlmCall_of_remaining hrem
  rw [← @Runtime.emitted_cursor _ rt _
    (rt.llmCallEvent (rt.resolved req) (rt.resolved req).rendered)] at hc
  refine ⟨_, by
    rw [Runtime.serve, Runtime.callLlmCacheable, Runtime.callLlmRefImpl, rt.resolved_resolved,
      Result.run_bind_of_ok hr.run_replaySource, Result.run_bind_of_ok (Runtime.run_emit _),
      Result.run_bind_of_ok (EStateM.run_get _)]
    simp only [Option.isNone_some, Bool.and_false, Bool.false_eq_true, if_false, Option.bind_none]
    rw [Runtime.callLlmUncached, Runtime.modelAnswer, EStateM.run_bind, EStateM.run_bind]
    simp only [Option.getD_none, Runtime.run_reading_ok hc]
    rfl, ?_⟩
  simp [hrest, hv]

end Llm

/-- The runtime that replays `source` with the models of `rt`, connected to another host. -/
def Runtime.replayOf {V : Type} (rt : Runtime W) (host : Host V) (tracer : Tracer)
    (source : ReplaySource) : Runtime V where
  host := host
  tracer := tracer
  traceSchemaWriter := rt.traceSchemaWriter
  commitSha := rt.commitSha
  mode := .replay source
  replayError := none
  defaultModel := rt.defaultModel
  modelCatalog := rt.modelCatalog

section Runs

variable {rt : Runtime W} {s : RunState W}

theorem replaying_replayOf {V : Type} (host : Host V) (tracer : Tracer) (source : ReplaySource) :
    (rt.replayOf host tracer source).Replaying source := ⟨rfl, rfl⟩

/-- **One request.** What a recordable request adds to the trace is what its replay consumes, and
the replay has the same answer. -/
theorem Recordable.serve {r : Request} (hl : rt.Live) (he : rt.tracer.enabled = true)
    (h : Recordable rt s r) :
    ∃ a t X, Result.settle ((rt.serve r).run s) = (a, t) ∧ Recorded s t X ∧
      ∀ (V : Type) (host : Host V) (tracer : Tracer) (source : ReplaySource),
        ReplaysAs (rt.replayOf host tracer source) source r a X := by
  cases r with
  | tool name args =>
    obtain ⟨result, hresult⟩ := h
    obtain ⟨t, ht, hrec⟩ := callTool_live hl he hresult
    exact ⟨.ok result, t, _, by rw [Runtime.serve, ht]; rfl, hrec,
      fun V host tracer source => callTool_replay (replaying_replayOf host tracer source)⟩
  | llm req cacheable =>
    obtain ⟨value, t, ht, hrec⟩ := callLlmCacheable_live hl he h
    -- the request resolves to the same model, and the model has the same version
    exact ⟨.ok (LlmResponse.new value {}), t, _, by rw [Runtime.serve, ht]; rfl, hrec,
      fun V host tracer source =>
        callLlmCacheable_replay (replaying_replayOf host tracer source) value⟩
  | approve label args =>
    obtain ⟨approved, happroved⟩ := h
    obtain ⟨d, t, ht, hrec⟩ := approvalGate_live hl he happroved
    exact ⟨gateAnswer label approved, t, _, ht, hrec,
      fun V host tracer source => approvalGate_replay (replaying_replayOf host tracer source) d⟩
  | ask prompt expectedType => exact h.elim
  | choose options => exact h.elim
  | rollout =>
    obtain ⟨next, t, ht, hrec⟩ := nextRolloutSample_live (s := s) hl he
    exact ⟨.ok (Runtime.rolloutSample next), t, _, by rw [Runtime.serve, ht]; rfl, hrec,
      fun V host tracer source =>
        nextRolloutSample_replay (replaying_replayOf host tracer source) next⟩

/-- **A whole run.** By induction on the program: the replay of a faithful run gives the program
the same answers, and consumes exactly what the run recorded. -/
theorem Faithful.run {p : Strategy} (hl : rt.Live) (he : rt.tracer.enabled = true)
    (h : Faithful rt p s) :
    ∃ X, Recorded s (p.run rt s).state X ∧
      ∀ (V : Type) (host : Host V) (tracer : Tracer) (source : ReplaySource) (s' : RunState V)
        (rest : List EventBody), remaining source.events s'.cursor = X ++ rest →
        ((p.run (rt.replayOf host tracer source) s').transcript = (p.run rt s).transcript ∧
          (p.run (rt.replayOf host tracer source) s').outcome = (p.run rt s).outcome) ∧
        (p.run (rt.replayOf host tracer source) s').state.world = s'.world ∧
        remaining source.events (p.run (rt.replayOf host tracer source) s').state.cursor = rest := by
  induction p generalizing s with
  | done outcome =>
    exact ⟨[], .refl rfl, fun V host tracer source s' rest hrem => ⟨⟨rfl, rfl⟩, rfl, hrem⟩⟩
  | call r k ih =>
    obtain ⟨hr, hk⟩ := h
    obtain ⟨a, t, X, hserve, hrec, hreplay⟩ := hr.serve hl he
    rw [hserve] at hk
    obtain ⟨Y, hrecY, hreplayY⟩ := ih a hk
    refine ⟨X ++ Y, ?_, fun V host tracer source s' rest hrem => ?_⟩
    · simp only [Strategy.run, hserve]
      exact hrec.trans hrecY
    · rw [List.append_assoc] at hrem
      obtain ⟨t', hserve', hw, hrem', -⟩ := hreplay V host tracer source s' _ hrem
      obtain ⟨⟨htr, ho⟩, hw', hrest⟩ := hreplayY V host tracer source t' rest hrem'
      simp only [Strategy.run, hserve, hserve']
      exact ⟨⟨by rw [htr], ho⟩, by rw [hw', hw], hrest⟩

end Runs

section Sessions

variable {rt : Runtime W} {agent : String} {args : List Json} {body : Strategy}

/-- The recording of a session loads: it starts with the preamble that `build` wrote. -/
theorem load_recording (path writer : String) {h d e : TraceEvent} {E : List TraceEvent}
    {sha : Option String} {seed : ℕ} (hh : h.body = .schemaHeader schemaVersion writer sha none)
    (hd : d.body = .seedRead "rollout_default_seed" seed) (he : e.body = .runStarted agent args)
    (hE : validateSupportedSchema E = .ok ()) :
    ReplaySource.load path (h :: d :: e :: E) writer =
      .ok { path, events := h :: d :: e :: E, cursor := ⟨2⟩, initialRolloutSeed := seed } := by
  have hvalid : validateSupportedSchema (h :: d :: e :: E) = .ok () := by
    simp [validateSupportedSchema, hh, hd, he, hE, schemaVersion, minSupportedSchema]
  have hh' : isInitialMetadata h = true := by simp [isInitialMetadata, hh]
  have hd' : isInitialMetadata d = true := by simp [isInitialMetadata, hd]
  have he' : isInitialMetadata e = false := by simp [isInitialMetadata, he]
  simp [ReplaySource.load, hvalid, hh, hd, defaultSeed, List.findIdx?_cons, hh', hd', he']

/-- The session that a newly built runtime records. -/
def Runtime.record (rt : Runtime W) (agent : String) (args : List Json) (body : Strategy)
    (world : W) (seed : ℕ) : Session W :=
  rt.runAgent agent args body (rt.build world seed)

/-- The replay is the recorded session again: preparing and completing the run succeed, the program
receives the same answers, and the world is as it was. -/
structure Reproduced {V : Type} (live : Session W) (v : V) (replay : Session V) : Prop where
  prepared : replay.prepared = .ok ()
  transcript : replay.transcript = live.transcript
  completed : replay.completed = live.completed
  completed_ok : ∀ r ∈ replay.completed, r = .ok ()
  world : replay.state.world = v

/-- The trace of the recorded session loads, and a replay on any host reproduces it. The services
of the host may do anything to its world; a world that comes back unchanged was not contacted. -/
def Reproduces (rt : Runtime W) (agent : String) (args : List Json) (body : Strategy) (world : W)
    (seed : ℕ) : Prop :=
  ∀ path, ∃ source,
    ReplaySource.load path (rt.record agent args body world seed).state.trace
      rt.traceSchemaWriter = .ok source ∧
    ∀ (V : Type) (host : Host V) (tracer : Tracer) (v : V),
      Reproduced (rt.record agent args body world seed) v
        ((rt.replayOf host tracer source).record agent args body v source.initialRolloutSeed)

/-- The event that closes a session with the given outcome. -/
def completionEvent (o : Outcome) : EventBody :=
  .runCompleted o.isOk o.result? o.errorText?

/-- A live session always prepares and completes. -/
theorem runAgent_live (hl : rt.Live) (s : RunState W) :
    let played := body.run rt (rt.emitted (.runStarted agent args) s)
    rt.runAgent agent args body s =
      { prepared := .ok ()
        transcript := played.transcript
        completed := if played.outcome.shouldValidateRunCompletion then some (.ok ()) else none
        state := rt.emitted (completionEvent played.outcome) played.state } := by
  have hprep : (rt.prepareRun agent args).run s = .ok () s := by
    rw [Runtime.prepareRun, Result.run_bind_of_ok hl.run_replaySource]
    rfl
  have hcomp : ∀ ok result error (t : RunState W),
      (rt.completeRun ok result error).run t = .ok () t := by
    intro ok result error t
    rw [Runtime.completeRun,
      Result.run_bind_of_ok (Result.run_adaptExcept_eq_ok.mpr hl.run_replaySource)]
    rfl
  simp only [Runtime.runAgent, hprep, hcomp]
  split
  next => simp [completionEvent]
  next => simp [completionEvent]

theorem prepareRun_replay {source : ReplaySource} (hr : rt.Replaying source) {s : RunState W}
    {rest : List EventBody}
    (hrem : remaining source.events s.cursor = .runStarted agent args :: rest) :
    ∃ t, (rt.prepareRun agent args).run s = .ok () t ∧ t.world = s.world ∧
      remaining source.events t.cursor = rest := by
  obtain ⟨c, hc, hrest, -⟩ := prepareRun_of_remaining hrem
  refine ⟨{ s with cursor := c }, ?_, rfl, hrest⟩
  rw [Runtime.prepareRun, Result.run_bind_of_ok hr.run_replaySource]
  exact Runtime.run_reading_ok hc

theorem completeRun_replay {source : ReplaySource} (hr : rt.Replaying source) {s : RunState W}
    {ok : Bool} {result : Option Json} {error : Option String}
    (hrem : remaining source.events s.cursor = [.runCompleted ok result error]) :
    ∃ t, (rt.completeRun ok result error).run s = .ok () t ∧ t.world = s.world := by
  obtain ⟨c, hc⟩ := completeRun_of_remaining hrem
  refine ⟨{ s with cursor := c }, ?_, rfl⟩
  rw [Runtime.completeRun,
    Result.run_bind_of_ok (Result.run_adaptExcept_eq_ok.mpr hr.run_replaySource)]
  exact Runtime.run_reading_ok hc

/-- A replayed session whose source holds the start of the run, the events of the body and the
completion of the run. -/
theorem runAgent_replay {source : ReplaySource} (hr : rt.Replaying source) {s : RunState W}
    {X : List EventBody} {o : Outcome} {transcript : Transcript}
    (hrem : remaining source.events s.cursor = .runStarted agent args :: (X ++ [completionEvent o]))
    (hbody : ∀ s' : RunState W, remaining source.events s'.cursor = X ++ [completionEvent o] →
      ((body.run rt s').transcript = transcript ∧ (body.run rt s').outcome = o) ∧
        (body.run rt s').state.world = s'.world ∧
        remaining source.events (body.run rt s').state.cursor = [completionEvent o]) :
    (rt.runAgent agent args body s).prepared = .ok () ∧
      (rt.runAgent agent args body s).transcript = transcript ∧
      (rt.runAgent agent args body s).completed =
        (if o.shouldValidateRunCompletion then some (.ok ()) else none) ∧
      (rt.runAgent agent args body s).state.world = s.world := by
  obtain ⟨t, hprep, htw, hrest⟩ := prepareRun_replay hr hrem
  obtain ⟨⟨htr, ho⟩, hw, hend⟩ := hbody (rt.emitted (.runStarted agent args) t)
    (by rwa [Runtime.emitted_cursor])
  obtain ⟨u, hcomp, huw⟩ := completeRun_replay hr hend
  rw [Runtime.emitted_world, htw] at hw
  simp only [Runtime.runAgent, hprep, ho, hcomp]
  split
  · exact ⟨rfl, htr, rfl, by rw [Runtime.emitted_world, huw, hw]⟩
  · exact ⟨rfl, htr, rfl, by rw [Runtime.emitted_world, hw]⟩

@[simp]
theorem build_world (world : W) (seed : ℕ) : (rt.build world seed).world = world := by
  simp [Runtime.build]

theorem build_cursor {source : ReplaySource} (hr : rt.Replaying source) (world : W) (seed : ℕ) :
    (rt.build world seed).cursor = source.cursor := by
  simp [Runtime.build, hr.1]

/-- The trace of a session: the preamble, the start of the run, and what the run recorded. -/
theorem record_trace (he : rt.tracer.enabled = true) {world : W} {seed : ℕ} {t : RunState W}
    {X : List EventBody}
    (h : Recorded (rt.emitted (.runStarted agent args) (rt.build world seed)) t X) :
    ∃ h d e E, t.trace = h :: d :: e :: E ∧
      h.body = .schemaHeader schemaVersion rt.traceSchemaWriter rt.commitSha none ∧
      d.body = .seedRead "rollout_default_seed" seed ∧ e.body = .runStarted agent args ∧
      executable E = X ∧ validateSupportedSchema E = .ok () := by
  obtain ⟨E, hE, hX, hv⟩ := h
  refine ⟨⟨rt.host.clock 0, rt.tracer.runId, _⟩, ⟨rt.host.clock 1, rt.tracer.runId, _⟩,
    ⟨rt.host.clock 2, rt.tracer.runId, _⟩, E, ?_, rfl, rfl, rfl, hX, hv⟩
  rw [hE, Runtime.emitted_trace he, Runtime.build, Runtime.emitted_trace he,
    Runtime.emitted_trace he]
  rfl

end Sessions

/-- A host that counts how often it is contacted. It knows one tool, answers every prompt and
denies every approval. -/
def countingHost (order : Except RuntimeError Json) : Host ℕ where
  tools name := if name = "get_order" then some fun _ n => (order, n + 1) else none
  adapters := [⟨"mock", fun _ => true, fun _ n => (.ok (.new (.string "refund") {}), n + 1)⟩]
  approve _ _ n := (.ok false, n + 1)
  takeLastApprovalDetail n := (none, n)
  ask _ _ n := (.ok .null, n + 1)
  choose _ n := (.ok 0, n + 1)
  clock n := n
  display err := match err with
    | .toolFailed tool message => s!"tool `{tool}` failed: {message}"
    | _ => "error"
  fingerprint req := req.rendered
  approvalTokenId _ label _ _ _ _ := label

def countingRuntime (order : Except RuntimeError Json) : Runtime ℕ where
  host := countingHost order
  tracer := ⟨true, "r-1"⟩
  traceSchemaWriter := writerInterpreter
  commitSha := none
  mode := .live
  replayError := none
  defaultModel := "mock-1"
  modelCatalog := ∅

/-- Looks an order up, classifies it, asks for the refund and draws a sample. -/
def refundStrategy : Strategy :=
  .call (.tool "get_order" [.string "ord_42"]) fun _ =>
  .call (.llm ⟨"classify", "", "Classify ord_42", [], none⟩ false) fun _ =>
  .call (.approve "IssueRefund" []) fun _ =>
  .call .rollout fun _ => .done (.ok .null)

/-- Looks an order up and ignores the answer. -/
def lookupStrategy : Strategy :=
  .call (.tool "get_order" [.string "ord_42"]) fun _ => .done (.ok .null)

end Corvid
