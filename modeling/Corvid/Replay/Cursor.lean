import Corvid.Lib.Result
import Corvid.Runtime.Errors

/-!
# The cursor of a replay

A replay reads its recording through one position. Before every read the cursor steps over the
events that only describe a dispatch; past the end of the recording it reads a synthetic event of a
failed run.

## Main definitions

* `TraceCursor`, `nextEvent`, `expectNext`, `finish`: the operations of the cursor
* `remaining`: the executable events that a cursor has not read

## Main results

* `nextEvent_eq_ok`, `expectNext_eq_ok`: a read takes the first remaining event
* `nextEvent_of_remaining`, `expectNext_of_remaining`: and the first remaining event is read
* `finish_eq_ok`: a replay finishes exactly at the end of the recording
-/

namespace Corvid.Replay

/-- The position of the next event to read. -/
structure TraceCursor where
  next : ℕ
deriving DecidableEq, Repr

/-- Reading through the cursor. A read that fails leaves the cursor where it stopped. -/
abbrev CursorM (ε : Type) := EStateM ε TraceCursor

variable {ε : Type} (events : List TraceEvent)

/-- What a read finds past the end of the recording. -/
def eof : TraceEvent where
  tsMs := 0
  runId := "<eof>"
  body := .runCompleted false none (some "unexpected end of trace")

def skipDispatchMetadata (c : TraceCursor) : TraceCursor :=
  ⟨c.next + ((events.drop c.next).takeWhile isDispatchMetadata).length⟩

/-- Reads an event and moves on, whatever the event is. -/
def nextEvent : CursorM ε TraceEvent := do
  modify (skipDispatchMetadata events)
  let c ← get
  set (⟨c.next + 1⟩ : TraceCursor)
  return events[c.next]?.getD eof

/-- Reads an event that satisfies `predicate`; the cursor stays before any other event. -/
def expectNext (predicate : TraceEvent → Bool) (got : Got) : CursorM RuntimeError TraceEvent := do
  modify (skipDispatchMetadata events)
  let c ← get
  let expected := events[c.next]?.getD eof
  if predicate expected then
    set (⟨c.next + 1⟩ : TraceCursor)
    return expected
  else
    throw (.replayDivergence ⟨c.next, expected, got⟩)

/-- The end of a replay. A cursor that read the synthetic event stands outside the recording, and
indexing the recording there panics. -/
def finish : CursorM Fault Unit := do
  modify (skipDispatchMetadata events)
  let c ← get
  if c.next = events.length then
    return ()
  else
    match events[c.next]? with
    | some expected => throw (.error (.replayDivergence ⟨c.next, expected, .programEnd⟩))
    | none => throw .panic

/-- The bodies of the events that a replay executes. -/
def executable (es : List TraceEvent) : List EventBody :=
  (es.filter fun e => !isDispatchMetadata e).map TraceEvent.body

/-- The executable events from the position of the cursor on. -/
def remaining (c : TraceCursor) : List EventBody :=
  executable (events.drop c.next)

variable {events}

theorem executable_cons_of_metadata {e : TraceEvent} (es : List TraceEvent)
    (h : isDispatchMetadata e = true) : executable (e :: es) = executable es := by
  simp [executable, h]

theorem executable_cons {e : TraceEvent} (es : List TraceEvent)
    (h : isDispatchMetadata e = false) : executable (e :: es) = e.body :: executable es := by
  simp [executable, h]

theorem executable_append (es fs : List TraceEvent) :
    executable (es ++ fs) = executable es ++ executable fs := by
  simp [executable]

theorem executable_dropWhile (es : List TraceEvent) :
    executable (es.dropWhile isDispatchMetadata) = executable es := by
  induction es with
  | nil => rfl
  | cons e es ih =>
    by_cases h : isDispatchMetadata e = true
    · rw [List.dropWhile_cons_of_pos h, ih, executable_cons_of_metadata es h]
    · rw [List.dropWhile_cons_of_neg h]

theorem drop_skipDispatchMetadata (c : TraceCursor) :
    events.drop (skipDispatchMetadata events c).next =
      (events.drop c.next).dropWhile isDispatchMetadata := by
  show events.drop (c.next + _) = _
  rw [← List.drop_drop, List.dropWhile_eq_drop_findIdx_not, List.takeWhile_eq_take_findIdx_not,
    List.length_take, Nat.min_eq_left (List.findIdx_le_length)]

/-- The event at the position after the skip is the first remaining one. -/
theorem remaining_eq (c : TraceCursor) :
    remaining events c =
      match events[(skipDispatchMetadata events c).next]? with
      | some e => e.body :: remaining events ⟨(skipDispatchMetadata events c).next + 1⟩
      | none => [] := by
  have hd := @drop_skipDispatchMetadata events c
  rw [remaining, ← executable_dropWhile, ← hd]
  generalize hn : (skipDispatchMetadata events c).next = n at hd
  by_cases h : n < events.length
  · -- the skip stopped at an event that is no metadata
    rw [List.drop_eq_getElem_cons h] at hd ⊢
    rw [List.getElem?_eq_getElem h]
    have hm : isDispatchMetadata events[n] = false := by
      have := List.head?_dropWhile_not isDispatchMetadata (events.drop c.next)
      rw [← hd] at this
      simpa only [List.head?_cons, Bool.not_eq_true] using this
    exact executable_cons _ hm
  · rw [List.getElem?_eq_none (by omega), List.drop_eq_nil_of_le (by omega)]
    rfl

/-- A cursor inside the recording, or at its end. -/
def TraceCursor.Valid (events : List TraceEvent) (c : TraceCursor) : Prop :=
  c.next ≤ events.length

theorem lt_of_remaining {c : TraceCursor} {b : EventBody} {rest : List EventBody}
    (h : remaining events c = b :: rest) :
    ∃ e, events[(skipDispatchMetadata events c).next]? = some e ∧ e.body = b ∧
      remaining events ⟨(skipDispatchMetadata events c).next + 1⟩ = rest := by
  rw [remaining_eq] at h
  cases he : events[(skipDispatchMetadata events c).next]? with
  | none => simp [he] at h
  | some e =>
    rw [he] at h
    obtain ⟨hb, hr⟩ := List.cons.inj h
    exact ⟨e, rfl, hb, hr⟩

theorem nextEvent_run (c : TraceCursor) :
    (nextEvent events : CursorM ε TraceEvent).run c =
      .ok (events[(skipDispatchMetadata events c).next]?.getD eof)
        ⟨(skipDispatchMetadata events c).next + 1⟩ := rfl

theorem expectNext_run (predicate : TraceEvent → Bool) (got : Got) (c : TraceCursor) :
    (expectNext events predicate got).run c =
      if predicate (events[(skipDispatchMetadata events c).next]?.getD eof) then
        .ok (events[(skipDispatchMetadata events c).next]?.getD eof)
          ⟨(skipDispatchMetadata events c).next + 1⟩
      else
        .error (.replayDivergence ⟨(skipDispatchMetadata events c).next,
          events[(skipDispatchMetadata events c).next]?.getD eof, got⟩)
          (skipDispatchMetadata events c) := by
  simp only [expectNext, EStateM.run_bind, EStateM.run_modify, EStateM.run_get]
  split <;> rfl

theorem finish_run (c : TraceCursor) :
    (finish events).run c =
      if (skipDispatchMetadata events c).next = events.length then
        .ok () (skipDispatchMetadata events c)
      else
        match events[(skipDispatchMetadata events c).next]? with
        | some expected => .error (.error (.replayDivergence
            ⟨(skipDispatchMetadata events c).next, expected, .programEnd⟩))
            (skipDispatchMetadata events c)
        | none => .error .panic (skipDispatchMetadata events c) := by
  simp only [finish, EStateM.run_bind, EStateM.run_modify, EStateM.run_get]
  split
  · rfl
  · split <;> rfl

/-- Either a read takes the first remaining event, or it is past the end. -/
def Reads (events : List TraceEvent) (c : TraceCursor) (e : TraceEvent) (c' : TraceCursor) :
    Prop :=
  remaining events c = e.body :: remaining events c' ∨
    e = eof ∧ remaining events c = [] ∧ events.length < c'.next

theorem reads_skip (c : TraceCursor) :
    Reads events c (events[(skipDispatchMetadata events c).next]?.getD eof)
      ⟨(skipDispatchMetadata events c).next + 1⟩ := by
  have hr := @remaining_eq events c
  cases he : events[(skipDispatchMetadata events c).next]? with
  | none =>
    rw [he] at hr
    exact .inr ⟨rfl, hr, Nat.lt_succ_of_le (List.getElem?_eq_none_iff.mp he)⟩
  | some e =>
    rw [he] at hr
    exact .inl hr

theorem nextEvent_eq_ok {c c' : TraceCursor} {e : TraceEvent}
    (h : (nextEvent events : CursorM ε TraceEvent).run c = .ok e c') : Reads events c e c' := by
  rw [nextEvent_run] at h
  obtain ⟨rfl, rfl⟩ := EStateM.Result.ok.inj h
  exact reads_skip c

theorem expectNext_eq_ok {predicate : TraceEvent → Bool} {got : Got} {c c' : TraceCursor}
    {e : TraceEvent} (h : (expectNext events predicate got).run c = .ok e c') :
    predicate e = true ∧ Reads events c e c' := by
  rw [expectNext_run] at h
  split at h
  next hp =>
    obtain ⟨rfl, rfl⟩ := EStateM.Result.ok.inj h
    exact ⟨hp, reads_skip c⟩
  next => cases h

theorem valid_skip_succ {c : TraceCursor} {e : TraceEvent}
    (h : events[(skipDispatchMetadata events c).next]? = some e) :
    TraceCursor.Valid events ⟨(skipDispatchMetadata events c).next + 1⟩ :=
  (List.getElem?_eq_some_iff.mp h).1

theorem nextEvent_of_remaining {c : TraceCursor} {b : EventBody} {rest : List EventBody}
    (h : remaining events c = b :: rest) :
    ∃ e c', (nextEvent events : CursorM ε TraceEvent).run c = .ok e c' ∧ e.body = b ∧
      remaining events c' = rest ∧ c'.Valid events := by
  obtain ⟨e, he, hb, hr⟩ := lt_of_remaining h
  refine ⟨e, _, ?_, hb, hr, valid_skip_succ he⟩
  rw [nextEvent_run, he]
  rfl

theorem expectNext_of_remaining (p : TraceEvent → Bool) (got : Got) {c : TraceCursor}
    {b : EventBody} {rest : List EventBody} (h : remaining events c = b :: rest)
    (hp : ∀ e : TraceEvent, e.body = b → p e = true) :
    ∃ e c', (expectNext events p got).run c = .ok e c' ∧ e.body = b ∧
      remaining events c' = rest ∧ c'.Valid events := by
  obtain ⟨e, he, hb, hr⟩ := lt_of_remaining h
  refine ⟨e, _, ?_, hb, hr, valid_skip_succ he⟩
  rw [expectNext_run, he]
  exact if_pos (hp e hb)

theorem finish_eq_ok {c c' : TraceCursor} (h : (finish events).run c = .ok () c') :
    remaining events c = [] ∧ remaining events c' = [] ∧ c.next ≤ events.length := by
  rw [finish_run] at h
  split at h
  next hn =>
    obtain ⟨-, rfl⟩ := EStateM.Result.ok.inj h
    have hr : remaining events (skipDispatchMetadata events c) = [] := by
      rw [remaining, hn, List.drop_length]
      rfl
    refine ⟨?_, hr, ?_⟩
    · rw [remaining_eq, hn, List.getElem?_eq_none le_rfl]
    · exact hn ▸ Nat.le_add_right _ _
  next => split at h <;> cases h

/-- A cursor inside the recording with nothing left to execute finishes. -/
theorem finish_of_remaining {c : TraceCursor} (hc : c.Valid events)
    (h : remaining events c = []) : ∃ c', (finish events).run c = .ok () c' := by
  refine ⟨_, (finish_run c).trans (if_pos ?_)⟩
  have hle : (skipDispatchMetadata events c).next ≤ events.length := by
    have := (List.takeWhile_sublist isDispatchMetadata (l := events.drop c.next)).length_le
    rw [List.length_drop] at this
    unfold TraceCursor.Valid at hc
    show c.next + _ ≤ _
    omega
  rw [remaining_eq] at h
  cases he : events[(skipDispatchMetadata events c).next]? with
  | none =>
    exact le_antisymm hle (List.getElem?_eq_none_iff.mp he)
  | some e => simp [he] at h

end Corvid.Replay
