import Corvid.Lib.Chains
import Corvid.Lib.Text
import Mathlib.Data.Finset.Insert
import Mathlib.Data.List.Nodup
import Mathlib.Data.List.Perm.Basic

/-!
# Lineage

The events of a lineage name their spans and the spans they were started from. The validator checks
each event by itself, and that the span each one names as its parent exists. Whether the chains of
parents come to the root is not checked: events in a cycle pass as long as each of them has a parent.

## Main definitions

* `validateLineage`: the violations of a list of events
* `Passes`: what the validator checks
* `IsTree`: what a complete lineage is

## Main results

* `validateLineage_complete`: a lineage is reported complete just when it passes
* `isTree_iff`: it is a tree just when it passes and has no cycle
* `complete_iff_isTree_iff`: where the report says whether it is a tree
-/

namespace Corvid.Lineage

open Relation Chains

structure LineageEvent where
  schema : String
  traceId : String
  spanId : String
  parentSpanId : String
  startedMs : ℕ
  endedMs : ℕ
deriving DecidableEq, Repr

structure LineageValidation where
  complete : Bool
  violations : List String
deriving DecidableEq, Repr

def lineageSchema : String := "corvid.trace.lineage.v1"

def isBlank (s : String) : Bool :=
  (Text.trim s).isEmpty

/-! ## The validator -/

/-- What is known after some events: the violations, the number of roots and the spans. -/
structure Pass where
  violations : List String
  roots : ℕ
  spanIds : Finset String

/-- The violations of one event, in the order in which they are reported. -/
def eventViolations (traceId : String) (spanIds : Finset String) (event : LineageEvent) :
    List String :=
  (if event.schema ≠ lineageSchema then ["unsupported_schema:" ++ event.schema] else []) ++
  (if event.traceId ≠ traceId then ["mixed_trace_id:" ++ event.traceId] else []) ++
  (if isBlank event.spanId then ["missing_span_id"]
    else if event.spanId ∈ spanIds then ["duplicate_span_id:" ++ event.spanId] else []) ++
  (if event.endedMs < event.startedMs then ["negative_duration:" ++ event.spanId] else [])

def Pass.visit (traceId : String) (pass : Pass) (event : LineageEvent) : Pass where
  violations := pass.violations ++ eventViolations traceId pass.spanIds event
  roots := if event.parentSpanId.isEmpty then pass.roots + 1 else pass.roots
  spanIds := if isBlank event.spanId then pass.spanIds else insert event.spanId pass.spanIds

/-- The violations of an event whose parent does not exist. -/
def missingParent (spanIds : Finset String) (event : LineageEvent) : List String :=
  if ¬ event.parentSpanId.isEmpty ∧ event.parentSpanId ∉ spanIds then
    ["missing_parent:" ++ event.spanId ++ ":" ++ event.parentSpanId]
  else []

def validateLineage (events : List LineageEvent) : LineageValidation :=
  match events.head? with
  | none => ⟨false, ["empty_lineage"]⟩
  | some first =>
    let pass := events.foldl (Pass.visit first.traceId) ⟨[], 0, ∅⟩
    let violations := pass.violations ++
      (if pass.roots ≠ 1 then ["expected_one_root:" ++ toString pass.roots] else []) ++
      events.flatMap (missingParent pass.spanIds)
    ⟨violations.isEmpty, violations⟩

/-! ## What is checked -/

/-- What the validator finds out about an event by itself. -/
structure EventOk (event : LineageEvent) : Prop where
  schema : event.schema = lineageSchema
  span : isBlank event.spanId = false
  duration : event.startedMs ≤ event.endedMs

/-- What the validator finds out about all events. -/
structure Passes (events : List LineageEvent) : Prop where
  each : ∀ event ∈ events, EventOk event
  trace : ∃ traceId, ∀ event ∈ events, event.traceId = traceId
  distinct : (events.map LineageEvent.spanId).Nodup
  root : events.countP (·.parentSpanId.isEmpty) = 1
  parents : ∀ event ∈ events, event.parentSpanId.isEmpty = false →
    ∃ parent ∈ events, parent.spanId = event.parentSpanId

theorem eventViolations_eq_nil {traceId : String} {spanIds : Finset String} {event : LineageEvent} :
    eventViolations traceId spanIds event = [] ↔
      EventOk event ∧ event.traceId = traceId ∧ event.spanId ∉ spanIds := by
  have hspan : (if isBlank event.spanId then ["missing_span_id"]
      else if event.spanId ∈ spanIds then ["duplicate_span_id:" ++ event.spanId] else []) = [] ↔
      isBlank event.spanId = false ∧ event.spanId ∉ spanIds := by
    cases isBlank event.spanId <;> simp
  simp only [eventViolations, List.append_eq_nil_iff, hspan, ite_eq_right_iff, reduceCtorEq,
    imp_false, not_not, not_lt]
  constructor
  · rintro ⟨⟨⟨hschema, htrace⟩, hblank, hnew⟩, hduration⟩
    exact ⟨⟨hschema, hblank, hduration⟩, htrace, hnew⟩
  · rintro ⟨⟨hschema, hblank, hduration⟩, htrace, hnew⟩
    exact ⟨⟨⟨hschema, htrace⟩, hblank, hnew⟩, hduration⟩

theorem spanIds_visit {traceId : String} {event : LineageEvent} (pass : Pass)
    (h : isBlank event.spanId = false) :
    (pass.visit traceId event).spanIds = insert event.spanId pass.spanIds := by
  simp [Pass.visit, h]

theorem violations_visit {traceId : String} {event : LineageEvent} (pass : Pass) :
    (pass.visit traceId event).violations = [] ↔ pass.violations = [] ∧
      EventOk event ∧ event.traceId = traceId ∧ event.spanId ∉ pass.spanIds := by
  rw [Pass.visit, List.append_eq_nil_iff, eventViolations_eq_nil]

/-- The first pass over the events, from what is known before them. -/
theorem foldl_visit (traceId : String) (events : List LineageEvent) (pass : Pass) :
    (events.foldl (Pass.visit traceId) pass).violations = [] ↔
      pass.violations = [] ∧ (∀ event ∈ events, EventOk event ∧ event.traceId = traceId) ∧
        (events.map LineageEvent.spanId).Nodup ∧ ∀ event ∈ events, event.spanId ∉ pass.spanIds := by
  induction events generalizing pass with
  | nil => simp
  | cons event events ih =>
    rw [List.foldl_cons, ih, violations_visit]
    constructor
    · rintro ⟨⟨hnil, hok, htrace, hnew⟩, heach, hnodup, hnews⟩
      simp only [spanIds_visit pass hok.span] at hnews
      refine ⟨hnil, List.forall_mem_cons.mpr ⟨⟨hok, htrace⟩, heach⟩, ?_, ?_⟩
      · rw [List.map_cons, List.nodup_cons]
        refine ⟨fun hmem => ?_, hnodup⟩
        obtain ⟨other, hother, heq⟩ := List.mem_map.mp hmem
        exact hnews other hother (heq ▸ Finset.mem_insert_self _ _)
      · exact List.forall_mem_cons.mpr
          ⟨hnew, fun other hother hmem => hnews other hother (Finset.mem_insert_of_mem hmem)⟩
    · rintro ⟨hnil, heach, hnodup, hnews⟩
      rw [List.forall_mem_cons] at heach hnews
      rw [List.map_cons, List.nodup_cons] at hnodup
      refine ⟨⟨hnil, heach.1.1, heach.1.2, hnews.1⟩, heach.2, hnodup.2, fun other hother hmem => ?_⟩
      rw [spanIds_visit pass heach.1.1.span] at hmem
      rcases Finset.mem_insert.mp hmem with heq | hmem
      · exact hnodup.1 (List.mem_map.mpr ⟨other, hother, heq⟩)
      · exact hnews.2 other hother hmem

theorem roots_foldl_visit (traceId : String) (events : List LineageEvent) (pass : Pass) :
    (events.foldl (Pass.visit traceId) pass).roots =
      pass.roots + events.countP (·.parentSpanId.isEmpty) := by
  induction events generalizing pass with
  | nil => rfl
  | cons event events ih =>
    rw [List.foldl_cons, ih, List.countP_cons, Pass.visit]
    dsimp only
    split <;> omega

theorem mem_spanIds_foldl_visit (traceId : String) {events : List LineageEvent}
    (h : ∀ event ∈ events, isBlank event.spanId = false) (pass : Pass) (id : String) :
    id ∈ (events.foldl (Pass.visit traceId) pass).spanIds ↔
      id ∈ pass.spanIds ∨ ∃ event ∈ events, event.spanId = id := by
  induction events generalizing pass with
  | nil => simp
  | cons event events ih =>
    rw [List.forall_mem_cons] at h
    rw [List.foldl_cons, ih h.2, spanIds_visit _ h.1, Finset.mem_insert, List.exists_mem_cons_iff,
      or_assoc, or_left_comm, @eq_comm _ id]

theorem missingParent_eq_nil {spanIds : Finset String} {event : LineageEvent} :
    missingParent spanIds event = [] ↔
      (event.parentSpanId.isEmpty = false → event.parentSpanId ∈ spanIds) := by
  simp [missingParent]

/-- **A lineage is reported complete just when it passes.** -/
theorem validateLineage_complete (events : List LineageEvent) :
    (validateLineage events).complete = true ↔ Passes events := by
  cases events with
  | nil => exact ⟨fun h => Bool.noConfusion h, fun h => absurd h.root (by simp)⟩
  | cons first events =>
    generalize hall : first :: events = all
    have hhead : all.head? = some first := by rw [← hall]; rfl
    have hroots := roots_foldl_visit first.traceId all ⟨[], 0, ∅⟩
    have hviolations := foldl_visit first.traceId all ⟨[], 0, ∅⟩
    have hspans := fun h : ∀ event ∈ all, isBlank event.spanId = false =>
      mem_spanIds_foldl_visit first.traceId h ⟨[], 0, ∅⟩
    simp only [validateLineage, hhead, List.isEmpty_iff, List.append_eq_nil_iff,
      List.flatMap_eq_nil_iff, missingParent_eq_nil]
    generalize all.foldl (Pass.visit first.traceId) ⟨[], 0, ∅⟩ = pass at hroots hviolations hspans ⊢
    constructor
    · rintro ⟨⟨hnil, hroot⟩, hparents⟩
      obtain ⟨-, heach, hnodup, -⟩ := hviolations.mp hnil
      refine ⟨fun event h => (heach event h).1, ⟨_, fun event h => (heach event h).2⟩, hnodup, ?_,
        fun event h hne => ?_⟩
      · by_contra hne
        rw [hroots, Nat.zero_add, if_pos hne] at hroot
        cases hroot
      · have hmem := (hspans (fun event h => (heach event h).1.span) _).mp (hparents event h hne)
        simpa using hmem
    · rintro ⟨heach, ⟨traceId, htrace⟩, hnodup, hroot, hparents⟩
      have hfirst : first.traceId = traceId := htrace first (hall ▸ List.mem_cons_self)
      refine ⟨⟨hviolations.mpr ⟨rfl, fun event h => ⟨heach event h, ?_⟩, hnodup, by simp⟩, ?_⟩,
        fun event h hne => ?_⟩
      · rw [htrace event h, hfirst]
      · rw [hroots, hroot]
        rfl
      · exact (hspans (fun event h => (heach event h).span) _).mpr (.inr (hparents event h hne))

theorem Passes.perm {events events' : List LineageEvent} (h : Passes events)
    (hperm : events'.Perm events) : Passes events' where
  each event hmem := h.each event (hperm.mem_iff.mp hmem)
  trace := by
    obtain ⟨traceId, htrace⟩ := h.trace
    exact ⟨traceId, fun event hmem => htrace event (hperm.mem_iff.mp hmem)⟩
  distinct := (hperm.map _).nodup_iff.mpr h.distinct
  root := (hperm.countP_eq _).trans h.root
  parents event hmem hne := by
    obtain ⟨parent, hparent, heq⟩ := h.parents event (hperm.mem_iff.mp hmem) hne
    exact ⟨parent, hperm.mem_iff.mpr hparent, heq⟩

/-- The verdict does not depend on the order of the events. -/
theorem validateLineage_perm {events events' : List LineageEvent} (hperm : events'.Perm events) :
    (validateLineage events').complete = (validateLineage events).complete := by
  rw [Bool.eq_iff_iff, validateLineage_complete, validateLineage_complete]
  exact ⟨fun h => h.perm hperm.symm, fun h => h.perm hperm⟩

/-! ## Trees -/

/-- The span of one event is the parent of the other one. -/
def Parent (events : List LineageEvent) (event parent : LineageEvent) : Prop :=
  event.parentSpanId.isEmpty = false ∧ parent ∈ events ∧ parent.spanId = event.parentSpanId

/-- A complete lineage: distinct spans of one trace, of which one is the root, and the chain of
parents of each comes to the root. -/
structure IsTree (events : List LineageEvent) : Prop where
  each : ∀ event ∈ events, EventOk event
  trace : ∃ traceId, ∀ event ∈ events, event.traceId = traceId
  distinct : (events.map LineageEvent.spanId).Nodup
  root : events.countP (·.parentSpanId.isEmpty) = 1
  reaches : ∀ event ∈ events, ∃ root ∈ events, root.parentSpanId.isEmpty = true ∧
    ReflTransGen (Parent events) event root

/-- An event comes back to itself along its parents. -/
def HasCycle (events : List LineageEvent) : Prop :=
  ∃ event ∈ events, OnCycle (Parent events) event

variable {events : List LineageEvent}

theorem parent_unique (h : (events.map LineageEvent.spanId).Nodup) :
    Relator.RightUnique (Parent events) := by
  rintro event parent other ⟨-, hparent, heq⟩ ⟨-, hother, heq'⟩
  exact List.inj_on_of_nodup_map h hparent hother (heq.trans heq'.symm)

theorem IsTree.passes (h : IsTree events) : Passes events where
  each := h.each
  trace := h.trace
  distinct := h.distinct
  root := h.root
  parents event hmem hne := by
    obtain ⟨root, -, hempty, hreach⟩ := h.reaches event hmem
    rcases hreach.cases_head with rfl | ⟨parent, ⟨-, hparent, heq⟩, -⟩
    · rw [hne] at hempty
      cases hempty
    · exact ⟨parent, hparent, heq⟩

theorem IsTree.not_hasCycle (h : IsTree events) : ¬ HasCycle events := by
  rintro ⟨event, hmem, hcycle⟩
  obtain ⟨root, -, hempty, hreach⟩ := h.reaches event hmem
  obtain ⟨parent, hne, -⟩ := (hcycle.of_reaches (parent_unique h.distinct) hreach).exists_step
  rw [hempty] at hne
  cases hne

/-- Without a cycle, the chain of parents of an event comes to the root. -/
theorem Passes.isTree (h : Passes events) (hacyclic : ¬ HasCycle events) : IsTree events where
  each := h.each
  trace := h.trace
  distinct := h.distinct
  root := h.root
  reaches event hmem := by
    obtain ⟨root, hroot, hreach, hend⟩ := exists_end (r := Parent events) events.finite_toSet
      (fun _ _ _ hparent => hparent.2.1) (fun event hmem hcycle => hacyclic ⟨event, hmem, hcycle⟩)
      hmem
    refine ⟨root, hroot, ?_, hreach⟩
    -- the last event of the chain has no parent left
    cases hempty : root.parentSpanId.isEmpty with
    | true => rfl
    | false =>
      obtain ⟨parent, hparent, heq⟩ := h.parents root hroot hempty
      exact absurd ⟨hempty, hparent, heq⟩ (hend parent)

theorem isTree_iff : IsTree events ↔ Passes events ∧ ¬ HasCycle events :=
  ⟨fun h => ⟨h.passes, h.not_hasCycle⟩, fun h => h.1.isTree h.2⟩

/-- **The verdict is whether the events are a tree, in any order of the events, unless they pass all
checks and have a cycle of parents.** -/
theorem complete_iff_isTree_iff (events : List LineageEvent) :
    (((validateLineage events).complete = true ↔ IsTree events) ∧
      ∀ events', events'.Perm events →
        (validateLineage events').complete = (validateLineage events).complete) ↔
      ¬ (Passes events ∧ HasCycle events) := by
  rw [validateLineage_complete, isTree_iff, and_iff_left fun _ => validateLineage_perm]
  tauto

/-- A request, and a span that is its own parent. -/
def selfParented : List LineageEvent := [
  { schema := lineageSchema, traceId := "trace-1", spanId := "span-a", parentSpanId := ""
    startedMs := 1, endedMs := 2 },
  { schema := lineageSchema, traceId := "trace-1", spanId := "span-b", parentSpanId := "span-b"
    startedMs := 1, endedMs := 2 }]

theorem selfParented_complete :
    (validateLineage selfParented).complete = true ∧ ¬ IsTree selfParented := by
  refine ⟨by decide +kernel, fun h => h.not_hasCycle ?_⟩
  exact ⟨_, List.mem_cons_of_mem _ List.mem_cons_self, .single
    ⟨by decide +kernel, List.mem_cons_of_mem _ List.mem_cons_self, rfl⟩⟩

end Corvid.Lineage
