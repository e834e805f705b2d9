import Corvid.Replay.Trace
import Mathlib.Data.Finset.Insert
import Mathlib.Data.List.Infix

/-!
# Redaction of traces

A tracer replaces secrets in the events that it appends. It walks the values of some fields of some
kinds of events, and there it replaces the strings that are equal to a secret; all other events and
fields are passed through. So an event comes out without secrets if and only if each string that
contains one is equal to one and stands where the walk gets to.

## Main definitions

* `RedactionSet`, `RedactionSet.redact`: the secrets, and the walk over a value
* `Tracer.emit`, `Tracer.applyRedaction`: the events that are appended
* `TraceEvent.slots`, `TraceEvent.mapStrings`: all strings of an event
* `Hides`: an event has no secrets left, and is the same otherwise

## Main results

* `applyRedaction_eq`: redaction replaces the strings that the walk gets to
* `emit_hides_iff`: when the secrets are hidden
-/

namespace Corvid

open Replay (TraceEvent EventBody)

/-! ### Redaction -/

/-- Strings that are redacted on sight. The empty string is no secret. -/
structure RedactionSet where
  secrets : Finset String
  nonempty : ∀ s ∈ secrets, s ≠ ""

namespace RedactionSet

def suffixes : List String := ["_KEY", "_TOKEN", "_SECRET", "_PASSWORD"]

def nameLooksSecret (name : String) : Bool := suffixes.any fun s => name.toUpper.endsWith s

def empty : RedactionSet := ⟨∅, fun s hs => absurd hs (Finset.notMem_empty s)⟩

def add (set : RedactionSet) (value : String) : RedactionSet :=
  if h : value = "" then set else
    ⟨insert value set.secrets, fun s hs => by
      rcases Finset.mem_insert.mp hs with rfl | hs
      · exact h
      · exact set.nonempty s hs⟩

/-- The secrets of an environment. -/
def fromEnv (vars : List (String × String)) : RedactionSet :=
  vars.foldl (fun set v => if nameLooksSecret v.1 then set.add v.2 else set) empty

def isEmpty (set : RedactionSet) : Bool := set.secrets = ∅

variable (set : RedactionSet)

mutual

/-- Redact the strings of a value that are equal to a secret. The keys of an object stay. -/
def redact (value : Json) : Json :=
  if set.isEmpty then value
  else
    match value with
    | .string s => if s ∈ set.secrets then .string "<redacted>" else .string s
    | .array items => .array (redactItems items)
    | .object fields => .object (redactFields fields)
    | other => other

def redactItems : List Json → List Json
  | [] => []
  | v :: items => redact v :: redactItems items

def redactFields : List (String × Json) → List (String × Json)
  | [] => []
  | (k, v) :: fields => (k, redact v) :: redactFields fields

end

def redactArgs (args : List Json) : List Json := if set.isEmpty then args else args.map set.redact

end RedactionSet

/-! ### The tracer -/

namespace Tracing

/-- A tracer with its trace. A writer that has no file is disabled. -/
structure Tracer where
  runId : String
  enabled : Bool
  trace : List TraceEvent
  redaction : RedactionSet

namespace Tracer

variable (render : Json → String)

def redactString : Json → String
  | .string s => s
  | other => render other

def withRedaction (tracer : Tracer) (cloned : Bool) (redaction : RedactionSet) : Tracer :=
  if cloned then
    -- a sibling that shares nothing, and has no file
    { tracer with enabled := false, trace := [], redaction }
  else
    { tracer with redaction }

def redactBody (r : RedactionSet) : EventBody → EventBody
  | .toolCall tool args => .toolCall tool (r.redactArgs args)
  | .runStarted agent args => .runStarted agent (r.redactArgs args)
  | .runCompleted ok result error => .runCompleted ok (result.map r.redact) error
  | .toolResult tool result => .toolResult tool (r.redact result)
  | .llmResult prompt model modelVersion result =>
    .llmResult prompt model modelVersion (r.redact result)
  | .llmCall prompt model modelVersion rendered args =>
    .llmCall prompt model modelVersion
      (rendered.map fun s => redactString render (r.redact (.string s))) (r.redactArgs args)
  | .approvalRequest label args => .approvalRequest label (r.redactArgs args)
  | .approvalTokenIssued tokenId label args scope issuedAtMs expiresAtMs =>
    .approvalTokenIssued tokenId label (r.redactArgs args) scope issuedAtMs expiresAtMs
  | .approvalScopeViolation tokenId label reason => .approvalScopeViolation tokenId label reason
  | .hostEvent name payload => .hostEvent name (r.redact payload)
  | other => other

def applyRedaction (tracer : Tracer) (event : TraceEvent) : TraceEvent :=
  if tracer.redaction.isEmpty then event
  else { event with body := redactBody render tracer.redaction event.body }

def emit (tracer : Tracer) (event : TraceEvent) : Tracer :=
  if tracer.enabled then
    { tracer with trace := tracer.trace ++ [tracer.applyRedaction render event] }
  else tracer

end Tracer

end Tracing

open Tracing (Tracer)

/-! ### The strings of an event -/

mutual

/-- The strings of a value. Redaction walks over all of them but the keys of objects. -/
def Json.slots (walked : Bool) : Json → List (Bool × String)
  | .string s => [(walked, s)]
  | .array items => Json.itemSlots walked items
  | .object fields => Json.fieldSlots walked fields
  | _ => []

def Json.itemSlots (walked : Bool) : List Json → List (Bool × String)
  | [] => []
  | v :: items => v.slots walked ++ Json.itemSlots walked items

def Json.fieldSlots (walked : Bool) : List (String × Json) → List (Bool × String)
  | [] => []
  | (k, v) :: fields => (false, k) :: (v.slots walked ++ Json.fieldSlots walked fields)

end

mutual

/-- Change the strings of a value. -/
def Json.mapStrings (g : Bool → String → String) (walked : Bool) : Json → Json
  | .string s => .string (g walked s)
  | .array items => .array (Json.mapItems g walked items)
  | .object fields => .object (Json.mapFields g walked fields)
  | other => other

def Json.mapItems (g : Bool → String → String) (walked : Bool) : List Json → List Json
  | [] => []
  | v :: items => v.mapStrings g walked :: Json.mapItems g walked items

def Json.mapFields (g : Bool → String → String) (walked : Bool) :
    List (String × Json) → List (String × Json)
  | [] => []
  | (k, v) :: fields => (g false k, v.mapStrings g walked) :: Json.mapFields g walked fields

end

namespace Replay.EventBody

private def texts (ss : List String) : List (Bool × String) := ss.map (false, ·)

private def values (walked : Bool) (vs : List Json) : List (Bool × String) :=
  Json.itemSlots walked vs

/-- All strings of an event. Redaction walks over the marked ones. -/
def slots : EventBody → List (Bool × String)
  | schemaHeader _ writer commitSha sourcePath =>
    texts (writer :: commitSha.toList ++ sourcePath.toList)
  | runStarted agent args => texts [agent] ++ values true args
  | runCompleted _ result error => values true result.toList ++ texts error.toList
  | toolCall tool args => texts [tool] ++ values true args
  | toolResult tool result => texts [tool] ++ values true [result]
  | llmCall prompt model modelVersion rendered args =>
    texts (prompt :: model.toList ++ modelVersion.toList) ++ rendered.toList.map (true, ·) ++
      values true args
  | llmResult prompt model modelVersion result =>
    texts (prompt :: model.toList ++ modelVersion.toList) ++ values true [result]
  | promptCache prompt model modelVersion fingerprint _ =>
    texts (prompt :: model.toList ++ modelVersion.toList ++ [fingerprint])
  | approvalRequest label args => texts [label] ++ values true args
  | approvalDecision site args _ decider rationale =>
    texts [site] ++ values false args ++ texts (decider :: rationale.toList)
  | approvalResponse label _ => texts [label]
  | approvalTokenIssued tokenId label args scope _ _ =>
    texts [tokenId, label] ++ values true args ++ texts [scope]
  | approvalScopeViolation tokenId label reason => texts [tokenId, label, reason]
  | humanInputRequest prompt expectedType => texts [prompt, expectedType]
  | humanInputResponse prompt value => texts [prompt] ++ values false [value]
  | humanChoiceRequest options => values false options
  | humanChoiceResponse _ selectedValue => values false [selectedValue]
  | hostEvent name payload => texts [name] ++ values true [payload]
  | seedRead purpose _ => texts [purpose]
  | clockRead source _ => texts [source]
  | modelSelected prompt model modelVersion capabilityRequired capabilityPicked
      outputFormatRequired outputFormatPicked _ _ _ =>
    texts ([prompt, model] ++ modelVersion.toList ++ capabilityRequired.toList ++
      capabilityPicked.toList ++ outputFormatRequired.toList ++ outputFormatPicked.toList)
  | progressiveEscalation prompt _ _ _ _ => texts [prompt]
  | progressiveExhausted prompt stages => texts (prompt :: stages)
  | streamUpgrade prompt toModel _ _ partialOutput =>
    texts [prompt, toModel] ++ values false [partialOutput]
  | abVariantChosen prompt variant baseline _ chosen => texts [prompt, variant, baseline, chosen]
  | ensembleVote prompt members results winner _ strategy _ escalatedTo =>
    texts (prompt :: members ++ results ++ [winner, strategy] ++ escalatedTo.toList)
  | adversarialPipelineCompleted prompt _ => texts [prompt]
  | adversarialContradiction prompt proposed challenge verdict =>
    texts [prompt, proposed, challenge] ++ values false [verdict]
  | provenanceEdge nodeId parents op label => texts (nodeId :: parents ++ op :: label.toList)

/-- Change the strings of an event. -/
def mapStrings (g : Bool → String → String) : EventBody → EventBody
  | schemaHeader version writer commitSha sourcePath =>
    schemaHeader version (g false writer) (commitSha.map (g false)) (sourcePath.map (g false))
  | runStarted agent args => runStarted (g false agent) (Json.mapItems g true args)
  | runCompleted ok result error =>
    runCompleted ok (result.map (Json.mapStrings g true)) (error.map (g false))
  | toolCall tool args => toolCall (g false tool) (Json.mapItems g true args)
  | toolResult tool result => toolResult (g false tool) (result.mapStrings g true)
  | llmCall prompt model modelVersion rendered args =>
    llmCall (g false prompt) (model.map (g false)) (modelVersion.map (g false))
      (rendered.map (g true)) (Json.mapItems g true args)
  | llmResult prompt model modelVersion result =>
    llmResult (g false prompt) (model.map (g false)) (modelVersion.map (g false))
      (result.mapStrings g true)
  | promptCache prompt model modelVersion fingerprint hit =>
    promptCache (g false prompt) (model.map (g false)) (modelVersion.map (g false))
      (g false fingerprint) hit
  | approvalRequest label args => approvalRequest (g false label) (Json.mapItems g true args)
  | approvalDecision site args accepted decider rationale =>
    approvalDecision (g false site) (Json.mapItems g false args) accepted (g false decider)
      (rationale.map (g false))
  | approvalResponse label approved => approvalResponse (g false label) approved
  | approvalTokenIssued tokenId label args scope issuedAtMs expiresAtMs =>
    approvalTokenIssued (g false tokenId) (g false label) (Json.mapItems g true args) (g false scope)
      issuedAtMs expiresAtMs
  | approvalScopeViolation tokenId label reason =>
    approvalScopeViolation (g false tokenId) (g false label) (g false reason)
  | humanInputRequest prompt expectedType =>
    humanInputRequest (g false prompt) (g false expectedType)
  | humanInputResponse prompt value =>
    humanInputResponse (g false prompt) (value.mapStrings g false)
  | humanChoiceRequest options => humanChoiceRequest (Json.mapItems g false options)
  | humanChoiceResponse selectedIndex selectedValue =>
    humanChoiceResponse selectedIndex (selectedValue.mapStrings g false)
  | hostEvent name payload => hostEvent (g false name) (payload.mapStrings g true)
  | seedRead purpose value => seedRead (g false purpose) value
  | clockRead source value => clockRead (g false source) value
  | modelSelected prompt model modelVersion capabilityRequired capabilityPicked
      outputFormatRequired outputFormatPicked costEstimate armIndex stageIndex =>
    modelSelected (g false prompt) (g false model) (modelVersion.map (g false))
      (capabilityRequired.map (g false)) (capabilityPicked.map (g false))
      (outputFormatRequired.map (g false)) (outputFormatPicked.map (g false)) costEstimate armIndex
      stageIndex
  | progressiveEscalation prompt fromStage toStage confidenceObserved threshold =>
    progressiveEscalation (g false prompt) fromStage toStage confidenceObserved threshold
  | progressiveExhausted prompt stages => progressiveExhausted (g false prompt) (stages.map (g false))
  | streamUpgrade prompt toModel confidenceObserved threshold partialOutput =>
    streamUpgrade (g false prompt) (g false toModel) confidenceObserved threshold
      (partialOutput.mapStrings g false)
  | abVariantChosen prompt variant baseline rolloutPct chosen =>
    abVariantChosen (g false prompt) (g false variant) (g false baseline) rolloutPct (g false chosen)
  | ensembleVote prompt members results winner agreementRate strategy weights escalatedTo =>
    ensembleVote (g false prompt) (members.map (g false)) (results.map (g false)) (g false winner)
      agreementRate (g false strategy) weights (escalatedTo.map (g false))
  | adversarialPipelineCompleted prompt contradiction =>
    adversarialPipelineCompleted (g false prompt) contradiction
  | adversarialContradiction prompt proposed challenge verdict =>
    adversarialContradiction (g false prompt) (g false proposed) (g false challenge)
      (verdict.mapStrings g false)
  | provenanceEdge nodeId parents op label =>
    provenanceEdge (g false nodeId) (parents.map (g false)) (g false op) (label.map (g false))

end Replay.EventBody

namespace Replay.TraceEvent

def slots (e : TraceEvent) : List (Bool × String) := (false, e.runId) :: e.body.slots

/-- All strings of an event, those of nested values and the keys of objects among them. -/
def strings (e : TraceEvent) : List String := e.slots.map Prod.snd

def mapStrings (g : Bool → String → String) (e : TraceEvent) : TraceEvent :=
  { e with runId := g false e.runId, body := e.body.mapStrings g }

end Replay.TraceEvent

/-! ### What is hidden -/

/-- The string contains a secret. -/
def RedactionSet.Leaks (set : RedactionSet) (s : String) : Prop :=
  ∃ secret ∈ set.secrets, secret.toList <:+: s.toList

/-- No string of the event contains a secret, and only strings that did are different. -/
structure Hides (set : RedactionSet) (e e' : TraceEvent) : Prop where
  secretFree : ∀ s ∈ e'.strings, ¬ set.Leaks s
  otherwiseSame : ∃ g, (∀ walked s, ¬ set.Leaks s → g walked s = s) ∧ e' = e.mapStrings g

/-- A string that contains a secret is one and the walk gets to it, and its replacement contains no
secret. -/
structure Redactable (set : RedactionSet) (e : TraceEvent) : Prop where
  walked : ∀ x ∈ e.slots, set.Leaks x.2 → x.1 = true ∧ x.2 ∈ set.secrets
  replaced : ∀ x ∈ e.slots, x.1 = true → x.2 ∈ set.secrets → ¬ set.Leaks "<redacted>"

/-! ### Redaction replaces strings -/

/-- What a change of strings makes of a string and its mark. -/
def refill (g : Bool → String → String) (x : Bool × String) : Bool × String := (x.1, g x.1 x.2)

section Values

variable (g : Bool → String → String) (walked : Bool)

mutual

theorem Json.slots_mapStrings (v : Json) :
    (v.mapStrings g walked).slots walked = (v.slots walked).map (refill g) := by
  cases v with
  | string s => rfl
  | array items =>
    rw [mapStrings, slots, slots]
    exact itemSlots_mapItems items
  | object fields =>
    rw [mapStrings, slots, slots]
    exact fieldSlots_mapFields fields
  | _ => rfl

theorem Json.itemSlots_mapItems (items : List Json) :
    itemSlots walked (mapItems g walked items) = (itemSlots walked items).map (refill g) := by
  cases items with
  | nil => rfl
  | cons v items =>
    rw [mapItems, itemSlots, itemSlots, List.map_append, slots_mapStrings v,
      itemSlots_mapItems items]

theorem Json.fieldSlots_mapFields (fields : List (String × Json)) :
    fieldSlots walked (mapFields g walked fields) = (fieldSlots walked fields).map (refill g) := by
  cases fields with
  | nil => rfl
  | cons x fields =>
    obtain ⟨k, v⟩ := x
    rw [mapFields, fieldSlots, fieldSlots, List.map_cons, List.map_append, slots_mapStrings v,
      fieldSlots_mapFields fields]
    rfl

end

variable {g walked}

mutual

theorem Json.mapStrings_eq_self (hg : ∀ s, g false s = s ∧ g walked s = s) (v : Json) :
    v.mapStrings g walked = v := by
  cases v with
  | string s => rw [mapStrings, (hg s).2]
  | array items => rw [mapStrings, mapItems_eq_self hg items]
  | object fields => rw [mapStrings, mapFields_eq_self hg fields]
  | _ => rfl

theorem Json.mapItems_eq_self (hg : ∀ s, g false s = s ∧ g walked s = s) (items : List Json) :
    mapItems g walked items = items := by
  cases items with
  | nil => rfl
  | cons v items => rw [mapItems, mapStrings_eq_self hg v, mapItems_eq_self hg items]

theorem Json.mapFields_eq_self (hg : ∀ s, g false s = s ∧ g walked s = s)
    (fields : List (String × Json)) : mapFields g walked fields = fields := by
  cases fields with
  | nil => rfl
  | cons x fields =>
    obtain ⟨k, v⟩ := x
    rw [mapFields, (hg k).1, mapStrings_eq_self hg v, mapFields_eq_self hg fields]

end

end Values

namespace RedactionSet

variable (set : RedactionSet)

/-- What becomes of a string. -/
def replace (walked : Bool) (s : String) : String :=
  if walked = true ∧ s ∈ set.secrets then "<redacted>" else s

@[simp] theorem replace_false (s : String) : set.replace false s = s := if_neg (by simp)

variable {set} in
theorem replace_of_isEmpty (h : set.isEmpty) (walked : Bool) (s : String) :
    set.replace walked s = s := by
  have hempty : set.secrets = ∅ := of_decide_eq_true h
  exact if_neg (by simp [hempty])

variable {set} in
theorem redact_of_isEmpty (h : set.isEmpty) (v : Json) : set.redact v = v := by
  cases v <;> simp [redact, h]

mutual

theorem redact_eq (v : Json) : set.redact v = v.mapStrings set.replace true := by
  by_cases hempty : set.isEmpty
  · rw [redact_of_isEmpty hempty, Json.mapStrings_eq_self fun s =>
      ⟨replace_of_isEmpty hempty false s, replace_of_isEmpty hempty true s⟩]
  · cases v with
    | string s =>
      rw [redact, if_neg hempty, Json.mapStrings, replace]
      by_cases hs : s ∈ set.secrets <;> simp [hs]
    | array items => rw [redact, if_neg hempty, Json.mapStrings, redactItems_eq items]
    | object fields => rw [redact, if_neg hempty, Json.mapStrings, redactFields_eq fields]
    | _ => simp [redact, hempty, Json.mapStrings]

theorem redactItems_eq (items : List Json) :
    set.redactItems items = Json.mapItems set.replace true items := by
  cases items with
  | nil => rfl
  | cons v items => rw [redactItems, Json.mapItems, redact_eq v, redactItems_eq items]

theorem redactFields_eq (fields : List (String × Json)) :
    set.redactFields fields = Json.mapFields set.replace true fields := by
  cases fields with
  | nil => rfl
  | cons x fields =>
    obtain ⟨k, v⟩ := x
    rw [redactFields, Json.mapFields, redact_eq v, redactFields_eq fields, replace_false]

end

theorem redactArgs_eq (args : List Json) :
    set.redactArgs args = Json.mapItems set.replace true args := by
  by_cases hempty : set.isEmpty
  · rw [redactArgs, if_pos hempty, Json.mapItems_eq_self fun s =>
      ⟨replace_of_isEmpty hempty false s, replace_of_isEmpty hempty true s⟩]
  · rw [redactArgs, if_neg hempty]
    induction args with
    | nil => rfl
    | cons v args ih => rw [List.map_cons, Json.mapItems, redact_eq, ih]

end RedactionSet

/-! ### Redaction of events -/

theorem Json.itemSlots_map (g : Bool → String → String) (walked : Bool) (items : List Json) :
    itemSlots walked (items.map (mapStrings g walked)) =
      (itemSlots walked items).map (refill g) := by
  rw [← itemSlots_mapItems]
  congr 1
  induction items with
  | nil => rfl
  | cons v items ih => rw [List.map_cons, mapItems, ih]

theorem toList_map {α β : Type} (f : α → β) (o : Option α) : (o.map f).toList = o.toList.map f := by
  cases o <;> rfl

theorem Replay.EventBody.slots_mapStrings (g : Bool → String → String) (body : EventBody) :
    (body.mapStrings g).slots = body.slots.map (refill g) := by
  cases body <;>
    simp [slots, mapStrings, texts, values, refill, Json.itemSlots, Json.slots_mapStrings,
      Json.itemSlots_mapItems, Json.itemSlots_map, toList_map, Function.comp_def]

theorem Replay.EventBody.mapStrings_eq_self {g : Bool → String → String}
    (hg : ∀ walked s, g walked s = s) (body : EventBody) : body.mapStrings g = body := by
  have hid : ∀ walked, g walked = id := fun walked => funext (hg walked)
  have hjson : ∀ walked, Json.mapStrings g walked = id := fun walked =>
    funext (Json.mapStrings_eq_self fun s => ⟨hg false s, hg walked s⟩)
  have hitems : ∀ walked, Json.mapItems g walked = id := fun walked =>
    funext (Json.mapItems_eq_self fun s => ⟨hg false s, hg walked s⟩)
  cases body <;> simp [mapStrings, hid, hjson, hitems]

namespace Tracing.Tracer

variable {render : Json → String}

theorem redactBody_eq (set : RedactionSet) (body : EventBody) :
    redactBody render set body = body.mapStrings (set.replace) := by
  have hid : set.replace false = id := funext set.replace_false
  have hjson : Json.mapStrings set.replace false = id :=
    funext (Json.mapStrings_eq_self fun s => ⟨set.replace_false s, set.replace_false s⟩)
  have hitems : Json.mapItems set.replace false = id :=
    funext (Json.mapItems_eq_self fun s => ⟨set.replace_false s, set.replace_false s⟩)
  have hredact : set.redact = Json.mapStrings set.replace true := funext set.redact_eq
  have hargs : set.redactArgs = Json.mapItems set.replace true := funext set.redactArgs_eq
  cases body <;>
    simp [redactBody, EventBody.mapStrings, hid, hjson, hitems, hredact, hargs, Json.mapStrings,
      redactString]

/-- Redaction replaces the strings that it walks over and that are equal to a secret. -/
theorem applyRedaction_eq (tracer : Tracer) (e : TraceEvent) :
    tracer.applyRedaction render e = e.mapStrings tracer.redaction.replace := by
  unfold applyRedaction TraceEvent.mapStrings
  rw [RedactionSet.replace_false]
  split
  next hempty =>
    rw [EventBody.mapStrings_eq_self fun walked s => RedactionSet.replace_of_isEmpty hempty walked s]
  next => rw [redactBody_eq]

end Tracing.Tracer

theorem Replay.TraceEvent.strings_mapStrings (g : Bool → String → String) (e : TraceEvent) :
    (e.mapStrings g).strings = e.slots.map fun x => g x.1 x.2 := by
  show ((_, _) :: (EventBody.mapStrings g e.body).slots).map _ = _
  rw [EventBody.slots_mapStrings, List.map_cons, List.map_map]
  rfl

/-- The secrets of an event are hidden if and only if it is redactable. -/
theorem hides_iff (set : RedactionSet) (e : TraceEvent) :
    Hides set e (e.mapStrings set.replace) ↔ Redactable set e := by
  constructor
  · rintro ⟨hfree, -⟩
    have hreplace : ∀ x ∈ e.slots, ¬ set.Leaks (set.replace x.1 x.2) := by
      intro x hx
      refine hfree _ ?_
      rw [TraceEvent.strings_mapStrings]
      exact List.mem_map_of_mem hx
    refine ⟨fun x hx hleaks => ?_, fun x hx hwalked hsecret => ?_⟩
    · by_contra hnot
      refine hreplace x hx ?_
      rw [RedactionSet.replace, if_neg hnot]
      exact hleaks
    · have := hreplace x hx
      rwa [RedactionSet.replace, if_pos ⟨hwalked, hsecret⟩] at this
  · rintro ⟨hwalked, hreplaced⟩
    refine ⟨fun s hs => ?_, set.replace, fun walked s hleaks => ?_, rfl⟩
    · rw [TraceEvent.strings_mapStrings] at hs
      obtain ⟨x, hx, rfl⟩ := List.mem_map.mp hs
      rw [RedactionSet.replace]
      split
      next hsecret => exact hreplaced x hx hsecret.1 hsecret.2
      next hnot => exact fun hleaks => hnot (hwalked x hx hleaks)
    · refine if_neg fun hsecret => hleaks ?_
      exact ⟨s, hsecret.2, List.infix_rfl⟩

/-- The secrets of an event that is emitted are hidden if and only if it is redactable, or nothing is
appended. -/
theorem emit_hides_iff (render : Json → String) (tracer : Tracer) (cloned : Bool)
    (set : RedactionSet) (e : TraceEvent) :
    (∀ e', ((tracer.withRedaction cloned set).emit render e).trace =
        (tracer.withRedaction cloned set).trace ++ [e'] → Hides set e e') ↔
      (tracer.enabled = true ∧ cloned = false → Redactable set e) := by
  have hset : (tracer.withRedaction cloned set).redaction = set := by
    unfold Tracing.Tracer.withRedaction
    split <;> rfl
  have henabled : (tracer.withRedaction cloned set).enabled = (tracer.enabled && !cloned) := by
    unfold Tracing.Tracer.withRedaction
    cases cloned <;> simp
  have happly : (tracer.withRedaction cloned set).applyRedaction render e = _ :=
    Tracing.Tracer.applyRedaction_eq (tracer.withRedaction cloned set) e
  rw [hset] at happly
  unfold Tracing.Tracer.emit
  rw [henabled]
  split
  next hon =>
    have hon' : tracer.enabled = true ∧ cloned = false := by simpa using hon
    rw [happly]
    constructor
    · exact fun h _ => (hides_iff set e).mp (h _ rfl)
    · intro h e' he'
      obtain rfl : e.mapStrings set.replace = e' := by simpa using he'
      exact (hides_iff set e).mpr (h hon')
  next hoff =>
    have hoff' : ¬ (tracer.enabled = true ∧ cloned = false) := by simpa using hoff
    constructor
    · exact fun _ hon => absurd hon hoff'
    · intro _ e' he'
      simp at he'

/-! ### Secrets that get through -/

section Examples

private def secretSet : RedactionSet := RedactionSet.empty.add "sk-test-12345"

private def openTracer : Tracer := ⟨"run", true, [], .empty⟩

/-- The answer of a human is passed through. -/
def leakyEvent : TraceEvent := ⟨1, "run", .humanInputResponse "token?" (.string "sk-test-12345")⟩

theorem secret_emitted : ¬ ∀ (render : Json → String) (tracer : Tracer) (cloned : Bool)
    (set : RedactionSet) (e e' : TraceEvent),
    ((tracer.withRedaction cloned set).emit render e).trace =
      (tracer.withRedaction cloned set).trace ++ [e'] → Hides set e e' := by
  intro h
  have hhides := h (fun _ => "") openTracer false secretSet leakyEvent leakyEvent (by rfl)
  have hleaks : secretSet.Leaks "sk-test-12345" :=
    ⟨"sk-test-12345", Finset.mem_insert_self _ _, List.infix_rfl⟩
  exact hhides.secretFree "sk-test-12345" (by decide) hleaks

end Examples

end Corvid
