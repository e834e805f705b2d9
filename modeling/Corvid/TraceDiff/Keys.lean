import Corvid.Syntax.Lexer
import Corvid.TraceDiff.Attribution
import Corvid.TraceDiff.Receipt

/-!
# Reading keys back

Three readers take the keys of records apart: the composition of stacks, policies, and attributions.
All of them search for markers. The names that a key is composed from can contain a marker too, and
the reader of stacks then finds this one.

## Main definitions

* `Stacked.parseDeltaKey`: the reader of stacks
* `Decodes`: all records of a summary are read as what their keys were composed from
* `Delta.Readable`: no marker that is searched for before the one of the class is in the names

## Main results

* `Stacked.parseDeltaKey_key_iff`: the reader of stacks is right about the readable changes
* `decodes_iff`: a summary is read back just when all its changes are readable
-/

namespace Corvid.TraceDiff

/-! ### The reader of stacks -/

namespace Stacked

inductive DeltaKind where
  | lifecycle (family entity : String) (polarity : ℤ)
  | transition (family entity fromValue toValue : String)
deriving DecidableEq, Repr

/-- The markers of additions and removals, in the order in which they are searched for. -/
def lifecycleMarkers : List (String × ℤ) :=
  [("_gained:", 1), ("_lost:", -1), ("_added:", 1), ("_removed:", -1)]

def splitLifecycle (key : String) (marker : String × ℤ) : Option DeltaKind :=
  (Text.splitOnce marker.1 key).map fun parts => .lifecycle parts.1 parts.2 marker.2

def stripPrefix (start key : String) : Option String :=
  if Text.startsWith start key then some (String.ofList (key.toList.drop start.length)) else none

def parseDeltaKey (key : String) : Option DeltaKind :=
  match Text.splitOnce "_changed:" key with
  | some (family, rest) =>
    match Text.rsplitOnce ":" rest with
    | none => none
    | some (entity, transition) =>
      match Text.splitOnce "->" transition with
      | none => none
      | some (fromValue, toValue) => some (.transition family entity fromValue toValue)
  | none =>
    match lifecycleMarkers.findSome? (splitLifecycle key) with
    | some kind => some kind
    | none =>
      match stripPrefix "agent.added:" key with
      | some entity => some (.lifecycle "agent.lifecycle" entity 1)
      | none =>
        match stripPrefix "agent.removed:" key with
        | some entity => some (.lifecycle "agent.lifecycle" entity (-1))
        | none => none

end Stacked

/-! ### What is to be read -/

@[simp] def LifecycleClass.family : LifecycleClass → String
  | agent => "agent.lifecycle"
  | dangerous => "agent.dangerous"
  | replayable => "agent.replayable"
  | approvalLabel => "agent.approval.label"
  | grounded => "agent.provenance.grounded"
  | dependency => "agent.provenance.dep"
  | domain => "tool.contract.domain"

@[simp] def TransitionClass.family : TransitionClass → String
  | trustTier => "agent.trust_tier"
  | approvalTier => "agent.approval.tier"
  | reversibility => "agent.approval.reversibility"
  | ownership => "agent.extern.ownership"
  | toolApproval => "tool.contract.approval"

/-- How many names there are after the agent or tool. -/
@[simp] def LifecycleClass.arity : LifecycleClass → ℕ
  | approvalLabel | dependency => 1
  | domain => 2
  | _ => 0

@[simp] def TransitionClass.arity : TransitionClass → ℕ
  | trustTier | toolApproval => 0
  | _ => 1

/-- How many markers are searched for before the one of the class. -/
@[simp] def LifecycleClass.place : LifecycleClass → Bool → ℕ
  | agent, _ => 4
  | dangerous, true | replayable, true | grounded, true => 0
  | dangerous, false | replayable, false | grounded, false => 1
  | approvalLabel, true | dependency, true | domain, true => 2
  | approvalLabel, false | dependency, false | domain, false => 3

namespace Delta

@[simp] def details : Delta → List String
  | lifecycle _ _ _ details => details
  | transition _ _ details _ _ => details

/-- What the reader of stacks has to find. -/
@[simp] def kind : Delta → Stacked.DeltaKind
  | lifecycle cls gained subject details =>
    .lifecycle cls.family (entityOf subject details) (if gained then 1 else -1)
  | transition cls subject details fromValue toValue =>
    .transition cls.family (entityOf subject details) fromValue toValue

/-- The values before and after. What is added or removed has none. -/
@[simp] def values : Delta → String × String
  | lifecycle .. => ("", "")
  | transition _ _ _ fromValue toValue => (fromValue, toValue)

end Delta

/-- A record is read by all readers as the change it is about. -/
structure Decoded (record : DeltaRecord) (δ : Delta) : Prop where
  key : record.key = δ.key
  kind : Stacked.parseDeltaKey record.key = some δ.kind
  subject : (Policy.parseDeltaKey record.key).subject = δ.subject
  values : ((Policy.parseDeltaKey record.key).fromValue, (Policy.parseDeltaKey record.key).toValue) =
    δ.values
  agent : extractAgentFromDeltaKey record.key = some δ.subject

/-- All records of a summary are read as what their keys were composed from, and no two records about
different things have the same key. -/
structure Decodes (base head : CorvidAbi) : Prop where
  decoded : List.Forall₂ Decoded (computeDiffSummary base head) (computeDeltas base head)
  apart : ∀ δ ∈ computeDeltas base head, ∀ δ' ∈ computeDeltas base head, δ.key = δ'.key →
    δ.head = δ'.head ∧ δ.subject = δ'.subject ∧ δ.details = δ'.details

/-! ### Readable changes -/

namespace Delta

/-- The names of something added or removed contain no marker that is searched for before the one of
its class, and the last of their parts with an arrow, if there is one, is the arrow alone. Values
contain no colon, and the value before contains no arrow. -/
def Readable : Delta → Prop
  | lifecycle cls gained subject details =>
    let entity := entityOf subject details
    Text.contains "_changed:" entity = false ∧
    (∀ marker ∈ Stacked.lifecycleMarkers.take (cls.place gained),
      Text.contains marker.1 entity = false) ∧
    ∀ part ∈ (Text.split ':' entity).reverse.find? (Text.contains "->"), part = "->"
  | transition _ _ _ fromValue toValue =>
    ':' ∉ fromValue.toList ∧ ':' ∉ toValue.toList ∧ Text.contains "->" fromValue = false

end Delta

/-- The lexer admits the name. -/
def IsIdentifier (name : String) : Prop :=
  ∃ c rest, name.toList = c :: rest ∧ Syntax.isIdentStart c ∧ ∀ d ∈ rest, Syntax.isIdentContinue d

instance (name : String) : Decidable (IsIdentifier name) :=
  decidable_of_iff
    ((match name.toList with
      | [] => false
      | c :: rest => Syntax.isIdentStart c && rest.all Syntax.isIdentContinue) = true) (by
    unfold IsIdentifier
    cases name.toList <;> simp)

/-- The names of an agent that go into keys are identifiers. -/
structure AbiAgent.Admitted (agent : AbiAgent) : Prop where
  name : IsIdentifier agent.name
  labels : ∀ label ∈ agent.labels, IsIdentifier label.label
  dependencies : ∀ dep ∈ agent.provenance.groundedParamDeps, IsIdentifier dep
  params : ∀ param ∈ agent.params, ∀ ownership ∈ param.ownership, ∀ lifetime ∈ ownership.lifetime,
    IsIdentifier lifetime
  result : ∀ ownership ∈ agent.returnOwnership, ∀ lifetime ∈ ownership.lifetime, IsIdentifier lifetime

structure CorvidAbi.Admitted (abi : CorvidAbi) : Prop where
  agents : ∀ agent ∈ abi.agents, agent.Admitted
  tools : ∀ tool ∈ abi.tools, IsIdentifier tool.name

/-! ### Splitting a key at a marker -/

/-- The marker ends in a colon, and the class does not end in what is before it. -/
structure Misses (marker head : String) (w : List Char) : Prop where
  marker : marker.toList = w ++ [':']
  colon : ':' ∉ w
  suffix : ¬ w <:+ head.toList

theorem contains_eq_false_iff {marker s : String} (hmarker : marker.toList ≠ []) :
    Text.contains marker s = false ↔ Text.splitOnce marker s = none := by
  rw [Text.contains_eq_false, Text.splitOnce, Option.map_eq_none_iff,
    Text.splitOnceList_eq_none hmarker]

namespace Delta

theorem splitOnce_key_of_suffix (δ : Delta) {marker family : String} {w : List Char}
    (hmarker : marker.toList = w ++ [':']) (hhead : δ.head.toList = family.toList ++ w) :
    Text.splitOnce marker δ.key = some (family, δ.rest) := by
  have hcolon : ':' ∉ family.toList ++ w := hhead ▸ δ.colon_notMem_head
  rw [Text.splitOnce, δ.toList_key, hmarker, hhead, Text.splitOnceList_of_suffix _ hcolon]
  simp

theorem splitOnce_key_of_misses (δ : Delta) {marker : String} {w : List Char}
    (h : Misses marker δ.head w) :
    Text.splitOnce marker δ.key =
      (Text.splitOnce marker δ.rest).map fun parts => (δ.head ++ ":" ++ parts.1, parts.2) := by
  rw [Text.splitOnce, δ.toList_key, h.marker,
    Text.splitOnceList_of_not_suffix _ δ.colon_notMem_head h.colon h.suffix, Text.splitOnce, h.marker,
    Option.map_map, Option.map_map]
  congr 1
  ext parts : 1
  refine Prod.ext (String.toList_injective ?_) rfl
  simp

theorem splitOnce_key_colon (δ : Delta) : Text.splitOnce ":" δ.key = some (δ.head, δ.rest) :=
  δ.splitOnce_key_of_suffix (w := []) (by simp) (by simp)

end Delta

/-! ### The reader of stacks on a key -/

namespace Stacked

/-- The name of the family of a kind. -/
@[simp] def DeltaKind.family : DeltaKind → String
  | lifecycle family _ _ => family
  | transition family _ _ _ => family

/-- A marker that is found in the names is found after the colon of the class. -/
theorem splitLifecycle_of_misses {δ : Delta} {marker : String × ℤ} {w : List Char}
    (h : Misses marker.1 δ.head w) :
    (Text.contains marker.1 δ.rest = false ∧ splitLifecycle δ.key marker = none) ∨
      Text.contains marker.1 δ.rest = true ∧
        ∃ kind, splitLifecycle δ.key marker = some kind ∧ ':' ∈ kind.family.toList := by
  have hmarker : marker.1.toList ≠ [] := by simp [h.marker]
  rw [splitLifecycle, δ.splitOnce_key_of_misses h]
  cases hsplit : Text.splitOnce marker.1 δ.rest with
  | none => exact .inl ⟨(contains_eq_false_iff hmarker).mpr hsplit, rfl⟩
  | some parts =>
    refine .inr ⟨?_, _, rfl, by simp⟩
    rw [← Bool.not_eq_false, contains_eq_false_iff hmarker, hsplit]
    simp

/-- The markers that the class does not end in are passed over, unless the names contain one. -/
theorem findSome_append_iff {δ : Delta} {passed : List (String × ℤ)} (later : List (String × ℤ))
    {kind : DeltaKind} (hpassed : ∀ marker ∈ passed, ∃ w, Misses marker.1 δ.head w) (hkind : ':' ∉ kind.family.toList) :
    (passed ++ later).findSome? (splitLifecycle δ.key) = some kind ↔
      (∀ marker ∈ passed, Text.contains marker.1 δ.rest = false) ∧
        later.findSome? (splitLifecycle δ.key) = some kind := by
  induction passed with
  | nil => simp
  | cons marker passed ih =>
    rw [List.forall_mem_cons] at hpassed
    obtain ⟨w, hw⟩ := hpassed.1
    rw [List.cons_append, List.findSome?_cons, List.forall_mem_cons]
    rcases splitLifecycle_of_misses hw with ⟨hnot, hsplit⟩ | ⟨hin, kind', hsplit, hcolon⟩
    · simp only [hsplit, hnot, true_and]
      exact ih hpassed.2
    · simp only [hsplit, hin, Bool.true_eq_false, false_and, iff_false, Option.some.injEq]
      rintro rfl
      exact hkind hcolon

theorem findSome_eq_none_iff {δ : Delta} {passed : List (String × ℤ)}
    (hpassed : ∀ marker ∈ passed, ∃ w, Misses marker.1 δ.head w) :
    passed.findSome? (splitLifecycle δ.key) = none ↔
      ∀ marker ∈ passed, Text.contains marker.1 δ.rest = false := by
  rw [List.findSome?_eq_none_iff]
  refine forall₂_congr fun marker hmem => ?_
  obtain ⟨w, hw⟩ := hpassed marker hmem
  rcases splitLifecycle_of_misses hw with ⟨hnot, hsplit⟩ | ⟨hin, kind, hsplit, -⟩
  · exact iff_of_true hsplit hnot
  · exact iff_of_false (by rw [hsplit]; exact Option.some_ne_none kind) (by rw [hin]; exact Bool.noConfusion)

theorem misses_changed (cls : LifecycleClass) (gained : Bool) :
    Misses "_changed:" (cls.head gained) "_changed".toList := by
  refine ⟨by simp, by simp, ?_⟩
  cases cls <;> cases gained <;> simp <;> decide

/-- The markers before the one of a class. -/
theorem misses_take (cls : LifecycleClass) (gained : Bool) :
    ∀ marker ∈ lifecycleMarkers.take (cls.place gained),
      ∃ w, Misses marker.1 (cls.head gained) w := by
  have hmarkers : ∀ marker ∈ lifecycleMarkers,
      marker.1.toList = marker.1.toList.dropLast ++ [':'] ∧ ':' ∉ marker.1.toList.dropLast := by
    simp [lifecycleMarkers]
  have hsuffix : ∀ marker ∈ lifecycleMarkers.take (cls.place gained),
      ¬ marker.1.toList.dropLast <:+ (cls.head gained).toList := by
    cases cls <;> cases gained <;> simp [lifecycleMarkers] <;> decide
  intro marker hmem
  obtain ⟨hmarker, hcolon⟩ := hmarkers marker (List.mem_of_mem_take hmem)
  exact ⟨_, hmarker, hcolon, hsuffix marker hmem⟩

/-- The marker of a class, unless it is of agents as such. -/
theorem exists_marker {cls : LifecycleClass} (hcls : cls ≠ .agent) (gained : Bool) :
    ∃ marker later w, lifecycleMarkers.drop (cls.place gained) = marker :: later ∧
      marker.2 = (if gained then 1 else -1) ∧ marker.1.toList = w ++ [':'] ∧
      (cls.head gained).toList = cls.family.toList ++ w := by
  cases cls with
  | agent => exact absurd rfl hcls
  | dangerous | replayable | grounded =>
    cases gained with
    | true => exact ⟨_, _, "_gained".toList, rfl, rfl, by simp, by simp⟩
    | false => exact ⟨_, _, "_lost".toList, rfl, rfl, by simp, by simp⟩
  | approvalLabel | dependency | domain =>
    cases gained with
    | true => exact ⟨_, _, "_added".toList, rfl, rfl, by simp, by simp⟩
    | false => exact ⟨_, _, "_removed".toList, rfl, rfl, by simp, by simp⟩

theorem colon_notMem_family (δ : Delta) : ':' ∉ δ.kind.family.toList := by
  cases δ with
  | lifecycle cls gained subject details => cases cls <;> simp
  | transition cls subject details fromValue toValue => cases cls <;> simp

theorem stripPrefix_key (δ : Delta) (start p : String) (hstart : start.toList = p.toList ++ [':'])
    (hp : ':' ∉ p.toList) :
    stripPrefix start δ.key = if δ.head = p then some δ.rest else none := by
  rw [stripPrefix, δ.startsWith_key start p hstart hp]
  simp only [decide_eq_true_eq]
  split
  next hhead =>
    have hlen : start.length = (δ.head.toList ++ [':']).length := by
      rw [← String.length_toList, hstart, hhead]
    rw [hlen, δ.toList_key.trans (List.append_cons ..), List.drop_left, String.ofList_toList]
  next => rfl

/-- The key of something added or removed is read, unless the names contain a marker that is searched
for before the one of the class. -/
theorem parseDeltaKey_lifecycle_iff (cls : LifecycleClass) (gained : Bool) (subject : String)
    (details : List String) :
    let δ := Delta.lifecycle cls gained subject details
    parseDeltaKey δ.key = some δ.kind ↔
      Text.contains "_changed:" δ.rest = false ∧
        ∀ marker ∈ lifecycleMarkers.take (cls.place gained),
          Text.contains marker.1 δ.rest = false := by
  intro δ
  have hpassed : ∀ marker ∈ lifecycleMarkers.take (cls.place gained),
      ∃ w, Misses marker.1 δ.head w := misses_take cls gained
  have hchanged := δ.splitOnce_key_of_misses (misses_changed cls gained)
  rw [contains_eq_false_iff (by simp)]
  unfold parseDeltaKey
  rw [hchanged]
  cases hsplit : Text.splitOnce "_changed:" δ.rest with
  | some parts =>
    -- the reader takes it for a change of a value
    simp only [Option.map_some, reduceCtorEq, false_and, iff_false]
    split
    next => simp
    next =>
      split
      next => simp
      next => simp [δ]
  | none =>
    simp only [Option.map_none, true_and]
    have happend := findSome_append_iff (lifecycleMarkers.drop (cls.place gained)) hpassed
      (colon_notMem_family δ)
    rw [List.take_append_drop] at happend
    by_cases hcls : cls = .agent
    · subst hcls
      have hnone := findSome_eq_none_iff hpassed
      -- all markers are passed over, and the class is a prefix
      cases hfound : lifecycleMarkers.findSome? (splitLifecycle δ.key) with
      | some kind =>
        rw [show lifecycleMarkers.take (LifecycleClass.agent.place gained) = lifecycleMarkers from rfl,
          hfound] at hnone
        refine iff_of_false (fun h => ?_) (fun h => absurd (hnone.mpr h) (Option.some_ne_none kind))
        exact absurd (happend.mp (hfound.trans h)).2 (by simp [lifecycleMarkers])
      | none =>
        refine iff_of_true ?_ (hnone.mp hfound)
        simp only [stripPrefix_key δ "agent.added:" "agent.added" (by simp) (by simp),
          stripPrefix_key δ "agent.removed:" "agent.removed" (by simp) (by simp)]
        cases gained <;> simp [δ]
    · obtain ⟨marker, later, w, hdrop, hpolarity, hmarker, hhead⟩ := exists_marker hcls gained
      have hown : (lifecycleMarkers.drop (cls.place gained)).findSome? (splitLifecycle δ.key) =
          some δ.kind := by
        rw [hdrop, List.findSome?_cons, splitLifecycle, δ.splitOnce_key_of_suffix hmarker hhead]
        simp [δ, hpolarity]
      rw [← (happend.trans (and_iff_left hown))]
      cases hfound : lifecycleMarkers.findSome? (splitLifecycle δ.key) with
      | some kind => rfl
      | none =>
        -- no marker is found, also not the one of the class
        refine iff_of_false (fun h => ?_) (by simp)
        have hlater : (lifecycleMarkers.drop (cls.place gained)).findSome? (splitLifecycle δ.key) = none := by
          rw [List.findSome?_eq_none_iff] at hfound ⊢
          exact fun marker hmem => hfound marker (List.mem_of_mem_drop hmem)
        rw [hown] at hlater
        cases hlater

theorem splitOnce_arrow_iff (fromValue toValue : String) :
    Text.splitOnce "->" (fromValue ++ "->" ++ toValue) = some (fromValue, toValue) ↔
      Text.contains "->" fromValue = false := by
  have hpair := Text.splitOnceList_pair_iff (x := '-') (y := '>') (by decide) fromValue.toList
    toValue.toList
  rw [Text.contains_eq_false, show "->".toList = ['-', '>'] from rfl, ← hpair,
    Text.splitOnce]
  simp only [String.toList_append, show "->".toList = ['-', '>'] from rfl, List.append_assoc,
    List.cons_append, List.nil_append]
  constructor
  · intro h
    obtain ⟨parts, hparts, heq⟩ := Option.map_eq_some_iff.mp h
    obtain ⟨hfrom, hto⟩ := Prod.mk.inj heq
    rw [hparts, ← hfrom, ← hto]
    simp
  · intro h
    rw [h]
    simp

/-- The key of a change of a value is read, unless the values contain a colon or the value before an
arrow. -/
theorem parseDeltaKey_transition_iff (cls : TransitionClass) (subject : String)
    (details : List String) (fromValue toValue : String) :
    let δ := Delta.transition cls subject details fromValue toValue
    parseDeltaKey δ.key = some δ.kind ↔
      ':' ∉ fromValue.toList ∧ ':' ∉ toValue.toList ∧ Text.contains "->" fromValue = false := by
  intro δ
  have hhead : δ.head.toList = cls.family.toList ++ "_changed".toList := by
    cases cls <;> simp [δ]
  have hchanged : Text.splitOnce "_changed:" δ.key = some (cls.family, δ.rest) :=
    δ.splitOnce_key_of_suffix (by simp) hhead
  have hrest : δ.rest.toList =
      (entityOf subject details).toList ++ ':' :: (fromValue ++ "->" ++ toValue).toList := by
    simp [δ]
  have hcolon : ':' ∉ (fromValue ++ "->" ++ toValue).toList ↔
      ':' ∉ fromValue.toList ∧ ':' ∉ toValue.toList := by
    simp
  rw [← and_assoc, ← hcolon, ← splitOnce_arrow_iff fromValue toValue]
  unfold parseDeltaKey
  simp only [hchanged]
  constructor
  · intro h
    split at h
    next => cases h
    next entity value hsplit =>
      split at h
      next => cases h
      next f t harrow =>
        simp only [Delta.kind, δ, Option.some.injEq, DeltaKind.transition.injEq, true_and] at h
        obtain ⟨rfl, rfl, rfl⟩ := h
        obtain ⟨parts, hparts, heq⟩ := Option.map_eq_some_iff.mp hsplit
        obtain ⟨hentity, rfl⟩ := Prod.mk.inj heq
        obtain ⟨happend, hnot⟩ := Text.rsplitOnceList_eq_some hparts
        have hentity' : parts.1 = (entityOf subject details).toList := by
          rw [← hentity, String.toList_ofList]
        -- the values are what is after the last colon
        rw [hrest, hentity', List.append_cancel_left_eq, List.cons.injEq] at happend
        rw [← happend.2] at hnot harrow
        exact ⟨hnot, by simpa only [String.ofList_toList] using harrow⟩
  · rintro ⟨hnot, harrow⟩
    have hsplit : Text.rsplitOnce ":" δ.rest =
        some (entityOf subject details, fromValue ++ "->" ++ toValue) := by
      rw [Text.rsplitOnce, hrest, show ":".toList = [':'] from rfl,
        Text.rsplitOnceList_of_notMem _ hnot, Option.map_some, String.ofList_toList,
        String.ofList_toList]
    simp only [hsplit, harrow]
    rfl

end Stacked

/-! ### The names in a key -/

namespace Delta

/-- How many names there are after the agent or tool. -/
@[simp] def arity : Delta → ℕ
  | lifecycle cls _ _ _ => cls.arity
  | transition cls _ _ _ _ => cls.arity

/-- The kind and the target of a domain can be any text. -/
@[simp] def isDomain : Delta → Bool
  | lifecycle .domain _ _ _ => true
  | _ => false

/-- The names of a change contain no colon, except for those of a domain. -/
structure Named (δ : Delta) : Prop where
  subject : ':' ∉ δ.subject.toList
  nonempty : δ.subject ≠ ""
  arity : δ.details.length = δ.arity
  details : δ.isDomain = false → ∀ detail ∈ δ.details, ':' ∉ detail.toList

end Delta

theorem toList_entityOf (subject : String) (details : List String) :
    (entityOf subject details).toList =
      subject.toList ++ details.flatMap fun detail => ':' :: detail.toList := by
  induction details generalizing subject with
  | nil => simp
  | cons detail details ih =>
    rw [entityOf_cons, ih]
    simp

theorem split_entityOf {subject : String} {details : List String} (hsubject : ':' ∉ subject.toList)
    (hdetails : ∀ detail ∈ details, ':' ∉ detail.toList) :
    Text.split ':' (entityOf subject details) = subject :: details := by
  induction details using List.reverseRecOn with
  | nil => exact Text.split_of_notMem hsubject
  | append_singleton details detail ih =>
    rw [Text.split_append (s := entityOf subject details) (t := detail) (by simp [toList_entityOf]),
      ih fun d hd => hdetails d (List.mem_append_left _ hd),
      Text.split_of_notMem (hdetails detail (by simp))]
    rfl

namespace Delta

theorem rest_eq (δ : Delta) :
    δ.rest = δ.subject ∨ ∃ more : String, δ.rest.toList = δ.subject.toList ++ ':' :: more.toList := by
  cases δ with
  | lifecycle cls gained subject details =>
    cases details with
    | nil => exact .inl rfl
    | cons detail details =>
      refine .inr ⟨String.ofList (detail.toList ++ details.flatMap fun d => ':' :: d.toList), ?_⟩
      simp [toList_entityOf]
  | transition cls subject details fromValue toValue =>
    cases details with
    | nil => exact .inr ⟨fromValue ++ "->" ++ toValue, by simp⟩
    | cons detail details =>
      refine .inr ⟨String.ofList (detail.toList ++ (details.flatMap fun d => ':' :: d.toList) ++
        ':' :: (fromValue ++ "->" ++ toValue).toList), ?_⟩
      simp [toList_entityOf]

theorem exists_split_rest {δ : Delta} (h : δ.Named) :
    ∃ parts, Text.split ':' δ.rest = δ.subject :: parts := by
  rcases δ.rest_eq with hrest | ⟨more, hmore⟩
  · exact ⟨[], by rw [hrest, Text.split_of_notMem h.subject]⟩
  · exact ⟨_, (Text.split_append hmore).trans (by rw [Text.split_of_notMem h.subject]; rfl)⟩

theorem split_key (δ : Delta) : Text.split ':' δ.key = δ.head :: Text.split ':' δ.rest := by
  rw [Text.split_append δ.toList_key, Text.split_of_notMem δ.colon_notMem_head]
  rfl

theorem extractAgent_key {δ : Delta} (h : δ.Named) :
    extractAgentFromDeltaKey δ.key = some δ.subject := by
  have hagent : ((Text.splitOnce ":" δ.rest).getD (δ.rest, "")).1 = δ.subject := by
    rcases δ.rest_eq with hrest | ⟨more, hmore⟩
    · have hnone : Text.splitOnce ":" δ.rest = none := by
        rw [← contains_eq_false_iff (by simp), Text.contains_eq_false, hrest]
        rintro ⟨l, r, hlr⟩
        exact h.subject (hlr ▸ by simp)
      rw [hnone, hrest]
      rfl
    · have hsplit := Text.splitOnceList_of_suffix (c := ':') (w := []) (p := δ.subject.toList) more.toList
        (by simpa using h.subject)
      rw [List.append_nil, List.nil_append] at hsplit
      rw [Text.splitOnce, hmore, show ":".toList = [':'] from rfl, hsplit]
      simp
  unfold extractAgentFromDeltaKey
  rw [δ.splitOnce_key_colon]
  dsimp only
  rw [hagent, if_neg (by simpa using h.nonempty)]

theorem policy_subject {δ : Delta} (h : δ.Named) :
    (Policy.parseDeltaKey δ.key).subject = δ.subject := by
  obtain ⟨parts, hparts⟩ := exists_split_rest h
  unfold Policy.parseDeltaKey
  rw [δ.split_key, hparts]
  rfl

/-- The values that a policy gets. -/
theorem policy_values (δ : Delta) :
    ((Policy.parseDeltaKey δ.key).fromValue, (Policy.parseDeltaKey δ.key).toValue) =
      (Text.splitOnce "->" (((Text.split ':' δ.rest).reverse.find? (Text.contains "->")).getD "")).getD
        ("", "") := by
  unfold Policy.parseDeltaKey
  rw [δ.split_key]
  rfl

theorem policy_values_lifecycle_iff (cls : LifecycleClass) (gained : Bool) (subject : String)
    (details : List String) :
    let δ := lifecycle cls gained subject details
    ((Policy.parseDeltaKey δ.key).fromValue, (Policy.parseDeltaKey δ.key).toValue) = δ.values ↔
      ∀ part ∈ (Text.split ':' δ.rest).reverse.find? (Text.contains "->"), part = "->" := by
  intro δ
  rw [policy_values]
  cases hfound : (Text.split ':' δ.rest).reverse.find? (Text.contains "->") with
  | none =>
    refine iff_of_true ?_ (by simp)
    rfl
  | some part =>
    have harrow : Text.contains "->" part = true := List.find?_some hfound
    have hsome : Text.splitOnce "->" part ≠ none := by
      rw [Ne, ← contains_eq_false_iff (by simp), harrow]
      exact Bool.noConfusion
    obtain ⟨parts, hparts⟩ := Option.ne_none_iff_exists'.mp hsome
    obtain ⟨lists, hlists, heq⟩ := Option.map_eq_some_iff.mp hparts
    have happend : part = parts.1 ++ "->" ++ parts.2 := by
      apply String.toList_injective
      rw [Text.eq_append_of_splitOnceList hlists, ← heq]
      simp
    simp only [Option.getD_some, hparts, Option.mem_def, Option.some.injEq, forall_eq']
    constructor
    · intro hvalues
      rw [happend, hvalues]
      rfl
    · rintro rfl
      rw [show Text.splitOnce "->" "->" = some ("", "") from rfl] at hparts
      exact (Option.some.inj hparts).symm

theorem policy_values_transition (cls : TransitionClass) (subject : String) (details : List String)
    {fromValue toValue : String} (hcolon : ':' ∉ fromValue.toList ∧ ':' ∉ toValue.toList)
    (harrow : Text.contains "->" fromValue = false) :
    let δ := transition cls subject details fromValue toValue
    ((Policy.parseDeltaKey δ.key).fromValue, (Policy.parseDeltaKey δ.key).toValue) = δ.values := by
  intro δ
  have hsplit : Text.split ':' δ.rest =
      Text.split ':' (entityOf subject details) ++ [fromValue ++ "->" ++ toValue] := by
    rw [Text.split_append (s := entityOf subject details) (t := fromValue ++ "->" ++ toValue)
      (by simp [δ]), Text.split_of_notMem (s := fromValue ++ "->" ++ toValue) (by simp [hcolon])]
  have hcontains : Text.contains "->" (fromValue ++ "->" ++ toValue) = true := by
    rw [Text.contains_iff]
    exact ⟨fromValue.toList, toValue.toList, by simp⟩
  rw [policy_values, hsplit, List.reverse_append, List.reverse_singleton, List.singleton_append,
    List.find?_cons_of_pos hcontains, Option.getD_some,
    (Stacked.splitOnce_arrow_iff fromValue toValue).mpr harrow]
  rfl

/-- A record with the key of a change is read just when the change is readable. -/
theorem decoded_iff {δ : Delta} (h : δ.Named) {record : DeltaRecord} (hkey : record.key = δ.key) :
    Decoded record δ ↔ δ.Readable := by
  have hagent := extractAgent_key h
  have hsubject := policy_subject h
  rw [← hkey] at hagent hsubject
  cases δ with
  | lifecycle cls gained subject details =>
    have hkind := Stacked.parseDeltaKey_lifecycle_iff cls gained subject details
    have hvalues := policy_values_lifecycle_iff cls gained subject details
    dsimp only at hkind hvalues
    rw [← hkey] at hkind hvalues
    constructor
    · intro hdecoded
      exact ⟨(hkind.mp hdecoded.kind).1, (hkind.mp hdecoded.kind).2, hvalues.mp hdecoded.values⟩
    · rintro ⟨hchanged, hmarkers, harrow⟩
      exact ⟨hkey, hkind.mpr ⟨hchanged, hmarkers⟩, hsubject, hvalues.mpr harrow, hagent⟩
  | transition cls subject details fromValue toValue =>
    have hkind := Stacked.parseDeltaKey_transition_iff cls subject details fromValue toValue
    dsimp only at hkind
    rw [← hkey] at hkind
    constructor
    · intro hdecoded
      exact hkind.mp hdecoded.kind
    · rintro ⟨hfrom, hto, harrow⟩
      have hvalues := policy_values_transition cls subject details
        ⟨hfrom, hto⟩ harrow
      dsimp only at hvalues
      rw [← hkey] at hvalues
      exact ⟨hkey, hkind.mpr ⟨hfrom, hto, harrow⟩, hsubject, hvalues, hagent⟩

end Delta

/-! ### The names of descriptors -/

theorem IsIdentifier.colon {name : String} (h : IsIdentifier name) : ':' ∉ name.toList := by
  obtain ⟨c, rest, hname, hstart, hrest⟩ := h
  rw [hname, List.mem_cons]
  rintro (rfl | hmem)
  · exact absurd hstart (by decide)
  · exact absurd (hrest _ hmem) (by decide)

theorem IsIdentifier.ne_empty {name : String} (h : IsIdentifier name) : name ≠ "" := by
  obtain ⟨c, rest, hname, -, -⟩ := h
  rintro rfl
  simp at hname

section Names

variable {name : String} (hname : IsIdentifier name)
include hname

theorem named_transition {cls : TransitionClass} {details : List String} {fromValue toValue : String}
    (harity : details.length = cls.arity) (hdetails : ∀ detail ∈ details, ':' ∉ detail.toList) :
    ∀ δ ∈ transition cls name details fromValue toValue, δ.Named := by
  intro δ hδ
  rw [transition] at hδ
  split at hδ
  next =>
    obtain rfl := List.mem_singleton.mp hδ
    exact ⟨hname.colon, hname.ne_empty, harity, fun _ => hdetails⟩
  next => cases hδ

theorem named_lifecycle {cls : LifecycleClass} {gained : Bool} {details : List String}
    (harity : details.length = cls.arity) (hdetails : ∀ detail ∈ details, ':' ∉ detail.toList) :
    (Delta.lifecycle cls gained name details).Named :=
  ⟨hname.colon, hname.ne_empty, harity, fun _ => hdetails⟩

theorem named_toggle {cls : LifecycleClass} {base head : Bool} (harity : cls.arity = 0) :
    ∀ δ ∈ toggle cls name base head, δ.Named := by
  intro δ hδ
  rw [toggle] at hδ
  split at hδ
  next =>
    obtain rfl := List.mem_singleton.mp hδ
    exact named_lifecycle hname harity.symm (by simp)
  next => cases hδ

theorem named_approvalDeltas {base head : List AbiApprovalLabel}
    (hbase : ∀ label ∈ base, IsIdentifier label.label)
    (hhead : ∀ label ∈ head, IsIdentifier label.label) :
    ∀ δ ∈ approvalDeltas name base head, δ.Named := by
  have hlabel : ∀ {labels : List AbiApprovalLabel}, (∀ label ∈ labels, IsIdentifier label.label) →
      ∀ entry ∈ (byName AbiApprovalLabel.label labels).toList, ':' ∉ entry.1.toList := by
    intro labels hlabels entry hentry
    obtain ⟨hmem, heq⟩ := mem_of_byName (mem_toList_byName.mp hentry)
    rw [← heq]
    exact (hlabels _ hmem).colon
  intro δ hδ
  rw [approvalDeltas, List.mem_append, List.mem_flatMap, List.mem_flatMap] at hδ
  rcases hδ with ⟨⟨label, bl⟩, hentry, hδ⟩ | ⟨⟨label, hl⟩, hentry, hδ⟩
  · have hcolon := hlabel hbase _ hentry
    dsimp only at hδ
    split at hδ
    next =>
      obtain rfl := List.mem_singleton.mp hδ
      exact named_lifecycle hname rfl (by simpa using hcolon)
    next =>
      rcases List.mem_append.mp hδ with hδ | hδ
      · exact named_transition hname rfl (by simpa using hcolon) δ hδ
      · exact named_transition hname rfl (by simpa using hcolon) δ hδ
  · have hcolon := hlabel hhead _ hentry
    dsimp only at hδ
    split at hδ
    next =>
      obtain rfl := List.mem_singleton.mp hδ
      exact named_lifecycle hname rfl (by simpa using hcolon)
    next => cases hδ

theorem named_provenanceDeltas {base head : AbiProvenanceContract}
    (hbase : ∀ dep ∈ base.groundedParamDeps, IsIdentifier dep)
    (hhead : ∀ dep ∈ head.groundedParamDeps, IsIdentifier dep) :
    ∀ δ ∈ provenanceDeltas name base head, δ.Named := by
  intro δ hδ
  rw [provenanceDeltas, List.mem_append, List.mem_append, List.mem_flatMap, List.mem_flatMap] at hδ
  rcases hδ with (hδ | ⟨dep, hdep, hδ⟩) | ⟨dep, hdep, hδ⟩
  · exact named_toggle hname rfl δ hδ
  · split at hδ
    next =>
      obtain rfl := List.mem_singleton.mp hδ
      exact named_lifecycle hname rfl (by simpa using (hbase dep hdep).colon)
    next => cases hδ
  · split at hδ
    next =>
      obtain rfl := List.mem_singleton.mp hδ
      exact named_lifecycle hname rfl (by simpa using (hhead dep hdep).colon)
    next => cases hδ

theorem named_ownershipDeltas (base head : AbiAgent) :
    ∀ δ ∈ ownershipDeltas name base head, δ.Named := by
  intro δ hδ
  rw [ownershipDeltas, List.mem_append, List.mem_flatMap] at hδ
  rcases hδ with hδ | ⟨⟨⟨baseParam, headParam⟩, index⟩, -, hδ⟩
  · exact named_transition hname rfl (by simp) δ hδ
  · have hindex := Text.notMem_toString (c := ':') (by decide) index
    have hbrackets : ':' ∉ (toString "arg[").toList ∧ ':' ∉ (toString "]").toList := by decide
    exact named_transition hname rfl (by simpa [hbrackets] using hindex) δ hδ

theorem named_agentDeltas {base head : AbiAgent} (hbase : base.Admitted) (hhead : head.Admitted) :
    ∀ δ ∈ agentDeltas name base head, δ.Named := by
  intro δ hδ
  simp only [agentDeltas, List.mem_append] at hδ
  rcases hδ with ((((hδ | hδ) | hδ) | hδ) | hδ) | hδ
  · exact named_transition hname rfl (by simp) δ hδ
  · exact named_toggle hname rfl δ hδ
  · exact named_toggle hname rfl δ hδ
  · exact named_approvalDeltas hname hbase.labels hhead.labels δ hδ
  · exact named_provenanceDeltas hname hbase.dependencies hhead.dependencies δ hδ
  · exact named_ownershipDeltas hname base head δ hδ

theorem named_domain {gained : Bool} (kind target : String) :
    (Delta.lifecycle .domain gained name [kind, target]).Named :=
  ⟨hname.colon, hname.ne_empty, rfl, fun h => by cases h⟩

theorem named_toolDeltas (base head : AbiTool) : ∀ δ ∈ toolDeltas name base head, δ.Named := by
  intro δ hδ
  simp only [toolDeltas, List.mem_append, List.mem_flatMap] at hδ
  rcases hδ with (⟨⟨kind, target⟩, -, hδ⟩ | ⟨⟨kind, target⟩, -, hδ⟩) | hδ
  · split at hδ
    next =>
      obtain rfl := List.mem_singleton.mp hδ
      exact named_domain hname kind target
    next => cases hδ
  · split at hδ
    next =>
      obtain rfl := List.mem_singleton.mp hδ
      exact named_domain hname kind target
    next => cases hδ
  · exact named_transition hname rfl (by simp) δ hδ

theorem named_initialToolDeltas (tool : AbiTool) : ∀ δ ∈ initialToolDeltas name tool, δ.Named := by
  intro δ hδ
  rw [initialToolDeltas, List.mem_append, List.mem_map] at hδ
  rcases hδ with ⟨⟨kind, target⟩, -, rfl⟩ | hδ
  · exact named_domain hname kind target
  · split at hδ
    next =>
      obtain rfl := List.mem_singleton.mp hδ
      exact ⟨hname.colon, hname.ne_empty, rfl, by simp⟩
    next => cases hδ

theorem named_removedToolDeltas (tool : AbiTool) : ∀ δ ∈ removedToolDeltas name tool, δ.Named := by
  intro δ hδ
  obtain ⟨⟨kind, target⟩, -, rfl⟩ := List.mem_map.mp hδ
  exact named_domain hname kind target

end Names

theorem named_initialDeltas {agent : AbiAgent} (h : agent.Admitted) :
    ∀ δ ∈ initialDeltas agent, δ.Named := by
  intro δ hδ
  simp only [initialDeltas, List.mem_append, List.mem_map] at hδ
  rcases hδ with (⟨label, hlabel, rfl⟩ | hδ) | ⟨dep, hdep, rfl⟩
  · exact named_lifecycle h.name rfl (by simpa using (h.labels label hlabel).colon)
  · split at hδ
    next =>
      obtain rfl := List.mem_singleton.mp hδ
      exact named_lifecycle h.name rfl (by simp)
    next => cases hδ
  · exact named_lifecycle h.name rfl (by simpa using (h.dependencies dep hdep).colon)

theorem named_computeDeltas {base head : CorvidAbi} (hbase : base.Admitted) (hhead : head.Admitted) :
    ∀ δ ∈ computeDeltas base head, δ.Named := by
  intro δ hδ
  simp only [computeDeltas, List.mem_append, List.mem_flatMap] at hδ
  rcases hδ with (⟨⟨name, ba⟩, hentry, hδ⟩ | ⟨⟨name, ha⟩, hentry, hδ⟩) |
    ⟨⟨name, headTool⟩, hentry, hδ⟩ | ⟨⟨name, baseTool⟩, hentry, hδ⟩
  · obtain ⟨hmem, rfl⟩ := mem_of_byName (mem_toList_byName.mp hentry)
    have hba := hbase.agents ba hmem
    dsimp only at hδ
    split at hδ
    next =>
      obtain rfl := List.mem_singleton.mp hδ
      exact named_lifecycle hba.name rfl (by simp)
    next ha hfound =>
      exact named_agentDeltas hba.name hba (hhead.agents ha (mem_of_byName hfound).1) δ hδ
  · obtain ⟨hmem, rfl⟩ := mem_of_byName (mem_toList_byName.mp hentry)
    have hha := hhead.agents ha hmem
    dsimp only at hδ
    split at hδ
    next =>
      rcases List.mem_cons.mp hδ with rfl | hδ
      · exact named_lifecycle hha.name rfl (by simp)
      · exact named_initialDeltas hha δ hδ
    next => cases hδ
  · obtain ⟨hmem, rfl⟩ := mem_of_byName (mem_toList_byName.mp hentry)
    have hname := hhead.tools headTool hmem
    dsimp only at hδ
    split at hδ
    next baseTool _ => exact named_toolDeltas hname baseTool headTool δ hδ
    next => exact named_initialToolDeltas hname headTool δ hδ
  · obtain ⟨hmem, rfl⟩ := mem_of_byName (mem_toList_byName.mp hentry)
    have hname := hbase.tools baseTool hmem
    dsimp only at hδ
    split at hδ
    next => exact named_removedToolDeltas hname baseTool δ hδ
    next => cases hδ

/-! ### Equal keys -/

namespace Delta

theorem isDomain_iff (δ : Delta) :
    δ.isDomain = true ↔ δ.head = "tool.contract.domain_added" ∨ δ.head = "tool.contract.domain_removed" := by
  cases δ with
  | lifecycle cls gained subject details => cases cls <;> cases gained <;> simp
  | transition cls subject details fromValue toValue => cases cls <;> simp

/-- The classes whose keys have one name after the agent. -/
def detailedHeads : List String :=
  ["agent.approval.label_added", "agent.approval.label_removed", "agent.provenance.dep_added",
    "agent.provenance.dep_removed", "agent.approval.tier_changed",
    "agent.approval.reversibility_changed", "agent.extern.ownership_changed"]

theorem arity_of_head (δ : Delta) (h : δ.isDomain = false) :
    δ.arity = if δ.head ∈ detailedHeads then 1 else 0 := by
  cases δ with
  | lifecycle cls gained subject details =>
    cases cls with
    | domain => cases h
    | _ => cases gained <;> simp [detailedHeads]
  | transition cls subject details fromValue toValue => cases cls <;> simp [detailedHeads]

theorem split_rest {δ : Delta} (h : δ.Named) (hdomain : δ.isDomain = false) :
    ∃ more, Text.split ':' δ.rest = δ.subject :: (δ.details ++ more) := by
  have hentity := split_entityOf h.subject (h.details hdomain)
  cases δ with
  | lifecycle cls gained subject details => exact ⟨[], by simpa using hentity⟩
  | transition cls subject details fromValue toValue =>
    refine ⟨Text.split ':' (fromValue ++ "->" ++ toValue), ?_⟩
    rw [Text.split_append (s := entityOf subject details) (t := fromValue ++ "->" ++ toValue) (by simp)]
    exact congrArg (· ++ _) hentity

/-- Changes with the same key are about the same thing, up to the kind and target of a domain. -/
theorem eq_of_key_eq {δ δ' : Delta} (h : δ.Named) (h' : δ'.Named) (hkey : δ.key = δ'.key) :
    δ.head = δ'.head ∧ δ.subject = δ'.subject ∧ δ.rest = δ'.rest ∧
      (δ.isDomain = false → δ.details = δ'.details) := by
  have hsplit := δ.splitOnce_key_colon
  rw [hkey, δ'.splitOnce_key_colon] at hsplit
  obtain ⟨hhead, hrest⟩ := Prod.mk.inj (Option.some.inj hsplit)
  obtain ⟨parts, hparts⟩ := exists_split_rest h
  obtain ⟨parts', hparts'⟩ := exists_split_rest h'
  rw [hrest, hparts] at hparts'
  refine ⟨hhead.symm, (List.cons.inj hparts').1, hrest.symm, fun hdomain => ?_⟩
  have hdomain' : δ'.isDomain = false := by
    rw [← Bool.not_eq_true, isDomain_iff, hhead, ← isDomain_iff, hdomain]
    exact Bool.noConfusion
  obtain ⟨more, hmore⟩ := split_rest h hdomain
  obtain ⟨more', hmore'⟩ := split_rest h' hdomain'
  rw [hrest, hmore] at hmore'
  have hlength : δ.details.length = δ'.details.length := by
    rw [h.arity, h'.arity, arity_of_head δ hdomain, arity_of_head δ' hdomain', hhead]
  exact List.append_inj_left (List.cons.inj hmore').2 hlength

end Delta

/-- No two domains of one tool read the same with a colon between the kind and the target. -/
def DomainsApart (deltas : List Delta) : Prop :=
  ∀ gained tool kind target kind' target',
    .lifecycle .domain gained tool [kind, target] ∈ deltas →
    .lifecycle .domain gained tool [kind', target'] ∈ deltas →
    kind ++ ":" ++ target = kind' ++ ":" ++ target' → kind = kind' ∧ target = target'

theorem Delta.Named.eq_domain {δ : Delta} (h : δ.Named) (hdomain : δ.isDomain = true) :
    ∃ gained kind target, δ = .lifecycle .domain gained δ.subject [kind, target] := by
  cases δ with
  | lifecycle cls gained subject details =>
    cases cls with
    | domain =>
      obtain ⟨kind, target, rfl⟩ := List.length_eq_two.mp h.arity
      exact ⟨gained, kind, target, rfl⟩
    | _ => cases hdomain
  | transition => cases hdomain

theorem forall₂_decoded_iff {records : List DeltaRecord} {deltas : List Delta}
    (hkeys : Records records deltas) (hnamed : ∀ δ ∈ deltas, δ.Named) :
    List.Forall₂ Decoded records deltas ↔ ∀ δ ∈ deltas, δ.Readable := by
  have hpairs : List.Forall₂ (fun record δ => record.key = δ.key) records deltas := by
    have hmaps : List.Forall₂ (· = ·) (records.map DeltaRecord.key) (deltas.map Delta.key) := by
      rw [List.forall₂_eq_eq_eq]
      exact hkeys
    simpa [List.forall₂_map_left_iff, List.forall₂_map_right_iff] using hmaps
  clear hkeys
  induction hpairs with
  | nil => simp
  | cons hkey _ ih =>
    rw [List.forall_mem_cons] at hnamed ⊢
    rw [List.forall₂_cons]
    exact and_congr (Delta.decoded_iff hnamed.1 hkey) (ih hnamed.2)

/-- A summary is read back, and its keys tell its records apart, just when no change has names or
values that contain a marker, an arrow or a colon in a wrong place. -/
theorem decodes_iff {base head : CorvidAbi} (hbase : base.Admitted) (hhead : head.Admitted) :
    Decodes base head ↔
      (∀ δ ∈ computeDeltas base head, δ.Readable) ∧ DomainsApart (computeDeltas base head) := by
  have hnamed := named_computeDeltas hbase hhead
  have hdecoded := forall₂_decoded_iff (computeDiffSummary_keys base head) hnamed
  constructor
  · intro h
    refine ⟨hdecoded.mp h.decoded, ?_⟩
    intro gained tool kind target kind' target' hmem hmem' heq
    have hkey : (Delta.lifecycle .domain gained tool [kind, target]).key =
        (Delta.lifecycle .domain gained tool [kind', target']).key := by
      apply String.toList_injective
      simpa [toList_entityOf] using congrArg String.toList heq
    simpa using (h.apart _ hmem _ hmem' hkey).2.2
  · rintro ⟨hreadable, hdomains⟩
    refine ⟨hdecoded.mpr hreadable, fun δ hδ δ' hδ' hkey => ?_⟩
    obtain ⟨hhead, hsubject, hrest, hdetails⟩ := Delta.eq_of_key_eq (hnamed δ hδ) (hnamed δ' hδ') hkey
    refine ⟨hhead, hsubject, ?_⟩
    cases hdomain : δ.isDomain with
    | false => exact hdetails hdomain
    | true =>
      have hdomain' : δ'.isDomain = true := by rwa [Delta.isDomain_iff, ← hhead, ← Delta.isDomain_iff]
      obtain ⟨gained, kind, target, heq⟩ := (hnamed δ hδ).eq_domain hdomain
      obtain ⟨gained', kind', target', heq'⟩ := (hnamed δ' hδ').eq_domain hdomain'
      rw [← hsubject] at heq'
      have hgained : gained = gained' := by
        rw [heq, heq'] at hhead
        cases gained <;> cases gained' <;> simp at hhead ⊢
      subst hgained
      have hjoined : kind ++ ":" ++ target = kind' ++ ":" ++ target' := by
        rw [heq, heq'] at hrest
        apply String.toList_injective
        simpa [toList_entityOf] using congrArg String.toList hrest
      obtain ⟨rfl, rfl⟩ := hdomains gained δ.subject kind target kind' target' (heq ▸ hδ) (heq' ▸ hδ') hjoined
      rw [heq, heq']

private def changed (name label : String) (gained : Bool) : CorvidAbi :=
  { agents :=
      [{ name := name, params := [], returnType := .scalar .nothing, returnOwnership := none,
         trustTier := none, dangerous := false, replayable := false,
         labels := if gained then [⟨label, none, none⟩] else [],
         provenance := ⟨false, []⟩ }]
    tools := [] }

private theorem admitted_changed {name label : String} (gained : Bool) (hname : IsIdentifier name)
    (hlabel : IsIdentifier label) : (changed name label gained).Admitted := by
  refine ⟨fun agent hagent => ?_, by simp [changed]⟩
  obtain rfl := List.mem_singleton.mp hagent
  refine ⟨hname, ?_, by simp, by simp, by simp⟩
  cases gained <;> simp [hlabel]

/-- The key of a label of an agent `refund` is read as what it is. -/
theorem decodes_refund : Decodes (changed "refund" "Approve" false) (changed "refund" "Approve" true) :=
  (decodes_iff (admitted_changed false (by decide) (by decide))
    (admitted_changed true (by decide) (by decide))).mpr (by
      have hdeltas : computeDeltas (changed "refund" "Approve" false) (changed "refund" "Approve" true) =
          [.lifecycle .approvalLabel true "refund" ["Approve"]] := by decide +kernel
      rw [hdeltas]
      refine ⟨?_, ?_⟩
      · rw [List.forall_mem_singleton]
        exact ⟨by decide +kernel, by decide +kernel, by decide +kernel⟩
      · simp [DomainsApart])

/-- An approval label that an agent `refund_changed` gains is read as nothing at all. -/
theorem label_of_refund_changed :
    (changed "refund_changed" "Approve" false).Admitted ∧
      (changed "refund_changed" "Approve" true).Admitted ∧
      ¬ Decodes (changed "refund_changed" "Approve" false) (changed "refund_changed" "Approve" true) := by
  refine ⟨admitted_changed false (by decide) (by decide), admitted_changed true (by decide) (by decide),
    fun h => ?_⟩
  have hdecoded := h.decoded
  rw [show computeDiffSummary (changed "refund_changed" "Approve" false)
      (changed "refund_changed" "Approve" true) =
        [⟨"agent.approval.label_added:refund_changed:Approve",
          "approve site `Approve` added to agent `refund_changed`"⟩] by decide +kernel,
    show computeDeltas (changed "refund_changed" "Approve" false)
      (changed "refund_changed" "Approve" true) =
        [.lifecycle .approvalLabel true "refund_changed" ["Approve"]] by decide +kernel,
    List.forall₂_cons] at hdecoded
  have hnone : Stacked.parseDeltaKey "agent.approval.label_added:refund_changed:Approve" = none := by
    decide +kernel
  have hkind := hdecoded.1.kind
  rw [hnone] at hkind
  cases hkind

end Corvid.TraceDiff
