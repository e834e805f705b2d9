import Corvid.Lib.Split
import Corvid.Lib.Text
import Corvid.Runtime.Json
import Corvid.TraceDiff.Diff
import Mathlib.Algebra.BigOperators.Group.List.Basic
import Mathlib.Data.Finset.Basic
import Mathlib.Data.Finset.Dedup

/-!
# Attributions of divergences to commits

The traces are replayed on the base of a stack and on each of its commits. A trace that changes its
verdict is attributed to the first commit on which it does. A replay is skipped, and the verdict of
the base taken in its place, when the trace names agents, the changes of the commit do too, and they
have none in common.

## Main definitions

* `canSkipReplay`: when a replay is skipped
* `computeStackAttributions`: the attributions, from the verdicts on all waypoints
* `computeAttributionsForStack`: the replays of a stack
-/

namespace Corvid.TraceDiff

/-- The contents of a trace file. -/
inductive TraceBytes where
  | text (s : String)
  | other (bytes : List ℕ)
deriving DecidableEq, Repr

structure TraceFile where
  path : String
  bytes : TraceBytes
deriving DecidableEq, Repr

/-- The traces of a directory. -/
structure TraceDir where
  files : List TraceFile
  nodup : (files.map TraceFile.path).Nodup

inductive Verdict where
  | passed
  | diverged
  | flaky
  | promoted
  | error
deriving DecidableEq, Repr

def Verdict.tag : Verdict → String
  | passed => "passed"
  | diverged => "diverged"
  | flaky => "flaky"
  | promoted => "promoted"
  | error => "errored"

theorem Verdict.tag_injective : Function.Injective Verdict.tag := by
  intro v v' h
  cases v <;> cases v' <;> first | rfl | exact absurd h (by decide)

/-! ### Agents of a trace and of a commit -/

/-- The agent that an event names. -/
def eventAgent : Json → Option String
  | .object fields =>
    match fields.lookup "agent" with
    | some (.string agent) => if agent.isEmpty then none else some agent
    | _ => none
  | _ => none

/-- The agents that the events of a trace name. Lines that are no JSON are passed over. -/
def traceExercisedAgents (parse : String → Option Json) : TraceBytes → Finset String
  | .other _ => ∅
  | .text s =>
    (((Text.split '\n' s).map Text.trim).filterMap fun line =>
      if line.isEmpty then none else (parse line).bind eventAgent).toFinset

def extractAgentFromDeltaKey (key : String) : Option String :=
  match Text.splitOnce ":" key with
  | none => none
  | some (_, rest) =>
    let agent := ((Text.splitOnce ":" rest).getD (rest, "")).1
    if agent.isEmpty then none else some agent

def commitAffectedAgents (deltaKeys : List String) : Finset String :=
  (deltaKeys.filterMap extractAgentFromDeltaKey).toFinset

def canSkipReplay (exercised affected : Finset String) : Bool :=
  if exercised = ∅ ∨ affected = ∅ then false else decide (exercised ∩ affected = ∅)

/-! ### Attributions -/

structure Attribution where
  traceId : String
  divergedAt : Option String
  responsibleCommit : Option String
  candidateDeltas : List String
  reproducibilityEnvelopeHash : String
deriving DecidableEq, Repr

structure Waypoint where
  commitSha : String
  resultHash : String
  divergedFromBase : Bool
deriving DecidableEq, Repr

structure ReproducibilityEnvelope where
  traceId : String
  waypoints : List Waypoint
  signatureKeyid : Option String
deriving DecidableEq, Repr

/-- Hashes of canonical texts. -/
structure Hashes where
  traceIdFromBytes : TraceBytes → String
  envelopeHash : ReproducibilityEnvelope → String
  verdictResultHash : String → String

/-- A commit with the verdicts of the traces on it, under their paths. -/
structure WaypointData where
  commitSha : String
  verdictTags : List (String × String)

section Attributions

variable (hashes : Hashes)

/-- What a trace has done at a waypoint. -/
def waypointRecord (path : String) (baseTag : Option String) (first : Bool) (waypoint : WaypointData) :
    Waypoint :=
  let tag := (waypoint.verdictTags.lookup path).getD "absent"
  { commitSha := waypoint.commitSha
    resultHash := hashes.verdictResultHash tag
    divergedFromBase := if first then false else baseTag ≠ some tag }

/-- The attribution to the first waypoint on which a trace has another verdict than on the base, with
its envelope. -/
def attributeRecords (traceId : String) (records : List Waypoint)
    (commitDeltaSets : List (List String)) : Option (Attribution × ReproducibilityEnvelope) :=
  match records.findIdx? Waypoint.divergedFromBase with
  | none => none
  | some index =>
    let envelope : ReproducibilityEnvelope := ⟨traceId, records, none⟩
    let sha := (records[index]?).map Waypoint.commitSha
    some
      ({ traceId
         divergedAt := sha
         responsibleCommit := sha
         candidateDeltas := (commitDeltaSets[index - 1]?).getD []
         reproducibilityEnvelopeHash := hashes.envelopeHash envelope },
        envelope)

def attributeTrace (base : WaypointData) (waypoints : List WaypointData)
    (commitDeltaSets : List (List String)) (trace : TraceFile) :
    Option (Attribution × ReproducibilityEnvelope) :=
  let baseTag := base.verdictTags.lookup trace.path
  attributeRecords hashes (hashes.traceIdFromBytes trace.bytes)
    (waypointRecord hashes trace.path baseTag true base ::
      waypoints.map (waypointRecord hashes trace.path baseTag false))
    commitDeltaSets

/-- The attributions with the envelopes that their hashes stand for, in the order of trace ids. -/
def stackEvidence (base : WaypointData) (waypoints : List WaypointData)
    (commitDeltaSets : List (List String)) (traces : List TraceFile) :
    List (Attribution × ReproducibilityEnvelope) :=
  (traces.filterMap (attributeTrace hashes base waypoints commitDeltaSets)).mergeSort
    fun a b => decide (a.1.traceId ≤ b.1.traceId)

def computeStackAttributions (base : WaypointData) (waypoints : List WaypointData)
    (commitDeltaSets : List (List String)) (traces : List TraceFile) : List Attribution :=
  (stackEvidence hashes base waypoints commitDeltaSets traces).map Prod.fst

end Attributions

/-! ### Replays -/

structure Commit (Source : Type) where
  sha : String
  source : Source
deriving DecidableEq, Repr

/-- A stack of commits on a base. -/
structure Stack (Source : Type) where
  base : Commit Source
  commits : List (Commit Source)

section Replays

variable {Source : Type} (abi : Source → CorvidAbi) (parse : String → Option Json)
  (replay : Source → TraceFile → Verdict)

/-- The keys of the changes of each commit. -/
def commitDeltaSets (parent : Source) : List (Commit Source) → List (List String)
  | [] => []
  | commit :: commits =>
    (computeDiffSummary (abi parent) (abi commit.source)).map DeltaRecord.key ::
      commitDeltaSets commit.source commits

def runHarnessAgainstSource (source : Source) (traces : List TraceFile) : List (String × String) :=
  traces.map fun trace => (trace.path, (replay source trace).tag)

def skips (noSkip : Bool) (deltas : List String) (trace : TraceFile) : Bool :=
  !noSkip && canSkipReplay (traceExercisedAgents parse trace.bytes) (commitAffectedAgents deltas)

/-- The verdicts on a commit. A skipped trace has the one of the base. -/
def commitWaypoint (baseTags : List (String × String)) (traces : List TraceFile) (noSkip : Bool)
    (commit : Commit Source) (deltas : List String) : WaypointData :=
  let skipped := traces.filter (skips parse noSkip deltas)
  let replayed := traces.filter fun trace => !skips parse noSkip deltas trace
  { commitSha := commit.sha
    verdictTags :=
      (skipped.filterMap fun trace => (baseTags.lookup trace.path).map (trace.path, ·)) ++
        runHarnessAgainstSource replay commit.source replayed }

variable (hashes : Hashes) (stack : Stack Source) (dir : TraceDir) (noSkip : Bool)

def baseWaypoint : WaypointData :=
  ⟨stack.base.sha, runHarnessAgainstSource replay stack.base.source dir.files⟩

/-- The commits of the stack with the keys of their changes. -/
def stackSteps : List (Commit Source × List String) :=
  stack.commits.zip (commitDeltaSets abi stack.base.source stack.commits)

def stackWaypoints : List WaypointData :=
  (stackSteps abi stack).map fun step =>
    commitWaypoint parse replay (baseWaypoint replay stack dir).verdictTags dir.files noSkip step.1
      step.2

def computeAttributionsForStack : List Attribution :=
  computeStackAttributions hashes (baseWaypoint replay stack dir)
    (stackWaypoints abi parse replay stack dir noSkip)
    (commitDeltaSets abi stack.base.source stack.commits) dir.files

/-- The attributions of a stack, with the envelopes that their hashes stand for. -/
def evidenceForStack : List (Attribution × ReproducibilityEnvelope) :=
  stackEvidence hashes (baseWaypoint replay stack dir)
    (stackWaypoints abi parse replay stack dir noSkip)
    (commitDeltaSets abi stack.base.source stack.commits) dir.files

end Replays

end Corvid.TraceDiff
