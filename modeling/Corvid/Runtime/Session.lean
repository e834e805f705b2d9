import Corvid.Runtime.Runtime

/-!
# Programs as strategies

What a program does at the runtime boundary: it issues one request after another, each depending on
the answers so far, and ends with an outcome. A session is one run of an agent, from `prepareRun`
to `completeRun`.

## Main definitions

* `Request`, `Strategy`: a program
* `Strategy.run`: its run through a runtime, with the transcript of requests and answers
* `Runtime.runAgent`: a session
-/

namespace Corvid

open Replay

inductive Request where
  | tool (name : String) (args : List Json)
  | llm (req : LlmRequest) (cacheable : Bool)
  | approve (label : String) (args : List Json)
  | ask (prompt expectedType : String)
  | choose (options : List Json)
  | rollout
deriving DecidableEq, Repr

/-- What a request is answered with. -/
abbrev Request.Answer : Request → Type
  | tool .. => Json
  | llm .. => LlmResponse
  | approve .. => Unit
  | ask .. => Json
  | choose .. => ℕ
  | rollout => ℚ

/-- The error that ends a run, with its text and the runtime error it wraps. -/
structure InterpError where
  text : String
  runtime : Option RuntimeError

/-- How the body of an agent ended. -/
abbrev Outcome := Except InterpError Json

namespace Outcome

def isOk (o : Outcome) : Bool := Except.isOk o

def result? (o : Outcome) : Option Json := Except.toOption o

def errorText? : Outcome → Option String
  | .ok _ => none
  | .error err => some err.text

/-- The completion of a run is not compared once the replay has already failed. -/
def shouldValidateRunCompletion : Outcome → Bool
  | .error ⟨_, some (.replayDivergence _)⟩
  | .error ⟨_, some (.replayTraceLoad _ _)⟩
  | .error ⟨_, some (.crossTierReplayUnsupported _ _)⟩ => false
  | _ => true

end Outcome

/-- A program: its requests depend only on the answers received so far. -/
inductive Strategy where
  | done (outcome : Outcome)
  | call (r : Request) (k : Except RuntimeError r.Answer → Strategy)

/-- The requests of a run with their answers. -/
abbrev Transcript := List (Σ r : Request, Except RuntimeError r.Answer)

variable {W : Type}

def Runtime.serve (rt : Runtime W) : (r : Request) → RunM W r.Answer
  | .tool name args => rt.callTool name args
  | .llm req cacheable => rt.callLlmCacheable req cacheable
  | .approve label args => rt.approvalGate label args
  | .ask prompt expectedType => rt.askHuman prompt expectedType
  | .choose options => rt.chooseHuman options
  | .rollout => rt.nextRolloutSample

/-- A run of a program through a runtime. -/
structure Played (W : Type) where
  transcript : Transcript
  outcome : Outcome
  state : RunState W

def Strategy.run (rt : Runtime W) : Strategy → RunState W → Played W
  | .done outcome, s => ⟨[], outcome, s⟩
  | .call r k, s =>
    let answer := Result.settle ((rt.serve r).run s)
    let rest := (k answer.1).run rt answer.2
    ⟨⟨r, answer.1⟩ :: rest.transcript, rest.outcome, rest.state⟩

/-- What `prepareRun` and `completeRun` returned, if they were called, and what the program saw. -/
structure Session (W : Type) where
  prepared : Except RuntimeError Unit
  transcript : Transcript
  completed : Option (Except Fault Unit)
  state : RunState W

/-- Runs an agent. The trace opens with the start of the run and, unless completing it fails,
closes with its completion. -/
def Runtime.runAgent (rt : Runtime W) (agent : String) (args : List Json) (body : Strategy)
    (s : RunState W) : Session W :=
  match (rt.prepareRun agent args).run s with
  | .error err t => ⟨.error err, [], none, t⟩
  | .ok () t =>
    let played := body.run rt (rt.emitted (.runStarted agent args) t)
    let o := played.outcome
    let completion := EventBody.runCompleted o.isOk o.result? o.errorText?
    if o.shouldValidateRunCompletion then
      match (rt.completeRun o.isOk o.result? o.errorText?).run played.state with
      | .error fault u => ⟨.ok (), played.transcript, some (.error fault), u⟩
      | .ok () u => ⟨.ok (), played.transcript, some (.ok ()), rt.emitted completion u⟩
    else
      ⟨.ok (), played.transcript, none, rt.emitted completion played.state⟩

end Corvid
