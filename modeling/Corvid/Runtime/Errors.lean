import Corvid.Replay.Trace

/-!
# Runtime errors

The errors of the runtime boundary: tool dispatch, approvals, model adapters and replay. A replay
that leaves its recording reports the event it stood at and what the program did instead.

## Main definitions

* `RuntimeError`, `ReplayDivergence`: the errors a call into the runtime returns
* `Fault`: an error or a panic
-/

namespace Corvid

open Replay (TraceEvent)

/-- What a diverging program did, with the data its report is formatted from. -/
inductive Got where
  | runStarted (agent : String) (args : List Json)
  | runCompleted (ok : Bool) (result : Option Json) (error : Option String)
  | toolCall (tool : String) (args : List Json)
  | toolResult (tool : String)
  | llmCall (prompt : String) (model : Option String) (args : List Json)
  | llmResult (prompt : String) (model : Option String)
  | approvalRequest (label : String) (args : List Json)
  | approvalResponse (label : String)
  | seedRead
  | programEnd
deriving DecidableEq, Repr

def Got.kind : Got → String
  | runStarted .. => "run_started"
  | runCompleted .. => "run_completed"
  | toolCall .. => "tool_call"
  | toolResult .. => "tool_result"
  | llmCall .. => "llm_call"
  | llmResult .. => "llm_result"
  | approvalRequest .. => "approval_request"
  | approvalResponse .. => "approval_response"
  | seedRead => "seed_read"
  | programEnd => "program_end"

/-- The description of the report, for a printer of JSON values. -/
def Got.description (text : Json → String) : Got → String
  | runStarted agent args => s!"agent={agent} args={text (.array args)}"
  | runCompleted ok result error =>
    s!"ok={ok} result={text (result.getD .null)} error=" ++ error.getD "<none>"
  | toolCall tool args => s!"tool={tool} args={text (.array args)}"
  | toolResult tool => s!"tool={tool}"
  | llmCall prompt model args =>
    s!"prompt={prompt} model=" ++ model.getD "<none>" ++ s!" args={text (.array args)}"
  | llmResult prompt model => s!"prompt={prompt} model=" ++ model.getD "<none>"
  | approvalRequest label args => s!"label={label} args={text (.array args)}"
  | approvalResponse label => s!"label={label}"
  | seedRead => "purpose=rollout_cohort"
  | programEnd => "program finished before trace was exhausted"

structure ReplayDivergence where
  step : ℕ
  expected : TraceEvent
  got : Got
deriving DecidableEq, Repr

inductive RuntimeError where
  | unknownTool (name : String)
  | toolFailed (tool message : String)
  | noAdapter (model : String)
  | adapterFailed (adapter message : String)
  | approvalDenied (action : String)
  | approvalFailed (message : String)
  | marshal (message : String)
  | noModelConfigured
  | replayTraceLoad (path message : String)
  | replayDivergence (err : ReplayDivergence)
  | crossTierReplayUnsupported (recordedWriter replayWriter : String)
  | other (message : String)
deriving DecidableEq, Repr

/-- How a call can fail to return: with an error, or by a panic (an index out of bounds). -/
inductive Fault where
  | error (err : RuntimeError)
  | panic
deriving DecidableEq, Repr

end Corvid
