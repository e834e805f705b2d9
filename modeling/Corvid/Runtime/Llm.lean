import Corvid.Runtime.Json

/-!
# Model requests and responses
-/

namespace Corvid

structure LlmRequest where
  prompt : String
  model : String
  rendered : String
  args : List Json
  outputSchema : Option Json
deriving DecidableEq, Repr

def LlmRequest.withModel (req : LlmRequest) (model : String) : LlmRequest :=
  { req with model }

/-- The token counts a provider reports; zeros where it reports none. -/
structure TokenUsage where
  promptTokens : ℕ := 0
  completionTokens : ℕ := 0
  totalTokens : ℕ := 0
deriving DecidableEq, Repr

/-- The answer of a model. The interpreter reads all of it: the value, the usage for cost and
token limits, the confidence for thresholds, the observation for calibration. -/
structure LlmResponse where
  value : Json
  usage : TokenUsage
  confidence : Option ℚ
  calibration : Option Bool
deriving DecidableEq, Repr

def LlmResponse.new (value : Json) (usage : TokenUsage) : LlmResponse :=
  { value, usage, confidence := none, calibration := none }

end Corvid
