import Corvid.Lib.FixedWindow
import Corvid.Lib.Text
import Corvid.Runtime.Json
import Mathlib.Logic.Function.Basic

/-!
# The connector runtime

A connector declares its scopes, rate limits and replay policies in a manifest. The runtime executes a
request against the manifest, the token of the caller, and a limiter.

## Main definitions

* `ConnectorManifest`, `validateConnectorManifest`: the manifest, and the errors of its validation
* `ConnectorRateLimiter.check`: the limiter
* `ConnectorRuntime.execute`: a call

## Main results

* `RateLimitDeclaration.positive_of_valid`: a valid manifest has positive limits and windows
* `ConnectorRateLimiter.check_of_pos`: the limiter is a fixed-window limiter
-/

namespace Corvid.Connectors

/-! ## The manifest -/

def connectorManifestSchema : String := "corvid.connector.v1"

inductive ConnectorMode where
  | mock
  | replay
  | real
deriving DecidableEq, Repr

inductive ConnectorScopeApproval where
  | none
  | required
deriving DecidableEq, Repr

structure ConnectorScope where
  id : String
  providerScope : String
  dataClasses : List String
  effects : List String
  approval : ConnectorScopeApproval
deriving DecidableEq, Repr

structure RateLimitDeclaration where
  key : String
  limit : UInt64
  windowMs : UInt64
  retryAfter : String
deriving DecidableEq

structure RedactionRule where
  field : String
  strategy : String
deriving DecidableEq, Repr

inductive ConnectorReplayPolicy where
  | recordRead
  | quarantineWrite
  | deterministicMock
deriving DecidableEq, Repr

structure ReplayDeclaration where
  operation : String
  policy : ConnectorReplayPolicy
deriving DecidableEq, Repr

structure ConnectorManifest where
  schema : String
  name : String
  provider : String
  mode : List ConnectorMode
  scope : List ConnectorScope
  rateLimit : List RateLimitDeclaration
  redaction : List RedactionRule
  replay : List ReplayDeclaration
deriving DecidableEq

inductive ConnectorManifestError where
  | unsupportedSchema (schema : String)
  | missingName
  | missingProvider
  | missingMode (mode : ConnectorMode)
  | duplicateScope (scope : String)
  | missingProviderScope (scope : String)
  | missingDataClasses (scope : String)
  | missingEffects (scope : String)
  | writeScopeWithoutApproval (scope : String)
  | invalidRateLimit (key : String)
  | missingSensitiveRedaction (dataClass : String)
  | missingReplayPolicy (scope : String)
deriving DecidableEq, Repr

def isBlank (s : String) : Bool := (Text.trim s).isEmpty

def scopeIsWrite (scope : ConnectorScope) : Bool :=
  scope.effects.any fun effect => Text.contains ".write" effect || Text.startsWith "send_" effect

def scopeOperation (scopeId : String) : String := Text.lastPart '.' scopeId

def scopeHasReplayPolicy (scope : ConnectorScope) (replay : List ReplayDeclaration) : Bool :=
  replay.any fun declaration => declaration.operation = scopeOperation scope.id

def dataClassIsSensitive (dataClass : String) : Bool :=
  let lower := String.ofList (dataClass.toList.map Char.toLower)
  ["body", "secret", "token", "private", "external_recipient"].any fun part =>
    Text.contains part lower

/-- The diagnostic of a failed check. -/
def unmet (failed : Bool) (err : ConnectorManifestError) : List ConnectorManifestError :=
  if failed then [err] else []

/-- The diagnostics of the scopes, with the ids of the scopes before them. -/
def scopeDiagnostics (replay : List ReplayDeclaration) :
    List String → List ConnectorScope → List ConnectorManifestError
  | _, [] => []
  | seen, scope :: rest =>
    unmet (scope.id ∈ seen) (.duplicateScope scope.id) ++
      unmet (isBlank scope.providerScope) (.missingProviderScope scope.id) ++
      unmet scope.dataClasses.isEmpty (.missingDataClasses scope.id) ++
      unmet scope.effects.isEmpty (.missingEffects scope.id) ++
      unmet (scopeIsWrite scope && scope.approval ≠ .required)
        (.writeScopeWithoutApproval scope.id) ++
      unmet (!scopeHasReplayPolicy scope replay) (.missingReplayPolicy scope.id) ++
      scopeDiagnostics replay (scope.id :: seen) rest

def rateLimitInvalid (declaration : RateLimitDeclaration) : Bool :=
  isBlank declaration.key || declaration.limit = 0 || declaration.windowMs = 0

def validateConnectorManifest (manifest : ConnectorManifest) : List ConnectorManifestError :=
  unmet (manifest.schema ≠ connectorManifestSchema) (.unsupportedSchema manifest.schema) ++
    unmet (isBlank manifest.name) .missingName ++
    unmet (isBlank manifest.provider) .missingProvider ++
    [ConnectorMode.mock, .replay, .real].flatMap
      (fun required => unmet (required ∉ manifest.mode) (.missingMode required)) ++
    scopeDiagnostics manifest.replay [] manifest.scope ++
    manifest.rateLimit.flatMap
      (fun declaration => unmet (rateLimitInvalid declaration) (.invalidRateLimit declaration.key)) ++
    ((manifest.scope.flatMap (·.dataClasses)).filter dataClassIsSensitive).flatMap
      fun dataClass => unmet manifest.redaction.isEmpty (.missingSensitiveRedaction dataClass)

def ConnectorManifest.Valid (manifest : ConnectorManifest) : Prop :=
  validateConnectorManifest manifest = []

instance (manifest : ConnectorManifest) : Decidable manifest.Valid :=
  inferInstanceAs (Decidable (_ = []))

@[simp] theorem unmet_eq_nil {failed : Bool} {err : ConnectorManifestError} :
    unmet failed err = [] ↔ failed = false := by
  cases failed <;> simp [unmet]

theorem RateLimitDeclaration.positive_of_valid {manifest : ConnectorManifest}
    (h : manifest.Valid) {declaration : RateLimitDeclaration}
    (hdeclared : declaration ∈ manifest.rateLimit) :
    0 < declaration.limit.toNat ∧ 0 < declaration.windowMs.toNat := by
  have hvalid : rateLimitInvalid declaration = false := by
    unfold ConnectorManifest.Valid validateConnectorManifest at h
    simp only [List.append_eq_nil_iff, List.flatMap_eq_nil_iff, unmet_eq_nil] at h
    exact h.1.2 declaration hdeclared
  simp only [rateLimitInvalid, Bool.or_eq_false_iff, decide_eq_false_iff_not] at hvalid
  exact ⟨Nat.pos_of_ne_zero fun h => hvalid.1.2 (UInt64.toNat_inj.mp h),
    Nat.pos_of_ne_zero fun h => hvalid.2 (UInt64.toNat_inj.mp h)⟩

/-! ## The limiter -/

structure ConnectorRateLimit where
  key : String
  limit : UInt64
  windowMs : UInt64
deriving DecidableEq

structure ConnectorRateLimitDecision where
  allowed : Bool
  retryAfterMs : ℕ
deriving DecidableEq, Repr

/-- The start of a window, with the number of requests that have passed in it. -/
abbrev RateBucket := FixedWindow.Bucket

abbrev ConnectorRateLimiter := String → Option RateBucket

def ConnectorRateLimiter.bucket (limiter : ConnectorRateLimiter) (key : String) : RateBucket :=
  (limiter key).getD ⟨0, 0⟩

def ConnectorRateLimiter.check (limiter : ConnectorRateLimiter) (limit : ConnectorRateLimit)
    (nowMs : ℕ) : ConnectorRateLimitDecision × ConnectorRateLimiter :=
  if limit.limit = 0 ∨ limit.windowMs = 0 then (⟨false, limit.windowMs.toNat⟩, limiter)
  else
    let bucket := limiter.bucket limit.key
    let bucket := if limit.windowMs.toNat ≤ nowMs - bucket.start then ⟨nowMs, 0⟩ else bucket
    if limit.limit.toNat ≤ bucket.used then
      (⟨false, limit.windowMs.toNat - (nowMs - bucket.start)⟩,
        Function.update limiter limit.key (some bucket))
    else
      (⟨true, 0⟩, Function.update limiter limit.key (some { bucket with used := bucket.used + 1 }))

namespace ConnectorRateLimiter

variable {limiter : ConnectorRateLimiter} {limit : ConnectorRateLimit} {nowMs : ℕ}

/-- A limit that can be met is checked by a fixed-window limiter. -/
theorem check_of_pos (hlimit : 0 < limit.limit.toNat) (hwindow : 0 < limit.windowMs.toNat) :
    limiter.check limit nowMs =
      (if (limiter.bucket limit.key).room limit.limit.toNat limit.windowMs.toNat nowMs then ⟨true, 0⟩
        else ⟨false, limit.windowMs.toNat -
          (nowMs - ((limiter.bucket limit.key).roll limit.windowMs.toNat nowMs).start)⟩,
        Function.update limiter limit.key
          (some ((limiter.bucket limit.key).take limit.limit.toNat limit.windowMs.toNat nowMs))) := by
  have hpos : ¬ (limit.limit = 0 ∨ limit.windowMs = 0) := by
    rintro (h | h) <;> simp [h] at hlimit hwindow
  rw [check, if_neg hpos]
  change (if limit.limit.toNat ≤
    ((limiter.bucket limit.key).roll limit.windowMs.toNat nowMs).used then _ else _) = _
  unfold FixedWindow.Bucket.take FixedWindow.Bucket.room
  split
  next hused =>
    have hroom := decide_eq_false (not_lt.mpr hused)
    rw [hroom]
    rfl
  next hused =>
    have hroom := decide_eq_true (not_le.mp hused)
    rw [hroom]
    rfl

end ConnectorRateLimiter

/-! ## Calls -/

inductive ConnectorAuthError where
  | missingTenant
  | missingActor
  | missingToken
  | expiredToken
  | revokedRefreshToken
  | tenantMismatch
  | missingScope (scope : String)
deriving DecidableEq, Repr

structure ConnectorAuthState where
  tenantId : String
  actorId : String
  tokenId : String
  scopes : List String
  expiresAtMs : UInt64
deriving DecidableEq

def ConnectorAuthState.authorize (auth : ConnectorAuthState) (requiredScope : String)
    (nowMs : UInt64) : Except ConnectorAuthError Unit :=
  if isBlank auth.tenantId then .error .missingTenant
  else if isBlank auth.actorId then .error .missingActor
  else if isBlank auth.tokenId then .error .missingToken
  else if auth.expiresAtMs ≤ nowMs then .error .expiredToken
  else if requiredScope ∉ auth.scopes then .error (.missingScope requiredScope)
  else .ok ()

structure ConnectorRequest where
  scopeId : String
  operation : String
  payload : Json
  approvalId : String
  replayKey : String
  nowMs : UInt64

structure ConnectorTraceEvent where
  connector : String
  operation : String
  tenantId : String
  actorId : String
  mode : String
  status : String
  scope : String
  effectIds : List String
  dataClasses : List String
  approvalId : String
  replayKey : String
  latencyMs : ℕ
  redacted : Bool

structure ConnectorResponse where
  payload : Json
  trace : ConnectorTraceEvent

inductive ConnectorRuntimeError where
  | unknownScope (scope : String)
  | auth (err : ConnectorAuthError)
  | rateLimited (retryAfterMs : ℕ)
  | missingMock (operation : String)
  | approvalRequired (scope : String)
  | replayWriteQuarantined (operation : String)
  | realModeNotBound (operation : String)
deriving DecidableEq, Repr

inductive ConnectorRuntimeMode where
  | mock
  | replay
  | real
deriving DecidableEq, Repr

def modeName : ConnectorRuntimeMode → String
  | .mock => "mock"
  | .replay => "replay"
  | .real => "real"

structure ConnectorRuntime where
  manifest : ConnectorManifest
  auth : ConnectorAuthState
  mode : ConnectorRuntimeMode
  rateLimiter : ConnectorRateLimiter
  mocks : String → Option Json

/-- A request, with the answer of the provider's client, which only real mode asks for. -/
structure ConnectorCall where
  request : ConnectorRequest
  answer : Except ConnectorRuntimeError Json

namespace ConnectorRuntime

variable (rt : ConnectorRuntime) (request : ConnectorRequest)

def create (manifest : ConnectorManifest) (auth : ConnectorAuthState) (mode : ConnectorRuntimeMode)
    (mocks : String → Option Json) : ConnectorRuntime where
  manifest := manifest
  auth := auth
  mode := mode
  rateLimiter _ := none
  mocks := mocks

/-- The checks before the limiter, with the scope of the request. -/
def accept : Except ConnectorRuntimeError ConnectorScope :=
  match rt.manifest.scope.find? fun scope => scope.id = request.scopeId with
  | none => .error (.unknownScope request.scopeId)
  | some scope =>
    match rt.auth.authorize scope.id request.nowMs with
    | .error err => .error (.auth err)
    | .ok () =>
      if scope.approval = .required ∧ isBlank request.approvalId then
        .error (.approvalRequired scope.id)
      else .ok scope

/-- The first limit of the manifest is the one that is checked. -/
def firstLimit : ConnectorRateLimit where
  key := rt.auth.tenantId ++ ":" ++ rt.auth.actorId
  limit := (rt.manifest.rateLimit.head?.map (·.limit)).getD (UInt64.ofNat (2 ^ 64 - 1))
  windowMs := (rt.manifest.rateLimit.head?.map (·.windowMs)).getD 1

def consult : ConnectorRateLimitDecision × ConnectorRateLimiter :=
  rt.rateLimiter.check rt.firstLimit request.nowMs.toNat

def mock : Except ConnectorRuntimeError Json :=
  match rt.mocks request.operation with
  | some payload => .ok payload
  | none => .error (.missingMock request.operation)

def payload (scope : ConnectorScope) (answer : Except ConnectorRuntimeError Json) :
    Except ConnectorRuntimeError Json :=
  match rt.mode with
  | .mock => rt.mock request
  | .replay =>
    if scopeIsWrite scope then .error (.replayWriteQuarantined request.operation)
    else rt.mock request
  | .real => answer

def trace (scope : ConnectorScope) : ConnectorTraceEvent where
  connector := rt.manifest.name
  operation := request.operation
  tenantId := rt.auth.tenantId
  actorId := rt.auth.actorId
  mode := modeName rt.mode
  status := "ok"
  scope := scope.id
  effectIds := scope.effects
  dataClasses := scope.dataClasses
  approvalId := request.approvalId
  replayKey := request.replayKey
  latencyMs := 0
  redacted := true

def execute (call : ConnectorCall) : Except ConnectorRuntimeError ConnectorResponse × ConnectorRuntime :=
  match rt.accept call.request with
  | .error err => (.error err, rt)
  | .ok scope =>
    let (decision, rateLimiter) := rt.consult call.request
    let rt := { rt with rateLimiter }
    if !decision.allowed then (.error (.rateLimited decision.retryAfterMs), rt)
    else
      match rt.payload call.request scope call.answer with
      | .error err => (.error err, rt)
      | .ok payload => (.ok ⟨payload, rt.trace call.request scope⟩, rt)

end ConnectorRuntime

end Corvid.Connectors
