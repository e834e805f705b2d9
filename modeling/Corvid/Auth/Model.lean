import Corvid.Lib.Rows
import Corvid.Queue.Model
import Corvid.Runtime.Errors

/-!
# Actors, sessions, API keys and OAuth states

The rows of the session store and what is computed from secrets. Digests and password hashes come
from libraries, which are parameters here. Times are 64-bit milliseconds; the database keeps them as
they are.

## Main definitions

* `AuthActor`, `SessionRecord`, `ApiKeyRecord`, `OAuthStateRecord`, `AuthAuditEvent`: the rows
* `Crypto`: SHA-256 and Argon2
* `AuthDb`: the tables
-/

namespace Corvid.Auth

open Queue (blank)
open Relational (Rows)

/-! ### Rows -/

structure AuthActor where
  id : String
  tenantId : String
  displayName : String
  actorKind : String
  authMethod : String
  assuranceLevel : String
  roleFingerprint : String
  permissionFingerprint : String
  createdMs : ℕ
  updatedMs : ℕ
deriving DecidableEq, Repr

structure SessionRecord where
  id : String
  actorId : String
  tenantId : String
  tokenHash : String
  issuedMs : ℕ
  expiresMs : ℕ
  rotationCounter : ℕ
  csrfBindingId : String
  revokedMs : Option ℕ
  createdMs : ℕ
  updatedMs : ℕ
deriving DecidableEq, Repr

structure SessionCreate where
  id : String
  actorId : String
  tenantId : String
  rawToken : String
  issuedMs : ℕ
  expiresMs : ℕ
  csrfBindingId : String
deriving DecidableEq, Repr

structure ApiKeyRecord where
  id : String
  serviceActorId : String
  tenantId : String
  keyHash : String
  scopeFingerprint : String
  expiresMs : ℕ
  lastUsedMs : Option ℕ
  revokedMs : Option ℕ
  createdMs : ℕ
  updatedMs : ℕ
deriving DecidableEq, Repr

structure ApiKeyCreate where
  id : String
  serviceActorId : String
  tenantId : String
  rawKey : String
  scopeFingerprint : String
  expiresMs : ℕ
deriving DecidableEq, Repr

structure AuthTraceContext where
  traceId : String
  tenantId : String
  actorId : String
  authMethod : String
  sessionId : String
  apiKeyId : String
  permissionFingerprint : String
  replayKey : String
deriving DecidableEq, Repr

structure SessionResolution where
  actor : AuthActor
  session : SessionRecord
  trace : AuthTraceContext
deriving DecidableEq, Repr

structure ApiKeyResolution where
  actor : AuthActor
  apiKey : ApiKeyRecord
  trace : AuthTraceContext
deriving DecidableEq, Repr

structure OAuthStateCreate where
  id : String
  provider : String
  tenantId : String
  actorId : String
  rawState : String
  pkceVerifierRef : String
  nonceFingerprint : String
  expiresMs : ℕ
  replayKey : String
deriving DecidableEq, Repr

structure OAuthStateRecord where
  id : String
  provider : String
  tenantId : String
  actorId : String
  stateHash : String
  pkceVerifierRef : String
  nonceFingerprint : String
  expiresMs : ℕ
  replayKey : String
  usedMs : Option ℕ
  createdMs : ℕ
  updatedMs : ℕ
deriving DecidableEq, Repr

structure OAuthCallbackResolution where
  actor : AuthActor
  state : OAuthStateRecord
  trace : AuthTraceContext
deriving DecidableEq, Repr

structure AuthAuditEvent where
  id : String
  eventKind : String
  actorId : Option String
  tenantId : Option String
  sessionId : Option String
  apiKeyId : Option String
  traceId : Option String
  status : String
  reason : String
  createdMs : ℕ
deriving DecidableEq, Repr

structure AuthDb where
  actors : Rows AuthActor.id
  sessions : Rows SessionRecord.id
  apiKeys : Rows ApiKeyRecord.id
  oauthStates : Rows OAuthStateRecord.id
  audit : Rows AuthAuditEvent.id

def AuthDb.empty : AuthDb := ⟨.empty, .empty, .empty, .empty, .empty⟩

/-! ### Secrets -/

/-- The hash functions: the hexadecimal SHA-256 of a text, and Argon2 with a salt. -/
structure Crypto where
  sha256 : String → String
  hashPassword (salt raw : String) : Except RuntimeError String
  verifyPassword (raw encodedHash : String) : Except RuntimeError Bool

def validateNonEmpty (label value : String) : Except RuntimeError Unit :=
  if blank value then .error (.other s!"{label} must not be empty") else .ok ()

namespace Crypto

variable (crypto : Crypto)

def hashSessionSecret (rawToken : String) : String :=
  "sha256:" ++ crypto.sha256 ("corvid-auth-session-v1:" ++ rawToken)

def hashOauthState (rawState : String) : String :=
  "sha256:" ++ crypto.sha256 ("corvid-auth-oauth-state-v1:" ++ rawState)

def hashApiKeySecret (salt rawKey : String) : Except RuntimeError String := do
  validateNonEmpty "api key secret" rawKey
  crypto.hashPassword salt rawKey

def verifyApiKeySecret (rawKey encodedHash : String) : Except RuntimeError Bool := do
  validateNonEmpty "api key secret" rawKey
  crypto.verifyPassword rawKey encodedHash

def stableSuffix (eventKind : String) (sessionId traceId : Option String) : String :=
  ((crypto.sha256 (eventKind ++ ":" ++ sessionId.getD "" ++ ":" ++ traceId.getD "")).take 16).toString

def auditId (now : ℕ) (eventKind : String) (sessionId traceId : Option String) : String :=
  s!"auth_audit_{now}_{crypto.stableSuffix eventKind sessionId traceId}"

end Crypto

end Corvid.Auth
