import Corvid.Auth.Model
import Corvid.Lib.Store

/-!
# The session store

Each operation as a program over the statements that it issues, each of them atomic. Between two
statements the lock is released and other operations may run. Operations that read the clock or draw
a salt take these as arguments.

## Main definitions

* `Access`, `Access.exec`: the statements, and what they do
* `resolveSession`, `rotateSession`, `revokeSession`: the operations on sessions
* `resolveApiKey`, `revokeApiKey`: those on API keys
* `resolveOauthCallback`: the redemption of an OAuth state
* `Op`, `Op.prog`: all operations
-/

namespace Corvid.Auth

open Store
open Queue (blank)
open Relational (Rows)

/-! ### Statements -/

inductive Access where
  | getActor (id : String)
  | upsertActor (actor : AuthActor)
  | getSession (id : String)
  | getSessionByHash (tokenHash : String)
  | insertSession (session : SessionRecord)
  | rotateSession (id tokenHash : String) (expiresMs now : ℕ)
  | revokeSession (id : String) (atMs : ℕ)
  | getApiKey (id : String)
  | listActiveApiKeyCandidates (tenantId : String)
  | insertApiKey (key : ApiKeyRecord)
  | useApiKey (id : String) (atMs : ℕ)
  | revokeApiKey (id : String) (atMs : ℕ)
  | getOauthState (id : String)
  | getOauthStateByHash (stateHash : String)
  | insertOauthState (state : OAuthStateRecord)
  | useOauthState (id : String) (atMs : ℕ)
  | insertAudit (event : AuthAuditEvent)
deriving DecidableEq, Repr

def sqliteError {α : Type} (context message : String) : Except RuntimeError α :=
  .error (.other s!"{context}: {message}")

/-- A new row, unless it violates a constraint. -/
def insertRow {ρ : Type} {key : ρ → String} (context table : String) (t : Rows key) (r : ρ) :
    Except RuntimeError (Rows key) :=
  match t.insert r with
  | some t => .ok t
  | none => sqliteError context s!"UNIQUE constraint failed: {table}.id"

/-- The columns that the updates set. -/
def SessionRecord.rotated (tokenHash : String) (expiresMs now : ℕ) (s : SessionRecord) :
    SessionRecord :=
  { s with
    tokenHash, expiresMs
    rotationCounter := s.rotationCounter + 1
    revokedMs := none
    updatedMs := now }

def SessionRecord.revoked (atMs : ℕ) (s : SessionRecord) : SessionRecord :=
  { s with revokedMs := some atMs, updatedMs := atMs }

def ApiKeyRecord.used (atMs : ℕ) (k : ApiKeyRecord) : ApiKeyRecord :=
  { k with lastUsedMs := some atMs, updatedMs := atMs }

def ApiKeyRecord.revoked (atMs : ℕ) (k : ApiKeyRecord) : ApiKeyRecord :=
  { k with revokedMs := some atMs, updatedMs := atMs }

def OAuthStateRecord.used (atMs : ℕ) (s : OAuthStateRecord) : OAuthStateRecord :=
  { s with usedMs := some atMs, updatedMs := atMs }

theorem SessionRecord.id_rotated (tokenHash : String) (expiresMs now : ℕ) (s : SessionRecord) :
    (s.rotated tokenHash expiresMs now).id = s.id := rfl

theorem SessionRecord.id_revoked (atMs : ℕ) (s : SessionRecord) : (s.revoked atMs).id = s.id := rfl

theorem ApiKeyRecord.id_used (atMs : ℕ) (k : ApiKeyRecord) : (k.used atMs).id = k.id := rfl

theorem ApiKeyRecord.id_revoked (atMs : ℕ) (k : ApiKeyRecord) : (k.revoked atMs).id = k.id := rfl

theorem OAuthStateRecord.id_used (atMs : ℕ) (s : OAuthStateRecord) : (s.used atMs).id = s.id := rfl

namespace Access

abbrev Reply : Access → Type
  | getActor _ => Option AuthActor
  | getSession _ => Option SessionRecord
  | getSessionByHash _ => Option SessionRecord
  | getApiKey _ => Option ApiKeyRecord
  | listActiveApiKeyCandidates _ => List ApiKeyRecord
  | getOauthState _ => Option OAuthStateRecord
  | getOauthStateByHash _ => Option OAuthStateRecord
  | _ => Except RuntimeError Unit

/-- What a statement that writes does to the tables. -/
def write : Access → AuthDb → Except RuntimeError AuthDb
  | upsertActor actor, db =>
    .ok { db with
      actors := db.actors.upsert actor (fun a => { actor with id := a.id, createdMs := a.createdMs })
        fun _ => rfl }
  | insertSession session, db => do
    if db.sessions.rows.any (·.tokenHash = session.tokenHash) then
      sqliteError "failed to create session" "UNIQUE constraint failed: auth_sessions.token_hash"
    else
      let sessions ← insertRow "failed to create session" "auth_sessions" db.sessions session
      return { db with sessions }
  | rotateSession id tokenHash expiresMs now, db =>
    -- a token may not be that of another session
    if (db.sessions.find id).isSome ∧
        db.sessions.rows.any (fun s => s.id ≠ id ∧ s.tokenHash = tokenHash) then
      sqliteError "failed to rotate session" "UNIQUE constraint failed: auth_sessions.token_hash"
    else
      .ok { db with
        sessions := db.sessions.update (·.id = id) (.rotated tokenHash expiresMs now)
          (SessionRecord.id_rotated tokenHash expiresMs now) }
  | revokeSession id atMs, db =>
    .ok { db with
      sessions := db.sessions.update (·.id = id) (.revoked atMs) (SessionRecord.id_revoked atMs) }
  | insertApiKey key, db => do
    let apiKeys ← insertRow "failed to create api key" "auth_api_keys" db.apiKeys key
    return { db with apiKeys }
  | useApiKey id atMs, db =>
    .ok { db with
      apiKeys := db.apiKeys.update (·.id = id) (.used atMs) (ApiKeyRecord.id_used atMs) }
  | revokeApiKey id atMs, db =>
    .ok { db with
      apiKeys := db.apiKeys.update (·.id = id) (.revoked atMs) (ApiKeyRecord.id_revoked atMs) }
  | insertOauthState state, db => do
    if db.oauthStates.rows.any (·.stateHash = state.stateHash) then
      sqliteError "failed to create oauth state"
        "UNIQUE constraint failed: auth_oauth_states.state_hash"
    else
      let oauthStates ←
        insertRow "failed to create oauth state" "auth_oauth_states" db.oauthStates state
      return { db with oauthStates }
  | useOauthState id atMs, db =>
    .ok { db with
      oauthStates := db.oauthStates.update (fun s => s.id = id ∧ s.usedMs = none) (.used atMs)
        (OAuthStateRecord.id_used atMs) }
  | insertAudit event, db => do
    let audit ← insertRow "failed to insert auth audit event" "auth_audit_events" db.audit event
    return { db with audit }
  | _, db => .ok db

/-- The tables after a statement: one that fails does nothing. -/
def next (q : Access) (db : AuthDb) : AuthDb := (q.write db).toOption.getD db

def done (q : Access) (db : AuthDb) : Except RuntimeError Unit := (q.write db).map fun _ => ()

def reply (db : AuthDb) : (q : Access) → q.Reply
  | getActor id => db.actors.find id
  | upsertActor actor => (upsertActor actor).done db
  | getSession id => db.sessions.find id
  | getSessionByHash tokenHash => db.sessions.rows.find? (·.tokenHash = tokenHash)
  | insertSession session => (insertSession session).done db
  | rotateSession id tokenHash expiresMs now => (rotateSession id tokenHash expiresMs now).done db
  | revokeSession id atMs => (revokeSession id atMs).done db
  | getApiKey id => db.apiKeys.find id
  | listActiveApiKeyCandidates tenantId =>
    db.apiKeys.rows.filter fun k => k.tenantId = tenantId ∧ k.revokedMs = none
  | insertApiKey key => (insertApiKey key).done db
  | useApiKey id atMs => (useApiKey id atMs).done db
  | revokeApiKey id atMs => (revokeApiKey id atMs).done db
  | getOauthState id => db.oauthStates.find id
  | getOauthStateByHash stateHash => db.oauthStates.rows.find? (·.stateHash = stateHash)
  | insertOauthState state => (insertOauthState state).done db
  | useOauthState id atMs => (useOauthState id atMs).done db
  | insertAudit event => (insertAudit event).done db

def exec (q : Access) (db : AuthDb) : q.Reply × AuthDb := (q.reply db, q.next db)

end Access

/-! ### Operations -/

abbrev AuthM := Prog Access.Reply RuntimeError

abbrev access (q : Access) : AuthM q.Reply := Prog.query q

def other {α : Type} (message : String) : AuthM α := .fail (.other message)

abbrev check {α : Type} : Except RuntimeError α → AuthM α := Prog.ofExcept

def orNotFound {α : Type} (message : String) : Option α → AuthM α
  | some a => .ret a
  | none => other message

def upsertActor (actor : AuthActor) (now : ℕ) : AuthM AuthActor := do
  check (validateNonEmpty "actor id" actor.id)
  check (validateNonEmpty "tenant id" actor.tenantId)
  check (validateNonEmpty "actor kind" actor.actorKind)
  check (validateNonEmpty "auth method" actor.authMethod)
  check (← access (.upsertActor { actor with
    createdMs := if actor.createdMs = 0 then now else actor.createdMs
    updatedMs := if actor.updatedMs = 0 then now else actor.updatedMs }))
  orNotFound s!"auth actor `{actor.id}` not found" (← access (.getActor actor.id))

section Operations

variable (crypto : Crypto)

def createSession (input : SessionCreate) (now : ℕ) : AuthM SessionRecord := do
  check (validateNonEmpty "session id" input.id)
  check (validateNonEmpty "actor id" input.actorId)
  check (validateNonEmpty "tenant id" input.tenantId)
  check (validateNonEmpty "session token" input.rawToken)
  if input.expiresMs ≤ input.issuedMs then other "session expiry must be after issue time"
  else
    let actor ← orNotFound s!"auth actor `{input.actorId}` not found"
      (← access (.getActor input.actorId))
    if actor.tenantId ≠ input.tenantId then other "session actor tenant mismatch"
    else
      check (← access (.insertSession
        { id := input.id
          actorId := input.actorId
          tenantId := input.tenantId
          tokenHash := crypto.hashSessionSecret input.rawToken
          issuedMs := input.issuedMs
          expiresMs := input.expiresMs
          rotationCounter := 0
          csrfBindingId := input.csrfBindingId
          revokedMs := none
          createdMs := now
          updatedMs := now }))
      orNotFound s!"auth session `{input.id}` not found" (← access (.getSession input.id))

def insertAudit (now : ℕ) (eventKind : String) (actorId tenantId sessionId apiKeyId : Option String)
    (traceId : String) (status reason : String) : AuthM Unit := do
  check (← access (.insertAudit
    { id := crypto.auditId now eventKind sessionId (some traceId)
      eventKind, actorId, tenantId, sessionId, apiKeyId
      traceId := some traceId
      status, reason
      createdMs := now }))

def auditSessionDenied (now : ℕ) (session : SessionRecord) (traceId reason : String) : AuthM Unit :=
  insertAudit crypto now "session.resolve" (some session.actorId) (some session.tenantId)
    (some session.id) none traceId "denied" reason

def resolveSession (rawToken expectedTenantId traceId replayKey : String) (atMs now : ℕ) :
    AuthM SessionResolution := do
  check (validateNonEmpty "session token" rawToken)
  check (validateNonEmpty "tenant id" expectedTenantId)
  check (validateNonEmpty "trace id" traceId)
  match ← access (.getSessionByHash (crypto.hashSessionSecret rawToken)) with
  | none =>
    insertAudit crypto now "session.resolve" none (some expectedTenantId) none none traceId "denied"
      "session token not found"
    other "session resolve denied: token not found"
  | some session =>
    if session.revokedMs.isSome then
      auditSessionDenied crypto now session traceId "session revoked"
      other "session resolve denied: session revoked"
    else if session.expiresMs ≤ atMs then
      auditSessionDenied crypto now session traceId "session expired"
      other "session resolve denied: session expired"
    else if session.tenantId ≠ expectedTenantId then
      auditSessionDenied crypto now session traceId "tenant mismatch"
      other "session resolve denied: tenant mismatch"
    else
      let actor ← orNotFound "session actor not found" (← access (.getActor session.actorId))
      if actor.tenantId ≠ session.tenantId then
        auditSessionDenied crypto now session traceId "actor tenant mismatch"
        other "session resolve denied: actor tenant mismatch"
      else
        insertAudit crypto now "session.resolve" (some actor.id) (some session.tenantId)
          (some session.id) none traceId "allowed" "session resolved"
        return {
          actor, session
          trace :=
            { traceId
              tenantId := session.tenantId
              actorId := actor.id
              authMethod := actor.authMethod
              sessionId := session.id
              apiKeyId := ""
              permissionFingerprint := actor.permissionFingerprint
              replayKey } }

def rotateSession (sessionId newRawToken : String) (newExpiresMs now : ℕ) : AuthM SessionRecord := do
  check (validateNonEmpty "session id" sessionId)
  check (validateNonEmpty "session token" newRawToken)
  let session ← orNotFound s!"auth session `{sessionId}` not found"
    (← access (.getSession sessionId))
  if newExpiresMs ≤ session.issuedMs then
    other "rotated session expiry must be after issue time"
  else
    check (← access (.rotateSession sessionId (crypto.hashSessionSecret newRawToken) newExpiresMs now))
    orNotFound s!"auth session `{sessionId}` not found" (← access (.getSession sessionId))

def revokeSession (sessionId : String) (atMs : ℕ) : AuthM SessionRecord := do
  check (validateNonEmpty "session id" sessionId)
  check (← access (.revokeSession sessionId atMs))
  orNotFound s!"auth session `{sessionId}` not found" (← access (.getSession sessionId))

def createApiKey (input : ApiKeyCreate) (salt : String) (now : ℕ) : AuthM ApiKeyRecord := do
  check (validateNonEmpty "api key id" input.id)
  check (validateNonEmpty "service actor id" input.serviceActorId)
  check (validateNonEmpty "tenant id" input.tenantId)
  check (validateNonEmpty "api key secret" input.rawKey)
  check (validateNonEmpty "scope fingerprint" input.scopeFingerprint)
  if input.expiresMs ≤ now then other "api key expiry must be in the future"
  else
    let actor ← orNotFound s!"auth actor `{input.serviceActorId}` not found"
      (← access (.getActor input.serviceActorId))
    if actor.tenantId ≠ input.tenantId then other "api key actor tenant mismatch"
    else if actor.actorKind ≠ "service" then other "api keys must resolve to service actors"
    else
      let keyHash ← check (crypto.hashApiKeySecret salt input.rawKey)
      check (← access (.insertApiKey
        { id := input.id
          serviceActorId := input.serviceActorId
          tenantId := input.tenantId
          keyHash
          scopeFingerprint := input.scopeFingerprint
          expiresMs := input.expiresMs
          lastUsedMs := none
          revokedMs := none
          createdMs := now
          updatedMs := now }))
      orNotFound s!"auth api key `{input.id}` not found" (← access (.getApiKey input.id))

def auditApiKeyDenied (now : ℕ) (key : ApiKeyRecord) (traceId reason : String) : AuthM Unit :=
  insertAudit crypto now "api_key.resolve" (some key.serviceActorId) (some key.tenantId) none
    (some key.id) traceId "denied" reason

def resolveApiKeyRecord (key : ApiKeyRecord) (expectedTenantId traceId replayKey : String)
    (atMs now : ℕ) : AuthM ApiKeyResolution := do
  if key.revokedMs.isSome then
    auditApiKeyDenied crypto now key traceId "api key revoked"
    other "api key resolve denied: key revoked"
  else if key.expiresMs ≤ atMs then
    auditApiKeyDenied crypto now key traceId "api key expired"
    other "api key resolve denied: key expired"
  else if key.tenantId ≠ expectedTenantId then
    auditApiKeyDenied crypto now key traceId "tenant mismatch"
    other "api key resolve denied: tenant mismatch"
  else
    let actor ← orNotFound "api key actor not found" (← access (.getActor key.serviceActorId))
    if actor.tenantId ≠ key.tenantId then
      auditApiKeyDenied crypto now key traceId "actor tenant mismatch"
      other "api key resolve denied: actor tenant mismatch"
    else if actor.actorKind ≠ "service" then
      auditApiKeyDenied crypto now key traceId "actor is not service"
      other "api key resolve denied: actor is not service"
    else
      check (← access (.useApiKey key.id atMs))
      let key ← orNotFound "api key disappeared after resolve" (← access (.getApiKey key.id))
      insertAudit crypto now "api_key.resolve" (some actor.id) (some key.tenantId) none (some key.id)
        traceId "allowed" "api key resolved"
      return {
        actor
        apiKey := key
        trace :=
          { traceId
            tenantId := key.tenantId
            actorId := actor.id
            authMethod := "api_key"
            sessionId := ""
            apiKeyId := key.id
            permissionFingerprint := actor.permissionFingerprint
            replayKey } }

/-- The first of the keys whose hash the secret matches. -/
def matchingKey (rawKey : String) : List ApiKeyRecord → Except RuntimeError (Option ApiKeyRecord)
  | [] => .ok none
  | key :: keys => do
    if ← crypto.verifyApiKeySecret rawKey key.keyHash then return some key
    else matchingKey rawKey keys

def resolveApiKey (rawKey expectedTenantId traceId replayKey : String) (atMs now : ℕ) :
    AuthM ApiKeyResolution := do
  check (validateNonEmpty "api key secret" rawKey)
  check (validateNonEmpty "tenant id" expectedTenantId)
  check (validateNonEmpty "trace id" traceId)
  let keys ← access (.listActiveApiKeyCandidates expectedTenantId)
  match ← check (matchingKey crypto rawKey keys) with
  | some key => resolveApiKeyRecord crypto key expectedTenantId traceId replayKey atMs now
  | none =>
    insertAudit crypto now "api_key.resolve" none (some expectedTenantId) none none traceId "denied"
      "api key not found"
    other "api key resolve denied: key not found"

def revokeApiKey (keyId : String) (atMs : ℕ) : AuthM ApiKeyRecord := do
  check (validateNonEmpty "api key id" keyId)
  check (← access (.revokeApiKey keyId atMs))
  orNotFound s!"auth api key `{keyId}` not found" (← access (.getApiKey keyId))

def createOauthState (input : OAuthStateCreate) (now : ℕ) : AuthM OAuthStateRecord := do
  check (validateNonEmpty "oauth state id" input.id)
  check (validateNonEmpty "oauth provider" input.provider)
  check (validateNonEmpty "tenant id" input.tenantId)
  check (validateNonEmpty "actor id" input.actorId)
  check (validateNonEmpty "oauth state" input.rawState)
  check (validateNonEmpty "pkce verifier reference" input.pkceVerifierRef)
  check (validateNonEmpty "nonce fingerprint" input.nonceFingerprint)
  check (validateNonEmpty "replay key" input.replayKey)
  if input.expiresMs ≤ now then other "oauth state expiry must be in the future"
  else
    let actor ← orNotFound s!"auth actor `{input.actorId}` not found"
      (← access (.getActor input.actorId))
    if actor.tenantId ≠ input.tenantId then other "oauth actor tenant mismatch"
    else
      check (← access (.insertOauthState
        { id := input.id
          provider := input.provider
          tenantId := input.tenantId
          actorId := input.actorId
          stateHash := crypto.hashOauthState input.rawState
          pkceVerifierRef := input.pkceVerifierRef
          nonceFingerprint := input.nonceFingerprint
          expiresMs := input.expiresMs
          replayKey := input.replayKey
          usedMs := none
          createdMs := now
          updatedMs := now }))
      orNotFound s!"oauth state `{input.id}` not found" (← access (.getOauthState input.id))

def auditOauthDenied (now : ℕ) (state : OAuthStateRecord) (traceId reason : String) : AuthM Unit :=
  insertAudit crypto now "oauth.callback" (some state.actorId) (some state.tenantId) none none traceId
    "denied" reason

def resolveOauthCallback (rawState expectedTenantId traceId : String) (atMs now : ℕ) :
    AuthM OAuthCallbackResolution := do
  check (validateNonEmpty "oauth state" rawState)
  check (validateNonEmpty "tenant id" expectedTenantId)
  check (validateNonEmpty "trace id" traceId)
  match ← access (.getOauthStateByHash (crypto.hashOauthState rawState)) with
  | none =>
    insertAudit crypto now "oauth.callback" none (some expectedTenantId) none none traceId "denied"
      "oauth state not found"
    other "oauth callback denied: state not found"
  | some state =>
    if state.usedMs.isSome then
      auditOauthDenied crypto now state traceId "oauth state already used"
      other "oauth callback denied: state already used"
    else if state.expiresMs ≤ atMs then
      auditOauthDenied crypto now state traceId "oauth state expired"
      other "oauth callback denied: state expired"
    else if state.tenantId ≠ expectedTenantId then
      auditOauthDenied crypto now state traceId "tenant mismatch"
      other "oauth callback denied: tenant mismatch"
    else
      let actor ← orNotFound "oauth actor not found" (← access (.getActor state.actorId))
      if actor.tenantId ≠ state.tenantId then
        auditOauthDenied crypto now state traceId "actor tenant mismatch"
        other "oauth callback denied: actor tenant mismatch"
      else
        -- how many rows were updated is not asked
        check (← access (.useOauthState state.id atMs))
        let state ← orNotFound "oauth state disappeared after callback"
          (← access (.getOauthState state.id))
        insertAudit crypto now "oauth.callback" (some actor.id) (some state.tenantId) none none
          traceId "allowed" "oauth state resolved"
        return {
          actor, state
          trace :=
            { traceId
              tenantId := state.tenantId
              actorId := actor.id
              authMethod := "oauth"
              sessionId := ""
              apiKeyId := ""
              permissionFingerprint := actor.permissionFingerprint
              replayKey := state.replayKey } }

end Operations

/-! ### All operations -/

inductive Op where
  | upsertActor (actor : AuthActor) (now : ℕ)
  | createSession (input : SessionCreate) (now : ℕ)
  | resolveSession (rawToken expectedTenantId traceId replayKey : String) (atMs now : ℕ)
  | rotateSession (sessionId newRawToken : String) (newExpiresMs now : ℕ)
  | revokeSession (sessionId : String) (atMs : ℕ)
  | createApiKey (input : ApiKeyCreate) (salt : String) (now : ℕ)
  | resolveApiKey (rawKey expectedTenantId traceId replayKey : String) (atMs now : ℕ)
  | revokeApiKey (keyId : String) (atMs : ℕ)
  | createOauthState (input : OAuthStateCreate) (now : ℕ)
  | resolveOauthCallback (rawState expectedTenantId traceId : String) (atMs now : ℕ)
deriving DecidableEq, Repr

inductive Outcome where
  | actor (actor : AuthActor)
  | session (session : SessionRecord)
  | sessionResolution (resolution : SessionResolution)
  | apiKey (key : ApiKeyRecord)
  | apiKeyResolution (resolution : ApiKeyResolution)
  | oauthState (state : OAuthStateRecord)
  | oauthCallback (resolution : OAuthCallbackResolution)
deriving DecidableEq, Repr

def Op.prog (crypto : Crypto) : Op → AuthM Outcome
  | upsertActor actor now => .actor <$> Auth.upsertActor actor now
  | createSession input now => .session <$> Auth.createSession crypto input now
  | resolveSession rawToken expectedTenantId traceId replayKey atMs now =>
    .sessionResolution <$>
      Auth.resolveSession crypto rawToken expectedTenantId traceId replayKey atMs now
  | rotateSession sessionId newRawToken newExpiresMs now =>
    .session <$> Auth.rotateSession crypto sessionId newRawToken newExpiresMs now
  | revokeSession sessionId atMs => .session <$> Auth.revokeSession sessionId atMs
  | createApiKey input salt now => .apiKey <$> Auth.createApiKey crypto input salt now
  | resolveApiKey rawKey expectedTenantId traceId replayKey atMs now =>
    .apiKeyResolution <$>
      Auth.resolveApiKey crypto rawKey expectedTenantId traceId replayKey atMs now
  | revokeApiKey keyId atMs => .apiKey <$> Auth.revokeApiKey keyId atMs
  | createOauthState input now => .oauthState <$> Auth.createOauthState crypto input now
  | resolveOauthCallback rawState expectedTenantId traceId atMs now =>
    .oauthCallback <$>
      Auth.resolveOauthCallback crypto rawState expectedTenantId traceId atMs now

end Corvid.Auth
