import Corvid.Auth.OAuth
import Corvid.Lib.Calls

/-!
# The audit log

A call that resolves a session, an API key or an OAuth state records its outcome in the audit log, in a
statement of its own that comes last. The id of the entry is made of the clock, the kind of the event,
the session and the trace. A second call with the same ones cannot record its outcome: it fails, and
what it has marked stays marked.

## Main definitions

* `Resolve`: the calls
* `Agrees`: a call appends its outcome to the log, and does nothing else if it fails
* `Recordable`: its id is not taken, and nothing that it looks up is missing

## Main results

* `Resolve.settles`: what a call does
* `agrees_iff_recordable`: the calls of a sequence agree with the log just when they are recordable
-/

namespace Corvid.Auth

open Store
open Queue (blank)
open Relational (Rows)

/-! ## Calls -/

inductive Resolve where
  | session (rawToken expectedTenantId traceId replayKey : String) (atMs now : ℕ)
  | apiKey (rawKey expectedTenantId traceId replayKey : String) (atMs now : ℕ)
  | oauth (rawState expectedTenantId traceId : String) (atMs now : ℕ)
deriving DecidableEq, Repr

variable (crypto : Crypto)

namespace Resolve

def op : Resolve → Op
  | session rawToken expectedTenantId traceId replayKey atMs now =>
    .resolveSession rawToken expectedTenantId traceId replayKey atMs now
  | apiKey rawKey expectedTenantId traceId replayKey atMs now =>
    .resolveApiKey rawKey expectedTenantId traceId replayKey atMs now
  | oauth rawState expectedTenantId traceId atMs now =>
    .resolveOauthCallback rawState expectedTenantId traceId atMs now

def Filled : Resolve → Prop
  | session secret expectedTenantId traceId _ _ _ | apiKey secret expectedTenantId traceId _ _ _
  | oauth secret expectedTenantId traceId _ _ =>
    ¬ blank secret ∧ ¬ blank expectedTenantId ∧ ¬ blank traceId

instance : (call : Resolve) → Decidable call.Filled
  | session .. | apiKey .. | oauth .. => inferInstanceAs (Decidable (_ ∧ _ ∧ _))

def run (call : Resolve) (db : AuthDb) : Except RuntimeError Outcome × AuthDb :=
  (call.op.prog crypto).run Access.exec db

def next (db : AuthDb) (call : Resolve) : AuthDb := (call.run crypto db).2

end Resolve

/-- A call appends its outcome to the log. One that fails changes nothing else. -/
structure Agrees (db : AuthDb) (call : Resolve) : Prop where
  audited : ∃ event, (call.run crypto db).2.audit.rows = db.audit.rows ++ [event] ∧
    (event.status = "allowed" ↔ (call.run crypto db).1.isOk)
  unchanged : ¬ (call.run crypto db).1.isOk →
    (call.run crypto db).2 = { db with audit := (call.run crypto db).2.audit }

/-! ## The condition -/

section Condition

variable (db : AuthDb)

def sessionOf (rawToken : String) : Option SessionRecord :=
  db.sessions.rows.find? (·.tokenHash = crypto.hashSessionSecret rawToken)

def oauthStateOf (rawState : String) : Option OAuthStateRecord :=
  db.oauthStates.rows.find? (·.stateHash = crypto.hashOauthState rawState)

def apiKeyOf (rawKey expectedTenantId : String) : Except RuntimeError (Option ApiKeyRecord) :=
  matchingKey crypto rawKey
    (db.apiKeys.rows.filter fun k => k.tenantId = expectedTenantId ∧ k.revokedMs = none)

namespace Resolve

/-- The id of the entry that the call makes. -/
def entryId : Resolve → String
  | session rawToken _ traceId _ _ now =>
    crypto.auditId now "session.resolve" ((sessionOf crypto db rawToken).map (·.id)) (some traceId)
  | apiKey _ _ traceId _ _ now => crypto.auditId now "api_key.resolve" none (some traceId)
  | oauth _ _ traceId _ now => crypto.auditId now "oauth.callback" none (some traceId)

/-- The keys can be verified, and the actor of what is resolved exists. -/
def Resolvable : Resolve → Prop
  | session rawToken expectedTenantId _ _ atMs _ => ∀ s ∈ sessionOf crypto db rawToken,
    s.revokedMs = none → atMs < s.expiresMs → s.tenantId = expectedTenantId →
      (db.actors.find s.actorId).isSome
  | apiKey rawKey expectedTenantId _ _ atMs _ =>
    ∃ found, apiKeyOf crypto db rawKey expectedTenantId = .ok found ∧ ∀ k ∈ found,
      k.revokedMs = none → atMs < k.expiresMs → k.tenantId = expectedTenantId →
        (db.actors.find k.serviceActorId).isSome
  | oauth rawState expectedTenantId _ atMs _ => ∀ s ∈ oauthStateOf crypto db rawState,
    s.usedMs = none → atMs < s.expiresMs → s.tenantId = expectedTenantId →
      (db.actors.find s.actorId).isSome

end Resolve

/-- Nothing is missing, and the id of the entry is not taken. -/
def Recordable (call : Resolve) : Prop :=
  call.Resolvable crypto db ∧ db.audit.find (call.entryId crypto db) = none

end Condition

/-! ## One call -/

variable {crypto} {α β : Type} {db : AuthDb}

/-- A result whose entry is appended to the log, unless its id is taken. -/
def audited (event : AuthAuditEvent) (result : Except RuntimeError α) (db : AuthDb) :
    Except RuntimeError α × AuthDb :=
  match db.audit.insert event with
  | some audit => (result, { db with audit })
  | none => (sqliteError "failed to insert auth audit event"
      "UNIQUE constraint failed: auth_audit_events.id", db)

theorem run_access_insertAudit_bind {event : AuthAuditEvent} {p : AuthM α}
    {result : Except RuntimeError α} (hp : ∀ db, p.run Access.exec db = (result, db)) :
    (access (.insertAudit event) >>= fun r => check r >>= fun _ => p).run Access.exec db =
      audited event result db := by
  show (check ((Access.insertAudit event).done db) >>= fun _ => p).run Access.exec
    ((Access.insertAudit event).next db) = _
  unfold audited
  cases h : db.audit.insert event with
  | none =>
    have hwrite : (Access.insertAudit event).write db = sqliteError
        "failed to insert auth audit event" "UNIQUE constraint failed: auth_audit_events.id" := by
      simp only [Access.write, insertRow, h]
      rfl
    rw [Access.done, Access.next, hwrite]
    rfl
  | some audit =>
    have hwrite : (Access.insertAudit event).write db = .ok { db with audit } := by
      simp only [Access.write, insertRow, h]
      rfl
    rw [Access.done, Access.next, hwrite]
    exact hp _

theorem run_insertAudit_bind {now : ℕ} {eventKind traceId status reason : String}
    {actorId tenantId sessionId apiKeyId : Option String} {p : AuthM α}
    {result : Except RuntimeError α} (hp : ∀ db, p.run Access.exec db = (result, db)) :
    (insertAudit crypto now eventKind actorId tenantId sessionId apiKeyId traceId status reason >>=
        fun _ => p).run Access.exec db =
      audited
        { id := crypto.auditId now eventKind sessionId (some traceId)
          eventKind, actorId, tenantId, sessionId, apiKeyId
          traceId := some traceId
          status, reason
          createdMs := now } result db := by
  rw [insertAudit, Prog.bind_assoc]
  exact run_access_insertAudit_bind hp

/-! What the statements that read return. -/

theorem run_getSessionByHash_bind {rawToken : String} {f : Option SessionRecord → AuthM α} :
    (access (.getSessionByHash (crypto.hashSessionSecret rawToken)) >>= f).run Access.exec db =
      (f (sessionOf crypto db rawToken)).run Access.exec db := rfl

theorem run_getOauthStateByHash_bind {rawState : String} {f : Option OAuthStateRecord → AuthM α} :
    (access (.getOauthStateByHash (crypto.hashOauthState rawState)) >>= f).run Access.exec db =
      (f (oauthStateOf crypto db rawState)).run Access.exec db := rfl

theorem run_getActor_bind {id : String} {f : Option AuthActor → AuthM α} :
    (access (.getActor id) >>= f).run Access.exec db =
      (f (db.actors.find id)).run Access.exec db := rfl

theorem run_getApiKey_bind {id : String} {f : Option ApiKeyRecord → AuthM α} :
    (access (.getApiKey id) >>= f).run Access.exec db =
      (f (db.apiKeys.find id)).run Access.exec db := rfl

theorem run_getOauthState_bind {id : String} {f : Option OAuthStateRecord → AuthM α} :
    (access (.getOauthState id) >>= f).run Access.exec db =
      (f (db.oauthStates.find id)).run Access.exec db := rfl

theorem run_listActiveApiKeyCandidates_bind {rawKey tenantId : String}
    {f : Option ApiKeyRecord → AuthM α} :
    (access (.listActiveApiKeyCandidates tenantId) >>= fun keys =>
        check (matchingKey crypto rawKey keys) >>= f).run Access.exec db =
      (check (apiKeyOf crypto db rawKey tenantId) >>= f).run Access.exec db := rfl

theorem run_useApiKey_bind {id : String} {atMs : ℕ} {f : Except RuntimeError Unit → AuthM α} :
    (access (.useApiKey id atMs) >>= f).run Access.exec db =
      (f (.ok ())).run Access.exec ((Access.useApiKey id atMs).next db) := rfl

theorem run_useOauthState_bind {id : String} {atMs : ℕ} {f : Except RuntimeError Unit → AuthM α} :
    (access (.useOauthState id atMs) >>= f).run Access.exec db =
      (f (.ok ())).run Access.exec ((Access.useOauthState id atMs).next db) := rfl

@[simp] theorem check_ok_bind {a : β} {f : β → AuthM α} : (check (.ok a) >>= f) = f a := rfl

@[simp] theorem orNotFound_some_bind {message : String} {a : β} {f : β → AuthM α} :
    (orNotFound message (some a) >>= f) = f a := rfl

@[simp] theorem run_orNotFound_none_bind {message : String} {f : β → AuthM α} :
    (orNotFound message none >>= f).run Access.exec db = (.error (.other message), db) := rfl

theorem validateNonEmpty_eq_ok {label value : String} (h : ¬ blank value) :
    validateNonEmpty label value = .ok () :=
  if_neg h

theorem audited_of_free {event : AuthAuditEvent} (result : Except RuntimeError α)
    (h : db.audit.find event.id = none) : ∃ audit, audited event result db = (result, { db with audit }) ∧
      audit.rows = db.audit.rows ++ [event] := by
  cases hinsert : db.audit.insert event with
  | none =>
    simp [Rows.insert, h] at hinsert
  | some audit =>
    refine ⟨audit, ?_, (db.audit.insert_eq_some.mp hinsert).2⟩
    rw [audited, hinsert]

theorem audited_of_taken {event : AuthAuditEvent} (result : Except RuntimeError α)
    (h : db.audit.find event.id ≠ none) : ∃ err, audited event result db = (.error err, db) := by
  have hinsert : db.audit.insert event = none := dif_neg h
  unfold audited
  rw [hinsert]
  exact ⟨_, rfl⟩

/-- How a call ends: something is missing, or it denies, or it allows after its marks are set. -/
inductive Settles (db : AuthDb) (id : String) (resolvable : Prop)
    (result : Except RuntimeError α × AuthDb) : Prop
  | missing (err : RuntimeError) (h : ¬ resolvable) (heq : result = (.error err, db))
  | denied (event : AuthAuditEvent) (err : RuntimeError) (h : resolvable) (hid : event.id = id)
      (hstatus : event.status = "denied") (heq : result = audited event (.error err) db)
  | allowed (event : AuthAuditEvent) (a : α) (marked : AuthDb) (h : resolvable) (hid : event.id = id)
      (hstatus : event.status = "allowed") (haudit : marked.audit = db.audit)
      (heq : result = audited event (.ok a) marked)

theorem Settles.denies {id : String} {resolvable : Prop} {result : Except RuntimeError α × AuthDb}
    {event : AuthAuditEvent} {err : RuntimeError}
    (heq : result = audited event (.error err) db) (h : resolvable) (hid : event.id = id)
    (hstatus : event.status = "denied") : Settles db id resolvable result :=
  .denied event err h hid hstatus heq

theorem Settles.allows {id : String} {resolvable : Prop} {result : Except RuntimeError α × AuthDb}
    {event : AuthAuditEvent} {a : α} {marked : AuthDb}
    (heq : result = audited event (.ok a) marked) (h : resolvable) (hid : event.id = id)
    (hstatus : event.status = "allowed") (haudit : marked.audit = db.audit) :
    Settles db id resolvable result :=
  .allowed event a marked h hid hstatus haudit heq

theorem Settles.map {id : String} {resolvable : Prop} {result : Except RuntimeError α × AuthDb}
    (h : Settles db id resolvable result) (f : α → β) :
    Settles db id resolvable (result.1.map f, result.2) := by
  have haudited : ∀ (event : AuthAuditEvent) (x : Except RuntimeError α) (db : AuthDb),
      ((audited event x db).1.map f, (audited event x db).2) = audited event (x.map f) db := by
    intro event x db
    unfold audited
    cases db.audit.insert event <;> rfl
  cases h with
  | missing err h heq => exact .missing err h (by rw [heq]; rfl)
  | denied event err h hid hstatus heq =>
    exact .denied event err h hid hstatus (by rw [heq, haudited]; rfl)
  | allowed event a marked h hid hstatus haudit heq =>
    exact .allowed event (f a) marked h hid hstatus haudit (by rw [heq, haudited]; rfl)

/-! ### Sessions -/

theorem resolveSession_settles {rawToken expectedTenantId traceId replayKey : String} {atMs now : ℕ}
    (htoken : ¬ blank rawToken) (htenant : ¬ blank expectedTenantId) (htrace : ¬ blank traceId) :
    Settles db ((Resolve.session rawToken expectedTenantId traceId replayKey atMs now).entryId crypto db)
      ((Resolve.session rawToken expectedTenantId traceId replayKey atMs now).Resolvable crypto db)
      ((resolveSession crypto rawToken expectedTenantId traceId replayKey atMs now).run
        Access.exec db) := by
  unfold resolveSession
  rw [Resolve.entryId, Resolve.Resolvable, validateNonEmpty_eq_ok htoken, validateNonEmpty_eq_ok htenant, validateNonEmpty_eq_ok htrace,
    check_ok_bind, check_ok_bind, check_ok_bind, run_getSessionByHash_bind]
  generalize sessionOf crypto db rawToken = found
  cases found with
  | none => exact .denies (run_insertAudit_bind fun _ => rfl) (by simp) rfl rfl
  | some session =>
    simp only [Option.mem_def, Option.some.injEq, forall_eq', Option.map_some]
    by_cases hrevoked : session.revokedMs.isSome
    · rw [if_pos hrevoked]
      have hsome : session.revokedMs ≠ none := Option.isSome_iff_ne_none.mp hrevoked
      exact .denies (run_insertAudit_bind fun _ => rfl) (fun h => absurd h hsome) rfl rfl
    rw [if_neg hrevoked]
    by_cases hexpired : session.expiresMs ≤ atMs
    · rw [if_pos hexpired]
      exact .denies (run_insertAudit_bind fun _ => rfl) (fun _ h => absurd h (not_lt.mpr hexpired)) rfl rfl
    rw [if_neg hexpired]
    by_cases hmismatch : session.tenantId ≠ expectedTenantId
    · rw [if_pos hmismatch]
      exact .denies (run_insertAudit_bind fun _ => rfl) (fun _ _ h => absurd h hmismatch) rfl rfl
    rw [if_neg hmismatch, run_getActor_bind]
    have hneeded : session.revokedMs = none ∧ atMs < session.expiresMs ∧
        session.tenantId = expectedTenantId :=
      ⟨Option.not_isSome_iff_eq_none.mp hrevoked, not_le.mp hexpired, not_not.mp hmismatch⟩
    cases hactor : db.actors.find session.actorId with
    | none =>
      rw [run_orNotFound_none_bind]
      refine .missing _ (fun h => ?_) rfl
      have hsome := h hneeded.1 hneeded.2.1 hneeded.2.2
      simp at hsome
    | some actor =>
      rw [orNotFound_some_bind]
      by_cases hforeign : actor.tenantId ≠ session.tenantId
      · rw [if_pos hforeign]
        exact .denies (run_insertAudit_bind fun _ => rfl) (fun _ _ _ => rfl) rfl rfl
      rw [if_neg hforeign]
      exact .allows (run_insertAudit_bind fun _ => rfl) (fun _ _ _ => rfl) rfl rfl rfl

/-! ### API keys -/

theorem mem_of_apiKeyOf {rawKey tenantId : String} {key : ApiKeyRecord}
    (h : apiKeyOf crypto db rawKey tenantId = .ok (some key)) : db.apiKeys.find key.id = some key :=
  Rows.find_of_mem _ (List.mem_of_mem_filter (matchingKey_mem h))

theorem resolveApiKeyRecord_settles {key : ApiKeyRecord} {expectedTenantId traceId replayKey : String}
    {atMs now : ℕ} (hkey : db.apiKeys.find key.id = some key) :
    Settles db (crypto.auditId now "api_key.resolve" none (some traceId))
      (key.revokedMs = none → atMs < key.expiresMs → key.tenantId = expectedTenantId →
        (db.actors.find key.serviceActorId).isSome)
      ((resolveApiKeyRecord crypto key expectedTenantId traceId replayKey atMs now).run
        Access.exec db) := by
  unfold resolveApiKeyRecord
  by_cases hrevoked : key.revokedMs.isSome
  · rw [if_pos hrevoked]
    have hsome : key.revokedMs ≠ none := Option.isSome_iff_ne_none.mp hrevoked
    exact .denies (run_insertAudit_bind fun _ => rfl) (fun h => absurd h hsome) rfl rfl
  rw [if_neg hrevoked]
  by_cases hexpired : key.expiresMs ≤ atMs
  · rw [if_pos hexpired]
    exact .denies (run_insertAudit_bind fun _ => rfl) (fun _ h => absurd h (not_lt.mpr hexpired)) rfl rfl
  rw [if_neg hexpired]
  by_cases hmismatch : key.tenantId ≠ expectedTenantId
  · rw [if_pos hmismatch]
    exact .denies (run_insertAudit_bind fun _ => rfl) (fun _ _ h => absurd h hmismatch) rfl rfl
  rw [if_neg hmismatch, run_getActor_bind]
  cases hactor : db.actors.find key.serviceActorId with
  | none =>
    rw [run_orNotFound_none_bind]
    refine .missing _ (fun h => ?_) rfl
    have hsome := h (Option.not_isSome_iff_eq_none.mp hrevoked) (not_le.mp hexpired)
      (not_not.mp hmismatch)
    simp at hsome
  | some actor =>
    rw [orNotFound_some_bind]
    by_cases hforeign : actor.tenantId ≠ key.tenantId
    · rw [if_pos hforeign]
      exact .denies (run_insertAudit_bind fun _ => rfl) (fun _ _ _ => rfl) rfl rfl
    rw [if_neg hforeign]
    by_cases hkind : actor.actorKind ≠ "service"
    · rw [if_pos hkind]
      exact .denies (run_insertAudit_bind fun _ => rfl) (fun _ _ _ => rfl) rfl rfl
    -- the use of the key is recorded before the outcome
    rw [if_neg hkind, run_useApiKey_bind, check_ok_bind, run_getApiKey_bind,
      Access.find_useApiKey, hkey, Option.map_some, orNotFound_some_bind]
    exact .allows (run_insertAudit_bind fun _ => rfl) (fun _ _ _ => rfl) rfl rfl rfl

theorem resolveApiKey_settles {rawKey expectedTenantId traceId replayKey : String} {atMs now : ℕ}
    (hkey : ¬ blank rawKey) (htenant : ¬ blank expectedTenantId) (htrace : ¬ blank traceId) :
    Settles db ((Resolve.apiKey rawKey expectedTenantId traceId replayKey atMs now).entryId crypto db)
      ((Resolve.apiKey rawKey expectedTenantId traceId replayKey atMs now).Resolvable crypto db)
      ((resolveApiKey crypto rawKey expectedTenantId traceId replayKey atMs now).run
        Access.exec db) := by
  unfold resolveApiKey
  rw [Resolve.entryId, Resolve.Resolvable, validateNonEmpty_eq_ok hkey,
    validateNonEmpty_eq_ok htenant, validateNonEmpty_eq_ok htrace,
    check_ok_bind, check_ok_bind, check_ok_bind, run_listActiveApiKeyCandidates_bind]
  cases hfound : apiKeyOf crypto db rawKey expectedTenantId with
  | error err => exact .missing err (by simp) rfl
  | ok found =>
    rw [check_ok_bind]
    simp only [Except.ok.injEq, exists_eq_left']
    cases found with
    | none => exact .denies (run_insertAudit_bind fun _ => rfl) (by simp) rfl rfl
    | some key =>
      simp only [Option.mem_def, Option.some.injEq, forall_eq']
      exact resolveApiKeyRecord_settles (mem_of_apiKeyOf hfound)

/-! ### OAuth states -/

theorem resolveOauthCallback_settles {rawState expectedTenantId traceId : String} {atMs now : ℕ}
    (hstate : ¬ blank rawState) (htenant : ¬ blank expectedTenantId) (htrace : ¬ blank traceId) :
    Settles db ((Resolve.oauth rawState expectedTenantId traceId atMs now).entryId crypto db)
      ((Resolve.oauth rawState expectedTenantId traceId atMs now).Resolvable crypto db)
      ((resolveOauthCallback crypto rawState expectedTenantId traceId atMs now).run
        Access.exec db) := by
  unfold resolveOauthCallback
  rw [Resolve.entryId, Resolve.Resolvable, validateNonEmpty_eq_ok hstate,
    validateNonEmpty_eq_ok htenant, validateNonEmpty_eq_ok htrace,
    check_ok_bind, check_ok_bind, check_ok_bind, run_getOauthStateByHash_bind]
  cases hfound : oauthStateOf crypto db rawState with
  | none => exact .denies (run_insertAudit_bind fun _ => rfl) (by simp) rfl rfl
  | some state =>
    simp only [Option.mem_def, Option.some.injEq, forall_eq']
    by_cases hused : state.usedMs.isSome
    · rw [if_pos hused]
      have hsome : state.usedMs ≠ none := Option.isSome_iff_ne_none.mp hused
      exact .denies (run_insertAudit_bind fun _ => rfl) (fun h => absurd h hsome) rfl rfl
    rw [if_neg hused]
    by_cases hexpired : state.expiresMs ≤ atMs
    · rw [if_pos hexpired]
      exact .denies (run_insertAudit_bind fun _ => rfl) (fun _ h => absurd h (not_lt.mpr hexpired))
        rfl rfl
    rw [if_neg hexpired]
    by_cases hmismatch : state.tenantId ≠ expectedTenantId
    · rw [if_pos hmismatch]
      exact .denies (run_insertAudit_bind fun _ => rfl) (fun _ _ h => absurd h hmismatch) rfl rfl
    rw [if_neg hmismatch, run_getActor_bind]
    cases hactor : db.actors.find state.actorId with
    | none =>
      rw [run_orNotFound_none_bind]
      refine .missing _ (fun h => ?_) rfl
      have hsome := h (Option.not_isSome_iff_eq_none.mp hused) (not_le.mp hexpired)
        (not_not.mp hmismatch)
      simp at hsome
    | some actor =>
      rw [orNotFound_some_bind]
      by_cases hforeign : actor.tenantId ≠ state.tenantId
      · rw [if_pos hforeign]
        exact .denies (run_insertAudit_bind fun _ => rfl) (fun _ _ _ => rfl) rfl rfl
      -- the state is used up before the outcome is recorded
      have hafter : ∃ state', ((Access.useOauthState state.id atMs).next db).oauthStates.find state.id =
          some state' := by
        have hrow := Rows.find_of_mem db.oauthStates (List.mem_of_find?_eq_some hfound)
        have hupdate := Rows.find_update (p := fun s => s.id = state.id ∧ s.usedMs = none)
          db.oauthStates (OAuthStateRecord.id_used atMs) state.id
        rw [hrow, Option.map_some] at hupdate
        exact ⟨_, hupdate⟩
      obtain ⟨state', hafter⟩ := hafter
      rw [if_neg hforeign, run_useOauthState_bind, check_ok_bind, run_getOauthState_bind, hafter,
        orNotFound_some_bind]
      exact .allows (run_insertAudit_bind fun _ => rfl) (fun _ _ _ => rfl) rfl rfl rfl

/-! ## Main results -/

theorem Resolve.settles {call : Resolve} (h : call.Filled) :
    Settles db (call.entryId crypto db) (call.Resolvable crypto db) (call.run crypto db) := by
  cases call with
  | session =>
    obtain ⟨htoken, htenant, htrace⟩ := h
    rw [Resolve.run, Resolve.op, Op.prog, Prog.run_map]
    exact (resolveSession_settles htoken htenant htrace).map _
  | apiKey =>
    obtain ⟨hkey, htenant, htrace⟩ := h
    rw [Resolve.run, Resolve.op, Op.prog, Prog.run_map]
    exact (resolveApiKey_settles hkey htenant htrace).map _
  | oauth =>
    obtain ⟨hstate, htenant, htrace⟩ := h
    rw [Resolve.run, Resolve.op, Op.prog, Prog.run_map]
    exact (resolveOauthCallback_settles hstate htenant htrace).map _

/-- A call agrees with the log just when nothing is missing and the id of its entry is free. -/
theorem agrees_iff {call : Resolve} (h : call.Filled) :
    Agrees crypto db call ↔ Recordable crypto db call := by
  have hlength : ∀ {event : AuthAuditEvent}, db.audit.rows ≠ db.audit.rows ++ [event] := by
    intro event heq
    simpa using congrArg List.length heq
  cases call.settles h with
  | missing err hmissing heq =>
    refine iff_of_false ?_ fun hrecordable => hmissing hrecordable.1
    rintro ⟨⟨event, happended, -⟩, -⟩
    rw [heq] at happended
    exact hlength happended
  | denied event err hresolvable hid hstatus heq =>
    rw [Recordable, ← hid]
    by_cases hfree : db.audit.find event.id = none
    · obtain ⟨audit, haudited, hrows⟩ := audited_of_free (.error err) hfree
      rw [haudited] at heq
      refine iff_of_true ⟨⟨event, ?_, ?_⟩, fun _ => ?_⟩ ⟨hresolvable, hfree⟩
      · rw [heq]
        exact hrows
      · rw [heq, hstatus]
        simp [Except.isOk, Except.toBool]
      · rw [heq]
    · obtain ⟨err', haudited⟩ := audited_of_taken (.error err) hfree
      rw [haudited] at heq
      refine iff_of_false ?_ fun h => hfree h.2
      rintro ⟨⟨event', happended, -⟩, -⟩
      rw [heq] at happended
      exact hlength happended
  | allowed event outcome marked hresolvable hid hstatus haudit heq =>
    rw [Recordable, ← hid, ← haudit]
    by_cases hfree : marked.audit.find event.id = none
    · obtain ⟨audit, haudited, hrows⟩ := audited_of_free (.ok outcome) hfree
      rw [haudited] at heq
      refine iff_of_true ⟨⟨event, ?_, ?_⟩, fun herr => ?_⟩ ⟨hresolvable, hfree⟩
      · rw [heq, ← haudit]
        exact hrows
      · rw [heq, hstatus]
        simp [Except.isOk, Except.toBool]
      · rw [heq] at herr
        simp [Except.isOk, Except.toBool] at herr
    · -- the marks are set, and nothing is recorded
      obtain ⟨err, haudited⟩ := audited_of_taken (.ok outcome) hfree
      rw [haudited] at heq
      refine iff_of_false ?_ fun h => hfree h.2
      rintro ⟨⟨event', happended, -⟩, -⟩
      rw [heq, ← haudit] at happended
      simpa using congrArg List.length happended

/-- A call that is recordable takes the id of its entry. -/
theorem Recordable.taken {call : Resolve} (h : Recordable crypto db call) (hfilled : call.Filled) :
    (call.next crypto db).audit.find (call.entryId crypto db) ≠ none := by
  have hmem : ∀ {event : AuthAuditEvent} {audit : Rows AuthAuditEvent.id},
      audit.rows = db.audit.rows ++ [event] → audit.find event.id ≠ none := by
    intro event audit hrows
    rw [Rows.find_of_mem audit (r := event) (by simp [hrows])]
    exact Option.some_ne_none _
  cases call.settles hfilled with
  | missing err hmissing heq => exact absurd h.1 hmissing
  | denied event err hresolvable hid hstatus heq =>
    have hfree := h.2
    rw [← hid] at hfree
    obtain ⟨audit, haudited, hrows⟩ := audited_of_free (.error err) hfree
    rw [Resolve.next, heq, haudited, ← hid]
    exact hmem hrows
  | allowed event outcome marked hresolvable hid hstatus haudit heq =>
    have hfree := h.2
    rw [← hid, ← haudit] at hfree
    obtain ⟨audit, haudited, hrows⟩ := audited_of_free (.ok outcome) hfree
    rw [Resolve.next, heq, haudited, ← hid]
    exact hmem (by rw [hrows, haudit])

/-- The calls of a sequence agree with the log just when each of them is recordable. -/
theorem agrees_iff_recordable (crypto : Crypto) (db : AuthDb) (calls : List Resolve)
    (hcalls : ∀ call ∈ calls, call.Filled) :
    Calls.Throughout (Resolve.next crypto) (Agrees crypto) calls db ↔
      Calls.Throughout (Resolve.next crypto) (Recordable crypto) calls db :=
  Calls.throughout_iff_of_inv (I := fun _ => True) (fun _ call hcall _ => agrees_iff (hcalls call hcall))
    (fun _ _ _ _ _ => trivial) trivial

/-- An actor who has been sent to a provider. -/
def consented (crypto : Crypto) : AuthDb :=
  { AuthDb.empty with
    actors := ⟨[user], List.nodup_singleton _⟩
    oauthStates := ⟨[⟨"oauth-1", "github", "org-1", "user-1", crypto.hashOauthState "raw-state",
      "pkce-1", "sha256:nonce", 5000, "replay-1", none, 1000, 1000⟩], List.nodup_singleton _⟩ }

theorem agrees_two_traces :
    Calls.Throughout (Resolve.next plain) (Agrees plain)
      [.oauth "raw-state" "org-2" "trace-1" 2000 2000, .oauth "raw-state" "org-1" "trace-2" 2000 2000]
      (consented plain) := by
  refine (agrees_iff_recordable plain (consented plain) _ ?_).mpr ⟨⟨?_, ?_⟩, ⟨?_, ?_⟩, trivial⟩
  · decide +kernel
  · show ∀ s ∈ oauthStateOf plain (consented plain) "raw-state", _
    decide +kernel
  · decide +kernel
  · show ∀ s ∈ oauthStateOf plain (Resolve.next plain (consented plain) _) "raw-state", _
    decide +kernel
  · decide +kernel

/-- A callback that comes in the same millisecond and trace as a denied one uses the state up, and
fails. -/
theorem not_agrees_same_trace :
    ¬ ∃ crypto, Calls.Throughout (Resolve.next crypto) (Agrees crypto)
      [.oauth "raw-state" "org-2" "trace-1" 2000 2000, .oauth "raw-state" "org-1" "trace-1" 2000 2000]
      (consented crypto) := by
  rintro ⟨crypto, hfirst, hsecond, -⟩
  have hfilled : ∀ tenantId, ¬ blank tenantId →
      (Resolve.oauth "raw-state" tenantId "trace-1" 2000 2000).Filled := fun _ htenant =>
    ⟨by decide +kernel, htenant, by decide +kernel⟩
  have htaken := ((agrees_iff (hfilled "org-2" (by decide +kernel))).mp hfirst).taken
    (hfilled "org-2" (by decide +kernel))
  exact htaken ((agrees_iff (hfilled "org-1" (by decide +kernel))).mp hsecond).2

end Corvid.Auth
