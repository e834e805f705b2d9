import Corvid.Auth.Access

/-!
# Revoked sessions and API keys

Calls of the runtime one after another, from any tables on. A revoked API key is never resolved
again. A revoked session is not either, unless it is rotated, which takes the revocation back.

## Main definitions

* `history`: the calls of a sequence, with the tables before each of them
* `reinstates`: a rotation of a revoked session
* `Sound`: revocations are permanent, and what is resolved is in order

## Main results

* `sound_of_not_reinstates`: without such rotations the calls are sound
* `rotation_reinstates`: with them they are not
-/

namespace Corvid.Auth

open Store
open Queue (blank)
open Relational (Rows)

/-! ### Calls -/

/-- A call, with the tables before it. -/
structure Event where
  before : AuthDb
  op : Op

section Calls

variable (crypto : Crypto)

def Event.result (e : Event) : Except RuntimeError Outcome :=
  ((e.op.prog crypto).run Access.exec e.before).1

def Event.after (e : Event) : AuthDb := ((e.op.prog crypto).run Access.exec e.before).2

/-- The calls of a sequence. -/
def history : AuthDb → List Op → List Event
  | _, [] => []
  | db, op :: ops => ⟨db, op⟩ :: history (Event.after crypto ⟨db, op⟩) ops

/-- The call rotates a revoked session: it passes the checks of `rotate_session`, and the new token is
not that of another session. -/
def reinstates (e : Event) : Bool :=
  match e.op with
  | .rotateSession id token newExpiresMs _ =>
    (e.before.sessions.find id).any fun session =>
      session.revokedMs.isSome && !blank id && !blank token && session.issuedMs < newExpiresMs &&
        !e.before.sessions.rows.any fun s =>
          s.id ≠ id ∧ s.tokenHash = crypto.hashSessionSecret token
  | _ => false

/-- Revocations are permanent, and what is resolved is in order. -/
structure Sound (events : List Event) : Prop where
  /-- after a revocation no call resolves the session -/
  session : ∀ pre e post id atMs record, events = pre ++ e :: post →
    e.op = .revokeSession id atMs → e.result crypto = .ok (.session record) →
    ∀ e' ∈ post, ∀ rawToken tenantId traceId replayKey atMs now resolution,
      e'.op = .resolveSession rawToken tenantId traceId replayKey atMs now →
      e'.result crypto = .ok (.sessionResolution resolution) → resolution.session.id ≠ id
  apiKey : ∀ pre e post id atMs record, events = pre ++ e :: post →
    e.op = .revokeApiKey id atMs → e.result crypto = .ok (.apiKey record) →
    ∀ e' ∈ post, ∀ rawKey tenantId traceId replayKey atMs now resolution,
      e'.op = .resolveApiKey rawKey tenantId traceId replayKey atMs now →
      e'.result crypto = .ok (.apiKeyResolution resolution) → resolution.apiKey.id ≠ id
  /-- a session that is resolved has not expired, and the tenants agree -/
  resolvedSession : ∀ e ∈ events, ∀ rawToken tenantId traceId replayKey atMs now resolution,
    e.op = .resolveSession rawToken tenantId traceId replayKey atMs now →
    e.result crypto = .ok (.sessionResolution resolution) →
    e.before.sessions.find resolution.session.id = some resolution.session ∧
      e.before.actors.find resolution.session.actorId = some resolution.actor ∧
      atMs < resolution.session.expiresMs ∧ resolution.session.tenantId = tenantId ∧
      resolution.actor.tenantId = tenantId
  resolvedApiKey : ∀ e ∈ events, ∀ rawKey tenantId traceId replayKey atMs now resolution,
    e.op = .resolveApiKey rawKey tenantId traceId replayKey atMs now →
    e.result crypto = .ok (.apiKeyResolution resolution) →
    (e.after crypto).apiKeys.find resolution.apiKey.id = some resolution.apiKey ∧
      e.before.actors.find resolution.apiKey.serviceActorId = some resolution.actor ∧
      atMs < resolution.apiKey.expiresMs ∧ resolution.apiKey.tenantId = tenantId ∧
      resolution.actor.tenantId = tenantId

end Calls

variable {crypto : Crypto} {db db' : AuthDb} {id : String}

/-! ### Sequences of calls -/

/-- What the calls preserve holds before each of them. -/
theorem before_of_mem_history {I : AuthDb → Prop} {ops : List Op}
    (hstep : ∀ e ∈ history crypto db ops, I e.before → I (e.after crypto)) (hdb : I db) :
    ∀ e ∈ history crypto db ops, I e.before := by
  induction ops generalizing db with
  | nil => exact fun e he => absurd he List.not_mem_nil
  | cons op ops ih =>
    intro e he
    rcases List.mem_cons.mp he with rfl | he
    · exact hdb
    · refine ih (fun e he => hstep e (List.mem_cons_of_mem _ he)) ?_ e he
      exact hstep ⟨db, op⟩ List.mem_cons_self hdb

/-- The calls after a call are a sequence of their own. -/
theorem history_split {ops : List Op} {pre post : List Event} {e : Event}
    (h : history crypto db ops = pre ++ e :: post) :
    ∃ ops', post = history crypto (e.after crypto) ops' := by
  induction ops generalizing db pre with
  | nil => simp [history] at h
  | cons op ops ih =>
    rw [history] at h
    cases pre with
    | nil =>
      obtain ⟨rfl, rfl⟩ := List.cons.inj h
      exact ⟨ops, rfl⟩
    | cons e' pre => exact ih (List.cons.inj h).2

theorem Event.result_eq_ok {e : Event} {outcome : Outcome} (h : e.result crypto = .ok outcome) :
    (e.op.prog crypto).run Access.exec e.before = (.ok outcome, e.after crypto) :=
  Prod.ext h rfl

/-! ### Revoked sessions -/

def SessionRevoked (db : AuthDb) (id : String) : Prop :=
  ∃ session, db.sessions.find id = some session ∧ session.revokedMs ≠ none

theorem SessionRevoked.next {q : Access} (h : SessionRevoked db id)
    (hq : ∀ tokenHash expiresMs now, q = .rotateSession id tokenHash expiresMs now →
      db.sessions.rows.any fun s => s.id ≠ id ∧ s.tokenHash = tokenHash) :
    SessionRevoked (q.next db) id := by
  obtain ⟨session, hfind, hrevoked⟩ := h
  rcases q.session_next db id with hsame | ⟨_, -, -, hnone, -⟩ | ⟨_, _, _, rfl, hfree⟩ | ⟨_, rfl, hmap⟩
  · exact ⟨session, hsame.trans hfind, hrevoked⟩
  · rw [hnone] at hfind
    cases hfind
  · exact absurd (hq _ _ _ rfl) hfree
  · rw [hfind] at hmap
    exact ⟨_, hmap, Option.some_ne_none _⟩

variable (crypto) in
/-- A rotation either stops at one of its checks or issues its statement. -/
theorem rotateSession_run (id token : String) (expiresMs now : ℕ) (db : AuthDb) :
    ((rotateSession crypto id token expiresMs now).run Access.exec db).2 = db ∨
      ∃ session, ¬ blank id ∧ ¬ blank token ∧ db.sessions.find id = some session ∧
        session.issuedMs < expiresMs ∧
        ((rotateSession crypto id token expiresMs now).run Access.exec db).2 =
          (Access.rotateSession id (crypto.hashSessionSecret token) expiresMs now).next db := by
  unfold rotateSession validateNonEmpty
  by_cases hid : blank id = true
  · rw [if_pos hid]
    exact .inl rfl
  by_cases htoken : blank token = true
  · rw [if_neg hid, if_pos htoken]
    exact .inl rfl
  rw [if_neg hid, if_neg htoken]
  cases hfind : db.sessions.find id with
  | none =>
    left
    show (Prog.run Access.exec (orNotFound _ (db.sessions.find id) >>= _) db).2 = db
    rw [hfind]
    rfl
  | some session =>
    by_cases hexp : expiresMs ≤ session.issuedMs
    · left
      show (Prog.run Access.exec (orNotFound _ (db.sessions.find id) >>= _) db).2 = db
      rw [hfind]
      show (Prog.run Access.exec (ite _ _ _) db).2 = db
      rw [if_pos hexp]
      rfl
    · refine .inr ⟨session, hid, htoken, rfl, by omega, ?_⟩
      show (Prog.run Access.exec (orNotFound _ (db.sessions.find id) >>= _) db).2 = _
      rw [hfind]
      show (Prog.run Access.exec (ite _ _ _) db).2 = _
      rw [if_neg hexp]
      show (Prog.run Access.exec (check (Access.done _ db) >>= _) _).2 = _
      cases Access.done _ db with
      | error err => rfl
      | ok u =>
        show (Prog.run Access.exec (orNotFound _ (Rows.find _ id)) _).2 = _
        cases Rows.find _ id <;> rfl

theorem SessionRevoked.after {e : Event} (h : SessionRevoked e.before id)
    (hkept : reinstates crypto e = false) : SessionRevoked (e.after crypto) id := by
  by_cases hop : ∃ token expiresMs now, e.op = .rotateSession id token expiresMs now
  · obtain ⟨token, expiresMs, now, hop⟩ := hop
    have hafter : e.after crypto =
        ((rotateSession crypto id token expiresMs now).run Access.exec e.before).2 := by
      rw [Event.after, hop]
      exact Prog.run_map_snd ..
    rw [hafter]
    rcases rotateSession_run crypto id token expiresMs now e.before with
      hsame | ⟨session, hid, htoken, hfind, hexp, hnext⟩
    · rwa [hsame]
    · rw [hnext]
      refine h.next fun tokenHash expiresMs' now' heq => ?_
      cases heq
      -- otherwise the rotation takes the revocation back
      by_contra hfree
      obtain ⟨session', hfind', hrevoked⟩ := h
      rw [hfind] at hfind'
      cases hfind'
      have hsome : session.revokedMs.isSome = true := Option.isSome_iff_ne_none.mpr hrevoked
      rw [reinstates, hop] at hkept
      dsimp only at hkept
      rw [hfind, Option.any_some, hsome, Bool.eq_false_iff.mpr hid, Bool.eq_false_iff.mpr htoken,
        decide_eq_true hexp, Bool.eq_false_iff.mpr hfree] at hkept
      cases hkept
  · have hstep : ∀ db q, SessionRevoked db id → (q.quiet ∨ e.op.Writes crypto q) →
        SessionRevoked (q.exec db).2 id := by
      intro db q hdb hq
      refine hdb.next fun tokenHash expiresMs now heq => ?_
      subst heq
      rcases hq with hq | hq
      · cases hq
      · exact absurd (Op.rotates_of_writes hq) hop
    exact Prog.run_inv hstep (Prog.along_of_all (fun _ _ hq => hq) (all_writes e.op) _) h

/-! ### Revoked API keys -/

def ApiKeyRevoked (db : AuthDb) (id : String) : Prop :=
  ∃ key, db.apiKeys.find id = some key ∧ key.revokedMs ≠ none

/-- No statement takes the revocation of an API key back. -/
theorem ApiKeyRevoked.next (h : ApiKeyRevoked db id) (q : Access) : ApiKeyRevoked (q.next db) id := by
  obtain ⟨key, hfind, hrevoked⟩ := h
  rcases q.apiKey_next db id with hsame | ⟨_, -, -, hnone, -⟩ | ⟨_, -, hmap⟩ | ⟨_, -, hmap⟩
  · exact ⟨key, hsame.trans hfind, hrevoked⟩
  · rw [hnone] at hfind
    cases hfind
  · rw [hfind] at hmap
    exact ⟨_, hmap, hrevoked⟩
  · rw [hfind] at hmap
    exact ⟨_, hmap, Option.some_ne_none _⟩

theorem ApiKeyRevoked.after {e : Event} (h : ApiKeyRevoked e.before id) :
    ApiKeyRevoked (e.after crypto) id := by
  have hstep : ∀ db q, ApiKeyRevoked db id → (q.quiet ∨ e.op.Writes crypto q) →
      ApiKeyRevoked (q.exec db).2 id := fun db q hdb _ => hdb.next q
  exact Prog.run_inv hstep (Prog.along_of_all (fun _ _ hq => hq) (all_writes e.op) _) h

/-! ### What the operations return -/

section Results

variable {α : Type} {message : String} {o : Option α} {db₁ db₂ : AuthDb}

theorem orNotFound_bind_eq_ok {β : Type} {f : α → AuthM β} {b : β} :
    (orNotFound message o >>= f).run Access.exec db₁ = (.ok b, db₂) ↔
      ∃ a, o = some a ∧ (f a).run Access.exec db₁ = (.ok b, db₂) := by
  cases o with
  | none =>
    constructor
    · intro h
      cases h
    · rintro ⟨_, h, -⟩
      cases h
  | some a =>
    constructor
    · exact fun h => ⟨a, rfl, h⟩
    · rintro ⟨_, ⟨⟩, h⟩
      exact h

theorem orNotFound_eq_ok {a : α} :
    (orNotFound message o).run Access.exec db₁ = (.ok a, db₂) ↔ o = some a ∧ db₁ = db₂ := by
  cases o with
  | none =>
    constructor
    · intro h
      cases h
    · rintro ⟨h, -⟩
      cases h
  | some a' =>
    constructor
    · rintro ⟨⟩
      exact ⟨rfl, rfl⟩
    · rintro ⟨⟨⟩, rfl⟩
      rfl

/-- A denial is never an answer. -/
theorem not_denied_eq_ok {p : AuthM Unit} {a : α} :
    (p >>= fun _ => other message).run Access.exec db₁ ≠ (.ok a, db₂) := by
  intro h
  obtain ⟨u, s, -, h⟩ := Prog.run_bind_eq_ok.mp h
  cases h

end Results

theorem revokeSession_run_eq_ok {atMs : ℕ} {record : SessionRecord}
    (h : (revokeSession id atMs).run Access.exec db = (.ok record, db')) : SessionRevoked db' id := by
  obtain ⟨_, -, h⟩ := Prog.run_ofExcept_bind_eq_ok.mp h
  obtain ⟨_, -, h⟩ := Prog.run_ofExcept_bind_eq_ok.mp h
  obtain ⟨hfind, rfl⟩ := orNotFound_eq_ok.mp h
  obtain ⟨session, -, rfl⟩ :=
    Option.map_eq_some_iff.mp ((Access.find_revokeSession id atMs db).symm.trans hfind)
  exact ⟨_, hfind, Option.some_ne_none atMs⟩

theorem revokeApiKey_run_eq_ok {atMs : ℕ} {record : ApiKeyRecord}
    (h : (revokeApiKey id atMs).run Access.exec db = (.ok record, db')) : ApiKeyRevoked db' id := by
  obtain ⟨_, -, h⟩ := Prog.run_ofExcept_bind_eq_ok.mp h
  obtain ⟨_, -, h⟩ := Prog.run_ofExcept_bind_eq_ok.mp h
  obtain ⟨hfind, rfl⟩ := orNotFound_eq_ok.mp h
  obtain ⟨key, -, rfl⟩ :=
    Option.map_eq_some_iff.mp ((Access.find_revokeApiKey id atMs db).symm.trans hfind)
  exact ⟨_, hfind, Option.some_ne_none atMs⟩

theorem resolveSession_run_eq_ok {rawToken tenantId traceId replayKey : String} {atMs now : ℕ}
    {resolution : SessionResolution}
    (h : (resolveSession crypto rawToken tenantId traceId replayKey atMs now).run Access.exec db =
      (.ok resolution, db')) :
    db.sessions.find resolution.session.id = some resolution.session ∧
      db.actors.find resolution.session.actorId = some resolution.actor ∧
      resolution.session.revokedMs = none ∧ atMs < resolution.session.expiresMs ∧
      resolution.session.tenantId = tenantId ∧ resolution.actor.tenantId = tenantId := by
  obtain ⟨_, -, h⟩ := Prog.run_ofExcept_bind_eq_ok.mp h
  obtain ⟨_, -, h⟩ := Prog.run_ofExcept_bind_eq_ok.mp h
  obtain ⟨_, -, h⟩ := Prog.run_ofExcept_bind_eq_ok.mp h
  obtain ⟨o, s, hfound, h⟩ := Prog.run_bind_eq_ok.mp h
  cases hfound
  split at h
  next => exact absurd h not_denied_eq_ok
  next session hfound =>
    split at h
    next => exact absurd h not_denied_eq_ok
    next hrevoked =>
      split at h
      next => exact absurd h not_denied_eq_ok
      next hexpires =>
        split at h
        next => exact absurd h not_denied_eq_ok
        next htenant =>
          obtain ⟨o, s, hactor, h⟩ := Prog.run_bind_eq_ok.mp h
          cases hactor
          obtain ⟨actor, hactor, h⟩ := orNotFound_bind_eq_ok.mp h
          split at h
          next => exact absurd h not_denied_eq_ok
          next hactorTenant =>
            obtain ⟨_, _, -, h⟩ := Prog.run_bind_eq_ok.mp h
            cases h
            have hmem : session ∈ db.sessions.rows := List.mem_of_find?_eq_some hfound
            refine ⟨Rows.find_of_mem _ hmem, hactor, by simpa using hrevoked, not_le.mp hexpires,
              not_not.mp htenant, ?_⟩
            exact (not_not.mp hactorTenant).trans (not_not.mp htenant)

theorem insertAudit_run_apiKeys {now : ℕ} {eventKind traceId status reason : String}
    {actorId tenantId sessionId apiKeyId : Option String} (db : AuthDb) :
    ((insertAudit crypto now eventKind actorId tenantId sessionId apiKeyId traceId status
      reason).run Access.exec db).2.apiKeys = db.apiKeys := by
  have hnext : ∀ event, ((Access.insertAudit event).next db).apiKeys = db.apiKeys := by
    intro event
    cases hw : (Access.insertAudit event).write db with
    | error err => rw [Access.next_of_error hw]
    | ok db' =>
      obtain ⟨audit, -, rfl⟩ := Access.exists_insert hw
      rw [Access.next_of_ok hw]
  show ((check (Access.done _ db)).run Access.exec (Access.next _ db)).2.apiKeys = _
  cases Access.done _ db <;> exact hnext _

theorem matchingKey_mem {rawKey : String} {keys : List ApiKeyRecord} {key : ApiKeyRecord}
    (h : matchingKey crypto rawKey keys = .ok (some key)) : key ∈ keys := by
  induction keys with
  | nil => cases h
  | cons k keys ih =>
    obtain ⟨verified, -, h⟩ := Result.bind_eq_ok.mp h
    split at h
    next =>
      cases h
      exact List.mem_cons_self
    next => exact List.mem_cons_of_mem _ (ih h)

theorem resolveApiKey_run_eq_ok {rawKey tenantId traceId replayKey : String} {atMs now : ℕ}
    {resolution : ApiKeyResolution}
    (h : (resolveApiKey crypto rawKey tenantId traceId replayKey atMs now).run Access.exec db =
      (.ok resolution, db')) :
    (∃ key, db.apiKeys.find resolution.apiKey.id = some key ∧ key.revokedMs = none) ∧
      db'.apiKeys.find resolution.apiKey.id = some resolution.apiKey ∧
      db.actors.find resolution.apiKey.serviceActorId = some resolution.actor ∧
      atMs < resolution.apiKey.expiresMs ∧ resolution.apiKey.tenantId = tenantId ∧
      resolution.actor.tenantId = tenantId := by
  obtain ⟨_, -, h⟩ := Prog.run_ofExcept_bind_eq_ok.mp h
  obtain ⟨_, -, h⟩ := Prog.run_ofExcept_bind_eq_ok.mp h
  obtain ⟨_, -, h⟩ := Prog.run_ofExcept_bind_eq_ok.mp h
  obtain ⟨keys, s, hkeys, h⟩ := Prog.run_bind_eq_ok.mp h
  cases hkeys
  obtain ⟨o, hmatch, h⟩ := Prog.run_ofExcept_bind_eq_ok.mp h
  split at h
  next key =>
    obtain ⟨hmem, hlisted⟩ := List.mem_filter.mp (matchingKey_mem hmatch)
    have hfound : db.apiKeys.find key.id = some key := Rows.find_of_mem _ hmem
    unfold resolveApiKeyRecord at h
    split at h
    next => exact absurd h not_denied_eq_ok
    next hrevoked =>
      split at h
      next => exact absurd h not_denied_eq_ok
      next hexpires =>
        split at h
        next => exact absurd h not_denied_eq_ok
        next htenant =>
          obtain ⟨o, s, hactor, h⟩ := Prog.run_bind_eq_ok.mp h
          cases hactor
          obtain ⟨actor, hactor, h⟩ := orNotFound_bind_eq_ok.mp h
          split at h
          next => exact absurd h not_denied_eq_ok
          next hactorTenant =>
            split at h
            next => exact absurd h not_denied_eq_ok
            next =>
              obtain ⟨_, -, h⟩ := Prog.run_ofExcept_bind_eq_ok.mp h
              obtain ⟨o, s, hused, h⟩ := Prog.run_bind_eq_ok.mp h
              cases hused
              obtain ⟨used, hused, h⟩ := orNotFound_bind_eq_ok.mp h
              obtain ⟨_, s, haudit, h⟩ := Prog.run_bind_eq_ok.mp h
              cases h
              have hused' := (Access.find_useApiKey key.id atMs db).symm.trans hused
              rw [hfound, Option.map_some] at hused'
              cases hused'
              have hkeys := congrArg AuthDb.apiKeys (congrArg Prod.snd haudit)
              rw [insertAudit_run_apiKeys] at hkeys
              refine ⟨⟨key, hfound, by simpa using hrevoked⟩, ?_, hactor, not_le.mp hexpires,
                not_not.mp htenant, (not_not.mp hactorTenant).trans (not_not.mp htenant)⟩
              rw [← hkeys]
              exact hused
  next => exact absurd h not_denied_eq_ok

/-! ### Soundness -/

/-- **Revocations are permanent** unless a revoked session is rotated. -/
theorem sound_of_not_reinstates (crypto : Crypto) (db : AuthDb) (ops : List Op)
    (h : ∀ e ∈ history crypto db ops, reinstates crypto e = false) :
    Sound crypto (history crypto db ops) where
  session := by
    intro pre e post id atMs record hsplit hop hok e' he' rawToken tenantId traceId replayKey atMs' now
      resolution hop' hok'
    obtain ⟨ops', rfl⟩ := history_split hsplit
    have hrun := e.result_eq_ok hok
    rw [hop] at hrun
    obtain ⟨_, hrevoke, -⟩ := Prog.run_map_eq_ok.mp hrun
    have hrevoked := revokeSession_run_eq_ok hrevoke
    have hbefore : SessionRevoked e'.before id := by
      refine before_of_mem_history (I := fun db => SessionRevoked db id) (fun e'' he'' hdb => ?_)
        hrevoked e' he'
      refine hdb.after (h e'' ?_)
      rw [hsplit]
      exact List.mem_append_right _ (List.mem_cons_of_mem _ he'')
    have hrun' := e'.result_eq_ok hok'
    rw [hop'] at hrun'
    obtain ⟨_, hresolve, heq⟩ := Prog.run_map_eq_ok.mp hrun'
    cases heq
    obtain ⟨hfind, -, hnone, -⟩ := resolveSession_run_eq_ok hresolve
    rintro rfl
    obtain ⟨session, hfind', hsome⟩ := hbefore
    rw [hfind] at hfind'
    cases hfind'
    exact hsome hnone
  apiKey := by
    intro pre e post id atMs record hsplit hop hok e' he' rawKey tenantId traceId replayKey atMs' now
      resolution hop' hok'
    obtain ⟨ops', rfl⟩ := history_split hsplit
    have hrun := e.result_eq_ok hok
    rw [hop] at hrun
    obtain ⟨_, hrevoke, -⟩ := Prog.run_map_eq_ok.mp hrun
    have hbefore : ApiKeyRevoked e'.before id :=
      before_of_mem_history (I := fun db => ApiKeyRevoked db id) (fun _ _ hdb => hdb.after)
        (revokeApiKey_run_eq_ok hrevoke) e' he'
    have hrun' := e'.result_eq_ok hok'
    rw [hop'] at hrun'
    obtain ⟨_, hresolve, heq⟩ := Prog.run_map_eq_ok.mp hrun'
    cases heq
    obtain ⟨⟨key, hfind, hnone⟩, -⟩ := resolveApiKey_run_eq_ok hresolve
    rintro rfl
    obtain ⟨key', hfind', hsome⟩ := hbefore
    rw [hfind] at hfind'
    cases hfind'
    exact hsome hnone
  resolvedSession := by
    intro e he rawToken tenantId traceId replayKey atMs now resolution hop hok
    have hrun := e.result_eq_ok hok
    rw [hop] at hrun
    obtain ⟨_, hresolve, heq⟩ := Prog.run_map_eq_ok.mp hrun
    cases heq
    obtain ⟨hfind, hactor, -, hexpires, htenants⟩ := resolveSession_run_eq_ok hresolve
    exact ⟨hfind, hactor, hexpires, htenants⟩
  resolvedApiKey := by
    intro e he rawKey tenantId traceId replayKey atMs now resolution hop hok
    have hrun := e.result_eq_ok hok
    rw [hop] at hrun
    obtain ⟨_, hresolve, heq⟩ := Prog.run_map_eq_ok.mp hrun
    cases heq
    exact (resolveApiKey_run_eq_ok hresolve).2

/-! ### A session that is rotated after its revocation -/

/-- Hash functions that a test can follow. -/
def plain : Crypto where
  sha256 s := String.ofList s.toList.reverse
  hashPassword _ raw := .ok raw
  verifyPassword raw encodedHash := .ok (raw = encodedHash)

def user : AuthActor where
  id := "user-1"
  tenantId := "org-1"
  displayName := "Ada"
  actorKind := "user"
  authMethod := "session"
  assuranceLevel := "aal1"
  roleFingerprint := "sha256:roles"
  permissionFingerprint := "sha256:permissions"
  createdMs := 1
  updatedMs := 1

def newSession : SessionCreate where
  id := "sess-1"
  actorId := "user-1"
  tenantId := "org-1"
  rawToken := "old-secret"
  issuedMs := 1000
  expiresMs := 5000
  csrfBindingId := "csrf-1"

def revokeThen (op : Op) : List Op := [
  .upsertActor user 1,
  .createSession newSession 1000,
  .revokeSession "sess-1" 1600,
  op,
  .resolveSession "new-secret" "org-1" "trace-1" "replay-1" 2000 2000]

theorem sound_revokeThen : Sound plain
    (history plain .empty (revokeThen (.rotateSession "sess-2" "new-secret" 8000 1700))) := by
  refine sound_of_not_reinstates plain .empty _ fun e he => ?_
  have hall : (history plain .empty (revokeThen (.rotateSession "sess-2" "new-secret" 8000 1700))).all
      (fun e => !reinstates plain e) = true := by
    decide +kernel
  exact Bool.not_eq_true' _ |>.mp (List.all_eq_true.mp hall e he)

/-- The call revokes, or resolves, the session of the example. -/
def Event.revokesExample (e : Event) : Bool :=
  match e.op, e.result plain with
  | .revokeSession id _, .ok (.session _) => id = "sess-1"
  | _, _ => false

def Event.resolvesExample (e : Event) : Bool :=
  match e.op, e.result plain with
  | .resolveSession .., .ok (.sessionResolution resolution) => resolution.session.id = "sess-1"
  | _, _ => false

/-- A rotation takes a revocation back. -/
theorem rotation_reinstates : ¬ ∀ crypto db ops, Sound crypto (history crypto db ops) := by
  intro h
  have hsound := h plain .empty (revokeThen (.rotateSession "sess-1" "new-secret" 8000 1700))
  have hchecks : (history plain .empty (revokeThen
      (.rotateSession "sess-1" "new-secret" 8000 1700))).map
      (fun e => (e.revokesExample, e.resolvesExample)) =
      [(false, false), (false, false), (true, false), (false, false), (false, true)] := by
    decide +kernel
  obtain ⟨e₀, e₁, e₂, e₃, e₄, hevents⟩ : ∃ e₀ e₁ e₂ e₃ e₄, history plain .empty (revokeThen
      (.rotateSession "sess-1" "new-secret" 8000 1700)) = [e₀, e₁, e₂, e₃, e₄] :=
    ⟨_, _, _, _, _, rfl⟩
  rw [hevents] at hsound hchecks
  simp only [List.map_cons, List.map_nil, List.cons.injEq, Prod.mk.injEq] at hchecks
  obtain ⟨-, -, ⟨hrevokes, -⟩, -, ⟨-, hresolves⟩, -⟩ := hchecks
  unfold Event.revokesExample at hrevokes
  split at hrevokes
  next id atMs record hop hok =>
    unfold Event.resolvesExample at hresolves
    split at hresolves
    next resolution hop' hok' =>
      refine hsound.session [e₀, e₁] e₂ [e₃, e₄] id atMs record rfl hop hok e₄ (by simp) _ _ _ _ _ _
        resolution hop' hok' ?_
      exact (of_decide_eq_true hresolves).trans (of_decide_eq_true hrevokes).symm
    next => cases hresolves
  next => cases hrevokes

end Corvid.Auth
