import Corvid.Auth.Runtime
import Corvid.Lib.Result

/-!
# What the statements do

The row of a session, of an API key or of an OAuth state after a statement, and which of these an
operation issues. Rows are never deleted.

## Main definitions

* `Op.Writes`: what an operation may write

## Main results

* `Access.session_next`, `Access.apiKey_next`, `Access.oauthState_next`: the row with an id after a
  statement
* `all_writes`: an operation writes what it may write
-/

namespace Corvid.Auth

open Store
open Relational (Rows)

variable {crypto : Crypto} {db db' : AuthDb} {q : Access} {id : String}

theorem insertRow_eq_ok {ρ : Type} {key : ρ → String} {context table : String} {t t' : Rows key}
    {r : ρ} : insertRow context table t r = .ok t' ↔ t.insert r = some t' := by
  unfold insertRow
  split
  next t'' h => rw [h]; simp
  next h => rw [h]; simp [sqliteError]

namespace Access

theorem next_of_ok (h : q.write db = .ok db') : q.next db = db' := by rw [next, h]; rfl

theorem next_of_error {err : RuntimeError} (h : q.write db = .error err) : q.next db = db := by
  rw [next, h]; rfl

theorem done_eq_ok {u : Unit} : q.done db = .ok u ↔ ∃ db', q.write db = .ok db' := by
  rw [done]
  cases q.write db <;> simp [Except.map]

/-- A statement that writes to one table by inserting a row. -/
theorem exists_insert {ρ : Type} {key : ρ → String} {context table : String} {t : Rows key} {r : ρ}
    {f : Rows key → AuthDb} (h : (insertRow context table t r >>= fun t => pure (f t)) = .ok db') :
    ∃ t', t.insert r = some t' ∧ db' = f t' := by
  obtain ⟨t', hins, hdb⟩ := Result.bind_eq_ok.mp h
  exact ⟨t', insertRow_eq_ok.mp hins, (Except.ok.inj hdb).symm⟩

theorem find_revokeSession (id : String) (atMs : ℕ) (db : AuthDb) :
    ((revokeSession id atMs).next db).sessions.find id =
      (db.sessions.find id).map (.revoked atMs) :=
  (Rows.find_update_key db.sessions (SessionRecord.id_revoked atMs) id id).trans (if_pos rfl)

theorem find_useApiKey (id : String) (atMs : ℕ) (db : AuthDb) :
    ((useApiKey id atMs).next db).apiKeys.find id = (db.apiKeys.find id).map (.used atMs) :=
  (Rows.find_update_key db.apiKeys (ApiKeyRecord.id_used atMs) id id).trans (if_pos rfl)

theorem find_revokeApiKey (id : String) (atMs : ℕ) (db : AuthDb) :
    ((revokeApiKey id atMs).next db).apiKeys.find id = (db.apiKeys.find id).map (.revoked atMs) :=
  (Rows.find_update_key db.apiKeys (ApiKeyRecord.id_revoked atMs) id id).trans (if_pos rfl)

/-- The row of a session after a statement. -/
theorem session_next (q : Access) (db : AuthDb) (id : String) :
    (q.next db).sessions.find id = db.sessions.find id ∨
      (∃ session, q = insertSession session ∧ session.id = id ∧ db.sessions.find id = none ∧
        (q.next db).sessions.find id = some session) ∨
      (∃ tokenHash expiresMs now, q = rotateSession id tokenHash expiresMs now ∧
        ¬ db.sessions.rows.any fun s => s.id ≠ id ∧ s.tokenHash = tokenHash) ∨
      ∃ atMs, q = revokeSession id atMs ∧
        (q.next db).sessions.find id = (db.sessions.find id).map (.revoked atMs) := by
  cases hw : q.write db with
  | error err =>
    rw [next_of_error hw]
    exact .inl rfl
  | ok db' =>
    rw [next_of_ok hw]
    cases q with
    | insertSession session =>
      simp only [write] at hw
      split at hw
      next => cases hw
      next =>
        obtain ⟨sessions, hins, rfl⟩ := exists_insert hw
        have hfind := Rows.find_insert _ hins id
        split at hfind
        next hid =>
          obtain ⟨hnone, -⟩ := (Rows.insert_eq_some _).mp hins
          exact .inr (.inl ⟨session, rfl, hid.symm, hid ▸ hnone, hfind⟩)
        next => exact .inl hfind
    | rotateSession id' tokenHash expiresMs now =>
      simp only [write] at hw
      split at hw
      next => cases hw
      next hfree =>
        cases hw
        by_cases hid : id = id'
        · subst hid
          cases hfind : db.sessions.find id with
          | none =>
            left
            rw [Rows.find_update_key, if_pos rfl, hfind]
            rfl
          | some s =>
            rw [hfind] at hfree
            exact .inr (.inr (.inl ⟨tokenHash, expiresMs, now, rfl, fun h => hfree ⟨rfl, h⟩⟩))
        · left
          rw [Rows.find_update_key, if_neg hid]
    | revokeSession id' atMs =>
      cases hw
      by_cases hid : id = id'
      · subst hid
        exact .inr (.inr (.inr ⟨atMs, rfl, find_revokeSession id atMs db⟩))
      · left
        rw [Rows.find_update_key, if_neg hid]
    | insertApiKey key | insertAudit event =>
      obtain ⟨t', -, rfl⟩ := exists_insert hw
      exact .inl rfl
    | insertOauthState state =>
      simp only [write] at hw
      split at hw
      next => cases hw
      next =>
        obtain ⟨t', -, rfl⟩ := exists_insert hw
        exact .inl rfl
    | _ =>
      cases hw
      exact .inl rfl

/-- The row of an API key after a statement. -/
theorem apiKey_next (q : Access) (db : AuthDb) (id : String) :
    (q.next db).apiKeys.find id = db.apiKeys.find id ∨
      (∃ key, q = insertApiKey key ∧ key.id = id ∧ db.apiKeys.find id = none ∧
        (q.next db).apiKeys.find id = some key) ∨
      (∃ atMs, q = useApiKey id atMs ∧
        (q.next db).apiKeys.find id = (db.apiKeys.find id).map (.used atMs)) ∨
      ∃ atMs, q = revokeApiKey id atMs ∧
        (q.next db).apiKeys.find id = (db.apiKeys.find id).map (.revoked atMs) := by
  cases hw : q.write db with
  | error err =>
    rw [next_of_error hw]
    exact .inl rfl
  | ok db' =>
    rw [next_of_ok hw]
    cases q with
    | insertApiKey key =>
      obtain ⟨keys, hins, rfl⟩ := exists_insert hw
      have hfind := Rows.find_insert _ hins id
      split at hfind
      next hid =>
        obtain ⟨hnone, -⟩ := (Rows.insert_eq_some _).mp hins
        exact .inr (.inl ⟨key, rfl, hid.symm, hid ▸ hnone, hfind⟩)
      next => exact .inl hfind
    | useApiKey id' atMs =>
      cases hw
      by_cases hid : id = id'
      · subst hid
        exact .inr (.inr (.inl ⟨atMs, rfl, find_useApiKey id atMs db⟩))
      · left
        rw [Rows.find_update_key, if_neg hid]
    | revokeApiKey id' atMs =>
      cases hw
      by_cases hid : id = id'
      · subst hid
        exact .inr (.inr (.inr ⟨atMs, rfl, find_revokeApiKey id atMs db⟩))
      · left
        rw [Rows.find_update_key, if_neg hid]
    | insertAudit event =>
      obtain ⟨t', -, rfl⟩ := exists_insert hw
      exact .inl rfl
    | insertSession session | insertOauthState state | rotateSession id' tokenHash expiresMs now =>
      simp only [write] at hw
      split at hw
      next => cases hw
      next =>
        first
        | cases hw
          exact .inl rfl
        | obtain ⟨t', -, rfl⟩ := exists_insert hw
          exact .inl rfl
    | _ =>
      cases hw
      exact .inl rfl

/-- The row of an OAuth state after a statement. -/
theorem oauthState_next (q : Access) (db : AuthDb) (id : String) :
    (q.next db).oauthStates.find id = db.oauthStates.find id ∨
      (∃ state, q = insertOauthState state ∧ state.id = id ∧ db.oauthStates.find id = none ∧
        (q.next db).oauthStates.find id = some state) ∨
      ∃ atMs, q = useOauthState id atMs ∧ (q.next db).oauthStates.find id =
        (db.oauthStates.find id).map fun s => if s.usedMs = none then s.used atMs else s := by
  cases hw : q.write db with
  | error err =>
    rw [next_of_error hw]
    exact .inl rfl
  | ok db' =>
    rw [next_of_ok hw]
    cases q with
    | insertOauthState state =>
      simp only [write] at hw
      split at hw
      next => cases hw
      next =>
        obtain ⟨states, hins, rfl⟩ := exists_insert hw
        have hfind := Rows.find_insert _ hins id
        split at hfind
        next hid =>
          obtain ⟨hnone, -⟩ := (Rows.insert_eq_some _).mp hins
          exact .inr (.inl ⟨state, rfl, hid.symm, hid ▸ hnone, hfind⟩)
        next => exact .inl hfind
    | useOauthState id' atMs =>
      cases hw
      by_cases hid : id = id'
      · subst hid
        refine .inr (.inr ⟨atMs, rfl, ?_⟩)
        rw [Rows.find_update]
        cases hfind : db.oauthStates.find id with
        | none => rfl
        | some s =>
          obtain ⟨-, hkey⟩ := Rows.find_eq_some.mp hfind
          simp [hkey]
      · left
        rw [Rows.find_update]
        cases hfind : db.oauthStates.find id with
        | none => rfl
        | some s =>
          obtain ⟨-, hkey⟩ := Rows.find_eq_some.mp hfind
          simp [hkey, hid]
    | insertApiKey key | insertAudit event =>
      obtain ⟨t', -, rfl⟩ := exists_insert hw
      exact .inl rfl
    | insertSession session | rotateSession id' tokenHash expiresMs now =>
      simp only [write] at hw
      split at hw
      next => cases hw
      next =>
        first
        | cases hw
          exact .inl rfl
        | obtain ⟨t', -, rfl⟩ := exists_insert hw
          exact .inl rfl
    | _ =>
      cases hw
      exact .inl rfl

end Access

/-! ### What the operations write -/

/-- Statements that leave sessions, API keys and OAuth states alone. -/
def Access.quiet : Access → Bool
  | insertSession _ | rotateSession .. | revokeSession .. | insertApiKey _ | useApiKey ..
  | revokeApiKey .. | insertOauthState _ | useOauthState .. => false
  | _ => true

/-- The other statements of an operation. -/
def Op.Writes (crypto : Crypto) : Op → Access → Prop
  | .createSession input _, q => ∃ session, q = .insertSession session ∧ session.id = input.id
  | .rotateSession id token expiresMs now, q =>
    q = .rotateSession id (crypto.hashSessionSecret token) expiresMs now
  | .revokeSession id atMs, q => q = .revokeSession id atMs
  | .createApiKey input _ _, q => ∃ key, q = .insertApiKey key ∧ key.id = input.id
  | .resolveApiKey _ _ _ _ atMs _, q => ∃ id, q = .useApiKey id atMs
  | .revokeApiKey id atMs, q => q = .revokeApiKey id atMs
  | .createOauthState input _, q => ∃ state, q = .insertOauthState state ∧ state.id = input.id
  | .resolveOauthCallback _ _ _ atMs _, q => ∃ id, q = .useOauthState id atMs
  | _, _ => False

theorem Op.rotates_of_writes {op : Op} {tokenHash : String} {expiresMs now : ℕ}
    (h : op.Writes crypto (.rotateSession id tokenHash expiresMs now)) :
    ∃ token expiresMs now, op = .rotateSession id token expiresMs now := by
  cases op with
  | rotateSession id' token expiresMs' now' =>
    cases h
    exact ⟨_, _, _, rfl⟩
  | createSession | createApiKey | createOauthState =>
    obtain ⟨_, heq, -⟩ := h
    cases heq
  | resolveApiKey | resolveOauthCallback =>
    obtain ⟨_, heq⟩ := h
    cases heq
  | _ => cases h

theorem Op.redeems_of_writes {op : Op} {atMs : ℕ}
    (h : op.Writes crypto (.useOauthState id atMs)) :
    ∃ rawState tenantId traceId atMs now,
      op = .resolveOauthCallback rawState tenantId traceId atMs now := by
  cases op with
  | resolveOauthCallback rawState tenantId traceId atMs' now => exact ⟨_, _, _, _, _, rfl⟩
  | createSession | createApiKey | createOauthState =>
    obtain ⟨_, heq, -⟩ := h
    cases heq
  | resolveApiKey =>
    obtain ⟨_, heq⟩ := h
    cases heq
  | _ => cases h

section Programs

variable {α β : Type} {P : Access → Prop}

theorem all_orNotFound_bind {message : String} {o : Option α} {f : α → AuthM β}
    (h : ∀ a, o = some a → (f a).All P) : (orNotFound message o >>= f).All P := by
  cases o with
  | none => trivial
  | some a => exact h a rfl

theorem all_orNotFound {message : String} {o : Option α} : (orNotFound message o).All P := by
  cases o <;> trivial

theorem all_insertAudit {now : ℕ} {eventKind traceId status reason : String}
    {actorId tenantId sessionId apiKeyId : Option String} (hP : ∀ event, P (.insertAudit event)) :
    (insertAudit crypto now eventKind actorId tenantId sessionId apiKeyId traceId status
      reason).All P :=
  ⟨hP _, fun r => by cases r <;> trivial⟩

end Programs

theorem all_writes (op : Op) : (op.prog crypto).All fun q => q.quiet ∨ op.Writes crypto q := by
  have haudit : ∀ event, (Access.insertAudit event).quiet ∨ op.Writes crypto (.insertAudit event) :=
    fun _ => .inl rfl
  cases op with
  | upsertActor actor now =>
    refine Prog.all_map ?_
    iterate 4 refine Prog.all_ofExcept_bind fun _ _ => ?_
    refine Prog.all_query_bind (.inl rfl) fun x => Prog.all_ofExcept_bind fun _ _ => ?_
    exact Prog.all_query_bind (.inl rfl) fun _ => all_orNotFound
  | createSession input now =>
    refine Prog.all_map ?_
    iterate 4 refine Prog.all_ofExcept_bind fun _ _ => ?_
    split
    next => trivial
    next =>
      refine Prog.all_query_bind (.inl rfl) fun o => all_orNotFound_bind fun actor _ => ?_
      split
      next => trivial
      next =>
        refine Prog.all_query_bind (.inr ⟨_, rfl, rfl⟩) fun x => Prog.all_ofExcept_bind fun _ _ => ?_
        exact Prog.all_query_bind (.inl rfl) fun _ => all_orNotFound
  | resolveSession rawToken tenantId traceId replayKey atMs now =>
    refine Prog.all_map ?_
    iterate 3 refine Prog.all_ofExcept_bind fun _ _ => ?_
    refine Prog.all_query_bind (.inl rfl) fun o => ?_
    split
    next => exact Prog.all_bind (all_insertAudit haudit) fun _ => trivial
    next session =>
      iterate 3
        split
        next => exact Prog.all_bind (all_insertAudit haudit) fun _ => trivial
      refine Prog.all_query_bind (.inl rfl) fun o => all_orNotFound_bind fun actor _ => ?_
      split
      next => exact Prog.all_bind (all_insertAudit haudit) fun _ => trivial
      next => exact Prog.all_bind (all_insertAudit haudit) fun _ => trivial
  | rotateSession sessionId token expiresMs now =>
    refine Prog.all_map ?_
    iterate 2 refine Prog.all_ofExcept_bind fun _ _ => ?_
    refine Prog.all_query_bind (.inl rfl) fun o => all_orNotFound_bind fun session _ => ?_
    split
    next => trivial
    next =>
      refine Prog.all_query_bind (.inr rfl) fun x => Prog.all_ofExcept_bind fun _ _ => ?_
      exact Prog.all_query_bind (.inl rfl) fun _ => all_orNotFound
  | revokeSession sessionId atMs =>
    refine Prog.all_map (Prog.all_ofExcept_bind fun _ _ => ?_)
    refine Prog.all_query_bind (.inr rfl) fun x => Prog.all_ofExcept_bind fun _ _ => ?_
    exact Prog.all_query_bind (.inl rfl) fun _ => all_orNotFound
  | createApiKey input salt now =>
    refine Prog.all_map ?_
    iterate 5 refine Prog.all_ofExcept_bind fun _ _ => ?_
    split
    next => trivial
    next =>
      refine Prog.all_query_bind (.inl rfl) fun o => all_orNotFound_bind fun actor _ => ?_
      split
      next => trivial
      next =>
        split
        next => trivial
        next =>
          refine Prog.all_ofExcept_bind fun _ _ => ?_
          refine Prog.all_query_bind (.inr ⟨_, rfl, rfl⟩) fun x =>
            Prog.all_ofExcept_bind fun _ _ => ?_
          exact Prog.all_query_bind (.inl rfl) fun _ => all_orNotFound
  | resolveApiKey rawKey tenantId traceId replayKey atMs now =>
    refine Prog.all_map ?_
    iterate 3 refine Prog.all_ofExcept_bind fun _ _ => ?_
    refine Prog.all_query_bind (.inl rfl) fun keys => Prog.all_ofExcept_bind fun o _ => ?_
    split
    next key =>
      unfold resolveApiKeyRecord
      iterate 3
        split
        next => exact Prog.all_bind (all_insertAudit haudit) fun _ => trivial
      refine Prog.all_query_bind (.inl rfl) fun o => all_orNotFound_bind fun actor _ => ?_
      iterate 2
        split
        next => exact Prog.all_bind (all_insertAudit haudit) fun _ => trivial
      refine Prog.all_query_bind (.inr ⟨_, rfl⟩) fun x => Prog.all_ofExcept_bind fun _ _ => ?_
      refine Prog.all_query_bind (.inl rfl) fun _ => all_orNotFound_bind fun key _ => ?_
      exact Prog.all_bind (all_insertAudit haudit) fun _ => trivial
    next => exact Prog.all_bind (all_insertAudit haudit) fun _ => trivial
  | revokeApiKey keyId atMs =>
    refine Prog.all_map (Prog.all_ofExcept_bind fun _ _ => ?_)
    refine Prog.all_query_bind (.inr rfl) fun x => Prog.all_ofExcept_bind fun _ _ => ?_
    exact Prog.all_query_bind (.inl rfl) fun _ => all_orNotFound
  | createOauthState input now =>
    refine Prog.all_map ?_
    iterate 8 refine Prog.all_ofExcept_bind fun _ _ => ?_
    split
    next => trivial
    next =>
      refine Prog.all_query_bind (.inl rfl) fun o => all_orNotFound_bind fun actor _ => ?_
      split
      next => trivial
      next =>
        refine Prog.all_query_bind (.inr ⟨_, rfl, rfl⟩) fun x => Prog.all_ofExcept_bind fun _ _ => ?_
        exact Prog.all_query_bind (.inl rfl) fun _ => all_orNotFound
  | resolveOauthCallback rawState tenantId traceId atMs now =>
    refine Prog.all_map ?_
    iterate 3 refine Prog.all_ofExcept_bind fun _ _ => ?_
    refine Prog.all_query_bind (.inl rfl) fun o => ?_
    split
    next => exact Prog.all_bind (all_insertAudit haudit) fun _ => trivial
    next state =>
      iterate 3
        split
        next => exact Prog.all_bind (all_insertAudit haudit) fun _ => trivial
      refine Prog.all_query_bind (.inl rfl) fun o => all_orNotFound_bind fun actor _ => ?_
      split
      next => exact Prog.all_bind (all_insertAudit haudit) fun _ => trivial
      next =>
        refine Prog.all_query_bind (.inr ⟨_, rfl⟩) fun x => Prog.all_ofExcept_bind fun _ _ => ?_
        refine Prog.all_query_bind (.inl rfl) fun _ => all_orNotFound_bind fun state _ => ?_
        exact Prog.all_bind (all_insertAudit haudit) fun _ => trivial

end Corvid.Auth
