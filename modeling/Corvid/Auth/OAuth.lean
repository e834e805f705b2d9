import Corvid.Auth.Revocation
import Corvid.Lib.Rely

/-!
# OAuth callbacks side by side

Any number of threads call the session store, and their statements interleave. An OAuth state that a
callback resolves has not expired and belongs to the expected tenant. It is resolved once, unless a
callback marks the state as used after another one has done so: the number of rows that the update
has changed is not looked at.

## Main definitions

* `Untaken`: no callback marks a state that is already used
* `Redemptions`: states are redeemed once, in time and by their tenant

## Main results

* `redemptions_of_untaken`: so it is, as long as marks are not taken over
* `redeemed_twice`: and not otherwise
-/

namespace Corvid.Auth

open Store
open Relational (Rows)

abbrev AuthLabel (ι : Type) := Pool.Label ι AuthDb Access RuntimeError Outcome Op

abbrev AuthPool (ι : Type) := Pool ι AuthDb Access.Reply RuntimeError Outcome Op

/-- A state that is about to be marked is not used. -/
def untaken (db : AuthDb) : Access → Bool
  | .useOauthState id _ => (db.oauthStates.find id).all (·.usedMs = none)
  | _ => true

def Untaken {ι : Type} (_ : List (AuthLabel ι)) (_ : AuthPool ι) : AuthLabel ι → Prop
  | .access _ db q => untaken db q
  | _ => True

/-- The state that a call has redeemed. -/
def redeemed? {ι : Type} : AuthLabel ι → Option String
  | .finish _ _ (.ok (.oauthCallback r)) => some r.state.id
  | _ => none

/-- States are redeemed once, in time and by their tenant. -/
structure Redemptions {ι : Type} (crypto : Crypto) (log : List (AuthLabel ι)) : Prop where
  once : (log.filterMap redeemed?).Nodup
  valid : ∀ i rawState expectedTenantId traceId atMs now r,
    .finish i (.resolveOauthCallback rawState expectedTenantId traceId atMs now)
      (.ok (.oauthCallback r)) ∈ log →
    r.state.stateHash = crypto.hashOauthState rawState ∧ atMs < r.state.expiresMs ∧
      r.state.tenantId = expectedTenantId ∧ r.actor.tenantId = expectedTenantId

variable {crypto : Crypto} {db db' db'' : AuthDb} {id : String}

/-! ### States grow older -/

/-- What becomes of a state: it may be used, and nothing else changes. -/
def Later (s s' : OAuthStateRecord) : Prop :=
  s' = s ∨ s.usedMs = none ∧ ∃ atMs, s' = s.used atMs

theorem Later.trans {s s' s'' : OAuthStateRecord} (h : Later s s') (h' : Later s' s'') :
    Later s s'' := by
  rcases h with rfl | ⟨hnone, atMs, rfl⟩
  · exact h'
  · rcases h' with rfl | ⟨hnone', -⟩
    · exact .inr ⟨hnone, atMs, rfl⟩
    · cases hnone'

theorem Later.used {s s' : OAuthStateRecord} (h : Later s s') (hs : s.usedMs ≠ none) :
    s'.usedMs ≠ none := by
  rcases h with rfl | ⟨hnone, -⟩
  · exact hs
  · exact absurd hnone hs

def Grows (db db' : AuthDb) : Prop :=
  ∀ id s, db.oauthStates.find id = some s → ∃ s', db'.oauthStates.find id = some s' ∧ Later s s'

theorem Grows.refl (db : AuthDb) : Grows db db := fun _ s hs => ⟨s, hs, .inl rfl⟩

theorem Grows.trans (h : Grows db db') (h' : Grows db' db'') : Grows db db'' := by
  intro id s hs
  obtain ⟨s', hs', hlater⟩ := h id s hs
  obtain ⟨s'', hs'', hlater'⟩ := h' id s' hs'
  exact ⟨s'', hs'', hlater.trans hlater'⟩

theorem grows_next (q : Access) (db : AuthDb) : Grows db (q.next db) := by
  intro id s hs
  rcases q.oauthState_next db id with hsame | ⟨_, -, -, hnone, -⟩ | ⟨atMs, -, hmap⟩
  · exact ⟨s, hsame.trans hs, .inl rfl⟩
  · rw [hnone] at hs
    cases hs
  · rw [hs, Option.map_some] at hmap
    refine ⟨_, hmap, ?_⟩
    split
    next hnone => exact .inr ⟨hnone, atMs, rfl⟩
    next => exact .inl rfl

/-! ### What callbacks rely on -/

/-- A state is only marked if there is one. -/
def Access.present (db : AuthDb) : Access → Prop
  | useOauthState id _ => db.oauthStates.find id ≠ none
  | _ => True

/-- What a callback returns. -/
def returned (crypto : Crypto) : Op → Outcome → Prop
  | .resolveOauthCallback rawState expectedTenantId _ atMs _, .oauthCallback r =>
    r.state.stateHash = crypto.hashOauthState rawState ∧ atMs < r.state.expiresMs ∧
      r.state.tenantId = expectedTenantId ∧ r.actor.tenantId = expectedTenantId
  | .resolveOauthCallback .., _ => False
  | _, .oauthCallback _ => False
  | _, _ => True

abbrev Keeps {α : Type} (post : α → AuthDb → Prop) : AuthM α → AuthDb → Prop :=
  Prog.Guarantees Access.exec Grows (fun _ _ => True) (fun db q => q.present db) post

theorem keeps_orNotFound_bind {α β : Type} {message : String} {o : Option α} {f : α → AuthM β}
    {post : β → AuthDb → Prop} (h : ∀ a, o = some a → Keeps post (f a) db) :
    Keeps post (orNotFound message o >>= f) db := by
  cases o with
  | none => trivial
  | some a => exact h a rfl

theorem keeps_insertAudit_bind {β : Type} {now : ℕ} {eventKind traceId status reason : String}
    {actorId tenantId sessionId apiKeyId : Option String} {f : Unit → AuthM β}
    {post : β → AuthDb → Prop} (h : ∀ db', Keeps post (f ()) db') :
    Keeps post (insertAudit crypto now eventKind actorId tenantId sessionId apiKeyId traceId status
      reason >>= f) db :=
  Prog.Guarantees.bind Grows.refl
    (Prog.guarantees_of_all (P := fun q => ∀ db, q.present db) (fun db _ hq => hq db)
      (all_insertAudit fun _ _ => trivial) (fun _ (_ : AuthDb) => trivial) db)
    fun _ db' _ => h db'

theorem keeps_resolveOauthCallback (rawState expectedTenantId traceId : String) (atMs now : ℕ)
    (db : AuthDb) :
    Keeps (fun r _ => r.state.stateHash = crypto.hashOauthState rawState ∧
        atMs < r.state.expiresMs ∧ r.state.tenantId = expectedTenantId ∧
        r.actor.tenantId = expectedTenantId)
      (resolveOauthCallback crypto rawState expectedTenantId traceId atMs now) db := by
  refine Prog.guarantees_ofExcept_bind fun _ _ => Prog.guarantees_ofExcept_bind fun _ _ =>
    Prog.guarantees_ofExcept_bind fun _ _ => ?_
  refine Prog.guarantees_query_bind fun db₁ _ => ⟨trivial, fun _ => ?_⟩
  split
  next => exact keeps_insertAudit_bind fun _ => trivial
  next state hfound =>
    split
    next => exact keeps_insertAudit_bind fun _ => trivial
    next =>
      split
      next => exact keeps_insertAudit_bind fun _ => trivial
      next hexpires =>
        split
        next => exact keeps_insertAudit_bind fun _ => trivial
        next htenant =>
          -- the row is still there, with the columns that were checked
          have hfind : db₁.oauthStates.find state.id = some state :=
            Rows.find_of_mem _ (List.mem_of_find?_eq_some hfound)
          have hhash : state.stateHash = crypto.hashOauthState rawState := by
            simpa using List.find?_some hfound
          refine Prog.guarantees_query_bind fun db₂ hdb₂ => ⟨trivial, fun _ => ?_⟩
          refine keeps_orNotFound_bind fun actor _ => ?_
          split
          next => exact keeps_insertAudit_bind fun _ => trivial
          next hactor =>
            refine Prog.guarantees_query_bind fun db₃ hdb₃ => ⟨?_, fun _ => ?_⟩
            · obtain ⟨s, hs, -⟩ := hdb₂.trans hdb₃ _ _ hfind
              exact fun hnone => by rw [hnone] at hs; cases hs
            refine Prog.guarantees_ofExcept_bind fun _ _ => ?_
            refine Prog.guarantees_query_bind fun db₄ hdb₄ => ⟨trivial, fun _ => ?_⟩
            refine keeps_orNotFound_bind fun state' hstate' => keeps_insertAudit_bind fun _ => ?_
            obtain ⟨s, hs, hlater⟩ :=
              (((hdb₂.trans hdb₃).trans (grows_next _ db₃)).trans hdb₄) _ _ hfind
            have heq : state' = s := Option.some.inj (hstate'.symm.trans hs)
            subst heq
            have hstatic : state'.stateHash = state.stateHash ∧
                state'.expiresMs = state.expiresMs ∧ state'.tenantId = state.tenantId := by
              rcases hlater with rfl | ⟨-, atMs, rfl⟩ <;> exact ⟨rfl, rfl, rfl⟩
            intro _ _
            refine ⟨hstatic.1.trans hhash, ?_, hstatic.2.2.trans (not_not.mp htenant), ?_⟩
            · rw [hstatic.2.1]
              exact not_le.mp hexpires
            · exact (not_not.mp hactor).trans (not_not.mp htenant)

/-- The discipline of all calls. -/
def discipline (crypto : Crypto) : RelyGuarantee Access.exec (Op.prog crypto) where
  inv _ := True
  rely := Grows
  allowed _ _ := True
  guarantee _ db q := q.present db
  post op outcome _ := returned crypto op outcome
  refl := Grows.refl
  trans _ _ _ := Grows.trans
  exec_inv _ db q _ _ _ := ⟨trivial, grows_next q db⟩
  prog_guarantees op db := by
    have hall : (op.prog crypto).All fun q => q.quiet ∨ op.Writes crypto q := all_writes op
    have hpresent : ∀ db q, (∀ rawState tenantId traceId atMs now,
        op ≠ .resolveOauthCallback rawState tenantId traceId atMs now) →
        q.quiet = true ∨ op.Writes crypto q → q.present db := by
      intro db q hop hq
      cases q with
      | useOauthState id atMs =>
        rcases hq with hq | hq
        · cases hq
        · obtain ⟨_, _, _, _, _, heq⟩ := Op.redeems_of_writes hq
          exact absurd heq (hop _ _ _ _ _)
      | _ => trivial
    cases op with
    | resolveOauthCallback rawState expectedTenantId traceId atMs now =>
      exact (keeps_resolveOauthCallback rawState expectedTenantId traceId atMs now db).map
    | _ =>
      refine Prog.Guarantees.map (Prog.guarantees_of_all (fun db q => hpresent db q ?_)
        (Prog.all_of_map hall) (fun _ _ => trivial) db)
      rintro _ _ _ _ _ ⟨⟩

/-! ### What a callback marks -/

theorem not_reaches_denied {α : Type} {p : AuthM Unit} {message : String}
    {done : List (AuthDb × Access)} {a : α} :
    ¬ (p >>= fun _ => other message).Reaches Access.exec done (.ret a) := by
  intro h
  obtain ⟨_, _, _, -, -, h⟩ := Prog.reaches_bind_ret h
  exact Prog.not_reaches_fail_ret h

theorem reaches_orNotFound_bind_ret {α β : Type} {message : String} {o : Option α} {f : α → AuthM β}
    {done : List (AuthDb × Access)} {b : β}
    (h : (orNotFound message o >>= f).Reaches Access.exec done (.ret b)) :
    ∃ a, o = some a ∧ (f a).Reaches Access.exec done (.ret b) := by
  cases o with
  | none => exact absurd h Prog.not_reaches_fail_ret
  | some a => exact ⟨a, rfl, h⟩

/-- A callback that returns has marked its state. -/
theorem marks_of_reaches {op : Op} {done : List (AuthDb × Access)} {r : OAuthCallbackResolution}
    (h : (op.prog crypto).Reaches Access.exec done (.ret (.oauthCallback r))) :
    ∃ db atMs, (db, .useOauthState r.state.id atMs) ∈ done := by
  cases op with
  | resolveOauthCallback rawState expectedTenantId traceId atMs now =>
    obtain ⟨_, heq, h⟩ := Prog.reaches_map_ret h
    cases heq
    obtain ⟨_, -, h⟩ := Prog.reaches_ofExcept_bind_ret h
    obtain ⟨_, -, h⟩ := Prog.reaches_ofExcept_bind_ret h
    obtain ⟨_, -, h⟩ := Prog.reaches_ofExcept_bind_ret h
    obtain ⟨db₁, rest₁, rfl, h₁⟩ := Prog.reaches_query_bind_ret.mp h
    split at h₁
    next => exact absurd h₁ not_reaches_denied
    next state _ =>
      iterate 3
        split at h₁
        next => exact absurd h₁ not_reaches_denied
      obtain ⟨db₂, rest₂, rfl, h₂⟩ := Prog.reaches_query_bind_ret.mp h₁
      obtain ⟨actor, -, h₂⟩ := reaches_orNotFound_bind_ret h₂
      split at h₂
      next => exact absurd h₂ not_reaches_denied
      next =>
        obtain ⟨db₃, rest₃, rfl, h₃⟩ := Prog.reaches_query_bind_ret.mp h₂
        obtain ⟨_, -, h₃⟩ := Prog.reaches_ofExcept_bind_ret h₃
        obtain ⟨db₄, rest₄, rfl, h₄⟩ := Prog.reaches_query_bind_ret.mp h₃
        obtain ⟨state', hstate, h₄⟩ := reaches_orNotFound_bind_ret h₄
        obtain ⟨_, rest₅, _, rfl, -, hret⟩ := Prog.reaches_bind_ret h₄
        cases rest₅ with
        | cons x rest₅ => exact hret.elim
        | nil =>
          cases hret
          obtain ⟨-, hid⟩ := Rows.find_eq_some.mp hstate
          refine ⟨db₃, atMs, ?_⟩
          show (db₃, Access.useOauthState state'.id atMs) ∈ _
          rw [hid]
          simp
  | _ =>
    obtain ⟨_, heq, -⟩ := Prog.reaches_map_ret h
    cases heq

/-! ### Runs -/

section Runs

variable {ι : Type} [DecidableEq ι] {s₀ : AuthDb}
  {C : List (AuthLabel ι) → AuthPool ι → AuthLabel ι → Prop} {log : List (AuthLabel ι)}
  {c : AuthPool ι}

variable (crypto) in
omit [DecidableEq ι] in
theorem allowed_discipline (log : List (AuthLabel ι)) (c : AuthPool ι) (i : ι) (db : AuthDb)
    (q : Access) (_ : C log c (.access i db q)) : (discipline crypto).allowed db q := trivial

/-- A state that has been marked is used from then on. -/
theorem used_of_access (h : Pool.Run Access.exec (Op.prog crypto) s₀ C log c) {i : ι} {atMs : ℕ}
    (hmem : .access i db (.useOauthState id atMs) ∈ log) :
    ∃ s, c.state.oauthStates.find id = some s ∧ s.usedMs ≠ none := by
  induction h generalizing db with
  | nil => exact absurd hmem List.not_mem_nil
  | @snoc log c c' l hrun hstep hC ih =>
    rcases List.mem_append.mp hmem with hmem | hmem
    · obtain ⟨s, hs, hused⟩ := ih hmem
      cases hstep with
      | @access i op done q k hbusy =>
        obtain ⟨s', hs', hlater⟩ := grows_next q c.state id s hs
        exact ⟨s', hs', hlater.used hused⟩
      | start | ret | fail => exact ⟨s, hs, hused⟩
    · obtain rfl := List.mem_singleton.mp hmem
      obtain ⟨op, -, -, -, hpresent⟩ :=
        (discipline crypto).of_access (allowed_discipline crypto) trivial (.snoc hrun hstep hC)
      obtain ⟨s, hs⟩ := Option.ne_none_iff_exists'.mp hpresent
      cases hstep with
      | access hbusy =>
        have hnext := Rows.find_update c.state.oauthStates
          (p := fun s => s.id = id ∧ s.usedMs = none) (OAuthStateRecord.id_used atMs) id
        obtain ⟨-, hid⟩ := Rows.find_eq_some.mp hs
        rw [hs, Option.map_some] at hnext
        refine ⟨_, hnext, ?_⟩
        by_cases hnone : s.usedMs = none
        · rw [if_pos (decide_eq_true ⟨hid, hnone⟩)]
          exact Option.some_ne_none _
        · rw [if_neg (by simp [hnone])]
          exact hnone

/-- A mark after another one takes it over. -/
theorem not_marked_twice {post : List (AuthLabel ι)}
    (h : Pool.Run Access.exec (Op.prog crypto) s₀ Untaken (log ++ post) c) {i i' : ι}
    {atMs atMs' : ℕ} : ¬ Before log (.access i db (.useOauthState id atMs))
      (.access i' db' (.useOauthState id atMs')) := by
  rintro ⟨u, v, w, rfl⟩
  have hlog : u ++ .access i db (.useOauthState id atMs) ::
      (v ++ .access i' db' (.useOauthState id atMs') :: w) ++ post =
      (u ++ .access i db (.useOauthState id atMs) :: v) ++
        .access i' db' (.useOauthState id atMs') :: (w ++ post) := by
    simp
  rw [hlog] at h
  obtain ⟨c₁, c₂, hrun, hstep, huntaken⟩ := h.split
  obtain ⟨s, hs, hused⟩ := used_of_access hrun (List.mem_append_right _ List.mem_cons_self)
  cases hstep with
  | access hbusy =>
    have hnone : s.usedMs = none := by
      simpa [Untaken, untaken, hs] using huntaken
    exact hused hnone

omit [DecidableEq ι] in
theorem redeemed?_eq_some {l : AuthLabel ι} (h : redeemed? l = some id) :
    ∃ i op r, l = .finish i op (.ok (.oauthCallback r)) ∧ r.state.id = id := by
  unfold redeemed? at h
  split at h
  next i op r => exact ⟨i, op, r, rfl, Option.some.inj h⟩
  next => cases h

/-- **States are redeemed once**, in time and by their tenant, if no callback takes a mark over. -/
theorem redemptions_of_untaken (h : Pool.Run Access.exec (Op.prog crypto) s₀ Untaken log c) :
    Redemptions crypto log where
  valid := by
    intro i rawState expectedTenantId traceId atMs now r hmem
    obtain ⟨_, -, hreturned⟩ :=
      (discipline crypto).of_finish (allowed_discipline crypto) trivial h hmem
    exact hreturned
  once := by
    refine (List.pairwise_filterMap).mpr (pairwise_of_before ?_)
    rintro l l' ⟨pre, mid, post, rfl⟩ id hl id' hl' rfl
    obtain ⟨i₁, op₁, r₁, rfl, hid⟩ := redeemed?_eq_some hl
    obtain ⟨i₂, op₂, r₂, rfl, rfl⟩ := redeemed?_eq_some hl'
    -- each of the calls has marked the state
    obtain ⟨done₁, done₂, hreach₁, hreach₂, horder⟩ := h.of_two_finishes
    obtain ⟨db₁, atMs₁, hmark₁⟩ := marks_of_reaches hreach₁
    obtain ⟨db₂, atMs₂, hmark₂⟩ := marks_of_reaches hreach₂
    rw [hid] at hmark₁
    rw [← List.cons_append, ← List.append_assoc] at h
    rcases horder _ hmark₁ _ hmark₂ with horder | horder
    · exact not_marked_twice h horder
    · exact not_marked_twice h horder

end Runs

/-! ### Two callbacks -/

def newState : OAuthStateCreate where
  id := "oauth-1"
  provider := "github"
  tenantId := "org-1"
  actorId := "user-1"
  rawState := "raw-state"
  pkceVerifierRef := "pkce-1"
  nonceFingerprint := "sha256:nonce"
  expiresMs := 5000
  replayKey := "replay-1"

def callback (traceId : String) : Op :=
  .resolveOauthCallback "raw-state" "org-1" traceId 2000 2000

def playOps (schedule : List (List (String × Op))) :
    List (AuthLabel String) × AuthPool String :=
  Pool.play Access.exec (Op.prog plain) .empty schedule.flatten

/-- One callback after the other. -/
def inTurn : List (List (String × Op)) := [
  .replicate 4 ("main", .upsertActor user 1),
  .replicate 5 ("main", .createOauthState newState 1000),
  .replicate 7 ("a", callback "trace-a"),
  .replicate 4 ("b", callback "trace-b")]

/-- A second callback is redeemed after the first one has looked its state up. -/
def overlapping : List (List (String × Op)) := [
  .replicate 4 ("main", .upsertActor user 1),
  .replicate 5 ("main", .createOauthState newState 1000),
  .replicate 2 ("a", callback "trace-a"),
  .replicate 7 ("b", callback "trace-b"),
  .replicate 5 ("a", callback "trace-a")]

def untakenTest : AuthLabel String → Bool
  | .access _ db q => untaken db q
  | _ => true

theorem redemptions_inTurn :
    (playOps inTurn).1.filterMap redeemed? = ["oauth-1"] ∧
      Redemptions plain (playOps inTurn).1 := by
  have htest : ∀ (log : List (AuthLabel String)) c l, untakenTest l → Untaken log c l := by
    intro log c l h
    cases l with
    | access => exact h
    | start | finish => trivial
  have hpasses : Pool.passes Access.exec (Op.prog plain) (fun _ l => untakenTest l) .empty
      inTurn.flatten := by decide +kernel
  exact ⟨by decide +kernel, redemptions_of_untaken (Pool.run_of_passes htest hpasses)⟩

/-- Two callbacks redeem one state. -/
theorem redeemed_twice : ¬ ∀ (log : List (AuthLabel String)) c,
    Pool.Run Access.exec (Op.prog plain) .empty (fun _ _ _ => True) log c →
      Redemptions plain log := by
  intro h
  have honce := (h _ _ (Pool.run_play overlapping.flatten)).once
  have htwice : (playOps overlapping).1.filterMap redeemed? = ["oauth-1", "oauth-1"] := by
    decide +kernel
  rw [playOps] at htwice
  rw [htwice] at honce
  simp at honce

end Corvid.Auth
