import Corvid.Lib.Pool
import Mathlib.Algebra.Group.Nat.Defs
import Mathlib.Tactic.Common

/-!
# Refreshing an OAuth2 grant

A resolver loads the pair of tokens of a grant, asks the provider for a new pair when the access token
is about to expire, and saves it. These are separate steps. A save overwrites whatever is stored and
clears the mark of a revoked grant, so a slow refresh undoes a revocation, and two of them can save
their pairs in the wrong order.

## Main definitions

* `resolveBearer`: the resolver, over the accesses of the store and of the provider
* `GrantKept`: a revoked grant stays revoked, and the pair issued last is not lost
* `Orderly`: a pair is saved for a grant that is not revoked, and not over a newer pair

## Main results

* `grantKept_of_orderly`: the grant is kept in runs of such steps
-/

namespace Corvid.Connectors

open Store

structure OAuth2Tokens where
  accessToken : String
  refreshToken : String
  expiresAtMs : ℕ
deriving DecidableEq, Repr

inductive BearerTokenError where
  | notFound (id : String)
  | revoked (id : String)
  | decryption (id : String)
deriving DecidableEq, Repr

structure OAuth2Entry where
  tokens : OAuth2Tokens
  revoked : Bool
deriving DecidableEq, Repr

/-- The entries of the store, by token id. -/
abbrev OAuth2Store := String → Option OAuth2Entry

def OAuth2Store.seed (store : OAuth2Store) (tokenId : String) (tokens : OAuth2Tokens) :
    OAuth2Store :=
  Function.update store tokenId (some ⟨tokens, false⟩)

def OAuth2Store.load (store : OAuth2Store) (tokenId : String) : Except BearerTokenError OAuth2Tokens :=
  match store tokenId with
  | none => .error (.notFound tokenId)
  | some entry => if entry.revoked then .error (.revoked tokenId) else .ok entry.tokens

/-- An entry that is revoked becomes valid again. -/
def OAuth2Store.save (store : OAuth2Store) (tokenId : String) (tokens : OAuth2Tokens) :
    OAuth2Store :=
  Function.update store tokenId (some ⟨tokens, false⟩)

def OAuth2Store.markRevoked (store : OAuth2Store) (tokenId : String) : OAuth2Store :=
  Function.update store tokenId ((store tokenId).map ({ · with revoked := true }))

/-- The accesses to the store, and the request to the provider with its answer. -/
inductive Access where
  | load (tokenId : String)
  | refresh (refreshToken : String) (answer : Except BearerTokenError OAuth2Tokens)
  | save (tokenId : String) (tokens : OAuth2Tokens)
  | markRevoked (tokenId : String)

abbrev Access.Reply : Access → Type
  | load _ => Except BearerTokenError OAuth2Tokens
  | refresh .. => Except BearerTokenError OAuth2Tokens
  | save .. => Unit
  | markRevoked _ => Unit

def Access.exec : (q : Access) → OAuth2Store → q.Reply × OAuth2Store
  | load tokenId, store => (store.load tokenId, store)
  | refresh _ answer, store => (answer, store)
  | save tokenId tokens, store => ((), store.save tokenId tokens)
  | markRevoked tokenId, store => ((), store.markRevoked tokenId)

abbrev TokenM := Prog Access.Reply BearerTokenError

def load (tokenId : String) : TokenM (Except BearerTokenError OAuth2Tokens) :=
  Prog.query (Access.load tokenId)

def refresh (refreshToken : String) (answer : Except BearerTokenError OAuth2Tokens) :
    TokenM (Except BearerTokenError OAuth2Tokens) :=
  Prog.query (Access.refresh refreshToken answer)

def save (tokenId : String) (tokens : OAuth2Tokens) : TokenM Unit :=
  Prog.query (Access.save tokenId tokens)

def markRevoked (tokenId : String) : TokenM Unit := Prog.query (Access.markRevoked tokenId)

/-- The clock and the answer of the provider are given. -/
def resolveBearer (tokenId : String) (skewMs now : ℕ)
    (answer : Except BearerTokenError OAuth2Tokens) : TokenM String := do
  match ← load tokenId with
  | .error err => .fail err
  | .ok tokens =>
    if min (now + skewMs) (2 ^ 64 - 1) < tokens.expiresAtMs then return tokens.accessToken
    else
      match ← refresh tokens.refreshToken answer with
      | .ok newTokens =>
        save tokenId newTokens
        return newTokens.accessToken
      | .error (.revoked _) =>
        markRevoked tokenId
        .fail (.revoked tokenId)
      | .error other => .fail other

inductive Op where
  | resolveBearer (skewMs now : ℕ) (answer : Except BearerTokenError OAuth2Tokens)
  | markRevoked

/-- The operations on a grant. The result is the access token, if there is one. -/
def Op.prog (tokenId : String) : Op → TokenM (Option String)
  | resolveBearer skewMs now answer => some <$> Connectors.resolveBearer tokenId skewMs now answer
  | markRevoked => (fun _ => none) <$> Connectors.markRevoked tokenId

def Op.resolves : Op → Bool
  | resolveBearer .. => true
  | markRevoked => false

abbrev TokenLabel (ι : Type) := Pool.Label ι OAuth2Store Access BearerTokenError (Option String) Op

abbrev TokenPool (ι : Type) := Pool ι OAuth2Store Access.Reply BearerTokenError (Option String) Op

section Events

variable {ι : Type} (tokenId : String)

/-- A grant that is stored is marked as revoked. -/
def revokes : TokenLabel ι → Bool
  | .access _ store (.markRevoked id) => id = tokenId ∧ (store tokenId).isSome
  | _ => false

/-- The pair that the provider issues. -/
def issues : TokenLabel ι → Option OAuth2Tokens
  | .access _ _ (.refresh _ (.ok tokens)) => some tokens
  | _ => none

/-- The pair issued last: the first one is the one that the store is seeded with. -/
def lastIssued (seed : OAuth2Tokens) (log : List (TokenLabel ι)) : OAuth2Tokens :=
  (log.filterMap issues).getLast?.getD seed

/-- A call is about to save the pair. -/
def InFlight (c : TokenPool ι) (tokens : OAuth2Tokens) : Prop :=
  ∃ i call k, c.calls i = some call ∧ call.rest = .call (.save tokenId tokens) k

end Events

/-- Calls that start after a grant has been revoked find it revoked. The pair that is stored is the one
issued last, unless that one is just being saved. -/
structure GrantKept {ι : Type} (tokenId : String) (seed : OAuth2Tokens) (log : List (TokenLabel ι))
    (c : TokenPool ι) : Prop where
  revoked : ∀ pre x mid i op b r post,
    log = pre ++ x :: (mid ++ .start i op :: (b ++ .finish i op r :: post)) → revokes tokenId x →
    op.resolves → (∀ op r, .finish i op r ∉ b) → r = .error (.revoked tokenId)
  latest : ∃ entry, c.state tokenId = some entry ∧
    (entry.tokens = lastIssued seed log ∨ InFlight tokenId c (lastIssued seed log))

/-- A pair is saved for a grant that is not revoked. It is the pair issued last, unless that one is
still to be saved. -/
def Orderly {ι : Type} (tokenId : String) (seed : OAuth2Tokens) (log : List (TokenLabel ι))
    (c : TokenPool ι) : TokenLabel ι → Prop
  | .access _ store (.save _ tokens) => (∀ entry ∈ store tokenId, ¬ entry.revoked) ∧
      (tokens = lastIssued seed log ∨ InFlight tokenId c (lastIssued seed log))
  | _ => True

/-! ### What a call does next -/

/-- The accesses to the store are about one grant. -/
def Access.On (tokenId : String) : Access → Prop
  | load id => id = tokenId
  | refresh .. => True
  | save id _ => id = tokenId
  | markRevoked id => id = tokenId

section Programs

variable {tokenId : String} {skewMs now : ℕ} {answer : Except BearerTokenError OAuth2Tokens}
  {done : List (OAuth2Store × Access)} {q : Access}

theorem all_on_resolveBearer : (resolveBearer tokenId skewMs now answer).All (Access.On tokenId) := by
  refine Prog.all_query_bind rfl fun tokens => ?_
  cases tokens with
  | error err => trivial
  | ok tokens =>
    dsimp only
    split
    · trivial
    · refine Prog.all_query_bind trivial fun answer => ?_
      split
      · exact Prog.all_query_bind rfl fun _ => trivial
      · exact Prog.all_query_bind rfl fun _ => trivial
      · trivial

theorem all_on_prog (op : Op) : (op.prog tokenId).All (Access.On tokenId) := by
  cases op with
  | resolveBearer => exact Prog.all_map all_on_resolveBearer
  | markRevoked => exact ⟨rfl, fun _ => trivial⟩

/-- A resolver that loads a revoked grant fails. -/
theorem resolveBearer_of_revoked {r : TokenM String}
    (h : (resolveBearer tokenId skewMs now answer).Reaches Access.exec done r)
    (hdone : ∀ x ∈ done, (x.1 tokenId).any OAuth2Entry.revoked) :
    (∃ k, r = .call (.load tokenId) k) ∨ r = .fail (.revoked tokenId) := by
  cases done with
  | nil => exact .inl ⟨_, (Prog.reaches_nil.mp h).symm⟩
  | cons x done =>
    obtain ⟨store, q⟩ := x
    obtain ⟨rfl, hrest⟩ := Prog.reaches_query_bind_cons.mp h
    obtain ⟨entry, hentry, hrevoked⟩ := (Option.any_eq_true _ _).mp (hdone _ List.mem_cons_self)
    have hload : (Access.exec (.load tokenId) store).1 = .error (.revoked tokenId) := by
      have hentry : store tokenId = some entry := hentry
      simp [Access.exec, OAuth2Store.load, hentry, hrevoked]
    dsimp only at hrest
    rw [hload] at hrest
    cases done with
    | nil => exact .inr (Prog.reaches_nil.mp hrest).symm
    | cons y done => exact hrest.elim

/-- A resolver saves the pair that it has been issued, right after that. -/
theorem save_of_refresh {refreshToken : String} {answer' : Except BearerTokenError OAuth2Tokens}
    {k : (Access.refresh refreshToken answer').Reply → TokenM String}
    (h : (resolveBearer tokenId skewMs now answer).Reaches Access.exec done
      (.call (.refresh refreshToken answer') k)) (tokens : OAuth2Tokens) :
    ∃ k', k (.ok tokens) = .call (.save tokenId tokens) k' := by
  cases done with
  | nil => cases h
  | cons x done =>
    obtain ⟨store, q⟩ := x
    obtain ⟨rfl, hload⟩ := Prog.reaches_query_bind_cons.mp h
    dsimp only at hload
    split at hload
    next => cases done <;> cases hload
    next =>
      split at hload
      next => cases done <;> cases hload
      next =>
        cases done with
        | nil =>
          cases hload
          exact ⟨_, rfl⟩
        | cons y done =>
          -- there is one refresh only
          obtain ⟨-, hrest⟩ := Prog.reaches_query_bind_cons.mp hload
          have hall : ∀ {p : TokenM String}, (p.All fun q => ∀ t a, q ≠ .refresh t a) →
              ¬ p.Reaches Access.exec done (.call (.refresh refreshToken answer') k) :=
            fun hp h => (Prog.Reaches.all hp h).1 _ _ rfl
          refine absurd hrest (hall ?_)
          split
          · exact Prog.all_query_bind (by simp) fun _ => trivial
          · exact Prog.all_query_bind (by simp) fun _ => trivial
          · trivial

end Programs

/-! ### Runs -/

theorem lastIssued_snoc {ι : Type} (seed : OAuth2Tokens) (log : List (TokenLabel ι))
    (l : TokenLabel ι) : lastIssued seed (log ++ [l]) = (issues l).getD (lastIssued seed log) := by
  unfold lastIssued
  rw [List.filterMap_append]
  cases hl : issues l <;> simp [hl]

section Runs

variable {ι : Type} [DecidableEq ι] {tokenId : String} {seed : OAuth2Tokens} {store : OAuth2Store}
  {log : List (TokenLabel ι)} {c c' : TokenPool ι} {l : TokenLabel ι}

/-- The entry of the grant over a run: it is marked once it has been revoked, and its pair is the one
issued last, unless that one is to be saved. -/
structure RefreshInv (tokenId : String) (seed : OAuth2Tokens) (log : List (TokenLabel ι))
    (c : TokenPool ι) (entry : OAuth2Entry) : Prop where
  found : c.state tokenId = some entry
  marked : (∃ x ∈ log, revokes tokenId x) → entry.revoked
  latest : entry.tokens = lastIssued seed log ∨ InFlight tokenId c (lastIssued seed log)

/-- A pair is still to be saved after a step that does not save it. -/
theorem InFlight.step {tokens : OAuth2Tokens} (h : InFlight tokenId c tokens)
    (hstep : Pool.Step Access.exec (Op.prog tokenId) c l c')
    (hl : ∀ i store, l ≠ .access i store (.save tokenId tokens)) : InFlight tokenId c' tokens := by
  obtain ⟨i, call, k, hcall, hrest⟩ := h
  rcases hstep.of_call hcall hrest with hcall' | hsave
  · exact ⟨i, call, k, hcall', hrest⟩
  · exact absurd hsave (hl _ _)

/-- A step that leaves the store as it is and issues no pair. -/
theorem RefreshInv.same {entry : OAuth2Entry} (h : RefreshInv tokenId seed log c entry)
    (hstep : Pool.Step Access.exec (Op.prog tokenId) c l c') (hstate : c'.state = c.state)
    (hrevokes : ¬ revokes tokenId l) (hissues : issues l = none)
    (hsave : ∀ i store tokens, l ≠ .access i store (.save tokenId tokens)) :
    RefreshInv tokenId seed (log ++ [l]) c' entry := by
  refine ⟨hstate ▸ h.found, ?_, ?_⟩
  · rintro ⟨x, hx, hrev⟩
    rcases List.mem_append.mp hx with hx | hx
    · exact h.marked ⟨x, hx, hrev⟩
    · obtain rfl := List.mem_singleton.mp hx
      exact absurd hrev hrevokes
  · rw [lastIssued_snoc, hissues]
    exact h.latest.imp_right fun hflight => hflight.step hstep fun _ _ => hsave _ _ _

theorem RefreshInv.step {entry : OAuth2Entry} (h : RefreshInv tokenId seed log c entry)
    {C : List (TokenLabel ι) → TokenPool ι → TokenLabel ι → Prop} {s₀ : OAuth2Store}
    (hrun : Pool.Run Access.exec (Op.prog tokenId) s₀ C log c)
    (hstep : Pool.Step Access.exec (Op.prog tokenId) c l c') (hl : Orderly tokenId seed log c l) :
    ∃ entry', RefreshInv tokenId seed (log ++ [l]) c' entry' := by
  cases hstep with
  | start op hidle => exact ⟨entry, h.same (.start op hidle) rfl (by simp [revokes]) rfl (by simp)⟩
  | ret hbusy => exact ⟨entry, h.same (.ret hbusy) rfl (by simp [revokes]) rfl (by simp)⟩
  | fail hbusy => exact ⟨entry, h.same (.fail hbusy) rfl (by simp [revokes]) rfl (by simp)⟩
  | @access i op done q k hbusy =>
    have hreaches := hrun.reaches hbusy
    have hon := (Prog.Reaches.all (all_on_prog op) hreaches).1
    cases q with
    | load id => exact ⟨entry, h.same (.access hbusy) rfl (by simp [revokes]) rfl (by simp)⟩
    | refresh refreshToken answer =>
      cases answer with
      | error err => exact ⟨entry, h.same (.access hbusy) rfl (by simp [revokes]) rfl (by simp)⟩
      | ok tokens =>
        refine ⟨entry, h.found, ?_, .inr ?_⟩
        · rintro ⟨x, hx, hrev⟩
          rcases List.mem_append.mp hx with hx | hx
          · exact h.marked ⟨x, hx, hrev⟩
          · obtain rfl := List.mem_singleton.mp hx
            cases hrev
        · -- the call is about to save the pair
          cases op with
          | markRevoked =>
            have hall : (Op.markRevoked.prog tokenId).All fun q => ∀ t a, q ≠ .refresh t a :=
              ⟨by simp, fun _ => trivial⟩
            exact absurd rfl ((Prog.Reaches.all hall hreaches).1 _ _)
          | resolveBearer skewMs now answer =>
            obtain ⟨k', hcall, rfl⟩ := Prog.reaches_map_call hreaches
            obtain ⟨k'', hk⟩ := save_of_refresh hcall tokens
            refine ⟨i, _, fun r => some <$> k'' r, Function.update_self .., ?_⟩
            show some <$> k' (.ok tokens) = _
            rw [hk, lastIssued_snoc]
            rfl
    | save id tokens =>
      obtain rfl : id = tokenId := hon
      obtain ⟨hvalid, hnewest⟩ := hl
      refine ⟨⟨tokens, false⟩, Function.update_self .., ?_, ?_⟩
      · rintro ⟨x, hx, hrev⟩
        rcases List.mem_append.mp hx with hx | hx
        · exact absurd (h.marked ⟨x, hx, hrev⟩) (hvalid entry h.found)
        · obtain rfl := List.mem_singleton.mp hx
          cases hrev
      · rw [lastIssued_snoc]
        by_cases hsame : tokens = lastIssued seed log
        · exact .inl hsame
        · refine .inr ((hnewest.resolve_left hsame).step (.access hbusy) fun i' store heq => ?_)
          obtain ⟨-, -, hq⟩ := Pool.Label.access.inj heq
          exact hsame (Access.save.inj hq).2
    | markRevoked id =>
      obtain rfl : id = tokenId := hon
      refine ⟨{ entry with revoked := true }, ?_, fun _ => rfl, ?_⟩
      · show Function.update c.state id ((c.state id).map _) id = _
        rw [Function.update_self, h.found]
        rfl
      · rw [lastIssued_snoc]
        exact h.latest.imp_right fun hflight => hflight.step (.access hbusy) (by simp)

theorem refreshInv_of_run
    (h : Pool.Run Access.exec (Op.prog tokenId) (store.seed tokenId seed) (Orderly tokenId seed) log c) :
    ∃ entry, RefreshInv tokenId seed log c entry := by
  induction h with
  | nil => exact ⟨⟨seed, false⟩, Function.update_self .., by simp, .inl rfl⟩
  | snoc hrun hstep hl ih =>
    obtain ⟨entry, hinv⟩ := ih
    exact hinv.step hrun hstep hl

/-- A revoked grant stays revoked and no pair is lost, in runs in which pairs are saved for a grant
that is not revoked, and not over newer ones. -/
theorem grantKept_of_orderly (tokenId : String) (seed : OAuth2Tokens) (store : OAuth2Store)
    (log : List (TokenLabel ι)) (c : TokenPool ι)
    (h : Pool.Run Access.exec (Op.prog tokenId) (store.seed tokenId seed) (Orderly tokenId seed)
      log c) : GrantKept tokenId seed log c := by
  refine ⟨?_, ?_⟩
  · rintro pre x mid i op b r post rfl hx hop hb
    have hlog : pre ++ x :: (mid ++ .start i op :: (b ++ .finish i op r :: post)) =
        ((pre ++ x :: mid) ++ .start i op :: b) ++ .finish i op r :: post := by simp
    rw [hlog] at h
    obtain ⟨c₁, c₂, hrun, hstep, -⟩ := h.split
    obtain ⟨call, hcall, hcallop, hdone⟩ := hrun.call_of_start hb
    -- whatever the call has loaded, it has loaded after the revocation
    have hrevoked : ∀ y ∈ call.done, (y.1 tokenId).any OAuth2Entry.revoked := by
      rintro ⟨s, q⟩ hy
      obtain ⟨u, v, rfl⟩ := List.append_of_mem (hdone _ hy)
      rw [← List.cons_append, ← List.append_assoc] at hrun
      obtain ⟨c₃, c₄, hrun₃, hstep₃, -⟩ := hrun.split
      obtain ⟨entry, hinv⟩ := refreshInv_of_run hrun₃
      have hmarked := hinv.marked ⟨x, by simp, hx⟩
      cases hstep₃
      show (c₃.state tokenId).any OAuth2Entry.revoked
      rw [hinv.found, Option.any_some]
      exact hmarked
    cases op with
    | markRevoked => cases hop
    | resolveBearer skewMs now answer =>
      have hreaches := hrun.reaches hcall
      rw [hcallop] at hreaches
      obtain ⟨p, hp, hrest⟩ := Prog.reaches_map hreaches
      rcases resolveBearer_of_revoked hp hrevoked with ⟨k, rfl⟩ | rfl
      · cases hstep with
        | ret hbusy =>
          obtain rfl := Option.some.inj (hcall.symm.trans hbusy)
          cases hrest
        | fail hbusy =>
          obtain rfl := Option.some.inj (hcall.symm.trans hbusy)
          cases hrest
      · cases hstep with
        | ret hbusy =>
          obtain rfl := Option.some.inj (hcall.symm.trans hbusy)
          cases hrest
        | fail hbusy =>
          obtain rfl := Option.some.inj (hcall.symm.trans hbusy)
          cases hrest
          rfl
  · obtain ⟨entry, hinv⟩ := refreshInv_of_run h
    exact ⟨entry, hinv.found, hinv.latest⟩

end Runs

/-! ### Schedules -/

def expired : OAuth2Tokens := ⟨"access-0", "refresh-0", 0⟩

def renewed (n : ℕ) : OAuth2Tokens := ⟨s!"access-{n}", s!"refresh-{n}", 9⟩

/-- The resolver at a time, with the pair that the provider has for it. -/
def resolve (now n : ℕ) : Op := .resolveBearer 0 now (.ok (renewed n))

def playTokens (schedule : List (List (String × Op))) : List (TokenLabel String) × TokenPool String :=
  Pool.play Access.exec (Op.prog "gmail")
    (OAuth2Store.seed (fun _ => none) "gmail" expired) schedule.flatten

/-- A refresh, a revocation, and a call after it. -/
def revokedLast : List (List (String × Op)) :=
  [.replicate 5 ("a", resolve 5 1),
    .replicate 3 ("ops", .markRevoked),
    .replicate 3 ("b", resolve 6 2)]

/-- The grant is revoked while a refresh is under way. -/
def revokedMeanwhile : List (List (String × Op)) :=
  [.replicate 3 ("a", resolve 5 1),
    .replicate 3 ("ops", .markRevoked),
    .replicate 2 ("a", resolve 5 1),
    .replicate 3 ("b", resolve 6 2)]

/-- The pairs of two refreshes are saved in the other order. -/
def savedOutOfOrder : List (List (String × Op)) :=
  [.replicate 3 ("a", resolve 5 1),
    .replicate 5 ("b", resolve 5 2),
    .replicate 2 ("a", resolve 5 1)]

/-- Pairs are saved right after they have been issued, for a grant that is not revoked. -/
def orderlyTest (log : List (TokenLabel String)) : TokenLabel String → Bool
  | .access _ store (.save _ tokens) =>
    (store "gmail").all (!·.revoked) && decide (tokens = lastIssued expired log)
  | _ => true

theorem run_playTokens (schedule : List (List (String × Op))) :
    Pool.Run Access.exec (Op.prog "gmail") (OAuth2Store.seed (fun _ => none) "gmail" expired)
      (fun _ _ _ => True) (playTokens schedule).1 (playTokens schedule).2 :=
  Pool.run_play schedule.flatten

theorem grantKept_revokedLast :
    GrantKept "gmail" expired (playTokens revokedLast).1 (playTokens revokedLast).2 ∧
      (playTokens revokedLast).2.state "gmail" = some ⟨renewed 1, true⟩ := by
  refine ⟨grantKept_of_orderly "gmail" expired (fun _ => none) _ _ ?_, by decide +kernel⟩
  have hpasses : Pool.passesAt orderlyTest (playTokens revokedLast).1 := by decide +kernel
  refine ((run_playTokens revokedLast).of_passesAt hpasses).mono fun log c l hl => ?_
  unfold Orderly
  split
  next =>
    obtain ⟨hvalid, hlast⟩ := Bool.and_eq_true_iff.mp hl
    refine ⟨fun entry hentry => ?_, .inl (of_decide_eq_true hlast)⟩
    rw [Option.mem_def.mp hentry, Option.all_some] at hvalid
    simpa using hvalid
  next => trivial

/-- No thread is in a call after this schedule. -/
theorem idle_savedOutOfOrder (i : String) : (playTokens savedOutOfOrder).2.calls i = none := by
  cases hcall : (playTokens savedOutOfOrder).2.calls i with
  | none => rfl
  | some call =>
    have hstarts : (playTokens savedOutOfOrder).1.all fun l => match l with
        | .start i _ => ((playTokens savedOutOfOrder).2.calls i).isNone
        | _ => true := by decide +kernel
    have hidle := List.all_eq_true.mp hstarts _ ((run_playTokens savedOutOfOrder).started hcall)
    dsimp only at hidle
    rw [hcall] at hidle
    cases hidle

/-- A call that starts after the revocation gets a token. A pair is overwritten by an older one, and
nobody saves it any more. -/
theorem grant_lost :
    (¬ ∀ (log : List (TokenLabel String)) c, Pool.Run Access.exec (Op.prog "gmail")
      (OAuth2Store.seed (fun _ => none) "gmail" expired) (fun _ _ _ => True) log c →
      ∀ pre x mid i op b r post,
        log = pre ++ x :: (mid ++ .start i op :: (b ++ .finish i op r :: post)) →
        revokes "gmail" x → op.resolves → (∀ op r, .finish i op r ∉ b) →
        r = .error (.revoked "gmail")) ∧
    ¬ ∀ (log : List (TokenLabel String)) c, Pool.Run Access.exec (Op.prog "gmail")
      (OAuth2Store.seed (fun _ => none) "gmail" expired) (fun _ _ _ => True) log c →
      (∀ i, c.calls i = none) →
      ∃ entry, c.state "gmail" = some entry ∧ entry.tokens = lastIssued expired log := by
  refine ⟨fun h => ?_, fun h => ?_⟩
  · have hlog : (playTokens revokedMeanwhile).1 = (playTokens revokedMeanwhile).1.take 4 ++
        (playTokens revokedMeanwhile).1.get ⟨4, by decide +kernel⟩ ::
        (((playTokens revokedMeanwhile).1.drop 5).take 3 ++ .start "b" (resolve 6 2) ::
          (((playTokens revokedMeanwhile).1.drop 9).take 1 ++
            .finish "b" (resolve 6 2) (.ok (some "access-1")) :: [])) := rfl
    have hresult := h _ _ (run_playTokens revokedMeanwhile) _ _ _ _ _ _ _ _ hlog (by decide +kernel)
      rfl ?_
    · cases hresult
    · have hload : (((playTokens revokedMeanwhile).1.drop 9).take 1).all fun l => match l with
          | .finish .. => false
          | _ => true := by decide +kernel
      exact fun op r hmem => absurd (List.all_eq_true.mp hload _ hmem) (by simp)
  · obtain ⟨entry, hentry, htokens⟩ := h _ _ (run_playTokens savedOutOfOrder) idle_savedOutOfOrder
    have hstored : (playTokens savedOutOfOrder).2.state "gmail" = some ⟨renewed 1, false⟩ := by
      decide +kernel
    cases hentry.symm.trans hstored
    revert htokens
    decide +kernel

end Corvid.Connectors
