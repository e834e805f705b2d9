import Corvid.Approvals.Rows

/-!
# Decisions on approvals

Threads approve, deny, expire, delegate and comment side by side, and their accesses interleave. A
decision reads the approval and checks who decides; its transaction then updates the row if it is
pending, and writes the event of the decision in any case. What the check was about may have changed
in between: the approval may have been decided, or delegated to someone else.

## Main definitions

* `Faithful`: approvals are decided once, by someone who may, and answers and events say so
* `Timely`: the transactions of decisions that find the approval pending, and delegated as it should be

## Main results

* `faithful_of_timely`: decisions are faithful in all interleavings of such steps
-/

namespace Corvid.Approvals

open Store

abbrev ApprovalLabel (ι : Type) := Pool.Label ι ApprovalDb Access RuntimeError Outcome Op

abbrev ApprovalPool (ι : Type) := Pool ι ApprovalDb Access.Reply RuntimeError Outcome Op

def ApprovalDb.isPending (db : ApprovalDb) (id : String) : Bool :=
  (db.find id).any (·.status = .pending)

/-- The event of a decision on an approval. -/
def decisionOn (id : String) (e : ApprovalQueueAuditEvent) : Bool :=
  e.approvalId = id ∧ e.statusBefore = some .pending ∧ e.statusAfter ≠ .pending

section Properties

variable {ι : Type} [DecidableEq ι]

/-- The approval is decided. -/
def leavesPending (id : String) : ApprovalLabel ι → Bool
  | .access _ db q => db.isPending id && !(q.next db).isPending id
  | _ => false

variable (log : List (ApprovalLabel ι)) (c : ApprovalPool ι)

def DecidedOnce : Prop := ∀ id, log.countP (leavesPending id) ≤ 1

/-- A decision that returns an approval has made it. -/
def Answers : Prop :=
  ∀ i op approval status actorId, .finish i op (.ok (.record approval)) ∈ log →
    op.decision? = some (status, actorId) →
      approval.status = status ∧ approval.approverActorId = some actorId

/-- A decided approval has one event of a decision, which is the one that is stored. -/
def Audited : Prop :=
  ∀ r ∈ c.state.queue, r.status ≠ .pending →
    ∃ e, c.state.audit.filter (decisionOn r.id) = [e] ∧ e.statusAfter = r.status

/-- Who has approved was authorized to do so when the approval was updated. -/
def Authorized : Prop :=
  ∀ r ∈ c.state.queue, r.status = .approved → ∃ pre i db q post r₀ tenantId actor reason atMs,
    log = pre ++ .access i db q :: post ∧
    Pool.calling i pre = some (.approveAt r.id tenantId actor reason atMs) ∧
    db.find r.id = some r₀ ∧ r₀.status = .pending ∧ (q.next db).find r.id = some r ∧
    r.approverActorId = some actor.actorId ∧
    authorizeApprovalTransition r₀ actor .approve atMs = .ok ()

structure Faithful : Prop where
  once : DecidedOnce log
  answers : Answers log
  audited : Audited c
  authorized : Authorized log c

end Properties

/-- The transaction of a decision finds the approval pending and, to approve it, not delegated to
someone else; or it is rolled back, as its event is there already. -/
def timely (db : ApprovalDb) : Access → Bool
  | .decide id _ actorId kind _ after _ _ atMs =>
    (db.audit.any (·.id = auditId id atMs kind)) || (db.find id).any fun r =>
      r.status = .pending ∧ (after = .approved → r.delegatedToActorId.all (· = actorId))
  | _ => true

def Timely {ι : Type} (_ : List (ApprovalLabel ι)) (_ : ApprovalPool ι) : ApprovalLabel ι → Prop
  | .access _ db q => timely db q
  | _ => True

/-! ### What calls guarantee -/

/-- The call has been authorized by an earlier version of the row. -/
def authorizedBy (op : Op) (db : ApprovalDb) (id : String) : Prop :=
  match op with
  | .approveAt id' _ actor _ atMs => id' = id ∧ ∃ r₀ r, db.find id = some r ∧ Later r₀ r ∧
      authorizeApprovalTransition r₀ actor .approve atMs = .ok ()
  | _ => True

def guaranteed (op : Op) (db : ApprovalDb) (q : Access) : Prop :=
  Backed db q ∧ match q with
    | .decide id _ actorId _ before after _ _ _ =>
      before = .pending ∧ op.decision? = some (after, actorId) ∧ authorizedBy op db id
    | _ => True

/-- What a call returns, if its decisions are timely. -/
def returned (strict : Prop) (op : Op) (outcome : Outcome) : Prop :=
  strict → match outcome with
    | .record approval => ∀ status actorId, op.decision? = some (status, actorId) →
        approval.status = status ∧ approval.approverActorId = some actorId
    | .event _ => True

theorem ne_pending_of_decision {op : Op} {status : ApprovalStatus} {actorId : String}
    (h : op.decision? = some (status, actorId)) : status ≠ .pending := by
  cases op with
  | approveAt => cases h; decide
  | deny => cases h; decide
  | expire => cases h; decide
  | create => cases h
  | delegate => cases h
  | comment => cases h

section Programs

variable {strict : Prop} {op : Op} {db : ApprovalDb}

/-- Programs of a call of `op`. -/
abbrev Keeps {α : Type} (strict : Prop) (op : Op) (post : α → ApprovalDb → Prop) (p : ApprovalM α)
    (db : ApprovalDb) : Prop :=
  p.Guarantees Access.exec Grows (fun db q => strict → timely db q) (guaranteed op) post db

theorem keeps_check_bind {α β : Type} {post : β → ApprovalDb → Prop} {x : Except RuntimeError α}
    {f : α → ApprovalM β} (h : ∀ a, x = .ok a → Keeps strict op post (f a) db) :
    Keeps strict op post (check x >>= f) db := by
  cases x with
  | error err => trivial
  | ok a => exact h a rfl

theorem keeps_getOrNotFound {id : String} {post : ApprovalQueueRecord → ApprovalDb → Prop}
    (h : ∀ db' r, Grows db db' → db'.find id = some r → ∀ db'', Grows db' db'' → post r db'') :
    Keeps strict op post (getOrNotFound id) db := by
  refine Prog.guarantees_query_bind fun db' hdb' => ⟨⟨trivial, trivial⟩, fun _ => ?_⟩
  rw [show (Access.get id).exec db' = (db'.find id, db') from rfl]
  cases hfind : db'.find id with
  | none => trivial
  | some r => exact h db' r hdb' hfind

/-- The approval that a call has read is there still. -/
def Read (id tenantId : String) (r : ApprovalQueueRecord) (db : ApprovalDb) : Prop :=
  r.tenantId = tenantId ∧ ∃ r', db.find id = some r' ∧ Later r r'

theorem Read.grows {id tenantId : String} {r : ApprovalQueueRecord} {db' : ApprovalDb}
    (h : Read id tenantId r db) (hdb : Grows db db') : Read id tenantId r db' := by
  obtain ⟨htenant, r', hr', hlater⟩ := h
  obtain ⟨r'', hr'', hlater'⟩ := hdb id r' hr'
  exact ⟨htenant, r'', hr'', hlater.trans hlater'⟩

theorem Read.backed {id tenantId : String} {r : ApprovalQueueRecord}
    (h : Read id tenantId r db) :
    ∃ r', db.find id = some r' ∧ r'.tenantId = tenantId ∧ r'.traceId = r.traceId := by
  obtain ⟨rfl, r', hr', hlater⟩ := h
  exact ⟨r', hr', hlater.tenantId, hlater.traceId⟩

theorem keeps_requireTenant (id tenantId : String) :
    Keeps strict op (Read id tenantId) (requireTenant id tenantId) db := by
  refine keeps_check_bind fun _ _ => keeps_check_bind fun _ _ => ?_
  have hget : Keeps strict op (fun r db => ∃ r', db.find id = some r' ∧ Later r r')
      (getOrNotFound id) db :=
    keeps_getOrNotFound fun _ r _ hr db'' hdb'' => hdb'' id r hr
  refine hget.bind Grows.refl fun r db' hr => ?_
  split
  next => trivial
  next htenant => exact fun db'' hdb'' => Read.grows ⟨not_not.mp htenant, hr⟩ hdb''

theorem keeps_requirePending (id tenantId : String) :
    Keeps strict op (fun r db => Read id tenantId r db ∧ r.status = .pending)
      (requirePending id tenantId) db := by
  refine (keeps_requireTenant id tenantId).bind Grows.refl fun r db' hr => ?_
  split
  next => trivial
  next hpending => exact fun db'' hdb'' => ⟨hr.grows hdb'', not_not.mp hpending⟩

/-- A decision that is timely and not rolled back finds the approval as it should be. -/
theorem pending_of_timely {id tenantId actorId traceId : String} {kind : EventKind}
    {before after : ApprovalStatus} {reason : Option String} {atMs : ℕ}
    (htimely : timely db (.decide id tenantId actorId kind before after reason traceId atMs))
    (hunused : ∀ e ∈ db.audit, e.id ≠ auditId id atMs kind) :
    ∃ r, db.find id = some r ∧ r.status = .pending ∧
      (after = .approved → r.delegatedToActorId.all (· = actorId)) := by
  rcases Bool.or_eq_true_iff.mp htimely with hused | hfresh
  · obtain ⟨e, he, hid⟩ := List.any_eq_true.mp hused
    exact absurd (of_decide_eq_true hid) (hunused e he)
  · obtain ⟨r, hr, hr'⟩ := (Option.any_eq_true _ _).mp hfresh
    exact ⟨r, hr, of_decide_eq_true hr'⟩

/-- The row after such a decision. -/
theorem find_of_timely {id tenantId actorId traceId : String} {kind : EventKind}
    {before after : ApprovalStatus} {reason : Option String} {atMs : ℕ}
    (hbacked : ∃ r, db.find id = some r ∧ r.tenantId = tenantId ∧ r.traceId = traceId)
    (htimely : timely db (.decide id tenantId actorId kind before after reason traceId atMs))
    (hdone : (Access.decide id tenantId actorId kind before after reason traceId atMs).done db =
      .ok ()) :
    ∃ r : ApprovalQueueRecord,
      ((Access.decide id tenantId actorId kind before after reason traceId atMs).next db).find id =
        some (r.decided after actorId atMs) := by
  obtain ⟨hunused, hnext⟩ := insertAuditTx_eq_ok.mp (tx_eq_next hdone)
  obtain ⟨r, hr, hpending, -⟩ := pending_of_timely htimely hunused
  obtain ⟨r', hr', htenant, -⟩ := hbacked
  obtain rfl : r = r' := Option.some.inj (hr.symm.trans hr')
  refine ⟨r, ?_⟩
  rw [hnext, find_decided rfl, hr, Option.map_some, if_pos ⟨(mem_of_find hr).2, htenant, hpending⟩]

theorem keeps_decide {id tenantId actorId : String} {kind : EventKind} {after : ApprovalStatus}
    {reason : Option String} {atMs : ℕ} {existing : ApprovalQueueRecord}
    (hop : op.decision? = some (after, actorId))
    (hread : Read id tenantId existing db ∧ existing.status = .pending)
    (hauth : ∀ db', Grows db db' → authorizedBy op db' id) :
    Keeps strict op (fun r _ => returned strict op (.record r)) (do
      check (← access (.decide id tenantId actorId kind existing.status after reason
        existing.traceId atMs))
      getOrNotFound id) db := by
  refine Prog.guarantees_query_bind fun db' hdb' => ?_
  have hbacked := (hread.1.grows hdb').backed
  refine ⟨⟨hbacked, hread.2, hop, hauth db' hdb'⟩, fun htimely => keeps_check_bind fun _ hdone => ?_⟩
  refine keeps_getOrNotFound fun db₁ r hdb₁ hr _ _ hstrict status actorId' hdecision => ?_
  obtain ⟨rfl, rfl⟩ := Prod.mk.inj (Option.some.inj (hop.symm.trans hdecision))
  obtain ⟨r₀, hfind⟩ := find_of_timely hbacked (htimely hstrict) hdone
  obtain ⟨r', hr', hlater⟩ := hdb₁ id _ hfind
  obtain rfl : r = r' := Option.some.inj (hr.symm.trans hr')
  -- a decided row stays as it is
  rw [hlater.final (ne_pending_of_decision hop)]
  exact ⟨rfl, rfl⟩

theorem keeps_transitionStatusAt {id tenantId : String} {actor : ApprovalActorContext}
    {transition : ApprovalTransitionKind} {kind : EventKind} {after : ApprovalStatus}
    {reason : Option String} {atMs : ℕ} (hop : op.decision? = some (after, actor.actorId))
    (hauth : ∀ db r₀ r, db.find id = some r → Later r₀ r →
      authorizeApprovalTransition r₀ actor transition atMs = .ok () → authorizedBy op db id) :
    Keeps strict op (fun r _ => returned strict op (.record r))
      (transitionStatusAt id tenantId actor transition kind after reason atMs) db := by
  refine keeps_check_bind fun _ _ => keeps_check_bind fun _ _ => ?_
  refine (keeps_requirePending id tenantId).bind Grows.refl fun existing db' hread => ?_
  refine keeps_check_bind fun _ hok => keeps_decide hop hread fun db'' hdb'' => ?_
  obtain ⟨-, r, hr, hlater⟩ := hread.1.grows hdb''
  exact hauth db'' existing r hr hlater hok

theorem keeps_expire {id tenantId actorId : String} {reason : Option String} {atMs : ℕ} :
    let op := Op.expire id tenantId actorId reason atMs
    Keeps strict op (fun r _ => returned strict op (.record r))
      (expire id tenantId actorId reason atMs) db := by
  refine (keeps_requirePending id tenantId).bind Grows.refl fun existing db' _ => ?_
  split
  next => trivial
  next =>
    refine keeps_check_bind fun _ _ => keeps_check_bind fun _ _ => keeps_check_bind fun _ _ => ?_
    refine (keeps_requirePending id tenantId).bind Grows.refl fun existing db'' hread => ?_
    exact keeps_decide rfl hread fun _ _ => trivial

theorem keeps_delegate {id tenantId delegatedToActorId : String} {actor : ApprovalActorContext}
    {reason : Option String} {authorizedMs now : ℕ} :
    let op := Op.delegate id tenantId actor delegatedToActorId reason authorizedMs now
    Keeps strict op (fun r _ => returned strict op (.record r))
      (delegate id tenantId actor delegatedToActorId reason authorizedMs now) db := by
  refine keeps_check_bind fun _ _ => ?_
  refine (keeps_requirePending id tenantId).bind Grows.refl fun existing db' hread => ?_
  refine keeps_check_bind fun _ _ => keeps_check_bind fun _ _ => ?_
  refine Prog.guarantees_query_bind fun db'' hdb'' => ⟨⟨(hread.1.grows hdb'').backed, trivial⟩, ?_⟩
  refine fun _ => keeps_check_bind fun _ _ => keeps_getOrNotFound ?_
  intro _ _ _ _ _ _ _ _ _ hdecision
  cases hdecision

theorem keeps_comment {id tenantId actorId text : String} {now : ℕ} :
    let op := Op.comment id tenantId actorId text now
    Keeps strict op (fun e _ => returned strict op (.event e))
      (comment id tenantId actorId text now) db := by
  refine keeps_check_bind fun _ _ => ?_
  refine (keeps_requireTenant id tenantId).bind Grows.refl fun existing db' hread => ?_
  refine Prog.guarantees_query_bind fun db'' hdb'' => ⟨⟨(hread.grows hdb'').backed, trivial⟩, ?_⟩
  refine fun _ => keeps_check_bind fun _ _ => ?_
  refine Prog.guarantees_query_bind fun db'' hdb'' => ⟨⟨trivial, trivial⟩, fun _ => ?_⟩
  split
  next => exact fun _ _ _ => trivial
  next => trivial

theorem keeps_create {input : ApprovalCreate} {now : ℕ} :
    let op := Op.create input now
    Keeps strict op (fun r _ => returned strict op (.record r)) (create input now) db := by
  refine keeps_check_bind fun _ _ => ?_
  split
  next => trivial
  next =>
    dsimp only
    split
    next => trivial
    next =>
      refine Prog.guarantees_query_bind fun db' hdb' => ⟨⟨trivial, trivial⟩, ?_⟩
      refine fun _ => keeps_check_bind fun _ _ => keeps_getOrNotFound ?_
      intro _ _ _ _ _ _ _ _ _ hdecision
      cases hdecision

theorem keeps_prog (strict : Prop) (op : Op) (db : ApprovalDb) :
    Keeps strict op (fun outcome _ => returned strict op outcome) op.prog db := by
  cases op with
  | create input now => exact keeps_create.map
  | approveAt id tenantId actor reason atMs =>
    refine Prog.Guarantees.map (keeps_transitionStatusAt rfl ?_)
    exact fun _ r₀ r hr hlater hok => ⟨rfl, r₀, r, hr, hlater, hok⟩
  | deny id tenantId actor reason now =>
    refine Prog.Guarantees.map (keeps_transitionStatusAt rfl ?_)
    exact fun _ _ _ _ _ _ => trivial
  | expire id tenantId actorId reason atMs => exact keeps_expire.map
  | delegate id tenantId actor delegatedToActorId reason authorizedMs now =>
    exact keeps_delegate.map
  | comment id tenantId actorId text now => exact keeps_comment.map

end Programs

/-! ### Events of decisions -/

/-- The events of decisions agree with the statuses. -/
def Recorded (db : ApprovalDb) : Prop :=
  ∀ id r, db.find id = some r → (db.audit.filter (decisionOn id)).map (·.statusAfter) =
    if r.status = .pending then [] else [r.status]

section Events

variable {db db' : ApprovalDb} {q : Access} {op : Op} {id : String}

theorem filter_snoc_of_not {e : ApprovalQueueAuditEvent} (haudit : db'.audit = db.audit ++ [e])
    (he : ¬ decisionOn id e) :
    db'.audit.filter (decisionOn id) = db.audit.filter (decisionOn id) := by
  rw [haudit, List.filter_append, List.filter_cons_of_neg he, List.filter_nil, List.append_nil]

theorem Recorded.effect (h : Recorded db) (hlinked : Linked db) (hq : Effect db q db')
    (hguaranteed : guaranteed op db q) (htimely : timely db q) : Recorded db' := by
  cases hq with
  | same q => exact h
  | create input now hnew =>
    intro id r hr
    rw [filter_snoc_of_not rfl (by simp [decisionOn, auditEvent])]
    rw [find_append rfl hnew] at hr
    split at hr
    next hid =>
      obtain rfl := Option.some.inj hr
      obtain rfl : input.id = id := hid
      -- events belong to approvals that are there
      rw [List.filter_eq_nil_iff.mpr]
      · rfl
      · intro e he hdecision
        obtain ⟨r, hr, -⟩ := hlinked.approval e he
        rw [(of_decide_eq_true hdecision).1, hnew] at hr
        cases hr
    next => exact h id r hr
  | decide id' tenantId actorId kind before after reason traceId atMs hunused =>
    obtain ⟨hbacked, rfl, hop, -⟩ := hguaranteed
    have hafter := ne_pending_of_decision hop
    obtain ⟨r₀, hr₀, hpending, -⟩ := pending_of_timely htimely hunused
    obtain ⟨r₁, hr₁, htenant, -⟩ := hbacked
    obtain rfl : r₀ = r₁ := Option.some.inj (hr₀.symm.trans hr₁)
    intro id r hr
    rw [find_decided rfl] at hr
    by_cases hid : id = id'
    · subst hid
      rw [hr₀, Option.map_some, if_pos ⟨(mem_of_find hr₀).2, htenant, hpending⟩] at hr
      obtain rfl := Option.some.inj hr
      have hnone := h id r₀ hr₀
      rw [if_pos hpending] at hnone
      have hdecision : decisionOn id
          (auditEvent id tenantId actorId kind (some .pending) after reason traceId atMs) :=
        decide_eq_true ⟨rfl, rfl, hafter⟩
      rw [List.filter_append, List.map_append, hnone, List.filter_cons_of_pos hdecision]
      exact (if_neg hafter).symm
    · rw [filter_snoc_of_not rfl (by simp [decisionOn, auditEvent, Ne.symm hid])]
      cases hfind : db.find id with
      | none =>
        rw [hfind] at hr
        cases hr
      | some r' =>
        have hne : r'.id ≠ id' := (mem_of_find hfind).2.symm ▸ hid
        rw [hfind, Option.map_some, if_neg (fun hmatch => hne hmatch.1)] at hr
        exact h id r (hfind.trans hr)
  | delegate id' tenantId actorId delegatedToActorId before reason traceId now =>
    intro id r hr
    rw [filter_snoc_of_not rfl (by simp +contextual [decisionOn, auditEvent])]
    rw [find_delegated rfl] at hr
    obtain ⟨r', hr', rfl⟩ := Option.map_eq_some_iff.mp hr
    have hstatus : (if r'.id = id' ∧ r'.tenantId = tenantId ∧ r'.status = .pending then
        r'.delegated delegatedToActorId now else r').status = r'.status := by
      split <;> rfl
    rw [h id r' hr', hstatus]
  | comment =>
    intro id r hr
    rw [filter_snoc_of_not rfl (by simp +contextual [decisionOn, auditEvent])]
    exact h id r hr

end Events

/-! ### Runs -/

/-- The discipline of all calls. If decisions have to be timely, their events agree with the statuses
and their answers are right. -/
def discipline (strict : Prop) : RelyGuarantee Access.exec Op.prog where
  inv db := Linked db ∧ (strict → Recorded db)
  rely := Grows
  allowed db q := strict → timely db q
  guarantee := guaranteed
  post op outcome _ := returned strict op outcome
  refl := Grows.refl
  trans := Grows.trans
  exec_inv := by
    intro op db q hinv htimely hguaranteed
    rw [exec_snd]
    have heffect := effect_next q db
    refine ⟨⟨hinv.1.effect heffect hguaranteed.1, fun hstrict => ?_⟩, heffect.grows⟩
    exact (hinv.2 hstrict).effect hinv.1 heffect hguaranteed (htimely hstrict)
  prog_guarantees := keeps_prog strict

theorem inv_empty (strict : Prop) : (discipline strict).inv .empty :=
  ⟨linked_empty, fun _ id r hr => by simp [ApprovalDb.empty, ApprovalDb.find] at hr⟩

section Runs

variable {ι : Type} [DecidableEq ι] {log : List (ApprovalLabel ι)} {c : ApprovalPool ι}

/-- An approval has been decided once, or not at all. -/
theorem countP_leavesPending {C : List (ApprovalLabel ι) → ApprovalPool ι → ApprovalLabel ι → Prop}
    (h : Pool.Run Access.exec Op.prog .empty C log c) (id : String) :
    log.countP (leavesPending id) =
      if (c.state.find id).any (·.status ≠ .pending) then 1 else 0 := by
  induction h with
  | nil => rfl
  | @snoc log c c' l _ hstep _ ih =>
    rw [List.countP_append, ih, List.countP_singleton]
    cases hstep with
    | start op hidle => simp [leavesPending]
    | ret hbusy => simp [leavesPending]
    | fail hbusy => simp [leavesPending]
    | @access i op done q k hbusy =>
      have heffect := effect_next q c.state
      simp only [leavesPending, exec_snd]
      cases hfind : c.state.find id with
      | none =>
        cases hfind' : (q.next c.state).find id with
        | none => simp [ApprovalDb.isPending, hfind]
        | some r => simp [ApprovalDb.isPending, hfind, heffect.find_new hfind hfind']
      | some r =>
        obtain ⟨r', hr', hlater⟩ := heffect.grows id r hfind
        by_cases hpending : r.status = .pending
        · by_cases hpending' : r'.status = .pending
          · simp [ApprovalDb.isPending, hfind, hr', hpending, hpending']
          · simp [ApprovalDb.isPending, hfind, hr', hpending, hpending']
        · rw [hlater.final hpending] at hr'
          simp [ApprovalDb.isPending, hfind, hr', hpending]

theorem timely_of_Timely (log : List (ApprovalLabel ι)) (c : ApprovalPool ι) (i : ι)
    (db : ApprovalDb) (q : Access) (h : Timely log c (.access i db q)) :
    (discipline True).allowed db q :=
  fun _ => h

theorem authorizeApprovalTransition_eq_ok {r : ApprovalQueueRecord} {actor : ApprovalActorContext}
    {transition : ApprovalTransitionKind} {atMs : ℕ} :
    authorizeApprovalTransition r actor transition atMs = .ok () ↔
      validateActor actor = .ok () ∧ actor.tenantId = r.tenantId ∧ actor.role = r.requiredRole ∧
      actor.actorId ≠ r.requesterActorId ∧ r.delegatedToActorId.all (· = actor.actorId) ∧
      ¬ (transition = .approve ∧ r.expiresMs ≤ atMs) := by
  unfold authorizeApprovalTransition
  cases hactor : validateActor actor with
  | error err => simp [bind, Except.bind]
  | ok u =>
    simp only [bind, Except.bind]
    cases hdelegate : r.delegatedToActorId <;> split <;> simp_all [pure, Except.pure] <;> grind

/-- A row authorizes whom an earlier version of it has authorized, unless it was delegated since. -/
theorem authorize_of_later {r₀ r : ApprovalQueueRecord} {actor : ApprovalActorContext}
    {transition : ApprovalTransitionKind} {atMs : ℕ} (h : Later r₀ r)
    (hdelegate : r.delegatedToActorId.all (· = actor.actorId))
    (hok : authorizeApprovalTransition r₀ actor transition atMs = .ok ()) :
    authorizeApprovalTransition r actor transition atMs = .ok () := by
  obtain ⟨hactor, htenant, hrole, hrequester, -, hexpires⟩ :=
    authorizeApprovalTransition_eq_ok.mp hok
  have hrole' : r.requiredRole = r₀.requiredRole := congrArg (·.requiredRole) h.terms
  have hrequester' : r.requesterActorId = r₀.requesterActorId :=
    congrArg (·.requesterActorId) h.terms
  have hexpires' : r.expiresMs = r₀.expiresMs := congrArg (·.expiresMs) h.terms
  refine authorizeApprovalTransition_eq_ok.mpr ⟨hactor, ?_, ?_, ?_, hdelegate, ?_⟩
  · rw [h.tenantId, htenant]
  · rw [hrole', hrole]
  · rw [hrequester']
    exact hrequester
  · rw [hexpires']
    exact hexpires

theorem authorized_of_timely (h : Pool.Run Access.exec Op.prog .empty Timely log c) :
    Authorized log c := by
  induction h with
  | nil => intro r hr; cases hr
  | @snoc log c c' l hrun hstep hC ih =>
    -- what has been approved before the step
    have hold : ∀ r ∈ c.state.queue, r.status = .approved → ∃ pre i db q post r₀ tenantId actor
        reason atMs, log ++ [l] = pre ++ .access i db q :: post ∧
        Pool.calling i pre = some (.approveAt r.id tenantId actor reason atMs) ∧
        db.find r.id = some r₀ ∧ r₀.status = .pending ∧ (q.next db).find r.id = some r ∧
        r.approverActorId = some actor.actorId ∧
        authorizeApprovalTransition r₀ actor .approve atMs = .ok () := by
      intro r hr hstatus
      obtain ⟨pre, i, db, q, post, r₀, tenantId, actor, reason, atMs, rfl, hrest⟩ := ih r hr hstatus
      exact ⟨pre, i, db, q, post ++ [l], r₀, tenantId, actor, reason, atMs, by simp, hrest⟩
    cases hstep with
    | start op hidle => exact hold
    | ret hbusy => exact hold
    | fail hbusy => exact hold
    | @access i op done q k hbusy =>
      have hrun' := hrun.snoc (.access hbusy) hC
      obtain ⟨hlinked, -⟩ := ((discipline True).of_run timely_of_Timely (inv_empty True) hrun').1
      intro r hr hstatus
      have hr' := find_of_mem hlinked.keyed hr
      simp only [exec_snd] at hr'
      have heffect := effect_next q c.state
      cases hfind : c.state.find r.id with
      | none => cases hstatus.symm.trans (heffect.find_new hfind hr')
      | some r₁ =>
        obtain ⟨r₂, hr₂, hlater⟩ := heffect.grows r.id r₁ hfind
        obtain rfl : r = r₂ := Option.some.inj (hr'.symm.trans hr₂)
        by_cases hpending : r₁.status = .pending
        · obtain ⟨tenantId, actorId, kind, before, after, reason, traceId, atMs, rfl, hunused, hr₁⟩ :=
            heffect.decides hfind hr' hpending (by rw [hstatus]; decide)
          obtain ⟨op, hcalling, -, -, hbacked, hbefore, hop, hauth⟩ :=
            (discipline True).of_access timely_of_Timely (inv_empty True) hrun'
          have hafter : after = .approved := (congrArg (·.status) hr₁).symm.trans hstatus
          obtain ⟨r₂, hr₂, -, hdelegate⟩ := pending_of_timely hC hunused
          obtain rfl : r₁ = r₂ := Option.some.inj (hfind.symm.trans hr₂)
          subst hafter
          cases op with
          | approveAt id tenantId' actor reason' atMs' =>
            obtain ⟨rfl, r₀, r₂, hr₂, hlater₀, hok⟩ := hauth
            obtain rfl : r₁ = r₂ := Option.some.inj (hfind.symm.trans hr₂)
            obtain rfl : actor.actorId = actorId := (Prod.mk.inj (Option.some.inj hop)).2
            exact ⟨log, i, c.state, _, [], r₁, tenantId', actor, reason', atMs', rfl, hcalling, hfind,
              hpending, hr', congrArg (·.approverActorId) hr₁,
              authorize_of_later hlater₀ (hdelegate rfl) hok⟩
          | deny => cases hop
          | expire => cases hop
          | create => cases hop
          | delegate => cases hop
          | comment => cases hop
        · obtain rfl := hlater.final hpending
          exact hold r (mem_of_find hfind).1 hstatus

/-- In all interleavings of timely decisions approvals are decided once, by someone who was authorized
when the row was updated, and the answers and the audit events agree with what is stored. -/
theorem faithful_of_timely {ι : Type} [DecidableEq ι] (log : List (ApprovalLabel ι))
    (c : ApprovalPool ι) (h : Pool.Run Access.exec Op.prog .empty Timely log c) :
    Faithful log c where
  once := by
    intro id
    rw [countP_leavesPending h]
    split <;> omega
  answers := by
    intro i op approval status actorId hfinish hdecision
    obtain ⟨_, _, hreturned⟩ :=
      (discipline True).of_finish timely_of_Timely (inv_empty True) h hfinish
    exact hreturned trivial status actorId hdecision
  audited := by
    intro r hr hdecided
    obtain ⟨hlinked, hrecorded⟩ :=
      ((discipline True).of_run timely_of_Timely (inv_empty True) h).1
    have hevents := hrecorded trivial r.id r (find_of_mem hlinked.keyed hr)
    rw [if_neg hdecided] at hevents
    obtain ⟨e, he, hstatus⟩ := List.map_eq_singleton_iff.mp hevents
    exact ⟨e, he, hstatus⟩
  authorized := authorized_of_timely h

end Runs

/-! ### Two reviewers -/

/-- A refund that a reviewer has to approve before time 1000. -/
def refund : ApprovalCreate where
  id := "approval-1"
  tenantId := "org-1"
  requesterActorId := "user-1"
  contract :=
    { id := "contract-1", version := "v1", action := "IssueRefund", targetKind := "order"
      targetId := "order-1", tenantId := "org-1", requiredRole := "Reviewer", maxCostUsd := some 10
      dataClass := "financial", irreversible := true, expiresMs := 1000, replayKey := "replay-1"
      createdMs := 0 }
  riskLevel := "external_side_effect"
  traceId := "trace-1"

def reviewer (id : String) : ApprovalActorContext := ⟨id, "org-1", "Reviewer"⟩

/-- The threads take their steps in order, each of them a number of steps of one operation. -/
def playOps (schedule : List (List (String × Op))) : List (ApprovalLabel String) × ApprovalPool String :=
  Pool.play Access.exec Op.prog .empty schedule.flatten

/-- The approval is delegated while someone comments on it, and then decided by the delegate, while
another reviewer is too late. -/
def delegated : List (List (String × Op)) := [
  .replicate 4 ("user-1", .create refund 5),
  .replicate 2 ("b", .comment "approval-1" "org-1" "b" "amount checked" 7),
  .replicate 5 ("a", .delegate "approval-1" "org-1" (reviewer "a") "b" none 6 6),
  .replicate 3 ("b", .comment "approval-1" "org-1" "b" "amount checked" 7),
  .replicate 5 ("b", .approveAt "approval-1" "org-1" (reviewer "b") none 8),
  .replicate 4 ("a", .deny "approval-1" "org-1" (reviewer "a") none 9)]

def timelyTest : ApprovalLabel String → Bool
  | .access _ db q => timely db q
  | _ => true

theorem timely_of_timelyTest (log : List (ApprovalLabel String)) (c : ApprovalPool String)
    (l : ApprovalLabel String) (h : timelyTest l) : Timely log c l := by
  cases l with
  | start => trivial
  | access => exact h
  | finish => trivial

theorem faithful_of_timely_delegated :
    ((playOps delegated).2.state.find "approval-1").map (·.status) = some .approved ∧
      Faithful (playOps delegated).1 (playOps delegated).2 := by
  have hpasses : Pool.passes Access.exec Op.prog (fun _ l => timelyTest l) .empty
      delegated.flatten := by decide +kernel
  exact ⟨by decide +kernel, faithful_of_timely _ _ (Pool.run_of_passes timely_of_timelyTest hpasses)⟩

/-- A reviewer denies the approval after another one has read it to approve it. -/
def deniedBetween : List (List (String × Op)) := [
  .replicate 4 ("user-1", .create refund 5),
  .replicate 2 ("a", .approveAt "approval-1" "org-1" (reviewer "a") none 8),
  .replicate 5 ("b", .deny "approval-1" "org-1" (reviewer "b") none 7),
  .replicate 3 ("a", .approveAt "approval-1" "org-1" (reviewer "a") none 8)]

/-- The approval is delegated to a third one in between. -/
def delegatedBetween : List (List (String × Op)) := [
  .replicate 4 ("user-1", .create refund 5),
  .replicate 2 ("a", .approveAt "approval-1" "org-1" (reviewer "a") none 8),
  .replicate 5 ("b", .delegate "approval-1" "org-1" (reviewer "b") "c" none 7 7),
  .replicate 3 ("a", .approveAt "approval-1" "org-1" (reviewer "a") none 8)]

/-- A decision returns an approval on which someone else has decided. -/
def wronglyAnswered : ApprovalLabel String → Bool
  | .finish _ op (.ok (.record approval)) => op.decision?.any fun decision =>
      approval.status ≠ decision.1 ∨ approval.approverActorId ≠ some decision.2
  | _ => false

theorem not_wronglyAnswered {log : List (ApprovalLabel String)} (h : Answers log) :
    log.any wronglyAnswered = false := by
  refine List.any_eq_false.mpr fun l hl hwrong => ?_
  unfold wronglyAnswered at hwrong
  split at hwrong
  next i op approval =>
    obtain ⟨⟨status, actorId⟩, hdecision, hwrong⟩ := (Option.any_eq_true _ _).mp hwrong
    obtain ⟨hstatus, hactor⟩ := h i op approval status actorId hl hdecision
    exact (of_decide_eq_true hwrong).elim (· hstatus) (· hactor)
  next => cases hwrong

/-- Otherwise answers, events and authorizations go wrong. -/
theorem decisions_unfaithful :
    (¬ ∀ (log : List (ApprovalLabel String)) c, Pool.Run Access.exec Op.prog .empty
      (fun _ _ _ => True) log c → Answers log) ∧
    (¬ ∀ (log : List (ApprovalLabel String)) c, Pool.Run Access.exec Op.prog .empty
      (fun _ _ _ => True) log c → Audited c) ∧
    ¬ ∀ (log : List (ApprovalLabel String)) c, Pool.Run Access.exec Op.prog .empty
      (fun _ _ _ => True) log c → Authorized log c := by
  refine ⟨fun h => ?_, fun h => ?_, fun h => ?_⟩
  · have hanswers := not_wronglyAnswered (h _ _ (Pool.run_play deniedBetween.flatten))
    revert hanswers
    decide +kernel
  · have haudited : ∀ r ∈ (playOps deniedBetween).2.state.queue, r.status ≠ .pending →
        ((playOps deniedBetween).2.state.audit.filter (decisionOn r.id)).length = 1 := by
      intro r hr hdecided
      obtain ⟨e, he, -⟩ := h _ _ (Pool.run_play deniedBetween.flatten) r hr hdecided
      exact congrArg List.length he
    revert haudited
    decide +kernel
  · have hdelegated : ∀ r ∈ (playOps delegatedBetween).2.state.queue, r.status = .approved →
        r.delegatedToActorId.all (some · = r.approverActorId) := by
      intro r hr happroved
      obtain ⟨pre, i, db, q, post, r₀, tenantId, actor, reason, atMs, -, -, hr₀, hpending, hr', hactor,
        hok⟩ := h _ _ (Pool.run_play delegatedBetween.flatten) r hr happroved
      obtain ⟨_, _, _, _, _, _, _, _, -, -, heq⟩ :=
        (effect_next q db).decides hr₀ hr' hpending (by rw [happroved]; decide)
      obtain ⟨-, -, -, -, hdelegate, -⟩ := authorizeApprovalTransition_eq_ok.mp hok
      rw [hactor, show r.delegatedToActorId = r₀.delegatedToActorId from
        congrArg (·.delegatedToActorId) heq]
      simpa using hdelegate
    revert hdelegated
    decide +kernel

end Corvid.Approvals
