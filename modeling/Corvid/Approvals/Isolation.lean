import Corvid.Approvals.Decisions

/-!
# Isolation of tenants

An operation on behalf of a tenant leaves the rows of the other tenants alone, with one exception:
contracts are keyed by their id and version only, so that the creation of an approval overwrites the
contract of another tenant under the same key. What an operation returns depends on the rows of its own
tenant, unless an approval of another tenant has the same id.

## Main definitions

* `Reachable`: the stores after any interleaving of operations
* `ApprovalDb.own`, `ApprovalDb.others`: the rows of a tenant, and those of the others
* `Op.steals`: the creations that overwrite a contract of another tenant

## Main results

* `isolated_iff`: isolation, but for such creations
* `not_isolated`: a contract that is overwritten
-/

namespace Corvid.Approvals

open Store

/-- The store after some interleaving of operations. -/
def Reachable (db : ApprovalDb) : Prop :=
  ∃ (log : List (ApprovalLabel ℕ)) (c : ApprovalPool ℕ),
    Pool.Run Access.exec Op.prog .empty (fun _ _ _ => True) log c ∧ c.state = db

theorem linked_of_reachable {db : ApprovalDb} (h : Reachable db) : Linked db := by
  obtain ⟨log, c, hrun, rfl⟩ := h
  exact ((discipline False).of_run (fun _ _ _ _ _ _ hfalse => hfalse.elim) (inv_empty False) hrun).1.1

namespace ApprovalDb

variable (tenantId : String) (db : ApprovalDb)

def own : ApprovalDb where
  contracts := db.contracts.filter (·.tenantId = tenantId)
  queue := db.queue.filter (·.tenantId = tenantId)
  audit := db.audit.filter (·.tenantId = tenantId)

def others : ApprovalDb where
  contracts := db.contracts.filter (·.tenantId ≠ tenantId)
  queue := db.queue.filter (·.tenantId ≠ tenantId)
  audit := db.audit.filter (·.tenantId ≠ tenantId)

end ApprovalDb

/-- A creation that passes all checks. -/
def ApprovalCreate.valid (input : ApprovalCreate) (now : ℕ) : Bool :=
  (validateCreate input).isOk ∧ input.tenantId = input.contract.tenantId ∧
    (validateApprovalContractPolicyAt input.contract now).valid

/-- A creation that goes through: it is valid, and the id of the approval is not in use. -/
def Op.creates? (db : ApprovalDb) : Op → Option (ApprovalContractRecord × ℕ)
  | .create input now =>
    if input.valid now ∧ db.find input.id = none then some (input.contract, now) else none
  | _ => none

/-- The operation creates an approval, and another tenant has a contract with the same key. -/
def Op.steals (db : ApprovalDb) (op : Op) : Bool :=
  (op.creates? db).any fun x => db.contracts.any fun c => sameKey x.1 c ∧ c.tenantId ≠ op.tenantId

/-- No approval with the id belongs to another tenant. -/
def NoClash (id tenantId : String) (db : ApprovalDb) : Prop :=
  ∀ r ∈ db.queue, r.id = id → r.tenantId = tenantId

/-! ### Event ids -/

/-- Events of different approvals have different ids. -/
theorem auditId_inj {id id' : String} {ms ms' : ℕ} {kind kind' : EventKind}
    (h : auditId id ms kind = auditId id' ms' kind') : id = id' := by
  have hcolon : ∀ k : EventKind, ':' ∉ k.text.toList := by
    intro k
    cases k <;> decide
  have hsplit : ∀ (id : String) (ms : ℕ) (kind : EventKind), (auditId id ms kind).toList =
      (id ++ ":audit" ++ ":" ++ toString ms).toList ++ ':' :: kind.text.toList := by
    intro id ms kind
    show (id ++ ":audit:" ++ toString ms ++ ":" ++ kind.text).toList = _
    rw [show (":audit:" : String) = ":audit" ++ ":" from rfl]
    simp [String.toList_append]
  have hlist := congrArg String.toList h
  rw [hsplit, hsplit] at hlist
  obtain ⟨hstart, -⟩ := Text.append_cons_inj (hcolon kind) (hcolon kind') hlist
  have hid := (Text.colon_toString_inj (String.toList_injective hstart)).1
  apply String.toList_injective
  have hid := congrArg String.toList hid
  rw [String.toList_append, String.toList_append] at hid
  exact List.append_cancel_right hid

/-! ### The accesses of an operation -/

/-- The access is about the approval and the tenant of an operation. -/
def Access.isOf (op : Op) : Access → Prop
  | get id => id = op.approvalId
  | auditEvents id => id = op.approvalId
  | create input now => op = .create input now ∧ input.contract.tenantId = input.tenantId
  | decide id tenantId .. => id = op.approvalId ∧ tenantId = op.tenantId
  | delegate id tenantId .. => id = op.approvalId ∧ tenantId = op.tenantId
  | comment id tenantId .. => id = op.approvalId ∧ tenantId = op.tenantId

section Programs

theorem all_check_bind {α β : Type} {P : Access → Prop} (x : Except RuntimeError α)
    {f : α → ApprovalM β} (h : ∀ a, x = .ok a → (f a).All P) : (check x >>= f).All P := by
  cases x with
  | error err => trivial
  | ok a => exact h a rfl

theorem all_getOrNotFound (op : Op) : (getOrNotFound op.approvalId).All (Access.isOf op) := by
  refine Prog.all_query_bind rfl fun r => ?_
  cases r <;> trivial

theorem all_requireTenant (op : Op) :
    (requireTenant op.approvalId op.tenantId).All (Access.isOf op) := by
  refine all_check_bind _ fun _ _ => all_check_bind _ fun _ _ => ?_
  refine Prog.all_bind (all_getOrNotFound op) fun r => ?_
  split <;> trivial

theorem all_requirePending (op : Op) :
    (requirePending op.approvalId op.tenantId).All (Access.isOf op) := by
  refine Prog.all_bind (all_requireTenant op) fun r => ?_
  split <;> trivial

theorem all_transitionStatusAt (op : Op) {actor : ApprovalActorContext}
    {transition : ApprovalTransitionKind} {kind : EventKind} {after : ApprovalStatus}
    {reason : Option String} {atMs : ℕ} :
    (transitionStatusAt op.approvalId op.tenantId actor transition kind after reason atMs).All
      (Access.isOf op) := by
  refine all_check_bind _ fun _ _ => all_check_bind _ fun _ _ => ?_
  refine Prog.all_bind (all_requirePending op) fun existing => all_check_bind _ fun _ _ => ?_
  exact Prog.all_query_bind ⟨rfl, rfl⟩ fun x => all_check_bind x fun _ _ => all_getOrNotFound op

theorem all_isOf (op : Op) : op.prog.All (Access.isOf op) := by
  have hget := all_getOrNotFound op
  have htenant := all_requireTenant op
  have hpending := all_requirePending op
  cases op with
  | create input now =>
    refine Prog.all_map (all_check_bind _ fun _ _ => ?_)
    split
    next => trivial
    next hcontract =>
      dsimp only
      split
      next => trivial
      next =>
        refine Prog.all_query_bind ⟨rfl, (not_not.mp hcontract).symm⟩ fun x => ?_
        exact all_check_bind x fun _ _ => hget
  | approveAt id tenantId actor reason atMs =>
    exact Prog.all_map (all_transitionStatusAt (.approveAt id tenantId actor reason atMs))
  | deny id tenantId actor reason now =>
    exact Prog.all_map (all_transitionStatusAt (.deny id tenantId actor reason now))
  | expire id tenantId actorId reason atMs =>
    refine Prog.all_map (Prog.all_bind hpending fun existing => ?_)
    split
    next => trivial
    next =>
      refine all_check_bind _ fun _ _ => all_check_bind _ fun _ _ => all_check_bind _ fun _ _ => ?_
      refine Prog.all_bind hpending fun existing => ?_
      exact Prog.all_query_bind ⟨rfl, rfl⟩ fun x => all_check_bind x fun _ _ => hget
  | delegate id tenantId actor delegatedToActorId reason authorizedMs now =>
    refine Prog.all_map (all_check_bind _ fun _ _ => ?_)
    refine Prog.all_bind hpending fun existing => ?_
    refine all_check_bind _ fun _ _ => all_check_bind _ fun _ _ => ?_
    exact Prog.all_query_bind ⟨rfl, rfl⟩ fun x => all_check_bind x fun _ _ => hget
  | comment id tenantId actorId text now =>
    refine Prog.all_map (all_check_bind _ fun _ _ => ?_)
    refine Prog.all_bind htenant fun existing => ?_
    refine Prog.all_query_bind ⟨rfl, rfl⟩ fun x => all_check_bind x fun _ _ => ?_
    refine Prog.all_query_bind rfl fun events => ?_
    split <;> trivial

end Programs

/-! ### The rows of other tenants -/

section Others

variable {id tenantId : String} {db db' : ApprovalDb} {q : Access}

theorem others_updatePending {f : ApprovalQueueRecord → ApprovalQueueRecord}
    (hf : ∀ r, (f r).tenantId = r.tenantId) (queue : List ApprovalQueueRecord) :
    (updatePending id tenantId f queue).filter (·.tenantId ≠ tenantId) =
      queue.filter (·.tenantId ≠ tenantId) := by
  unfold updatePending
  induction queue with
  | nil => rfl
  | cons r queue ih =>
    rw [List.map_cons, List.filter_cons, List.filter_cons, ih]
    split
    next hmatch => simp [hf, hmatch.2.1]
    next => rfl

/-- An access does not touch the approvals and the events of other tenants. -/
theorem Effect.others {op : Op} (h : Effect db q db') (hq : q.isOf op) :
    (db'.others op.tenantId).queue = (db.others op.tenantId).queue ∧
      (db'.others op.tenantId).audit = (db.others op.tenantId).audit := by
  unfold ApprovalDb.others
  cases h with
  | same q => exact ⟨rfl, rfl⟩
  | create input now hnew =>
    obtain ⟨rfl, -⟩ := hq
    simp [ApprovalCreate.record, auditEvent, Op.tenantId]
  | decide =>
    obtain ⟨-, rfl⟩ := hq
    refine ⟨others_updatePending (fun _ => ?_) _, by simp [auditEvent]⟩
    rfl
  | delegate =>
    obtain ⟨-, rfl⟩ := hq
    refine ⟨others_updatePending (fun _ => ?_) _, by simp [auditEvent]⟩
    rfl
  | comment =>
    obtain ⟨-, rfl⟩ := hq
    simp [auditEvent]

theorem others_run (op : Op) (db : ApprovalDb) :
    ((op.run db).2.others op.tenantId).queue = (db.others op.tenantId).queue ∧
      ((op.run db).2.others op.tenantId).audit = (db.others op.tenantId).audit := by
  have hstep : ∀ (db' : ApprovalDb) (q : Access),
      ((db'.others op.tenantId).queue = (db.others op.tenantId).queue ∧
        (db'.others op.tenantId).audit = (db.others op.tenantId).audit) →
      q.isOf op →
      (((q.exec db').2.others op.tenantId).queue = (db.others op.tenantId).queue ∧
        ((q.exec db').2.others op.tenantId).audit = (db.others op.tenantId).audit) := by
    intro db' q hdb' hq
    rw [exec_snd]
    obtain ⟨hqueue, haudit⟩ := (effect_next q db').others hq
    exact ⟨hqueue.trans hdb'.1, haudit.trans hdb'.2⟩
  exact Prog.run_inv hstep (Prog.along_of_all (fun _ _ hq => hq) (all_isOf op) db) ⟨rfl, rfl⟩

theorem Effect.contracts_eq (h : Effect db q db') (hq : ∀ input now, q ≠ .create input now) :
    db'.contracts = db.contracts := by
  cases h with
  | create input now hnew => exact absurd rfl (hq input now)
  | _ => rfl

/-- A new approval has no event yet. -/
theorem Linked.unused (h : Linked db) (hnew : db.find id = none) (ms : ℕ) (kind : EventKind) :
    ∀ e ∈ db.audit, e.id ≠ auditId id ms kind := by
  intro e he hid
  obtain ⟨r, hr, -⟩ := h.approval e he
  rw [auditId_inj ((h.ids e he).symm.trans hid), hnew] at hr
  cases hr

theorem contracts_create_next (h : Linked db) (input : ApprovalCreate) (now : ℕ) :
    ((Access.create input now).next db).contracts =
      if db.find input.id = none then upsertContract input.contract now db.contracts
      else db.contracts := by
  unfold Access.next Access.tx
  dsimp only
  split
  next hused =>
    obtain ⟨r, hr, hid⟩ := List.any_eq_true.mp hused
    rw [if_neg fun hnew => find_eq_none.mp hnew r hr (of_decide_eq_true hid)]
    rfl
  next hunused =>
    have hnew : db.find input.id = none := find_eq_none.mpr fun r hr hid =>
      hunused (List.any_eq_true.mpr ⟨r, hr, decide_eq_true hid⟩)
    rw [if_pos hnew, insertAuditTx_eq_ok.mpr ⟨h.unused hnew now .created, rfl⟩]
    rfl

theorem create_run_snd (input : ApprovalCreate) (now : ℕ) (db : ApprovalDb) :
    ((Op.create input now).run db).2 =
      if input.valid now then (Access.create input now).next db else db := by
  show (Prog.run Access.exec (Outcome.record <$> create input now) db).2 = _
  unfold create
  have hiff : input.valid now ↔ (validateCreate input).isOk ∧
      input.tenantId = input.contract.tenantId ∧
      (validateApprovalContractPolicyAt input.contract now).valid := decide_eq_true_iff
  cases hvalid : validateCreate input with
  | error err =>
    rw [hvalid] at hiff
    exact (if_neg fun h => Bool.false_ne_true (hiff.mp h).1).symm
  | ok u =>
    by_cases htenant : input.tenantId = input.contract.tenantId
    · by_cases hpolicy : (validateApprovalContractPolicyAt input.contract now).valid
      · rw [if_pos (hiff.mpr ⟨hvalid ▸ rfl, htenant, hpolicy⟩), check, Prog.ret_bind,
          if_neg (not_not.mpr htenant)]
        dsimp only
        rw [if_neg (by simp [hpolicy]), Prog.run_map_query_bind]
        show (Prog.run Access.exec _ ((Access.create input now).next db)).2 = _
        -- nothing is written after the transaction
        cases (Access.exec (.create input now) db).1 with
        | error err => rfl
        | ok u =>
          show (Prog.run Access.exec (Outcome.record <$> getOrNotFound input.id) _).2 = _
          rw [getOrNotFound, Prog.run_map_query_bind]
          cases (Access.exec (.get input.id) _).1 <;> rfl
      · rw [if_neg fun h => hpolicy (hiff.mp h).2.2, check, Prog.ret_bind, if_neg (not_not.mpr htenant)]
        dsimp only
        rw [if_pos (by simp [hpolicy])]
        rfl
    · rw [if_neg fun h => htenant (hiff.mp h).2.1, check, Prog.ret_bind, if_pos htenant]
      rfl

theorem contracts_run (h : Linked db) (op : Op) :
    (op.run db).2.contracts =
      match op.creates? db with
      | some (contract, now) => upsertContract contract now db.contracts
      | none => db.contracts := by
  have hsame : (∀ input now, op ≠ .create input now) → (op.run db).2.contracts = db.contracts := by
    intro hop
    have hstep : ∀ (db' : ApprovalDb) (q : Access), db'.contracts = db.contracts → q.isOf op →
        (q.exec db').2.contracts = db.contracts := by
      intro db' q hdb' hq
      rw [exec_snd]
      refine ((effect_next q db').contracts_eq fun input now heq => ?_).trans hdb'
      rw [heq] at hq
      exact hop input now hq.1
    exact Prog.run_inv hstep (Prog.along_of_all (fun _ _ hq => hq) (all_isOf op) db) rfl
  cases op with
  | create input now =>
    rw [create_run_snd, Op.creates?]
    by_cases hvalid : input.valid now
    · rw [if_pos hvalid, contracts_create_next h]
      by_cases hnew : db.find input.id = none
      · rw [if_pos hnew, if_pos ⟨hvalid, hnew⟩]
      · rw [if_neg hnew, if_neg fun hboth => hnew hboth.2]
    · rw [if_neg hvalid, if_neg fun hboth => hvalid hboth.1]
  | _ => exact hsame (by simp)

theorem others_upsertContract {contract : ApprovalContractRecord} (now : ℕ)
    (contracts : List ApprovalContractRecord) :
    (upsertContract contract now contracts).filter (·.tenantId ≠ contract.tenantId) =
        contracts.filter (·.tenantId ≠ contract.tenantId) ↔
      ¬ contracts.any fun c => sameKey contract c ∧ c.tenantId ≠ contract.tenantId := by
  unfold upsertContract
  constructor
  · intro h hany
    obtain ⟨c, hc, hsteals⟩ := List.any_eq_true.mp hany
    obtain ⟨hsame, htenant⟩ := of_decide_eq_true hsteals
    rw [if_pos (List.any_eq_true.mpr ⟨c, hc, hsame⟩)] at h
    have hmem : c ∈ contracts.filter (·.tenantId ≠ contract.tenantId) :=
      List.mem_filter.mpr ⟨hc, decide_eq_true htenant⟩
    -- the row would have to be one that is not overwritten
    rw [← h] at hmem
    obtain ⟨x, -, hx⟩ := List.mem_map.mp (List.mem_filter.mp hmem).1
    split at hx
    next => exact htenant (hx ▸ rfl)
    next hdiffers => exact hdiffers (hx ▸ hsame)
  · intro h
    split
    next =>
      rw [List.filter_map]
      have hkeep : ∀ c ∈ contracts, ((fun c : ApprovalContractRecord =>
          decide (c.tenantId ≠ contract.tenantId)) ∘ fun c => if sameKey contract c then
            { contract with createdMs := c.createdMs } else c) c =
          decide (c.tenantId ≠ contract.tenantId) := by
        intro c hc
        dsimp only [Function.comp_apply]
        split
        next hsame =>
          have htenant : c.tenantId = contract.tenantId := by
            by_contra hne
            exact h (List.any_eq_true.mpr ⟨c, hc, decide_eq_true ⟨hsame, hne⟩⟩)
          simp [htenant]
        next => rfl
      rw [List.filter_congr hkeep]
      refine (List.map_congr_left fun c hc => ?_).trans (List.map_id _)
      obtain ⟨hc, hne⟩ := List.mem_filter.mp hc
      rw [if_neg, id]
      exact fun hsame => h (List.any_eq_true.mpr ⟨c, hc, decide_eq_true ⟨hsame, of_decide_eq_true hne⟩⟩)
    next => simp

/-- The rows of other tenants are left alone, unless a contract is overwritten. -/
theorem others_run_iff (h : Linked db) (op : Op) :
    (op.run db).2.others op.tenantId = db.others op.tenantId ↔ ¬ op.steals db := by
  obtain ⟨hqueue, haudit⟩ := others_run op db
  have hcontracts : (op.run db).2.others op.tenantId = db.others op.tenantId ↔
      (op.run db).2.contracts.filter (·.tenantId ≠ op.tenantId) =
        db.contracts.filter (·.tenantId ≠ op.tenantId) := by
    refine ⟨fun heq => congrArg (·.contracts) heq, fun heq => ?_⟩
    have hmk := congr (congr (congrArg ApprovalDb.mk heq) hqueue) haudit
    exact hmk
  rw [hcontracts, contracts_run h, Op.steals]
  cases hcreates : op.creates? db with
  | none => simp
  | some x =>
    cases op with
    | create input now =>
      rw [Op.creates?] at hcreates
      split at hcreates
      next hvalid =>
        obtain rfl := Option.some.inj hcreates
        have htenant : input.tenantId = input.contract.tenantId := (of_decide_eq_true hvalid.1).2.1
        rw [Op.tenantId, htenant]
        exact others_upsertContract now db.contracts
      next => cases hcreates
    | _ => cases hcreates

end Others

/-! ### What an operation sees -/

/-- A store with the approvals and the events of one tenant only, as an operation on one of its
approvals sees it. -/
structure Sees (id tenantId : String) (db view : ApprovalDb) : Prop where
  queue : view.queue = db.queue.filter (·.tenantId = tenantId)
  audit : view.audit = db.audit.filter (·.tenantId = tenantId)
  approvals : NoClash id tenantId db
  ids : ∀ e ∈ db.audit, e.id = auditId e.approvalId e.createdMs e.eventKind
  events : ∀ e ∈ db.audit, e.approvalId = id → e.tenantId = tenantId

theorem sees_of_linked {id tenantId : String} {db : ApprovalDb} (h : Linked db)
    (hclash : NoClash id tenantId db) :
    Sees id tenantId db { db.own tenantId with contracts := [] } where
  queue := rfl
  audit := rfl
  approvals := hclash
  ids := h.ids
  events := by
    intro e he hid
    obtain ⟨r, hr, hlinked⟩ := h.approval e he
    obtain ⟨hr, hr'⟩ := mem_of_find hr
    rw [(of_decide_eq_true hlinked).2]
    exact hclash r hr (hr'.trans hid)

namespace Sees

variable {id tenantId : String} {db view : ApprovalDb} (h : Sees id tenantId db view)

include h

theorem find_eq : view.find id = db.find id := by
  unfold ApprovalDb.find
  rw [← List.head?_filter, ← List.head?_filter, h.queue, List.filter_filter]
  congr 1
  refine List.filter_congr fun r hr => ?_
  by_cases hid : r.id = id
  · simp [hid, h.approvals r hr hid]
  · simp [hid]

theorem events_eq : view.audit.filter (·.approvalId = id) = db.audit.filter (·.approvalId = id) := by
  rw [h.audit, List.filter_filter]
  refine List.filter_congr fun e he => ?_
  by_cases hid : e.approvalId = id
  · simp [hid, h.events e he hid]
  · simp [hid]

theorem any_event_eq (ms : ℕ) (kind : EventKind) :
    view.audit.any (·.id = auditId id ms kind) = db.audit.any (·.id = auditId id ms kind) := by
  rw [Bool.eq_iff_iff, List.any_eq_true, List.any_eq_true, h.audit]
  constructor
  · rintro ⟨e, he, hid⟩
    exact ⟨e, (List.mem_filter.mp he).1, hid⟩
  · rintro ⟨e, he, hid⟩
    -- an event with this id is one of the approval
    have happroval := auditId_inj ((h.ids e he).symm.trans (of_decide_eq_true hid))
    exact ⟨e, List.mem_filter.mpr ⟨he, decide_eq_true (h.events e he happroval)⟩, hid⟩

theorem any_approval_eq : view.queue.any (·.id = id) = db.queue.any (·.id = id) := by
  rw [Bool.eq_iff_iff, List.any_eq_true, List.any_eq_true, h.queue]
  constructor
  · rintro ⟨r, hr, hid⟩
    exact ⟨r, (List.mem_filter.mp hr).1, hid⟩
  · rintro ⟨r, hr, hid⟩
    have htenant := h.approvals r hr (of_decide_eq_true hid)
    exact ⟨r, List.mem_filter.mpr ⟨hr, decide_eq_true htenant⟩, hid⟩

/-- Both transactions fail with the same error, or both succeed. -/
def Agree (id tenantId : String) : Except RuntimeError ApprovalDb → Except RuntimeError ApprovalDb →
    Prop
  | .ok db, .ok view => Sees id tenantId db view
  | .error err, .error err' => err = err'
  | _, _ => False

omit h in
theorem insert {actorId traceId : String} {kind : EventKind} {before : Option ApprovalStatus}
    {after : ApprovalStatus} {reason : Option String} {ms : ℕ} (h : Sees id tenantId db view) :
    Agree id tenantId
      (insertAuditTx (auditEvent id tenantId actorId kind before after reason traceId ms) db)
      (insertAuditTx (auditEvent id tenantId actorId kind before after reason traceId ms) view) := by
  unfold insertAuditTx
  rw [show (auditEvent id tenantId actorId kind before after reason traceId ms).id =
    auditId id ms kind from rfl, h.any_event_eq]
  split
  next => rfl
  next =>
    refine ⟨h.queue, ?_, h.approvals, fun e he => ?_, fun e he hid => ?_⟩
    · rw [h.audit, List.filter_append]
      simp [auditEvent]
    · rcases List.mem_append.mp he with he | he
      · exact h.ids e he
      · rw [List.mem_singleton.mp he]
        rfl
    · rcases List.mem_append.mp he with he | he
      · exact h.events e he hid
      · rw [List.mem_singleton.mp he]
        rfl

theorem updatePending {f : ApprovalQueueRecord → ApprovalQueueRecord}
    (hid : ∀ r, (f r).id = r.id) (htenant : ∀ r, (f r).tenantId = r.tenantId) :
    Sees id tenantId { db with queue := updatePending id tenantId f db.queue }
      { view with queue := updatePending id tenantId f view.queue } where
  queue := by
    show Approvals.updatePending _ _ _ view.queue = (Approvals.updatePending _ _ _ db.queue).filter _
    unfold Approvals.updatePending
    rw [List.filter_map, h.queue]
    congr 1
    refine List.filter_congr fun r _ => ?_
    dsimp only [Function.comp_apply]
    split
    next => rw [htenant]
    next => rfl
  audit := h.audit
  approvals := by
    intro r hr hr'
    obtain ⟨x, hx, rfl⟩ := List.mem_map.mp hr
    by_cases hmatch : x.id = id ∧ x.tenantId = tenantId ∧ x.status = .pending
    · rw [if_pos hmatch, htenant, hmatch.2.1]
    · rw [if_neg hmatch] at hr' ⊢
      exact h.approvals x hx hr'
  ids := h.ids
  events := h.events

end Sees

theorem sees_tx {op : Op} {q : Access} {db view : ApprovalDb}
    (h : Sees op.approvalId op.tenantId db view) (hq : q.isOf op) :
    Sees.Agree op.approvalId op.tenantId (q.tx db) (q.tx view) := by
  cases q with
  | get id => exact h
  | auditEvents id => exact h
  | create input now =>
    obtain ⟨rfl, -⟩ := hq
    unfold Access.tx
    dsimp only
    have hany : view.queue.any (·.id = input.id) = db.queue.any (·.id = input.id) := h.any_approval_eq
    rw [hany]
    split
    next => rfl
    next =>
      refine Sees.insert ⟨?_, h.audit, fun r hr hid => ?_, h.ids, h.events⟩
      · show view.queue ++ [input.record now] = (db.queue ++ [input.record now]).filter _
        rw [h.queue, List.filter_append]
        simp [ApprovalCreate.record, Op.tenantId]
      · rcases List.mem_append.mp hr with hr | hr
        · exact h.approvals r hr hid
        · rw [List.mem_singleton.mp hr]
          rfl
  | decide id tenantId actorId kind before after reason traceId atMs =>
    obtain ⟨rfl, rfl⟩ := hq
    exact Sees.insert (h.updatePending (fun _ => rfl) fun _ => rfl)
  | delegate id tenantId actorId delegatedToActorId before reason traceId now =>
    obtain ⟨rfl, rfl⟩ := hq
    exact Sees.insert (h.updatePending (fun _ => rfl) fun _ => rfl)
  | comment id tenantId actorId text before traceId now =>
    obtain ⟨rfl, rfl⟩ := hq
    exact Sees.insert h

theorem sees_exec {op : Op} {q : Access} {db view : ApprovalDb} (hq : q.isOf op)
    (h : Sees op.approvalId op.tenantId db view) :
    (q.exec db).1 = (q.exec view).1 ∧
      Sees op.approvalId op.tenantId (q.exec db).2 (q.exec view).2 := by
  have htx := sees_tx h hq
  have hwrite : q.done db = q.done view ∧
      Sees op.approvalId op.tenantId (q.next db) (q.next view) := by
    unfold Access.done Access.next
    generalize q.tx db = x at htx ⊢
    generalize q.tx view = y at htx ⊢
    cases x with
    | error err =>
      cases y with
      | error err' =>
        obtain rfl : err = err' := htx
        exact ⟨rfl, h⟩
      | ok view' => exact htx.elim
    | ok db' =>
      cases y with
      | error err' => exact htx.elim
      | ok view' => exact ⟨rfl, htx⟩
  cases q with
  | get id =>
    obtain rfl : id = op.approvalId := hq
    exact ⟨h.find_eq.symm, h⟩
  | auditEvents id =>
    obtain rfl : id = op.approvalId := hq
    exact ⟨h.events_eq.symm, h⟩
  | create input now => exact hwrite
  | decide id tenantId actorId kind before after reason traceId atMs => exact hwrite
  | delegate id tenantId actorId delegatedToActorId before reason traceId now => exact hwrite
  | comment id tenantId actorId text before traceId now => exact hwrite

/-- An operation returns what it would return if there were no other tenants. -/
theorem run_fst_eq_own (op : Op) {db : ApprovalDb} (h : Linked db)
    (hclash : NoClash op.approvalId op.tenantId db) :
    (op.run db).1 = (op.run { db.own op.tenantId with contracts := [] }).1 := by
  have hstep : ∀ (q : Access) (db view : ApprovalDb), q.isOf op →
      Sees op.approvalId op.tenantId db view → (q.exec db).1 = (q.exec view).1 ∧
        Sees op.approvalId op.tenantId (q.exec db).2 (q.exec view).2 :=
    fun _ _ _ hq hsees => sees_exec hq hsees
  exact (Prog.run_sim hstep (all_isOf op) (sees_of_linked h hclash)).1

/-! ### Isolation -/

/-- The rows of other tenants are left alone, and the outcome does not depend on them, unless one of
their approvals has the same id. -/
structure Isolated (op : Op) (db : ApprovalDb) : Prop where
  others : (op.run db).2.others op.tenantId = db.others op.tenantId
  outcome : ∀ db', Reachable db' → db'.own op.tenantId = db.own op.tenantId →
    NoClash op.approvalId op.tenantId db → NoClash op.approvalId op.tenantId db' →
      (op.run db').1 = (op.run db).1

/-- Tenants are isolated, unless a creation overwrites the contract of another tenant. -/
theorem isolated_iff (db : ApprovalDb) (hdb : Reachable db) (op : Op) :
    Isolated op db ↔ ¬ op.steals db := by
  have hlinked := linked_of_reachable hdb
  refine ⟨fun h => (others_run_iff hlinked op).mp h.others, fun h => ?_⟩
  refine ⟨(others_run_iff hlinked op).mpr h, fun db' hdb' hown hclash hclash' => ?_⟩
  rw [run_fst_eq_own op hlinked hclash, run_fst_eq_own op (linked_of_reachable hdb') hclash', hown]

/-- The store with one refund. -/
def refunded : ApprovalDb :=
  (Pool.play Access.exec Op.prog .empty (List.replicate 4 ((0 : ℕ), Op.create refund 5))).2.state

theorem reachable_refunded : Reachable refunded := ⟨_, _, Pool.run_play _, rfl⟩

/-- A refund of another tenant, under a contract of its own. -/
def otherRefund (contractId : String) : ApprovalCreate :=
  { refund with
    id := "approval-2"
    tenantId := "org-2"
    contract := { refund.contract with id := contractId, tenantId := "org-2" } }

theorem isolated_iff_otherRefund :
    Isolated (.create (otherRefund "contract-2") 6) refunded ∧
      ¬ Isolated (.create (otherRefund "contract-1") 6) refunded := by
  refine ⟨(isolated_iff refunded reachable_refunded _).mpr (by decide +kernel), fun h => ?_⟩
  exact (isolated_iff refunded reachable_refunded _).mp h (by decide +kernel)

/-- The contract of a tenant is overwritten when another one uses its id and version. -/
theorem not_isolated : ¬ ∀ db, Reachable db → ∀ op, Isolated op db := by
  intro h
  have hothers := (h refunded reachable_refunded (.create (otherRefund "contract-1") 6)).others
  revert hothers
  decide +kernel

end Corvid.Approvals
