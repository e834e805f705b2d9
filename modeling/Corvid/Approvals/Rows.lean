import Corvid.Approvals.Runtime
import Corvid.Lib.Rely
import Mathlib.Data.List.Nodup

/-!
# The rows of the approval store over time

What an access does to the tables, and what it leaves as it is: an approval stays with its tenant, its
requester and its terms, and does not change any more once it is decided.

## Main definitions

* `Effect`: what an access can do
* `Later`, `Grows`: a row and a store at a later time
* `Linked`: ids are unique, and each event belongs to an approval of its tenant

## Main results

* `effect_next`: an access has one of the effects
* `grows_next`, `Linked.effect`: what all accesses preserve
-/

namespace Corvid.Approvals

open Store

/-! ### Effects -/

/-- What an access does: nothing, when it reads or is rolled back, or what its statements say. -/
inductive Effect (db : ApprovalDb) : Access → ApprovalDb → Prop
  | same (q : Access) : Effect db q db
  | create (input : ApprovalCreate) (now : ℕ) (hnew : db.find input.id = none) :
      Effect db (.create input now)
        { contracts := upsertContract input.contract now db.contracts
          queue := db.queue ++ [input.record now]
          audit := db.audit ++ [auditEvent input.id input.tenantId input.requesterActorId .created
            none .pending (some "approval created") input.traceId now] }
  | decide (id tenantId actorId : String) (kind : EventKind) (before after : ApprovalStatus)
      (reason : Option String) (traceId : String) (atMs : ℕ)
      (hunused : ∀ e ∈ db.audit, e.id ≠ auditId id atMs kind) :
      Effect db (.decide id tenantId actorId kind before after reason traceId atMs)
        { contracts := db.contracts
          queue := updatePending id tenantId (.decided after actorId atMs) db.queue
          audit := db.audit ++
            [auditEvent id tenantId actorId kind before after reason traceId atMs] }
  | delegate (id tenantId actorId delegatedToActorId : String) (before : ApprovalStatus)
      (reason : Option String) (traceId : String) (now : ℕ) :
      Effect db (.delegate id tenantId actorId delegatedToActorId before reason traceId now)
        { contracts := db.contracts
          queue := updatePending id tenantId (.delegated delegatedToActorId now) db.queue
          audit := db.audit ++
            [auditEvent id tenantId actorId .delegated before before reason traceId now] }
  | comment (id tenantId actorId text : String) (before : ApprovalStatus) (traceId : String)
      (now : ℕ) :
      Effect db (.comment id tenantId actorId text before traceId now)
        { db with audit := db.audit ++
            [auditEvent id tenantId actorId .commented before before (some text) traceId now] }

section Effects

variable {db db' : ApprovalDb} {q : Access} {id : String} {r : ApprovalQueueRecord}

theorem exec_snd (q : Access) (db : ApprovalDb) : (q.exec db).2 = q.next db := by
  cases q <;> rfl

theorem insertAuditTx_eq_ok {event : ApprovalQueueAuditEvent} :
    insertAuditTx event db = .ok db' ↔
      (∀ e ∈ db.audit, e.id ≠ event.id) ∧ db' = { db with audit := db.audit ++ [event] } := by
  unfold insertAuditTx
  split
  next hused =>
    obtain ⟨e, he, hid⟩ := List.any_eq_true.mp hused
    refine ⟨fun h => (nomatch h), fun h => absurd (of_decide_eq_true hid) (h.1 e he)⟩
  next hunused =>
    have hne : ∀ e ∈ db.audit, e.id ≠ event.id := fun e he hid =>
      hunused (List.any_eq_true.mpr ⟨e, he, decide_eq_true hid⟩)
    exact ⟨fun h => ⟨hne, (Except.ok.inj h).symm⟩, fun h => congrArg Except.ok h.2.symm⟩

theorem find_eq_none : db.find id = none ↔ ∀ r ∈ db.queue, r.id ≠ id := by
  simp [ApprovalDb.find, List.find?_eq_none]

theorem effect_of_tx (h : q.tx db = .ok db') : Effect db q db' := by
  cases q with
  | get id =>
    cases h
    exact .same _
  | auditEvents approvalId =>
    cases h
    exact .same _
  | create input now =>
    rw [Access.tx] at h
    dsimp only at h
    split at h
    next => cases h
    next hnew =>
      obtain ⟨-, rfl⟩ := insertAuditTx_eq_ok.mp h
      refine .create input now (find_eq_none.mpr fun r hr hid => hnew ?_)
      exact List.any_eq_true.mpr ⟨r, hr, decide_eq_true hid⟩
  | decide id tenantId actorId kind before after reason traceId atMs =>
    obtain ⟨hunused, rfl⟩ := insertAuditTx_eq_ok.mp h
    exact .decide id tenantId actorId kind before after reason traceId atMs hunused
  | delegate id tenantId actorId delegatedToActorId before reason traceId now =>
    obtain ⟨-, rfl⟩ := insertAuditTx_eq_ok.mp h
    exact .delegate ..
  | comment id tenantId actorId text before traceId now =>
    obtain ⟨-, rfl⟩ := insertAuditTx_eq_ok.mp h
    exact .comment ..

theorem effect_next (q : Access) (db : ApprovalDb) : Effect db q (q.next db) := by
  unfold Access.next
  cases htx : q.tx db with
  | error err => exact .same q
  | ok db' => exact effect_of_tx htx

/-- A transaction that succeeds is not rolled back. -/
theorem tx_eq_next (h : q.done db = .ok ()) : q.tx db = .ok (q.next db) := by
  unfold Access.done at h
  unfold Access.next
  cases htx : q.tx db with
  | error err =>
    rw [htx] at h
    cases h
  | ok db' => rfl

/-! ### Finding rows -/

theorem mem_of_find (h : db.find id = some r) : r ∈ db.queue ∧ r.id = id :=
  ⟨List.mem_of_find?_eq_some h, by simpa using List.find?_some h⟩

theorem find_of_mem (hkeyed : (db.queue.map ApprovalQueueRecord.id).Nodup) (h : r ∈ db.queue) :
    db.find r.id = some r := by
  unfold ApprovalDb.find
  generalize db.queue = queue at hkeyed h
  induction queue with
  | nil => cases h
  | cons x queue ih =>
    obtain ⟨hx, hkeyed⟩ := List.nodup_cons.mp hkeyed
    rcases List.mem_cons.mp h with rfl | hr
    · exact List.find?_cons_of_pos (decide_eq_true rfl)
    · have hne : x.id ≠ r.id := fun heq => hx (heq ▸ List.mem_map_of_mem hr)
      rw [List.find?_cons_of_neg (by simpa using hne)]
      exact ih hkeyed hr

theorem find_append {r : ApprovalQueueRecord} (hqueue : db'.queue = db.queue ++ [r])
    (hnew : db.find r.id = none) (id : String) :
    db'.find id = if r.id = id then some r else db.find id := by
  unfold ApprovalDb.find at hnew ⊢
  rw [hqueue, List.find?_append, List.find?_singleton]
  by_cases hid : r.id = id
  · subst hid
    rw [hnew]
    simp
  · simp [hid]

theorem find_updatePending {f : ApprovalQueueRecord → ApprovalQueueRecord} {id' tenantId : String}
    (hqueue : db'.queue = updatePending id' tenantId f db.queue) (hf : ∀ r, (f r).id = r.id)
    (id : String) :
    db'.find id = (db.find id).map fun r =>
      if r.id = id' ∧ r.tenantId = tenantId ∧ r.status = .pending then f r else r := by
  unfold ApprovalDb.find
  rw [hqueue, updatePending, List.find?_map]
  congr 2
  ext r
  dsimp only [Function.comp_apply]
  split
  next => rw [hf]
  next => rfl

theorem find_decided {id' tenantId actorId : String} {after : ApprovalStatus} {atMs : ℕ}
    (hqueue : db'.queue = updatePending id' tenantId (.decided after actorId atMs) db.queue)
    (id : String) :
    db'.find id = (db.find id).map fun r =>
      if r.id = id' ∧ r.tenantId = tenantId ∧ r.status = .pending then r.decided after actorId atMs
      else r :=
  find_updatePending hqueue (fun _ => rfl) id

theorem find_delegated {id' tenantId delegatedToActorId : String} {now : ℕ}
    (hqueue : db'.queue = updatePending id' tenantId (.delegated delegatedToActorId now) db.queue)
    (id : String) :
    db'.find id = (db.find id).map fun r =>
      if r.id = id' ∧ r.tenantId = tenantId ∧ r.status = .pending then
        r.delegated delegatedToActorId now
      else r :=
  find_updatePending hqueue (fun _ => rfl) id

end Effects

/-! ### Rows over time -/

/-- The part of a row that never changes. -/
def ApprovalQueueRecord.terms (r : ApprovalQueueRecord) : ApprovalQueueRecord :=
  { r with status := .pending, approverActorId := none, delegatedToActorId := none, updatedMs := 0 }

/-- A row at a later time: its terms are the same, and if it has been decided then all of it. -/
structure Later (r r' : ApprovalQueueRecord) : Prop where
  terms : r'.terms = r.terms
  final : r.status ≠ .pending → r' = r

namespace Later

variable {r r' r'' : ApprovalQueueRecord}

theorem refl (r : ApprovalQueueRecord) : Later r r := ⟨rfl, fun _ => rfl⟩

theorem trans (h : Later r r') (h' : Later r' r'') : Later r r'' where
  terms := h'.terms.trans h.terms
  final := by
    intro hstatus
    obtain rfl := h.final hstatus
    exact h'.final hstatus

theorem id (h : Later r r') : r'.id = r.id := congrArg (·.id) h.terms

theorem tenantId (h : Later r r') : r'.tenantId = r.tenantId :=
  congrArg (·.tenantId) h.terms

theorem traceId (h : Later r r') : r'.traceId = r.traceId :=
  congrArg (·.traceId) h.terms

end Later

/-- A store at a later time: all rows are still there. -/
def Grows (db db' : ApprovalDb) : Prop :=
  ∀ id r, db.find id = some r → ∃ r', db'.find id = some r' ∧ Later r r'

theorem Grows.refl (db : ApprovalDb) : Grows db db := fun _ r hr => ⟨r, hr, .refl r⟩

theorem Grows.trans (db₁ db₂ db₃ : ApprovalDb) (h : Grows db₁ db₂) (h' : Grows db₂ db₃) :
    Grows db₁ db₃ := by
  intro id r hr
  obtain ⟨r', hr', hlater⟩ := h id r hr
  obtain ⟨r'', hr'', hlater'⟩ := h' id r' hr'
  exact ⟨r'', hr'', hlater.trans hlater'⟩

section Steps

variable {db db' : ApprovalDb} {q : Access} {id : String} {r r' : ApprovalQueueRecord}

theorem grows_updatePending {f : ApprovalQueueRecord → ApprovalQueueRecord} {id tenantId : String}
    (hqueue : db'.queue = updatePending id tenantId f db.queue)
    (hf : ∀ r, (f r).terms = r.terms) : Grows db db' := by
  intro id' r hr
  rw [find_updatePending hqueue fun r => congrArg (·.id) (hf r), hr]
  refine ⟨_, rfl, ?_⟩
  dsimp only
  split
  next hmatch => exact ⟨hf r, fun hstatus => absurd hmatch.2.2 hstatus⟩
  next => exact .refl r

theorem Effect.grows (h : Effect db q db') : Grows db db' := by
  cases h with
  | same q => exact .refl db
  | create input now hnew =>
    intro id r hr
    refine ⟨r, ?_, .refl r⟩
    rw [find_append rfl hnew, if_neg, hr]
    rintro rfl
    cases hnew.symm.trans hr
  | decide => exact grows_updatePending rfl fun r => rfl
  | delegate => exact grows_updatePending rfl fun r => rfl
  | comment => exact .refl db

theorem grows_next (q : Access) (db : ApprovalDb) : Grows db (q.next db) := (effect_next q db).grows

/-- A row that was not there is new, and is pending. -/
theorem Effect.find_new (h : Effect db q db') (hnone : db.find id = none)
    (hr : db'.find id = some r) : r.status = .pending := by
  cases h with
  | same q => cases hnone.symm.trans hr
  | create input now hnew =>
    rw [find_append rfl hnew] at hr
    split at hr
    next => rw [← Option.some.inj hr, ApprovalCreate.record]
    next => cases hnone.symm.trans hr
  | decide =>
    rw [find_decided rfl, hnone] at hr
    cases hr
  | delegate =>
    rw [find_delegated rfl, hnone] at hr
    cases hr
  | comment => cases hnone.symm.trans hr

/-- Only a decision takes an approval out of its pending state. -/
theorem Effect.decides (h : Effect db q db') (hr : db.find id = some r)
    (hr' : db'.find id = some r') (hpending : r.status = .pending) (hdecided : r'.status ≠ .pending) :
    ∃ tenantId actorId kind before after reason traceId atMs,
      q = .decide id tenantId actorId kind before after reason traceId atMs ∧
      (∀ e ∈ db.audit, e.id ≠ auditId id atMs kind) ∧ r' = r.decided after actorId atMs := by
  have hsame : r ≠ r' := fun heq => hdecided (heq ▸ hpending)
  cases h with
  | same q => exact absurd (Option.some.inj (hr.symm.trans hr')) hsame
  | create input now hnew =>
    rw [find_append rfl hnew] at hr'
    split at hr'
    next => exact absurd (Option.some.inj hr' ▸ rfl) hdecided
    next => exact absurd (Option.some.inj (hr.symm.trans hr')) hsame
  | decide id' tenantId actorId kind before after reason traceId atMs hunused =>
    rw [find_decided rfl, hr, Option.map_some] at hr'
    split at hr'
    next hmatch =>
      obtain rfl : id = id' := (mem_of_find hr).2.symm.trans hmatch.1
      exact ⟨_, _, _, _, _, _, _, _, rfl, hunused, (Option.some.inj hr').symm⟩
    next => exact absurd (Option.some.inj hr') hsame
  | delegate id' tenantId actorId delegatedToActorId before reason traceId now =>
    rw [find_delegated rfl, hr, Option.map_some] at hr'
    split at hr'
    next => exact absurd (Option.some.inj hr' ▸ hpending) hdecided
    next => exact absurd (Option.some.inj hr') hsame
  | comment => exact absurd (Option.some.inj (hr.symm.trans hr')) hsame

end Steps

/-! ### Links between rows -/

/-- The approval that an event is written for is there, with the tenant and the trace of the event. -/
def Backed (db : ApprovalDb) : Access → Prop
  | .decide id tenantId _ _ _ _ _ traceId _
  | .delegate id tenantId _ _ _ _ traceId _
  | .comment id tenantId _ _ _ traceId _ =>
    ∃ r, db.find id = some r ∧ r.tenantId = tenantId ∧ r.traceId = traceId
  | _ => True

/-- Ids are unique, each event belongs to an approval of its tenant, and each approval has an event
for its creation. -/
structure Linked (db : ApprovalDb) : Prop where
  keyed : (db.queue.map ApprovalQueueRecord.id).Nodup
  ids : ∀ e ∈ db.audit, e.id = auditId e.approvalId e.createdMs e.eventKind
  approval : ∀ e ∈ db.audit, ∃ r, db.find e.approvalId = some r ∧ linked r e
  created : ∀ id r, db.find id = some r → ∃ e ∈ db.audit, e.approvalId = id ∧
    e.eventKind = .created ∧ e.statusBefore = none ∧ e.statusAfter = .pending

theorem linked_empty : Linked .empty where
  keyed := List.nodup_nil
  ids := by simp [ApprovalDb.empty]
  approval := by simp [ApprovalDb.empty]
  created := by simp [ApprovalDb.empty, ApprovalDb.find]

theorem Later.linked {r r' : ApprovalQueueRecord} (h : Later r r') {e : ApprovalQueueAuditEvent}
    (he : linked r e) : linked r' e := by
  unfold Approvals.linked at he ⊢
  rwa [h.traceId, h.tenantId]

theorem map_id_updatePending {f : ApprovalQueueRecord → ApprovalQueueRecord}
    (hf : ∀ r, (f r).id = r.id) (id tenantId : String) (queue : List ApprovalQueueRecord) :
    (updatePending id tenantId f queue).map ApprovalQueueRecord.id =
      queue.map ApprovalQueueRecord.id := by
  unfold updatePending
  rw [List.map_map]
  refine List.map_congr_left fun r _ => ?_
  dsimp only [Function.comp_apply]
  split
  next => exact hf r
  next => rfl

section Links

variable {db db' : ApprovalDb} {q : Access}

/-- One more event, about an approval that is there. -/
theorem Linked.snoc (h : Linked db) (hgrows : Grows db db') {e : ApprovalQueueAuditEvent}
    (haudit : db'.audit = db.audit ++ [e])
    (hkeyed : (db'.queue.map ApprovalQueueRecord.id).Nodup)
    (hid : e.id = auditId e.approvalId e.createdMs e.eventKind)
    (he : ∃ r, db'.find e.approvalId = some r ∧ linked r e)
    (hold : ∀ id r, db'.find id = some r → db.find id = none → e.approvalId = id ∧
      e.eventKind = .created ∧ e.statusBefore = none ∧ e.statusAfter = .pending) :
    Linked db' where
  keyed := hkeyed
  ids := by
    intro x hx
    rw [haudit] at hx
    rcases List.mem_append.mp hx with hx | hx
    · exact h.ids x hx
    · rwa [List.mem_singleton.mp hx]
  approval := by
    intro x hx
    rw [haudit] at hx
    rcases List.mem_append.mp hx with hx | hx
    · obtain ⟨r, hr, hlinked⟩ := h.approval x hx
      obtain ⟨r', hr', hlater⟩ := hgrows _ r hr
      exact ⟨r', hr', hlater.linked hlinked⟩
    · rwa [List.mem_singleton.mp hx]
  created := by
    intro id r hr
    rw [haudit]
    cases hfind : db.find id with
    | none => exact ⟨e, by simp, hold id r hr hfind⟩
    | some r₀ =>
      obtain ⟨x, hx, hx'⟩ := h.created id r₀ hfind
      exact ⟨x, List.mem_append_left _ hx, hx'⟩

theorem Linked.effect (h : Linked db) (hq : Effect db q db') (hbacked : Backed db q) :
    Linked db' := by
  have hgrows := hq.grows
  -- the row that backs an event is there still
  have hrow : ∀ {id tenantId traceId : String} {e : ApprovalQueueAuditEvent},
      (∃ r, db.find id = some r ∧ r.tenantId = tenantId ∧ r.traceId = traceId) →
      e.traceId = traceId → e.tenantId = tenantId → ∃ r, db'.find id = some r ∧ linked r e := by
    rintro id tenantId traceId e ⟨r, hr, rfl, rfl⟩ htrace htenant
    obtain ⟨r', hr', hlater⟩ := hgrows id r hr
    exact ⟨r', hr', hlater.linked (decide_eq_true ⟨htrace, htenant⟩)⟩
  have hkeyed : ∀ {id tenantId : String} {f : ApprovalQueueRecord → ApprovalQueueRecord},
      (∀ r, (f r).id = r.id) →
      ((updatePending id tenantId f db.queue).map ApprovalQueueRecord.id).Nodup := by
    intro id tenantId f hf
    rw [map_id_updatePending hf]
    exact h.keyed
  cases hq with
  | same q => exact h
  | create input now hnew =>
    refine h.snoc hgrows rfl ?_ rfl ⟨input.record now, ?_, by simp [linked, auditEvent,
      ApprovalCreate.record]⟩ fun id r hr hnone => ?_
    · rw [List.map_append, List.map_singleton, List.nodup_append]
      refine ⟨h.keyed, List.nodup_singleton _, ?_⟩
      rintro _ hx _ hy rfl
      obtain ⟨r, hr, hid⟩ := List.mem_map.mp hx
      exact find_eq_none.mp hnew r hr (hid.trans (List.mem_singleton.mp hy))
    · rw [find_append rfl hnew]
      exact if_pos rfl
    · rw [find_append rfl hnew] at hr
      split at hr
      next hid => exact ⟨hid, rfl, rfl, rfl⟩
      next => cases hnone.symm.trans hr
  | decide =>
    refine h.snoc hgrows rfl ?_ rfl (hrow hbacked rfl rfl) fun id r hr hnone => ?_
    · refine hkeyed ?_
      intro r
      rfl
    · rw [find_decided rfl, hnone] at hr
      cases hr
  | delegate =>
    refine h.snoc hgrows rfl ?_ rfl (hrow hbacked rfl rfl) fun id r hr hnone => ?_
    · refine hkeyed ?_
      intro r
      rfl
    · rw [find_delegated rfl, hnone] at hr
      cases hr
  | comment =>
    refine h.snoc hgrows rfl h.keyed rfl (hrow hbacked rfl rfl) fun id r hr hnone => ?_
    cases hnone.symm.trans hr

end Links

end Corvid.Approvals
