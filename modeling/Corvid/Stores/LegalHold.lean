import Corvid.Stores.Updates

/-!
# Records under legal hold

Operations of the runtime on a store, one after the other and all under the policies of the store. A
deletion checks the legal hold. A read checks the time to live only, and it removes the record that
it finds expired, held or not.

## Main definitions

* `approveStoreWriteIfRequired`, `storePutRecordWithPolicy`: writes that ask for an approval
* `PolicyOp`, `PolicyOp.perform`: the operations under a policy
* `Holds`: no key loses its record
* `NoExpiredRead`: no read finds an expired record

## Main results

* `holds_iff_noExpiredRead`: under legal hold the records stay, as long as no expired one is read
* `hold_removed`: a read of an expired one removes it
-/

namespace Corvid.Stores

open Store

variable {V P E : Type}

/-- The policies of a store, with those that its writes check. -/
structure WritePolicySet extends StorePolicySet where
  approvalRequired : Bool
  approvalLabel : Option String
deriving DecidableEq, Repr

inductive PolicyError (E : Type) where
  | store (e : StoreError)
  | approval (e : E)
deriving DecidableEq, Repr

inductive ApprovalArg (V : Type) where
  | text (s : String)
  | value (value : V)
deriving DecidableEq, Repr

/-- What the approver answers to a label and arguments. -/
abbrev ApprovalGate (V E : Type) := String → List (ApprovalArg V) → Except E Unit

def approveStoreWriteIfRequired (approvalGate : ApprovalGate V E) (key : StoreKey)
    (record : StoreRecord V P) (policy : WritePolicySet) : Except E Unit :=
  if !policy.approvalRequired then .ok ()
  else
    approvalGate (policy.approvalLabel.getD "StoreWrite")
      [.text key.kind.asStr, .text key.store, .text key.key, .value record.value]

section Operations

variable (backend : StoreBackend V P)

/-- What an operation of the runtime returns, and the state that it leaves. -/
abbrev Action (E α : Type) := backend.State → Except (PolicyError E) α × backend.State

/-- A program of the backend, run alone. -/
def ofProg {α : Type} (p : Prog backend.Reply StoreError α) : Action backend E α := fun s =>
  ((p.run backend.exec s).1.mapError .store, (p.run backend.exec s).2)

/-- A write, once it is approved. -/
def whenApproved {α : Type} (approval : Except E Unit) (write : Action backend E α) :
    Action backend E α := fun s =>
  match approval with
  | .error e => (.error (.approval e), s)
  | .ok () => write s

def storePutRecordWithPolicy (approvalGate : ApprovalGate V E) (key : StoreKey)
    (record : StoreRecord V P) (policy : WritePolicySet) (now : ℕ) :
    Action backend E (StoreRecord V P) :=
  whenApproved backend (approveStoreWriteIfRequired approvalGate key record policy)
    (ofProg backend (backend.putRecord key record now))

def storePutWithPolicy (approvalGate : ApprovalGate V E) (key : StoreKey) (value : V)
    (policy : WritePolicySet) (now : ℕ) : Action backend E (StoreRecord V P) :=
  storePutRecordWithPolicy backend approvalGate key (.plain value) policy now

def storePutRecordIfRevisionWithPolicy (approvalGate : ApprovalGate V E) (key : StoreKey)
    (expectedRevision : ℕ) (record : StoreRecord V P) (policy : WritePolicySet) (now : ℕ) :
    Action backend E (StoreRecord V P) :=
  whenApproved backend (approveStoreWriteIfRequired approvalGate key record policy)
    (ofProg backend (backend.putRecordIfRevision key expectedRevision record now))

/-- The operations under a policy. An operation that looks at the clock or at the approver carries
what it finds there. -/
inductive PolicyOp (V P E : Type) where
  | getRecordWithPolicy (key : StoreKey) (now : ℕ)
  | deleteWithPolicy (key : StoreKey)
  | storePutWithPolicy (approvalGate : ApprovalGate V E) (key : StoreKey) (value : V) (now : ℕ)
  | storePutRecordWithPolicy (approvalGate : ApprovalGate V E) (key : StoreKey)
      (record : StoreRecord V P) (now : ℕ)
  | storePutRecordIfRevisionWithPolicy (approvalGate : ApprovalGate V E) (key : StoreKey)
      (expectedRevision : ℕ) (record : StoreRecord V P) (now : ℕ)

/-- The state after an operation. -/
def PolicyOp.perform (policy : WritePolicySet) (s : backend.State) :
    PolicyOp V P E → backend.State
  | getRecordWithPolicy key now =>
    (ofProg (E := E) backend
      (StoreManager.getRecordWithPolicy backend key policy.toStorePolicySet now) s).2
  | deleteWithPolicy key =>
    (ofProg (E := E) backend
      (StoreManager.deleteWithPolicy backend key policy.toStorePolicySet) s).2
  | storePutWithPolicy approvalGate key value now =>
    (Stores.storePutWithPolicy backend approvalGate key value policy now s).2
  | storePutRecordWithPolicy approvalGate key record now =>
    (Stores.storePutRecordWithPolicy backend approvalGate key record policy now s).2
  | storePutRecordIfRevisionWithPolicy approvalGate key expectedRevision record now =>
    (Stores.storePutRecordIfRevisionWithPolicy backend approvalGate key expectedRevision record
      policy now s).2

/-- The state after a sequence of operations. -/
def performAll (policy : WritePolicySet) (s : backend.State) (ops : List (PolicyOp V P E)) :
    backend.State :=
  ops.foldl (PolicyOp.perform backend policy) s

/-- A key that holds a record at some point of the sequence holds one ever after. -/
def Holds (policy : WritePolicySet) (s : backend.State) (ops : List (PolicyOp V P E)) : Prop :=
  ∀ pre mid post key, ops = pre ++ mid ++ post →
    (backend.stored (performAll backend policy s pre) key).isSome →
    (backend.stored (performAll backend policy s (pre ++ mid)) key).isSome

/-- No read of the sequence finds an expired record. -/
def NoExpiredRead (policy : WritePolicySet) (s : backend.State) (ops : List (PolicyOp V P E)) :
    Prop :=
  ∀ pre post key now record, ops = pre ++ .getRecordWithPolicy key now :: post →
    backend.stored (performAll backend policy s pre) key = some record →
    policy.isExpired record now = false

/-- What the operations of a backend do to the stored records, when nothing comes in between. -/
structure Alone : Prop where
  getRecord : ∀ key s, (backend.getRecord key).run backend.exec s = (.ok (backend.stored s key), s)
  putRecord : ∀ key record now s key', (backend.stored s key').isSome →
    (backend.stored ((backend.putRecord key record now).run backend.exec s).2 key').isSome
  putRecordIfRevision : ∀ key expectedRevision record now s key', (backend.stored s key').isSome →
    (backend.stored ((backend.putRecordIfRevision key expectedRevision record now).run
      backend.exec s).2 key').isSome
  delete : ∀ key s, ∃ s', (backend.delete key).run backend.exec s = (.ok (), s') ∧
    ∀ key', backend.stored s' key' = if key' = key then none else backend.stored s key'

end Operations

/-! ### The two backends, each run alone -/

theorem memory_alone : Alone (memory V P) where
  getRecord _ _ := rfl
  putRecord key record now s key' h := by
    show (Function.update s key _ key').isSome = true
    by_cases hkey : key' = key
    · subst hkey
      simp
    · simpa [hkey] using h
  putRecordIfRevision key expectedRevision record now s key' h := by
    have hrun : (((memory V P).putRecordIfRevision key expectedRevision record now).run
        (memory V P).exec s).2 =
        (MemoryAccess.exec (.putRecordIfRevision key expectedRevision record now) s).2 :=
      Prog.run_ofExcept_snd ..
    rw [hrun]
    obtain ⟨e, heq⟩ | ⟨old, -, -, heq⟩ :=
      MemoryAccess.putRecordIfRevision_eq key expectedRevision now record s
    -- a conflict leaves the records as they are
    · rwa [heq]
    · rw [heq]
      show (Function.update s key _ key').isSome = true
      by_cases hkey : key' = key
      · subst hkey
        simp
      · simpa [hkey] using h
  delete key s := by
    refine ⟨Function.update s key none, rfl, fun key' => ?_⟩
    show Function.update s key none key' = _
    simp [Function.update_apply]

/-- An update keeps all rows, whether it finds its own or not. -/
theorem SqliteAccess.isSome_selected_update (rows : StoreRows V P) (key key' : StoreKey)
    (record : StoreRecord V P) (nextRevision updatedAtMs expectedRevision : ℕ) :
    (selected (exec (.update key record nextRevision updatedAtMs expectedRevision) rows).2
      key').isSome = (selected rows key').isSome := by
  unfold selected exec
  dsimp only
  rw [Relational.Rows.find_update]
  simp

theorem sqlite_alone : Alone (sqlite V P) where
  getRecord _ _ := rfl
  putRecord key record now s key' h := by
    show (selected (SqliteAccess.exec (.upsert key record _ now) s).2 key').isSome = true
    rw [SqliteAccess.selected_upsert]
    split
    next => rfl
    next => exact h
  putRecordIfRevision key expectedRevision record now s key' h := by
    simp only [Prog.query_bind, Prog.run]
    split
    -- a conflict leaves the rows as they are
    next => exact h
    next => exact (SqliteAccess.isSome_selected_update ..).trans h
  delete key s := by
    refine ⟨_, rfl, fun key' => ?_⟩
    exact SqliteAccess.selected_delete s key key'

/-! ### Sequences of operations -/

section Sequences

variable {backend : StoreBackend V P} {policy : WritePolicySet} {s : backend.State}

theorem performAll_snoc (pre : List (PolicyOp V P E)) (op : PolicyOp V P E) :
    performAll backend policy s (pre ++ [op]) =
      op.perform backend policy (performAll backend policy s pre) := by
  simp [performAll]

/-- A read of an expired record removes it. -/
theorem Alone.perform_expired (hb : Alone backend) {key : StoreKey} {now : ℕ}
    {record : StoreRecord V P} (hstored : backend.stored s key = some record)
    (hexpired : policy.isExpired record now = true) :
    backend.stored (PolicyOp.perform (E := E) backend policy s (.getRecordWithPolicy key now)) key =
      none := by
  obtain ⟨s', hdelete, hs'⟩ := hb.delete key s
  have hrun : (StoreManager.getRecordWithPolicy backend key policy.toStorePolicySet now).run
      backend.exec s = (.ok none, s') := by
    unfold StoreManager.getRecordWithPolicy
    rw [Prog.run_bind, hb.getRecord]
    simp only [hstored, Option.any_some, hexpired, if_true]
    rw [Prog.run_bind, hdelete]
    rfl
  unfold PolicyOp.perform ofProg
  dsimp only
  rw [hrun]
  simp [hs']

/-- A read of a record that is not expired changes nothing. -/
theorem Alone.perform_fresh (hb : Alone backend) {key : StoreKey} {now : ℕ}
    (hfresh : ∀ record, backend.stored s key = some record → policy.isExpired record now = false) :
    PolicyOp.perform (E := E) backend policy s (.getRecordWithPolicy key now) = s := by
  have hany : (backend.stored s key).any (policy.isExpired · now) = false := by
    cases hstored : backend.stored s key with
    | none => rfl
    | some record => exact hfresh record hstored
  unfold PolicyOp.perform ofProg StoreManager.getRecordWithPolicy
  dsimp only
  rw [Prog.run_bind, hb.getRecord]
  simp only [hany, Bool.false_eq_true, if_false]
  split <;> rfl

/-- A write that waits for an approval keeps a record, if the write itself does. -/
theorem keeps_whenApproved {α : Type} {write : Action backend E α} {key : StoreKey}
    (approval : Except E Unit) (hkey : (backend.stored s key).isSome)
    (hwrite : (backend.stored (write s).2 key).isSome) :
    (backend.stored (whenApproved backend approval write s).2 key).isSome := by
  cases approval with
  | error e => exact hkey
  | ok _ => exact hwrite

/-- One operation under legal hold keeps the record of a key, unless it reads an expired one. -/
theorem Alone.perform_holds (hb : Alone backend) (hhold : policy.legalHold = true)
    {op : PolicyOp V P E} {key : StoreKey}
    (hfresh : ∀ key' now record, op = .getRecordWithPolicy key' now →
      backend.stored s key' = some record → policy.isExpired record now = false)
    (hkey : (backend.stored s key).isSome) :
    (backend.stored (op.perform backend policy s) key).isSome := by
  cases op with
  | getRecordWithPolicy key' now =>
    rwa [hb.perform_fresh fun record => hfresh key' now record rfl]
  | deleteWithPolicy key' =>
    -- the hold refuses the deletion
    have hrun : ((StoreManager.deleteWithPolicy backend key' policy.toStorePolicySet).run
        backend.exec s).2 = s := by
      unfold StoreManager.deleteWithPolicy
      rw [if_pos hhold]
      rfl
    unfold PolicyOp.perform ofProg
    dsimp only
    rwa [hrun]
  | storePutWithPolicy approvalGate key' value now =>
    exact keeps_whenApproved _ hkey (hb.putRecord _ _ _ _ _ hkey)
  | storePutRecordWithPolicy approvalGate key' record now =>
    exact keeps_whenApproved _ hkey (hb.putRecord _ _ _ _ _ hkey)
  | storePutRecordIfRevisionWithPolicy approvalGate key' expectedRevision record now =>
    exact keeps_whenApproved _ hkey (hb.putRecordIfRevision _ _ _ _ _ _ hkey)

theorem Alone.holds_iff (hb : Alone backend) (hhold : policy.legalHold = true)
    (ops : List (PolicyOp V P E)) :
    Holds backend policy s ops ↔ NoExpiredRead backend policy s ops := by
  constructor
  · intro h pre post key now record hops hstored
    by_contra hexpired
    have hlost := hb.perform_expired (E := E) hstored (Bool.of_not_eq_false hexpired)
    have hkept := h pre [.getRecordWithPolicy key now] post key (by simp [hops]) (by simp [hstored])
    rw [performAll_snoc, hlost] at hkept
    cases hkept
  · intro h pre mid post key hops hkey
    -- by induction on what comes after the point where the key holds a record
    induction mid using List.reverseRecOn generalizing post with
    | nil => simpa using hkey
    | append_singleton mid op ih =>
      have hops' : ops = pre ++ mid ++ op :: post := by simpa using hops
      have hmid := ih (op :: post) hops'
      rw [← List.append_assoc, performAll_snoc]
      refine hb.perform_holds hhold ?_ hmid
      rintro key' now record rfl hstored
      exact h _ _ _ _ _ hops' hstored

end Sequences

/-- Under legal hold, whatever the other policies are, the keys of a store keep their records along
a sequence of operations exactly if no operation reads an expired record. -/
theorem holds_iff_noExpiredRead (policy : WritePolicySet) (hhold : policy.legalHold = true) :
    (∀ (s : MemoryAccess.Values V P) (ops : List (PolicyOp V P E)),
      Holds (memory V P) policy s ops ↔ NoExpiredRead (memory V P) policy s ops) ∧
    ∀ (s : StoreRows V P) (ops : List (PolicyOp V P E)),
      Holds (sqlite V P) policy s ops ↔ NoExpiredRead (sqlite V P) policy s ops :=
  ⟨fun _ => memory_alone.holds_iff hhold, fun _ => sqlite_alone.holds_iff hhold⟩

private def account : StoreKey := ⟨.memory, "profiles", "ann"⟩

/-- A hold on records that live for a second. -/
def heldForSecond : WritePolicySet where
  ttlMs := some 1000
  legalHold := true
  provenanceRequired := false
  approvalRequired := false
  approvalLabel := none

theorem holds_iff_heldForSecond :
    heldForSecond.legalHold = true ∧
    (∀ (s : MemoryAccess.Values ℕ Unit) (ops : List (PolicyOp ℕ Unit String)),
      Holds (memory ℕ Unit) heldForSecond s ops ↔ NoExpiredRead (memory ℕ Unit) heldForSecond s ops) ∧
    ∀ (s : StoreRows ℕ Unit) (ops : List (PolicyOp ℕ Unit String)),
      Holds (sqlite ℕ Unit) heldForSecond s ops ↔ NoExpiredRead (sqlite ℕ Unit) heldForSecond s ops :=
  ⟨rfl, holds_iff_noExpiredRead heldForSecond rfl⟩

/-- A put at 0, a read two seconds later. -/
def putAndRead : List (PolicyOp ℕ Unit String) :=
  [.storePutWithPolicy (fun _ _ => .ok ()) account 7 0, .getRecordWithPolicy account 2000]

theorem hold_removed : heldForSecond.legalHold = true ∧
    ¬ Holds (memory ℕ Unit) heldForSecond (fun _ => none) putAndRead := by
  refine ⟨rfl, fun h => ?_⟩
  have hkept := h [.storePutWithPolicy (fun _ _ => .ok ()) account 7 0]
    [.getRecordWithPolicy account 2000] [] account rfl (by decide)
  exact absurd hkept (by decide)

end Corvid.Stores
