import Corvid.Lib.Trace
import Mathlib.Data.Rat.Defs
import Mathlib.Logic.Function.Basic

/-!
# Grounded handles

Compiled code attests a result and the host asks for a handle on the attestation. A string has its
attestation under its address, and a scalar is the last one of its thread. Nothing takes the
attestation of a string away when the string is freed, and a scalar that is not attested leaves the
attestation of an earlier one in place.

## Main definitions

* `GroundedHandleStore`: the attestations of strings and those behind handles
* `World.Step`: calls into the store, and strings that come and go between them
* `GroundedOnly`: handles are for grounded results only, and they report their attestations
* `Tidy`: no attestation is left behind

## Main results

* `groundedOnly_of_tidy`: in runs of such steps, handles are for grounded results only
* `handle_of_freed_string`: in other runs they are not
-/

namespace Corvid.Grounded

open Trace

inductive ProvenanceKind where
  | retrieval
  | promptTransform
  | agentHandoff
  | severed (reason : String)
deriving DecidableEq, Repr

structure ProvenanceEntry where
  kind : ProvenanceKind
  name : String
  timestampMs : ℕ
deriving DecidableEq, Repr

structure ProvenanceChain where
  entries : List ProvenanceEntry
deriving DecidableEq, Repr

def ProvenanceChain.withRetrieval (toolName : String) (timestampMs : ℕ) : ProvenanceChain :=
  ⟨[⟨.retrieval, toolName, timestampMs⟩]⟩

structure GroundedAttestation where
  provenance : ProvenanceChain
  confidence : ℚ
deriving DecidableEq, Repr

def GroundedAttestation.sourceNames (attestation : GroundedAttestation) : List String :=
  attestation.provenance.entries.foldl (fun out entry =>
    if entry.kind ≠ .retrieval then out
    else if out.any (· == entry.name) then out
    else out ++ [entry.name]) []

/-- A float that is not finite is `none`. -/
def canonicalizeConfidence : Option ℚ → ℚ
  | some confidence => if confidence < 0 then 0 else if 1 < confidence then 1 else confidence
  | none => 1

def makeAttestation (provenance : ProvenanceChain) (confidence : Option ℚ) : GroundedAttestation :=
  ⟨provenance, canonicalizeConfidence confidence⟩

/-! ### The slot map of the handles -/

/-- The values behind the handles, and the keys that have been handed out so far. Zero is not a key. -/
structure AttestationStore (α : Type) where
  handles : ℕ → Option α
  issued : List ℕ
  issued_of_isSome : ∀ h, (handles h).isSome → h ∈ issued
  zero_notMem : 0 ∉ issued

namespace AttestationStore

variable {α : Type}

def new : AttestationStore α := ⟨fun _ => none, [], by simp, by simp⟩

/-- A key is never handed out twice: that is how stale keys are told from others. -/
def Fresh (store : AttestationStore α) (key : ℕ) : Prop := key ≠ 0 ∧ key ∉ store.issued

instance (store : AttestationStore α) (key : ℕ) : Decidable (store.Fresh key) :=
  inferInstanceAs (Decidable (_ ∧ _))

def insert (store : AttestationStore α) (key : {key // store.Fresh key}) (value : α) :
    ℕ × AttestationStore α :=
  (key, {
    handles := Function.update store.handles key (some value)
    issued := key :: store.issued
    issued_of_isSome := by
      intro h hh
      by_cases heq : h = key
      · exact List.mem_cons.mpr (.inl heq)
      · rw [Function.update_of_ne heq] at hh
        exact List.mem_cons_of_mem _ (store.issued_of_isSome h hh)
    zero_notMem := by
      have hkey := key.2.1
      simp [store.zero_notMem, hkey.symm] })

def get (store : AttestationStore α) (handle : ℕ) : Option α := store.handles handle

def remove (store : AttestationStore α) (handle : ℕ) : Bool × AttestationStore α :=
  ((store.handles handle).isSome, {
    handles := Function.update store.handles handle none
    issued := store.issued
    issued_of_isSome := by
      intro h hh
      by_cases heq : h = handle
      · simp [heq] at hh
      · rw [Function.update_of_ne heq] at hh
        exact store.issued_of_isSome h hh
    zero_notMem := store.zero_notMem })

end AttestationStore

/-! ### The store of the process -/

structure GroundedHandleStore where
  handles : AttestationStore GroundedAttestation
  stringAttestations : ℕ → Option GroundedAttestation

/-- What a slot map may hand out next. -/
abbrev GroundedHandleStore.Key (store : GroundedHandleStore) : Type :=
  {key // store.handles.Fresh key}

namespace GroundedHandleStore

def default : GroundedHandleStore := ⟨.new, fun _ => none⟩

def attachStringAttestation (store : GroundedHandleStore) (stringPtr : ℕ)
    (attestation : GroundedAttestation) : GroundedHandleStore :=
  if stringPtr = 0 then store
  else { store with
    stringAttestations := Function.update store.stringAttestations stringPtr (some attestation) }

/-- The attestation is taken out. -/
def registerHandleForStringPtr (store : GroundedHandleStore) (stringPtr : ℕ) (key : store.Key) :
    ℕ × GroundedHandleStore :=
  if stringPtr = 0 then (0, store)
  else
    match store.stringAttestations stringPtr with
    | none => (0, store)
    | some attestation =>
      let (handle, handles) := store.handles.insert key attestation
      (handle, ⟨handles, Function.update store.stringAttestations stringPtr none⟩)

/-- The slot of the thread is left empty. -/
def registerHandleForLastScalar (store : GroundedHandleStore) (slot : Option GroundedAttestation)
    (key : store.Key) : ℕ × Option GroundedAttestation × GroundedHandleStore :=
  match slot with
  | none => (0, none, store)
  | some attestation =>
    let (handle, handles) := store.handles.insert key attestation
    (handle, none, { store with handles := handles })

def sourcesForHandle (store : GroundedHandleStore) (handle : ℕ) : Option (List String) :=
  if handle = 0 then none else (store.handles.get handle).map (·.sourceNames)

def confidenceForHandle (store : GroundedHandleStore) (handle : ℕ) : Option ℚ :=
  if handle = 0 then none else (store.handles.get handle).map (·.confidence)

def releaseHandle (store : GroundedHandleStore) (handle : ℕ) : Bool × GroundedHandleStore :=
  if handle = 0 then (true, store)
  else
    let (released, handles) := store.handles.remove handle
    (released, { store with handles := handles })

end GroundedHandleStore

/-! ### Calls from many threads -/

/-- The store, the slot of each thread, and the string object that lives at each address. Objects are
numbered as they are allocated. -/
structure World (ι : Type) where
  store : GroundedHandleStore
  lastScalarAttestation : ι → Option GroundedAttestation
  strings : ℕ → Option ℕ
  allocated : ℕ

def World.init {ι : Type} : World ι := ⟨.default, fun _ => none, fun _ => none, 0⟩

/-- A call into the store with what it returns, a string that is allocated or freed, or a scalar
result that is not attested. -/
inductive Event (ι : Type) where
  | allocString (stringPtr : ℕ)
  | freeString (stringPtr : ℕ)
  | scalarResult (thread : ι)
  | attachStringAttestation (stringPtr : ℕ) (attestation : GroundedAttestation)
  | registerHandleForStringPtr (stringPtr handle : ℕ)
  | setLastScalarAttestation (thread : ι) (attestation : GroundedAttestation)
  | registerHandleForLastScalar (thread : ι) (handle : ℕ)
  | sourcesForHandle (handle : ℕ) (sources : Option (List String))
  | confidenceForHandle (handle : ℕ) (confidence : Option ℚ)
  | releaseHandle (handle : ℕ) (released : Bool)

section Steps

variable {ι : Type} [DecidableEq ι]

inductive World.Step (w : World ι) : Event ι → World ι → Prop
  | allocString {p : ℕ} : p ≠ 0 → w.strings p = none →
      w.Step (.allocString p) { w with
        strings := Function.update w.strings p (some w.allocated)
        allocated := w.allocated + 1 }
  | freeString {p : ℕ} : (w.strings p).isSome →
      w.Step (.freeString p) { w with strings := Function.update w.strings p none }
  | scalarResult (t : ι) : w.Step (.scalarResult t) w
  | attachStringAttestation (p : ℕ) (a : GroundedAttestation) :
      w.Step (.attachStringAttestation p a)
        { w with store := w.store.attachStringAttestation p a }
  | registerHandleForStringPtr (p : ℕ) (key : w.store.Key) :
      w.Step (.registerHandleForStringPtr p (w.store.registerHandleForStringPtr p key).1)
        { w with store := (w.store.registerHandleForStringPtr p key).2 }
  | setLastScalarAttestation (t : ι) (a : GroundedAttestation) :
      w.Step (.setLastScalarAttestation t a)
        { w with lastScalarAttestation := Function.update w.lastScalarAttestation t (some a) }
  | registerHandleForLastScalar (t : ι) (key : w.store.Key) :
      w.Step (.registerHandleForLastScalar t
          (w.store.registerHandleForLastScalar (w.lastScalarAttestation t) key).1)
        { w with
          lastScalarAttestation := Function.update w.lastScalarAttestation t
            (w.store.registerHandleForLastScalar (w.lastScalarAttestation t) key).2.1
          store := (w.store.registerHandleForLastScalar (w.lastScalarAttestation t) key).2.2 }
  | sourcesForHandle (h : ℕ) : w.Step (.sourcesForHandle h (w.store.sourcesForHandle h)) w
  | confidenceForHandle (h : ℕ) :
      w.Step (.confidenceForHandle h (w.store.confidenceForHandle h)) w
  | releaseHandle (h : ℕ) :
      w.Step (.releaseHandle h (w.store.releaseHandle h).1)
        { w with store := (w.store.releaseHandle h).2 }

end Steps

/-! ### What has happened -/

section Events

variable {ι : Type} [DecidableEq ι]

/-- An attestation is attached to the object that lives at the address, if there is one. -/
def attaches (p : ℕ) : Entry (World ι) (Event ι) → Option (Option ℕ × GroundedAttestation)
  | ⟨w, .attachStringAttestation q a⟩ => if q = p then some (w.strings p, a) else none
  | _ => none

/-- A scalar result, with its attestation if it has one. -/
def scalarResult (t : ι) : Entry (World ι) (Event ι) → Option (Option GroundedAttestation)
  | ⟨_, .scalarResult u⟩ => if u = t then some none else none
  | ⟨_, .setLastScalarAttestation u a⟩ => if u = t then some (some a) else none
  | _ => none

/-- A handle is registered with an attestation. -/
def registers (h : ℕ) : Entry (World ι) (Event ι) → Option GroundedAttestation
  | ⟨w, .registerHandleForStringPtr p h'⟩ =>
    if h' = h ∧ h ≠ 0 then w.store.stringAttestations p else none
  | ⟨w, .registerHandleForLastScalar t h'⟩ =>
    if h' = h ∧ h ≠ 0 then w.lastScalarAttestation t else none
  | _ => none

def releases (h : ℕ) : Entry (World ι) (Event ι) → Bool
  | ⟨_, .releaseHandle h' _⟩ => h' = h
  | _ => false

/-- Whoever reads the handle finds the attestation, or nothing. -/
def Reports (h : ℕ) (a : Option GroundedAttestation) : Entry (World ι) (Event ι) → Prop
  | ⟨_, .sourcesForHandle h' sources⟩ => h' = h → sources = a.map (·.sourceNames)
  | ⟨_, .confidenceForHandle h' confidence⟩ => h' = h → confidence = a.map (·.confidence)
  | _ => True

end Events

/-- A handle for a string is registered with the attestation that has been attached to the very object
at the address. A handle for a scalar is registered with the attestation of the last scalar result of
the thread. A handle reports what it has been registered with, until it is released. -/
structure GroundedOnly {ι : Type} [DecidableEq ι] (log : List (Entry (World ι) (Event ι))) :
    Prop where
  string : ∀ pre w p h post, log = pre ++ ⟨w, .registerHandleForStringPtr p h⟩ :: post → h ≠ 0 →
    ∃ obj a, w.strings p = some obj ∧ latest (attaches p) pre = some (some obj, a) ∧
      w.store.stringAttestations p = some a
  scalar : ∀ pre w t h post, log = pre ++ ⟨w, .registerHandleForLastScalar t h⟩ :: post → h ≠ 0 →
    ∃ a, latest (scalarResult t) pre = some (some a) ∧ w.lastScalarAttestation t = some a
  handle : ∀ pre x mid y post h a, log = pre ++ x :: (mid ++ y :: post) → registers h x = some a →
    Reports h (if mid.any (releases h) then none else some a) y

/-- No string is freed while there is an attestation for it, attestations are attached to strings that
live, and a scalar result without attestation does not follow one whose attestation is still in the
slot. -/
def Tidy {ι : Type} : Entry (World ι) (Event ι) → Prop
  | ⟨w, .freeString p⟩ => w.store.stringAttestations p = none
  | ⟨w, .attachStringAttestation p _⟩ => p = 0 ∨ (w.strings p).isSome
  | ⟨w, .scalarResult t⟩ => w.lastScalarAttestation t = none
  | _ => True

/-! ### The store -/

namespace GroundedHandleStore

variable {store : GroundedHandleStore} {p : ℕ} {slot : Option GroundedAttestation}

/-- A handle for a string is a new one, for the attestation under its address. -/
theorem registerHandleForStringPtr_cases (key : store.Key) :
    (store.registerHandleForStringPtr p key = (0, store)) ∨
      ∃ a, p ≠ 0 ∧ store.stringAttestations p = some a ∧
        store.registerHandleForStringPtr p key =
          (key.1, ⟨(store.handles.insert key a).2, Function.update store.stringAttestations p none⟩) := by
  by_cases hp : p = 0
  · exact .inl (if_pos hp)
  · cases hat : store.stringAttestations p with
    | none => exact .inl (by simp [registerHandleForStringPtr, hat])
    | some a =>
      refine .inr ⟨a, hp, rfl, ?_⟩
      simp [registerHandleForStringPtr, hp, hat, AttestationStore.insert]

variable (slot) in
theorem registerHandleForLastScalar_cases (key : store.Key) :
    (slot = none ∧ store.registerHandleForLastScalar slot key = (0, none, store)) ∨
      ∃ a, slot = some a ∧ store.registerHandleForLastScalar slot key =
        (key.1, none, { store with handles := (store.handles.insert key a).2 }) := by
  cases slot with
  | none => exact .inl ⟨rfl, rfl⟩
  | some a => exact .inr ⟨a, rfl, rfl⟩

end GroundedHandleStore

/-! ### Runs -/

section Runs

variable {ι : Type} [DecidableEq ι] {log : List (Entry (World ι) (Event ι))} {w w' : World ι}
  {e : Event ι}

/-- A string lives until it is freed. -/
theorem World.Step.strings {p obj : ℕ} (h : w.Step e w') (hobj : w.strings p = some obj) :
    w'.strings p = some obj ∨ e = .freeString p := by
  cases h with
  | @allocString q hne hfree =>
    refine .inl ((Function.update_of_ne ?_ _ _).trans hobj)
    rintro rfl
    exact absurd hobj (by simp [hfree])
  | @freeString q hsome =>
    by_cases hq : p = q
    · exact .inr (by rw [hq])
    · exact .inl ((Function.update_of_ne hq _ _).trans hobj)
  | _ => exact .inl hobj

/-- An attestation under an address has just been attached, or it has been there before. -/
theorem World.Step.stringAttestations {p : ℕ} {a : GroundedAttestation} (h : w.Step e w')
    (ha : w'.store.stringAttestations p = some a) :
    (p ≠ 0 ∧ e = .attachStringAttestation p a) ∨
      (w.store.stringAttestations p = some a ∧
        ∀ b, p ≠ 0 → e ≠ .attachStringAttestation p b) := by
  cases h with
  | attachStringAttestation q b =>
    simp only [GroundedHandleStore.attachStringAttestation] at ha
    split at ha
    next hq => exact .inr ⟨ha, by rintro b hp ⟨⟩; exact hp hq⟩
    next hq =>
      by_cases hp : p = q
      · subst hp
        obtain rfl : b = a := by simpa using ha
        exact .inl ⟨hq, rfl⟩
      · exact .inr ⟨(Function.update_of_ne hp _ _).symm.trans ha, by rintro b - ⟨⟩; exact hp rfl⟩
  | registerHandleForStringPtr q key =>
    refine .inr ⟨?_, by simp⟩
    rcases GroundedHandleStore.registerHandleForStringPtr_cases (p := q) key with
      heq | ⟨b, -, -, heq⟩
    · simpa only [heq] using ha
    · simp only [heq] at ha
      by_cases hp : p = q
      · subst hp
        simp at ha
      · exact (Function.update_of_ne hp _ _).symm.trans ha
  | registerHandleForLastScalar t key =>
    refine .inr ⟨?_, by simp⟩
    rcases GroundedHandleStore.registerHandleForLastScalar_cases (w.lastScalarAttestation t) key
      with ⟨-, heq⟩ | ⟨b, -, heq⟩
    · simpa only [heq] using ha
    · simpa only [heq] using ha
  | releaseHandle h =>
    refine .inr ⟨?_, by simp⟩
    simp only [GroundedHandleStore.releaseHandle] at ha
    split at ha
    · exact ha
    · exact ha
  | _ => exact .inr ⟨ha, by simp⟩

/-- So it is with the slots. -/
theorem World.Step.lastScalarAttestation {t : ι} {a : GroundedAttestation} (h : w.Step e w')
    (ha : w'.lastScalarAttestation t = some a) :
    e = .setLastScalarAttestation t a ∨
      (w.lastScalarAttestation t = some a ∧ ∀ b, e ≠ .setLastScalarAttestation t b) := by
  cases h with
  | setLastScalarAttestation u b =>
    by_cases hu : t = u
    · subst hu
      obtain rfl : b = a := by simpa using ha
      exact .inl rfl
    · exact .inr ⟨(Function.update_of_ne hu _ _).symm.trans ha, by rintro b ⟨⟩; exact hu rfl⟩
  | registerHandleForLastScalar u key =>
    refine .inr ⟨?_, by simp⟩
    by_cases hu : t = u
    · subst hu
      simp only [Function.update_self] at ha
      rcases GroundedHandleStore.registerHandleForLastScalar_cases (w.lastScalarAttestation t) key
        with ⟨-, heq⟩ | ⟨b, -, heq⟩
      · simp [heq] at ha
      · simp [heq] at ha
    · exact (Function.update_of_ne hu _ _).symm.trans ha
  | _ => exact .inr ⟨ha, by simp⟩

/-- An attestation that waits for its handle is the one of the object at its address, and the one in a
slot is that of the last result. -/
structure GroundedInv (log : List (Entry (World ι) (Event ι))) (w : World ι) : Prop where
  attached : ∀ p a, w.store.stringAttestations p = some a → p ≠ 0 ∧
    ∃ obj, w.strings p = some obj ∧ latest (attaches p) log = some (some obj, a)
  scalar : ∀ t a, w.lastScalarAttestation t = some a →
    latest (scalarResult t) log = some (some a)

theorem GroundedInv.step (hinv : GroundedInv log w) (hstep : w.Step e w') (htidy : Tidy ⟨w, e⟩) :
    GroundedInv (log ++ [⟨w, e⟩]) w' := by
  constructor
  · intro p a ha
    rw [latest_snoc]
    rcases hstep.stringAttestations ha with ⟨hp, rfl⟩ | ⟨hold, hne⟩
    · -- it is attached to the string that lives at the address
      obtain ⟨obj, hobj⟩ := Option.isSome_iff_exists.mp (htidy.resolve_left hp)
      have hobj' := (hstep.strings hobj).resolve_right (by simp)
      exact ⟨hp, obj, hobj', by simp [attaches, hobj]⟩
    · obtain ⟨hp, obj, hobj, hlatest⟩ := hinv.attached p a hold
      refine ⟨hp, obj, (hstep.strings hobj).resolve_right ?_, ?_⟩
      · rintro rfl
        exact absurd (htidy.symm.trans hold) (by simp)
      · have hnone : attaches p ⟨w, e⟩ = none := by
          cases e with
          | attachStringAttestation q b =>
            refine if_neg ?_
            rintro rfl
            exact hne b hp rfl
          | _ => rfl
        rw [hnone]
        exact hlatest
  · intro t a ha
    rw [latest_snoc]
    rcases hstep.lastScalarAttestation ha with rfl | ⟨hold, hne⟩
    · simp [scalarResult]
    · have hnone : scalarResult t ⟨w, e⟩ = none := by
        cases e with
        | scalarResult u =>
          refine if_neg ?_
          rintro rfl
          exact absurd (htidy.symm.trans hold) (by simp)
        | setLastScalarAttestation u b =>
          refine if_neg ?_
          rintro rfl
          exact hne b rfl
        | _ => rfl
      rw [hnone]
      exact hinv.scalar t a hold

theorem groundedInv_of_run (h : Run World.Step (World.init : World ι) log w)
    (htidy : ∀ l ∈ log, Tidy l) : GroundedInv log w := by
  induction h with
  | nil => exact ⟨nofun, nofun⟩
  | snoc hrun hstep ih =>
    have hinv := ih fun l hl => htidy l (List.mem_append_left _ hl)
    exact hinv.step hstep (htidy _ (List.mem_append_right _ (List.mem_singleton_self _)))

/-- A handle is new when it is registered, and finds what it is registered with. -/
theorem World.Step.of_registers {h : ℕ} {a : GroundedAttestation} (hstep : w.Step e w')
    (hreg : registers h ⟨w, e⟩ = some a) :
    w.store.handles.Fresh h ∧ h ∈ w'.store.handles.issued ∧ w'.store.handles.handles h = some a := by
  cases hstep with
  | registerHandleForStringPtr p key =>
    simp only [registers, Option.ite_none_right_eq_some] at hreg
    obtain ⟨⟨hh, hne⟩, ha⟩ := hreg
    rcases GroundedHandleStore.registerHandleForStringPtr_cases (p := p) key with
      heq | ⟨b, -, hb, heq⟩
    · rw [heq] at hh
      exact absurd hh.symm hne
    · obtain rfl : b = a := Option.some.inj (hb.symm.trans ha)
      rw [heq] at hh ⊢
      dsimp only at hh
      subst hh
      exact ⟨key.2, List.mem_cons_self, Function.update_self ..⟩
  | registerHandleForLastScalar t key =>
    simp only [registers, Option.ite_none_right_eq_some] at hreg
    obtain ⟨⟨hh, hne⟩, ha⟩ := hreg
    rcases GroundedHandleStore.registerHandleForLastScalar_cases (w.lastScalarAttestation t) key
      with ⟨-, heq⟩ | ⟨b, hb, heq⟩
    · rw [heq] at hh
      exact absurd hh.symm hne
    · obtain rfl : b = a := Option.some.inj (hb.symm.trans ha)
      rw [heq] at hh ⊢
      dsimp only at hh
      subst hh
      exact ⟨key.2, List.mem_cons_self, Function.update_self ..⟩
  | _ => cases hreg

/-- A new key leaves the handles that have been handed out alone. -/
theorem AttestationStore.handles_insert {α : Type} {store : AttestationStore α} {h : ℕ}
    (key : {key // store.Fresh key}) (value : α) (hh : h ∈ store.issued) :
    (store.insert key value).2.handles h = store.handles h := by
  refine Function.update_of_ne ?_ _ _
  rintro rfl
  exact key.2.2 hh

/-- A handle that has been handed out is not registered again, and finds the same until it is
released. -/
theorem World.Step.handles {h : ℕ} (hstep : w.Step e w') (hh : h ∈ w.store.handles.issued) :
    h ∈ w'.store.handles.issued ∧ w'.store.handles.handles h =
      if releases h ⟨w, e⟩ then none else w.store.handles.handles h := by
  cases hstep with
  | attachStringAttestation p a =>
    simp only [GroundedHandleStore.attachStringAttestation]
    split
    · exact ⟨hh, rfl⟩
    · exact ⟨hh, rfl⟩
  | registerHandleForStringPtr p key =>
    rcases GroundedHandleStore.registerHandleForStringPtr_cases (p := p) key with
      heq | ⟨b, -, -, heq⟩
    · rw [heq]
      exact ⟨hh, rfl⟩
    · rw [heq]
      exact ⟨List.mem_cons_of_mem _ hh, AttestationStore.handles_insert key b hh⟩
  | registerHandleForLastScalar t key =>
    rcases GroundedHandleStore.registerHandleForLastScalar_cases (w.lastScalarAttestation t) key
      with ⟨-, heq⟩ | ⟨b, -, heq⟩
    · rw [heq]
      exact ⟨hh, rfl⟩
    · rw [heq]
      exact ⟨List.mem_cons_of_mem _ hh, AttestationStore.handles_insert key b hh⟩
  | releaseHandle h' =>
    by_cases hzero : h' = 0
    · have hne : ¬ h' = h := by
        rintro rfl
        exact w.store.handles.zero_notMem (hzero ▸ hh)
      simp [GroundedHandleStore.releaseHandle, hzero, releases, hh, hzero ▸ hne]
    · simp only [GroundedHandleStore.releaseHandle, if_neg hzero, releases, decide_eq_true_eq]
      refine ⟨hh, ?_⟩
      split
      next heq => exact heq ▸ Function.update_self ..
      next hne => exact Function.update_of_ne (Ne.symm hne) _ _
  | _ => exact ⟨hh, rfl⟩

/-- A handle finds what it has been registered with until it is released. -/
theorem handles_of_registers {pre mid : List (Entry (World ι) (Event ι))}
    {x : Entry (World ι) (Event ι)} {h : ℕ} {a : GroundedAttestation}
    (hrun : Run World.Step World.init (pre ++ x :: mid) w) (hreg : registers h x = some a) :
    h ∈ w.store.handles.issued ∧
      w.store.handles.handles h = if mid.any (releases h) then none else some a := by
  generalize hlog : pre ++ x :: mid = log at hrun
  induction hrun generalizing mid with
  | nil => simp at hlog
  | @snoc log' w₁ w₂ e hrun hstep ih =>
    rcases List.eq_nil_or_concat mid with rfl | ⟨mid, y, rfl⟩
    · obtain ⟨-, heq⟩ := List.append_inj' hlog rfl
      obtain rfl := List.singleton_inj.mp heq
      obtain ⟨-, hissued, hhandle⟩ := hstep.of_registers hreg
      exact ⟨hissued, hhandle⟩
    · rw [List.concat_eq_append, ← List.cons_append, ← List.append_assoc] at hlog
      obtain ⟨hlog', heq⟩ := List.append_inj' hlog rfl
      obtain rfl := List.singleton_inj.mp heq
      obtain ⟨hissued, hhandle⟩ := ih hlog'
      obtain ⟨hissued', hhandle'⟩ := hstep.handles hissued
      refine ⟨hissued', ?_⟩
      rw [hhandle', hhandle, List.concat_eq_append, List.any_append]
      cases hrel : releases h ⟨w₁, e⟩ <;> simp [hrel]

/-- Handles are for grounded results only, in runs that leave no attestation behind. -/
theorem groundedOnly_of_tidy (log : List (Entry (World ι) (Event ι))) (w : World ι)
    (h : Run World.Step World.init log w) (htidy : ∀ l ∈ log, Tidy l) : GroundedOnly log := by
  refine ⟨?_, ?_, ?_⟩
  · rintro pre w₁ p handle post rfl hne
    obtain ⟨w₂, hrun, hstep⟩ := h.split
    have hinv := groundedInv_of_run hrun fun l hl => htidy l (List.mem_append_left _ hl)
    change w₁.Step (.registerHandleForStringPtr p handle) w₂ at hstep
    obtain ⟨key, rfl⟩ : ∃ key, (w₁.store.registerHandleForStringPtr p key).1 = handle := by
      cases hstep with
      | registerHandleForStringPtr _ key => exact ⟨key, rfl⟩
    rcases GroundedHandleStore.registerHandleForStringPtr_cases (p := p) key with
      heq | ⟨a, -, ha, -⟩
    · exact absurd (congrArg Prod.fst heq) hne
    · obtain ⟨-, obj, hobj, hlatest⟩ := hinv.attached p a ha
      exact ⟨obj, a, hobj, hlatest, ha⟩
  · rintro pre w₁ t handle post rfl hne
    obtain ⟨w₂, hrun, hstep⟩ := h.split
    have hinv := groundedInv_of_run hrun fun l hl => htidy l (List.mem_append_left _ hl)
    change w₁.Step (.registerHandleForLastScalar t handle) w₂ at hstep
    obtain ⟨key, rfl⟩ : ∃ key, (w₁.store.registerHandleForLastScalar
        (w₁.lastScalarAttestation t) key).1 = handle := by
      cases hstep with
      | registerHandleForLastScalar _ key => exact ⟨key, rfl⟩
    rcases GroundedHandleStore.registerHandleForLastScalar_cases (w₁.lastScalarAttestation t) key
      with ⟨-, heq⟩ | ⟨a, ha, -⟩
    · exact absurd (congrArg Prod.fst heq) hne
    · exact ⟨a, hinv.scalar t a ha, ha⟩
  · rintro pre x mid y post handle a rfl hreg
    rw [← List.cons_append, ← List.append_assoc] at h
    obtain ⟨w₂, hrun, hstep⟩ := h.split
    obtain ⟨hissued, hhandle⟩ := handles_of_registers hrun hreg
    have hne : handle ≠ 0 := by
      rintro rfl
      exact y.before.store.handles.zero_notMem hissued
    rw [← hhandle]
    obtain ⟨w₁, e⟩ := y
    change w₁.Step e w₂ at hstep
    cases hstep with
    | sourcesForHandle handle' =>
      rintro rfl
      exact if_neg hne
    | confidenceForHandle handle' =>
      rintro rfl
      exact if_neg hne
    | _ => trivial

end Runs

/-- What a lookup with confidence `3 / 4` attests. -/
def lookedUp : GroundedAttestation := makeAttestation (.withRetrieval "lookup" 1) (some (3 / 4))

/-- A string is attested and registered. -/
theorem groundedOnly_lookedUp : ∃ (log : List (Entry (World Unit) (Event Unit))) (w : World Unit),
    Run World.Step World.init log w ∧
      (∃ w₁, ⟨w₁, .registerHandleForStringPtr 8 1⟩ ∈ log) ∧ GroundedOnly log := by
  have halloc : Run World.Step (World.init : World Unit) _ _ :=
    .snoc .nil (.allocString (p := 8) (by decide) rfl)
  have hregister := halloc.snoc (.attachStringAttestation 8 lookedUp) |>.snoc
    (.registerHandleForStringPtr 8 ⟨1, by decide⟩)
  have hread := hregister.snoc (.sourcesForHandle 1)
  refine ⟨_, _, hread, ?_, groundedOnly_of_tidy _ _ hread ?_⟩
  · exact ⟨_, List.mem_append_left _ (List.mem_append_right _ (List.mem_singleton_self _))⟩
  · simp [Tidy, World.init]

/-- The string is freed before its attestation is registered, and another one takes its address. -/
theorem handle_of_freed_string :
    ¬ ∀ (log : List (Entry (World Unit) (Event Unit))) (w : World Unit),
      Run World.Step World.init log w → GroundedOnly log := by
  intro hall
  have halloc : Run World.Step (World.init : World Unit) _ _ :=
    .snoc .nil (.allocString (p := 8) (by decide) rfl)
  have hfree := halloc.snoc (.attachStringAttestation 8 lookedUp) |>.snoc (.freeString (p := 8) rfl)
  have hagain := hfree.snoc (.allocString (p := 8) (by decide) rfl)
  have hregister := hagain.snoc (.registerHandleForStringPtr 8 ⟨1, by decide⟩)
  obtain ⟨obj, a, hobj, hlatest, -⟩ :=
    (hall _ _ hregister).string _ _ _ _ [] rfl (by decide)
  -- the attested string was the first one, and it is the second one that lives there
  obtain rfl : 1 = obj := Option.some.inj hobj
  have heq : some (some 0, lookedUp) = some (some 1, a) := hlatest
  simp at heq

end Corvid.Grounded
