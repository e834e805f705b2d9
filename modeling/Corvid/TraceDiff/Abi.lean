import Mathlib.Data.List.Induction
import Mathlib.Tactic.Common
import Std.Data.TreeMap.Lemmas

/-!
# Descriptors

What the compiler publishes about the agents and tools of a source, as far as it is compared between
two commits.

## Main definitions

* `CorvidAbi`, `AbiAgent`, `AbiTool`: descriptors
* `byName`: the entries of a descriptor under their names
* `effectiveParamOwnership`, `effectiveReturnOwnership`, `ownershipLabel`: who owns what is passed
-/

namespace Corvid.TraceDiff

open Std (TreeMap)

inductive ScalarTypeName where
  | int
  | float
  | string
  | bool
  | nothing
  | traceId
deriving DecidableEq, Repr

inductive TypeDescription where
  | scalar (scalar : ScalarTypeName)
  | struct (name : String)
  | list (element : TypeDescription)
  | result (ok err : TypeDescription)
  | option (inner : TypeDescription)
  | grounded (inner : TypeDescription)
  | partialOf (inner : TypeDescription)
  | resumeToken (inner : TypeDescription)
  | weak (inner : TypeDescription) (effects : List String)
deriving DecidableEq, Repr

inductive AbiOwnershipMode where
  | owned
  | borrowed
  | shared
  | static
deriving DecidableEq, Repr

inductive AbiDestructorKind where
  | drop
  | release
deriving DecidableEq, Repr

structure AbiDestructor where
  kind : AbiDestructorKind
  symbol : String
deriving DecidableEq, Repr

structure AbiOwnership where
  mode : AbiOwnershipMode
  lifetime : Option String
  destructor : Option AbiDestructor
deriving DecidableEq, Repr

structure AbiParam where
  name : String
  ty : TypeDescription
  ownership : Option AbiOwnership
deriving DecidableEq, Repr

structure AbiApprovalLabel where
  label : String
  reversibility : Option String
  requiredTier : Option String
deriving DecidableEq, Repr

structure AbiProvenanceContract where
  returnsGrounded : Bool
  groundedParamDeps : List String
deriving DecidableEq, Repr

/-- An agent. `labels` are those of its approval contract. -/
structure AbiAgent where
  name : String
  params : List AbiParam
  returnType : TypeDescription
  returnOwnership : Option AbiOwnership
  trustTier : Option String
  dangerous : Bool
  replayable : Bool
  labels : List AbiApprovalLabel
  provenance : AbiProvenanceContract
deriving DecidableEq, Repr

structure AbiToolDomainEffect where
  kind : String
  target : Option String
deriving DecidableEq, Repr

structure AbiTool where
  name : String
  domainEffects : List AbiToolDomainEffect
  requiresApproval : Option String
deriving DecidableEq, Repr

structure CorvidAbi where
  agents : List AbiAgent
  tools : List AbiTool
deriving DecidableEq, Repr

/-- Entries under their names, in the order of names. The last of a name counts. -/
def byName {α : Type} (name : α → String) (xs : List α) : TreeMap String α :=
  xs.foldl (fun m a => m.insert (name a) a) ∅

theorem mem_toList_byName {α : Type} {name : α → String} {xs : List α} {n : String} {a : α} :
    (n, a) ∈ (byName name xs).toList ↔ (byName name xs)[n]? = some a :=
  TreeMap.mem_toList_iff_getElem?_eq_some

/-- What is found under a name is an entry of that name. -/
theorem mem_of_byName {α : Type} {name : α → String} {xs : List α} {n : String} {a : α}
    (h : (byName name xs)[n]? = some a) : a ∈ xs ∧ name a = n := by
  induction xs using List.reverseRecOn with
  | nil => simp [byName] at h
  | append_singleton xs x ih =>
    rw [byName, List.foldl_append, List.foldl_cons, List.foldl_nil, TreeMap.getElem?_insert] at h
    split at h
    next heq => exact ⟨by simp [Option.some.inj h], by simpa [Option.some.inj h] using heq⟩
    next => exact ⟨List.mem_append_left _ (ih h).1, (ih h).2⟩

/-! ### Ownership -/

def effectiveParamOwnership (param : AbiParam) : AbiOwnership :=
  param.ownership.getD <|
    match param.ty with
    | .scalar .string | .scalar .traceId => ⟨.borrowed, some "call", none⟩
    | _ => ⟨.owned, none, none⟩

def effectiveReturnOwnership (agent : AbiAgent) : AbiOwnership :=
  agent.returnOwnership.getD <|
    match agent.returnType with
    | .grounded _ => ⟨.owned, none, some ⟨.release, "corvid_grounded_release"⟩⟩
    | .scalar .string | .scalar .traceId => ⟨.owned, none, some ⟨.drop, "corvid_free_string"⟩⟩
    | _ => ⟨.owned, none, none⟩

def ownershipLabel (ownership : AbiOwnership) : String :=
  match ownership.mode with
  | .owned => "@owned"
  | .borrowed =>
    match ownership.lifetime with
    | none | some "call" => "@borrowed"
    | some lifetime => "@borrowed<'" ++ lifetime ++ ">"
  | .shared => "@shared"
  | .static => "@static"

end Corvid.TraceDiff
