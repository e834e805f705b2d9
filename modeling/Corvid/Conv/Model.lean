import Mathlib.Data.String.Basic
import Corvid.Interp.Ir
import Corvid.Lib.SortedMap

/-!
# Values and their wire form

What crosses the boundary to tools and models: the values of the interpreter and the JSON documents
they are sent as. A map of either is the list of its entries in key order, so that two maps with the
same entries are equal. Floating-point numbers are a parameter.

## Main definitions

* `Number`, `Json`: documents
* `Value`, `StreamChunk`: values
* `ConvError`: what is answered when a document does not fit
-/

namespace Corvid.Conv

open Interp (DefId Ty ProvenanceChain ProvenanceKind StreamRef)

/-- The floating-point numbers of a document. -/
class JsonFloat (F : Type) where
  isFinite : F → Bool
  ofInt : ℤ → F
  zero : F
  one : F

variable {F : Type}

/-! ### Documents -/

inductive Number (F : Type) where
  | int (n : ℤ)
  | float (x : F)

namespace Number

def asI64 : Number F → Option Int64
  | int n => if -2 ^ 63 ≤ n ∧ n < 2 ^ 63 then some (Int64.ofInt n) else none
  | float _ => none

def asU64 : Number F → Option UInt64
  | int n => if 0 ≤ n ∧ n < 2 ^ 64 then some (UInt64.ofNat n.toNat) else none
  | float _ => none

def asF64 [JsonFloat F] : Number F → Option F
  | int n => some (JsonFloat.ofInt n)
  | float x => some x

@[simp] theorem asI64_toInt (n : Int64) : (int n.toInt : Number F).asI64 = some n := by
  have hlow := n.le_toInt
  have hhigh := n.toInt_lt
  rw [asI64, if_pos ⟨by simpa using hlow, by simpa using hhigh⟩, Int64.ofInt_toInt]

@[simp] theorem asU64_toNat (n : UInt64) : (int n.toNat : Number F).asU64 = some n := by
  have hlt := n.toNat_lt
  rw [asU64, if_pos ⟨by simp, by exact_mod_cast hlt⟩, Int.toNat_natCast, UInt64.ofNat_toNat]

end Number

inductive Json (F : Type) where
  | null
  | bool (b : Bool)
  | number (n : Number F)
  | string (s : String)
  | array (items : List (Json F))
  | object (map : List (String × Json F))

namespace Json

/-- An object with the entries, inserted one by one. -/
def ofEntries (entries : List (String × Json F)) : Json F :=
  object (SortedMap.ofEntries entries)

/-- What is not finite has no number. -/
def ofFloat [JsonFloat F] (x : F) : Json F :=
  if JsonFloat.isFinite x then number (.float x) else null

def asStr : Json F → Option String
  | string s => some s
  | _ => none

def asF64 [JsonFloat F] : Json F → Option F
  | number n => n.asF64
  | _ => none

def asU64 : Json F → Option UInt64
  | number n => n.asU64
  | _ => none

/-- `json_kind` of the source. -/
def kind : Json F → String
  | null => "null"
  | bool _ => "bool"
  | number _ => "number"
  | string _ => "string"
  | array _ => "array"
  | object _ => "object"

/-- The tag of an object, where it has one that is a string. -/
def tag (map : List (String × Json F)) : Option String :=
  (map.lookup "tag").bind asStr

theorem ofFloat_of_finite [JsonFloat F] {x : F} (h : JsonFloat.isFinite x = true) :
    ofFloat x = number (.float x) :=
  if_pos h

theorem sizeOf_lookup {map : List (String × Json F)} {key : String} {json : Json F}
    (h : map.lookup key = some json) : sizeOf json < sizeOf map := by
  have := List.sizeOf_lt_of_mem (SortedMap.mem_of_lookup h)
  simp only [Prod.mk.sizeOf_spec] at this
  omega

end Json

/-! ### Values -/

mutual

inductive Value (F : Type) where
  | int (n : Int64)
  | float (x : F)
  | string (s : String)
  | bool (b : Bool)
  | nothing
  | struct (typeId : DefId) (typeName : String) (fields : List (String × Value F))
  | list (items : List (Value F))
  /-- With the value that the reference upgrades to, if it still does. -/
  | weak (referent : Option (Value F))
  | resultOk (inner : Value F)
  | resultErr (inner : Value F)
  | optionSome (inner : Value F)
  | optionNone
  | grounded (inner : Value F) (provenance : ProvenanceChain) (confidence : F)
  /-- A field without a value is still streaming. -/
  | partialOf (typeId : DefId) (typeName : String) (fields : List (String × Option (Value F)))
  | resumeToken (promptName : String) (args : List (Value F)) (delivered : List (StreamChunk F))
      (providerSession : Option String)
  | stream (stream : StreamRef)

inductive StreamChunk (F : Type) where
  | mk (value : Value F) (cost confidence : F) (tokens : UInt64)

end

namespace StreamChunk

def value : StreamChunk F → Value F
  | mk value _ _ _ => value

def cost : StreamChunk F → F
  | mk _ cost _ _ => cost

def confidence : StreamChunk F → F
  | mk _ _ confidence _ => confidence

def tokens : StreamChunk F → UInt64
  | mk _ _ _ tokens => tokens

end StreamChunk

/-! ### Errors -/

inductive ConvError where
  | typeMismatch (expected got : String)
  | missingField (structName field : String)
  | unknownStructType (id : DefId)
deriving DecidableEq, Repr

end Corvid.Conv
