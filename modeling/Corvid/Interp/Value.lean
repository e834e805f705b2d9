import Corvid.Runtime.Json

/-!
# Values of the interpreter

The values that agents compute with, and the operators on them. A weak reference and a stream are
known by a number; what they refer to is not part of a value.

## Main definitions

* `Ty`, `Value`, `StreamChunk`: types and values
* `Value.eq`: the equality of the language
* `evalLiteral`, `evalBinop`, `evalUnop`: literals and operators
-/

namespace Corvid.Interp

abbrev DefId := ℕ

abbrev LocalId := ℕ

structure Span where
  start : ℕ
  stop : ℕ
deriving DecidableEq, Repr

inductive Ty where
  | int
  | float
  | string
  | bool
  | nothing
  | struct (id : DefId)
  | list (elem : Ty)
  | stream (inner : Ty)
  | result (ok err : Ty)
  | option (inner : Ty)
  | weak (inner : Ty)
  | grounded (inner : Ty)
  | partialOf (inner : Ty)
  | resumeToken (inner : Ty)
  | traceId
  /-- A type that the interpreter does not look into, under its displayed name. -/
  | other (name : String)
  | unknown
deriving DecidableEq, Repr

def Ty.displayName : Ty → String
  | int => "Int"
  | float => "Float"
  | string => "String"
  | bool => "Bool"
  | nothing => "Nothing"
  | struct _ => "struct"
  | list elem => "List<" ++ elem.displayName ++ ">"
  | stream inner => "Stream<" ++ inner.displayName ++ ">"
  | result ok err => "Result<" ++ ok.displayName ++ ", " ++ err.displayName ++ ">"
  | option inner => "Option<" ++ inner.displayName ++ ">"
  | weak inner => "Weak<" ++ inner.displayName ++ ">"
  | grounded inner => "Grounded<" ++ inner.displayName ++ ">"
  | partialOf inner => "Partial<" ++ inner.displayName ++ ">"
  | resumeToken inner => "ResumeToken<" ++ inner.displayName ++ ">"
  | traceId => "TraceId"
  | other name => name
  | unknown => "<unknown>"

inductive BackpressurePolicy where
  | bounded (size : ℕ)
  | pullsFrom (source : String)
  | unbounded
deriving DecidableEq, Repr

def BackpressurePolicy.label : BackpressurePolicy → String
  | bounded size => s!"bounded({size})"
  | pullsFrom source => s!"pulls_from({source})"
  | unbounded => "unbounded"

inductive ProvenanceKind where
  | retrieval
  | promptTransform
  | agentHandoff
  | severed (reason : String)
deriving DecidableEq, Repr

structure ProvenanceEntry where
  kind : ProvenanceKind
  name : String
  timestampMs : ℕ
deriving DecidableEq, Repr

abbrev ProvenanceChain := List ProvenanceEntry

structure StreamRef where
  id : ℕ
  backpressure : BackpressurePolicy
deriving DecidableEq, Repr

mutual

inductive Value where
  | int (n : ℤ)
  | float (x : Float)
  | string (s : String)
  | bool (b : Bool)
  | nothing
  | struct (typeId : DefId) (typeName : String) (fields : List (String × Value))
  | list (items : List Value)
  | weak (target : ℕ)
  | resultOk (inner : Value)
  | resultErr (inner : Value)
  | optionSome (inner : Value)
  | optionNone
  | grounded (inner : Value) (provenance : ProvenanceChain) (confidence : ℚ)
  /-- A struct some of whose fields are still streaming. -/
  | partialOf (typeId : DefId) (typeName : String) (fields : List (String × Option Value))
  | resumeToken (promptName : String) (args : List Value) (delivered : List StreamChunk)
      (providerSession : Option String)
  | stream (stream : StreamRef)

inductive StreamChunk where
  | mk (value : Value) (cost confidence : ℚ) (tokens : ℕ)

end

namespace StreamChunk

def value : StreamChunk → Value
  | mk value _ _ _ => value

def cost : StreamChunk → ℚ
  | mk _ cost _ _ => cost

def confidence : StreamChunk → ℚ
  | mk _ _ confidence _ => confidence

def tokens : StreamChunk → ℕ
  | mk _ _ _ tokens => tokens

/-- The same metrics for another value. -/
def withValue : StreamChunk → Value → StreamChunk
  | mk _ cost confidence tokens, value => mk value cost confidence tokens

end StreamChunk

namespace Value

def typeName : Value → String
  | int _ => "Int"
  | float _ => "Float"
  | string _ => "String"
  | bool _ => "Bool"
  | nothing => "Nothing"
  | struct _ typeName _ => typeName
  | list _ => "List"
  | weak _ => "Weak"
  | resultOk _ | resultErr _ => "Result"
  | optionSome _ | optionNone => "Option"
  | grounded inner _ _ => "Grounded<" ++ inner.typeName ++ ">"
  | partialOf _ typeName _ => "Partial<" ++ typeName ++ ">"
  | resumeToken .. => "ResumeToken"
  | stream ref => "Stream<" ++ ref.backpressure.label ++ ">"

mutual

/-- The equality of the language. Numbers are compared as floats where one of them is a float, and
what is known about the provenance of a value does not count. -/
def eq : Value → Value → Bool
  | int a, int b => a == b
  | float a, float b => a == b
  | int a, float b => Float.ofInt a == b
  | float a, int b => a == Float.ofInt b
  | string a, string b => a == b
  | bool a, bool b => a == b
  | nothing, nothing => true
  | struct id _ fields, struct id' _ fields' =>
    id == id' && fields.length == fields'.length && eqFields fields fields'
  | list items, list items' => eqList items items'
  | weak target, weak target' => target == target'
  | resultOk inner, resultOk inner' => eq inner inner'
  | resultErr inner, resultErr inner' => eq inner inner'
  | optionSome inner, optionSome inner' => eq inner inner'
  | optionNone, optionNone => true
  | grounded inner _ _, grounded inner' _ _ => eq inner inner'
  | partialOf id name fields, partialOf id' name' fields' =>
    id == id' && name == name' && fields.length == fields'.length && eqPartial fields fields'
  | resumeToken name args delivered session, resumeToken name' args' delivered' session' =>
    name == name' && eqList args args' && eqChunks delivered delivered' && session == session'
  | stream ref, stream ref' => ref.id == ref'.id
  | _, _ => false

def eqList : List Value → List Value → Bool
  | [], [] => true
  | v :: vs, v' :: vs' => eq v v' && eqList vs vs'
  | _, _ => false

/-- Every field on the left has an equal one on the right. -/
def eqFields : List (String × Value) → List (String × Value) → Bool
  | [], _ => true
  | (name, v) :: fields, other =>
    (match other.lookup name with
      | some v' => eq v v'
      | none => false) && eqFields fields other

def eqPartial : List (String × Option Value) → List (String × Option Value) → Bool
  | [], _ => true
  | (name, some v) :: fields, other =>
    (match other.lookup name with
      | some (some v') => eq v v'
      | _ => false) && eqPartial fields other
  | (name, none) :: fields, other =>
    (match other.lookup name with
      | some none => true
      | _ => false) && eqPartial fields other

def eqChunks : List StreamChunk → List StreamChunk → Bool
  | [], [] => true
  | .mk v cost confidence tokens :: cs, .mk v' cost' confidence' tokens' :: cs' =>
    eq v v' && cost == cost' && confidence == confidence' && tokens == tokens' && eqChunks cs cs'
  | _, _ => false

end

end Value

def valueConfidence : Value → ℚ
  | .grounded _ _ confidence => confidence
  | _ => 1

def StreamChunk.new (value : Value) : StreamChunk := .mk value 0 (valueConfidence value) 0

/-- A grounded value with a confidence between 0 and 1. -/
def groundedWithConfidence (inner : Value) (provenance : ProvenanceChain) (confidence : ℚ) : Value :=
  .grounded inner provenance (max 0 (min confidence 1))

def composedConfidence (args : List Value) : ℚ :=
  args.foldl (fun least arg => match arg with
    | .grounded _ _ confidence => if confidence < least then confidence else least
    | _ => least) 1

def withValueConfidence (value : Value) (confidence : ℚ) : Value :=
  match value with
  | .grounded inner provenance _ => groundedWithConfidence inner provenance confidence
  | other => if confidence < 1 then groundedWithConfidence other [] confidence else other

def streamStartIsRetryable : Value → Bool
  | .resultErr _ | .optionNone => true
  | _ => false

/-! ### Operators -/

inductive BinaryOp where
  | add
  | sub
  | mul
  | div
  | mod
  | eq
  | notEq
  | lt
  | ltEq
  | gt
  | gtEq
  | and
  | or
deriving DecidableEq, Repr

inductive UnaryOp where
  | neg
  | not
deriving DecidableEq, Repr

inductive Literal where
  | int (n : ℤ)
  | float (x : Float)
  | string (s : String)
  | bool (b : Bool)
  | nothing

/-- What goes wrong in an operator. -/
inductive OpError where
  | typeMismatch (expected got : String)
  | arithmetic (message : String)
deriving DecidableEq, Repr

def evalLiteral : Literal → Value
  | .int n => .int n
  | .float x => .float x
  | .string s => .string s
  | .bool b => .bool b
  | .nothing => .nothing

def overflow : OpError := .arithmetic "integer overflow"

/-- A 64-bit integer, or an overflow. -/
def checkedInt (n : ℤ) : Except OpError ℤ :=
  if -2 ^ 63 ≤ n ∧ n < 2 ^ 63 then .ok n else .error overflow

/-- The 64-bit integer that is left of a number. -/
def wrapInt (n : ℤ) : ℤ := n.bmod (2 ^ 64)

def intArith (op : BinaryOp) (a b : ℤ) (wrapping : Bool) : Except OpError ℤ :=
  match op with
  | .add => if wrapping then .ok (wrapInt (a + b)) else checkedInt (a + b)
  | .sub => if wrapping then .ok (wrapInt (a - b)) else checkedInt (a - b)
  | .mul => if wrapping then .ok (wrapInt (a * b)) else checkedInt (a * b)
  | .div => if b = 0 then .error (.arithmetic "division by zero") else .ok (wrapInt (a.tdiv b))
  | .mod => if b = 0 then .error (.arithmetic "modulo by zero") else .ok (wrapInt (a.tmod b))
  -- other operators are not routed here
  | _ => .ok 0

/-- Arithmetic on floats, with a function for the remainder. -/
def floatArith (fmod : Float → Float → Float) (op : BinaryOp) (a b : Float) : Float :=
  match op with
  | .add => a + b
  | .sub => a - b
  | .mul => a * b
  | .div => a / b
  | .mod => fmod a b
  | _ => 0

def evalArithmetic (fmod : Float → Float → Float) (op : BinaryOp) (l r : Value) (wrapping : Bool) :
    Except OpError Value :=
  match l, r with
  | .int a, .int b => (intArith op a b wrapping).map .int
  | .float a, .float b => .ok (.float (floatArith fmod op a b))
  | .int a, .float b => .ok (.float (floatArith fmod op (.ofInt a) b))
  | .float a, .int b => .ok (.float (floatArith fmod op a (.ofInt b)))
  | .string a, .string b =>
    if op = .add then .ok (.string (a ++ b))
    else .error (.typeMismatch "Int, Float, String, or List" "String and String")
  | .list a, .list b =>
    if op = .add then .ok (.list (a ++ b))
    else .error (.typeMismatch "Int, Float, String, or List" "List and List")
  | a, b => .error (.typeMismatch "Int, Float, String, or List" (a.typeName ++ " and " ++ b.typeName))

def evalOrdering (op : BinaryOp) (l r : Value) : Except OpError Value :=
  let floats (a b : Float) : Bool := match op with
    | .lt => a < b
    | .ltEq => a ≤ b
    | .gt => b < a
    | .gtEq => b ≤ a
    | _ => false
  match l, r with
  | .int a, .int b => .ok (.bool (match op with
    | .lt => a < b
    | .ltEq => a ≤ b
    | .gt => b < a
    | .gtEq => b ≤ a
    | _ => false))
  | .float a, .float b => .ok (.bool (floats a b))
  | .int a, .float b => .ok (.bool (floats (.ofInt a) b))
  | .float a, .int b => .ok (.bool (floats a (.ofInt b)))
  | .string a, .string b => .ok (.bool (match op with
    | .lt => a < b
    | .ltEq => a ≤ b
    | .gt => b < a
    | .gtEq => b ≤ a
    | _ => false))
  | a, b => .error (.typeMismatch "orderable (Int / Float / String)"
      (a.typeName ++ " and " ++ b.typeName))

/-- Operators other than `and` and `or`, which do not always evaluate both operands. -/
def evalBinop (fmod : Float → Float → Float) (op : BinaryOp) (l r : Value) (wrapping : Bool) :
    Except OpError Value :=
  match op with
  | .eq => .ok (.bool (l.eq r))
  | .notEq => .ok (.bool !(l.eq r))
  | .lt | .ltEq | .gt | .gtEq => evalOrdering op l r
  | _ => evalArithmetic fmod op l r wrapping

def requireBool (v : Value) (context : String) : Except OpError Bool :=
  match v with
  | .bool b => .ok b
  | other => .error (.typeMismatch ("Bool for " ++ context) other.typeName)

def evalUnop (op : UnaryOp) (v : Value) (wrapping : Bool) : Except OpError Value :=
  match op with
  | .neg => match v with
    | .int n => if wrapping then .ok (.int (wrapInt (-n))) else (checkedInt (-n)).map .int
    | .float x => .ok (.float (-x))
    | other => .error (.typeMismatch "Int or Float" other.typeName)
  | .not => (requireBool v "operand of `not`").map fun b => .bool !b

end Corvid.Interp
