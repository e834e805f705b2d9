import Corvid.Ast.Effect
import Corvid.Lib.Keyed
import Corvid.Lib.Result

/-!
# Custom dimensions of `corvid.toml`

A project may declare dimensions of its own. An entry gives a composition rule, a value type
and a default, all as text; `intoDimensionSchemas` validates the entries and stops at the first
one that is malformed or takes a reserved name.

## Main definitions

* `CorvidConfig`: the section of the file that the effect system reads
* `CorvidConfig.intoDimensionSchemas`: the schemas it declares

## Main results

* `intoSchema_eq_ok`: a custom dimension has no reserved name and a plain default
-/

namespace Corvid.Effects

open Keyed (Map)

structure CustomDimensionConfig where
  composition : String
  ty : String := "number"
  default : Option String := none
  semantics : Option String := none
  proof : Option String := none
deriving DecidableEq, Repr

/-- The parsed shape of the `[effect-system]` section. -/
structure CorvidConfig where
  dimensions : Map String CustomDimensionConfig

/-- The value kinds a custom dimension can have. A timestamp is a number. -/
inductive DimensionValueType where
  | bool
  | name
  | cost
  | number
  | timestamp
deriving DecidableEq, Repr

def DimensionValueType.asStr : DimensionValueType → String
  | bool => "bool"
  | name => "name"
  | cost => "cost"
  | number => "number"
  | timestamp => "timestamp"

/-- Metadata about a custom dimension that does not fit in its schema. -/
structure CustomDimensionMeta where
  name : String
  ty : DimensionValueType
  semantics : Option String
  proofPath : Option String
deriving DecidableEq, Repr

inductive DimensionConfigError where
  | unknownComposition (dimension got : String)
  | unknownType (dimension got : String)
  | badDefault (dimension ty got : String)
  | collidesWithBuiltin (dimension : String)
deriving DecidableEq, Repr

/-- The names a custom dimension may not take. -/
def builtinDimensionNames : List String :=
  ["cost", "trust", "reversible", "data", "latency", "latency_ms", "confidence", "tokens"]

def parseCompositionRule (dimension : String) :
    String → Except DimensionConfigError CompositionRule
  | "Sum" => .ok .sum
  | "sum" => .ok .sum
  | "Max" => .ok .max
  | "max" => .ok .max
  | "Min" => .ok .min
  | "min" => .ok .min
  | "Union" => .ok .union
  | "union" => .ok .union
  | "LeastReversible" => .ok .leastReversible
  | "least-reversible" => .ok .leastReversible
  | "least_reversible" => .ok .leastReversible
  | other => .error (.unknownComposition dimension other)

def parseDimensionType (dimension : String) :
    String → Except DimensionConfigError DimensionValueType
  | "bool" => .ok .bool
  | "name" => .ok .name
  | "cost" => .ok .cost
  | "money" => .ok .cost
  | "number" => .ok .number
  | "float" => .ok .number
  | "f64" => .ok .number
  | "timestamp" => .ok .timestamp
  | other => .error (.unknownType dimension other)

/-! ## Number literals -/

/-- The value of a string of decimal digits. -/
def digitsToNat (digits : List Char) : ℕ :=
  digits.foldl (fun n c => 10 * n + (c.toNat - '0'.toNat)) 0

/-- The exponent at the end of a number literal; no text is the exponent zero. -/
def parseExponent : List Char → Option ℤ
  | [] => some 0
  | e :: rest =>
    if e = 'e' ∨ e = 'E' then
      let (negative, digits) := match rest with
        | '-' :: ds => (true, ds)
        | '+' :: ds => (false, ds)
        | ds => (false, ds)
      if digits ≠ [] ∧ digits.all Char.isDigit then
        some (if negative then -digitsToNat digits else digitsToNat digits)
      else none
    else none

/-- An unsigned decimal literal: digits with at most one point among or around them, then an
optional exponent. -/
def parseDecimal (cs : List Char) : Option ℚ :=
  let whole := cs.takeWhile Char.isDigit
  let rest := cs.dropWhile Char.isDigit
  let (frac, rest) := match rest with
    | '.' :: ds => (ds.takeWhile Char.isDigit, ds.dropWhile Char.isDigit)
    | ds => ([], ds)
  if whole = [] ∧ frac = [] then none
  else (parseExponent rest).map fun e =>
    digitsToNat (whole ++ frac) * (10 : ℚ) ^ (e - (frac.length : ℤ))

/-- `str::parse::<f64>`, without rounding. The texts of `NaN` and of negative infinity denote
no exact number. -/
def parseF64 (s : String) : Option Num :=
  let (negative, cs) := match s.toList with
    | '-' :: cs => (true, cs)
    | '+' :: cs => (false, cs)
    | cs => (false, cs)
  let word := cs.map Char.toLower
  if word = "inf".toList ∨ word = "infinity".toList then
    if negative then none else some ⊤
  else (parseDecimal cs).map fun q => ((if negative then -q else q : ℚ) : Num)

/-- The default of a custom dimension; without one, the identity of its rule. -/
def parseDefault (dimension : String) (ty : DimensionValueType) (raw : Option String)
    (rule : CompositionRule) : Except DimensionConfigError DimensionValue :=
  match ty, raw with
  | .bool, some "true" => .ok (.bool true)
  | .bool, some "false" => .ok (.bool false)
  | .bool, some got => .error (.badDefault dimension "bool" got)
  | .bool, none => .ok (.bool true)
  | .name, some v => .ok (.name v)
  | .name, none => .ok (.name "none")
  | .cost, some v =>
    match parseF64 (String.ofList (v.toList.dropWhile (· = '$'))) with
    | some c => .ok (.cost c)
    | none => .error (.badDefault dimension "cost" v)
  | .cost, none => .ok (.cost 0)
  | ty, some v =>
    match parseF64 v with
    | some n => .ok (.number n)
    | none => .error (.badDefault dimension ty.asStr v)
  | _, none =>
    match rule with
    | .min => .ok (.number ⊤)
    | _ => .ok (.number 0)

/-! ## Schemas -/

/-- The schema and the metadata of one entry. -/
def CustomDimensionConfig.intoSchema (name : String) (cfg : CustomDimensionConfig) :
    Except DimensionConfigError (DimensionSchema × CustomDimensionMeta) :=
  if name ∈ builtinDimensionNames then
    throw (.collidesWithBuiltin name)
  else do
    let rule ← parseCompositionRule name cfg.composition
    let ty ← parseDimensionType name cfg.ty
    let default ← parseDefault name ty cfg.default rule
    return (⟨name, rule, default⟩, ⟨name, ty, cfg.semantics, cfg.proof⟩)

/-- Translate the declared dimensions into schemas ready to merge into a registry. -/
def CorvidConfig.intoDimensionSchemas (config : CorvidConfig) :
    Except DimensionConfigError (List (DimensionSchema × CustomDimensionMeta)) :=
  config.dimensions.entries.mapM fun e => e.2.intoSchema e.1

/-- The values a configuration file can name: everything but streams and confidence gates. -/
def Plain (v : DimensionValue) : Prop := v.kind ≠ .streaming ∧ v.kind ≠ .confidenceGated

instance (v : DimensionValue) : Decidable (Plain v) := inferInstanceAs (Decidable (_ ∧ _))

theorem plain_of_parseDefault {dimension : String} {ty : DimensionValueType}
    {raw : Option String} {rule : CompositionRule} {v : DimensionValue}
    (h : parseDefault dimension ty raw rule = .ok v) : Plain v := by
  unfold parseDefault at h
  split at h <;> (try split at h) <;> cases h <;> simp [Plain, DimensionValue.kind]

/-- What the entry of a custom dimension can become. -/
theorem intoSchema_eq_ok {name : String} {cfg : CustomDimensionConfig}
    {schema : DimensionSchema} {info : CustomDimensionMeta}
    (h : cfg.intoSchema name = .ok (schema, info)) :
    schema.name = name ∧ name ∉ builtinDimensionNames ∧ Plain schema.default := by
  unfold CustomDimensionConfig.intoSchema at h
  split at h
  · cases h
  rename_i hname
  obtain ⟨rule, -, h⟩ := Result.bind_eq_ok.mp h
  obtain ⟨ty, -, h⟩ := Result.bind_eq_ok.mp h
  obtain ⟨default, hdefault, h⟩ := Result.bind_eq_ok.mp h
  cases h
  exact ⟨rfl, hname, plain_of_parseDefault hdefault⟩

end Corvid.Effects
