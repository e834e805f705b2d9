import Mathlib.Algebra.Order.Field.Rat
import Mathlib.Algebra.Order.Monoid.WithTop

/-!
# Effect syntax

The part of the syntax tree that the dimensional effect system reads: dimension values,
`effect` declarations, the constraints written on agents, and the schema of a dimension.

Numbers are exact. The source stores them as `f64`; here a number is a rational or `⊤`, which
stands for `f64::INFINITY`, the default of a `Min` dimension that declares none.
-/

namespace Corvid

/-- A byte range of the source text. -/
structure Span where
  start : ℕ
  stop : ℕ
deriving DecidableEq, Repr

/-- A name together with the place it was written at. -/
structure Ident where
  name : String
  span : Span
deriving DecidableEq, Repr

/-- An `f64` in exact arithmetic. -/
abbrev Num := WithTop ℚ

/-- Buffering policy for streaming prompts and latency dimensions. -/
inductive BackpressurePolicy where
  | bounded (size : ℕ)
  | pullsFrom (source : String)
  | unbounded
deriving DecidableEq

/-- A dimension value in an effect declaration. -/
inductive DimensionValue where
  | bool (b : Bool)
  | name (n : String)
  | cost (c : Num)
  | number (n : Num)
  | streaming (backpressure : BackpressurePolicy)
  | confidenceGated (threshold : Num) (above below : String)
deriving DecidableEq

namespace DimensionValue

/-- The constructors of a dimension value, without their payload. -/
inductive Kind where
  | bool
  | name
  | cost
  | number
  | streaming
  | confidenceGated
deriving DecidableEq

/-- The kind of a dimension value. -/
def kind : DimensionValue → Kind
  | bool _ => .bool
  | name _ => .name
  | cost _ => .cost
  | number _ => .number
  | streaming _ => .streaming
  | confidenceGated .. => .confidenceGated

end DimensionValue

/-- A single dimension declaration inside an `effect` block. -/
structure DimensionDecl where
  name : Ident
  value : DimensionValue
  span : Span
deriving DecidableEq

/-- A top-level `effect` declaration with dimensions. -/
structure EffectDecl where
  name : Ident
  dimensions : List DimensionDecl
  span : Span
deriving DecidableEq

/-- A constraint annotation on an agent, such as `@budget($1.00)` or `@reversible`. -/
structure EffectConstraint where
  dimension : Ident
  value : Option DimensionValue
  span : Span
deriving DecidableEq

/-- How a dimension composes when effects combine through a call chain. -/
inductive CompositionRule where
  | sum
  | max
  | min
  | union
  | leastReversible
deriving DecidableEq, Repr

/-- A named dimension with its composition rule and default value. -/
structure DimensionSchema where
  name : String
  composition : CompositionRule
  default : DimensionValue
deriving DecidableEq

end Corvid
