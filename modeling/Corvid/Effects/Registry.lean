import Corvid.Effects.Compose
import Corvid.Effects.Config

/-!
# The effect registry

A registry holds the declared effects, each with the values it gives to some dimensions, and
the schema of every dimension. It is built from the built-in dimensions and effects, the
custom dimensions of the configuration, and the `effect` declarations of a file, whose unknown
dimensions get an inferred schema. `compose` folds the values that a list of effects declares
through each dimension's rule; `checkConstraints` compares the result with the constraints
written on an agent.

## Main definitions

* `EffectRegistry.fromDeclsWithConfig`
* `EffectRegistry.compose`, `checkConstraints`
* `EffectRegistry.declared`: the values that a list of effects gives to one dimension

## Main results

* `lookup_compose`: each dimension composes on its own, as a fold over its declared values
* `sound_fromDeclsWithConfig`: reserved dimensions keep their schema, defaults are plain
-/

namespace Corvid.Effects

open DimensionValue
open Keyed (Map lookup_insert_ite lookup_foldl_entries)

/-- The dimensional profile of a single declared effect. -/
structure EffectProfile where
  name : String
  dimensions : Map String DimensionValue

/-- Declared effects, and the composition rule and default of every dimension. -/
structure EffectRegistry where
  effects : Map String EffectProfile := ∅
  dimensions : Map String DimensionSchema := ∅
  customDimensions : Map String CustomDimensionMeta := ∅

/-- The result of combining several effects through a call graph. -/
structure ComposedProfile where
  dimensions : Map String DimensionValue
  effectNames : List String

/-- A constraint that the composed profile does not meet. -/
structure ConstraintViolation where
  dimension : String
  constraint : DimensionValue
  actual : DimensionValue
  span : Span
deriving DecidableEq

namespace EffectRegistry

/-! ## Construction -/

def insertDimension (r : EffectRegistry) (schema : DimensionSchema) : EffectRegistry :=
  { r with dimensions := r.dimensions.insert schema.name schema }

def insertEffect (r : EffectRegistry) (profile : EffectProfile) : EffectRegistry :=
  { r with effects := r.effects.insert profile.name profile }

/-- The built-in dimensions with their composition rules and defaults. -/
def builtinDimensions : List DimensionSchema :=
  [⟨"cost", .sum, cost 0⟩,
    ⟨"trust", .max, name "autonomous"⟩,
    ⟨"reversible", .leastReversible, .bool true⟩,
    ⟨"data", .union, name "none"⟩,
    ⟨"latency", .max, name "instant"⟩,
    ⟨"tokens", .sum, number 0⟩,
    ⟨"latency_ms", .max, number 0⟩,
    ⟨"confidence", .min, number 1⟩,
    ⟨"capability", .max, name "basic"⟩,
    ⟨"jurisdiction", .max, name "none"⟩,
    ⟨"compliance", .union, name "none"⟩,
    ⟨"privacy_tier", .max, name "standard"⟩]

def registerBuiltinDimensions (r : EffectRegistry) : EffectRegistry :=
  builtinDimensions.foldl insertDimension r

/-- The profile of a built-in effect. -/
def builtinProfile (effect : String) (dims : List (String × DimensionValue)) : EffectProfile :=
  ⟨effect, dims.foldl (fun m d => m.insert d.1 d.2) ∅⟩

/-- `retrieval` marks grounded sources for provenance tracking. -/
def registerRetrievalEffect (r : EffectRegistry) : EffectRegistry :=
  r.insertEffect (builtinProfile "retrieval" [("data", name "grounded")])

def registerStoreEffects (r : EffectRegistry) : EffectRegistry :=
  [builtinProfile "reads_session" [("data", name "session")],
    builtinProfile "writes_session" [("data", name "session"), ("trust", name "human_required")],
    builtinProfile "reads_memory" [("data", name "memory")],
    builtinProfile "writes_memory" [("data", name "memory"), ("trust", name "human_required")]]
    |>.foldl insertEffect r

/-- The `dangerous` keyword on tools maps to this effect. -/
def registerDangerousEffect (r : EffectRegistry) : EffectRegistry :=
  r.insertEffect
    (builtinProfile "dangerous" [("trust", name "human_required"), ("reversible", .bool false)])

def registerHumanBoundaryEffects (r : EffectRegistry) : EffectRegistry :=
  ["human", "approve"].foldl (fun r effect =>
    r.insertEffect (builtinProfile effect [("trust", name "human_required")])) r

/-- Register one custom dimension with its metadata. -/
def insertCustomDimension (r : EffectRegistry) (e : DimensionSchema × CustomDimensionMeta) :
    EffectRegistry :=
  { r.insertDimension e.1 with customDimensions := r.customDimensions.insert e.1.name e.2 }

/-- Merge the custom dimensions; a malformed configuration declares none. -/
def registerConfig (r : EffectRegistry) (config : Option CorvidConfig) : EffectRegistry :=
  match config with
  | none => r
  | some cfg =>
    match cfg.intoDimensionSchemas with
    | .error _ => r
    | .ok schemas => schemas.foldl insertCustomDimension r

/-- Infer the schema of a dimension that has none yet. -/
def inferDimension (r : EffectRegistry) (dimName : String) : EffectRegistry :=
  if dimName ∈ r.dimensions then r
  else
    let rule := inferCompositionRule dimName
    r.insertDimension ⟨dimName, rule, defaultForDimension dimName rule⟩

/-- Register one `effect` declaration; a later declaration of a name replaces an earlier
one. -/
def registerDecl (r : EffectRegistry) (decl : EffectDecl) : EffectRegistry :=
  let profile : EffectProfile := ⟨decl.name.name, decl.dimensions.foldl (fun m dim =>
    m.insert (canonicalDimensionName dim.name.name) dim.value) ∅⟩
  let r := decl.dimensions.foldl (fun r dim =>
    r.inferDimension (canonicalDimensionName dim.name.name)) r
  r.insertEffect profile

/-- The registry of a file's effect declarations and an optional configuration. -/
def fromDeclsWithConfig (decls : List EffectDecl) (config : Option CorvidConfig) :
    EffectRegistry :=
  let r := registerBuiltinDimensions {}
  let r := r.registerConfig config
  let r := r.registerRetrievalEffect
  let r := r.registerStoreEffects
  let r := r.registerDangerousEffect
  let r := r.registerHumanBoundaryEffects
  decls.foldl registerDecl r

/-! ## Composition and checking -/

/-- Layer one value of an effect over the dimensions composed so far. -/
def composeEntry (r : EffectRegistry) (result : Map String DimensionValue) (dimName : String)
    (value : DimensionValue) : Map String DimensionValue :=
  match r.dimensions.lookup dimName with
  | none => result
  | some schema =>
    let current := (result.lookup dimName).getD schema.default
    result.insert dimName (composeDimension schema.composition current value dimName)

/-- Layer all dimensions of an effect; an unknown effect changes nothing. -/
def composeEffect (r : EffectRegistry) (result : Map String DimensionValue)
    (effectName : String) : Map String DimensionValue :=
  match r.effects.lookup effectName with
  | none => result
  | some profile => profile.dimensions.entries.foldl (fun m e => r.composeEntry m e.1 e.2) result

/-- Compose effect names into one profile by each dimension's rule. -/
def compose (r : EffectRegistry) (effectNames : List String) : ComposedProfile :=
  let defaults := r.dimensions.entries.foldl (fun m e => m.insert e.1 e.2.default) ∅
  ⟨effectNames.foldl r.composeEffect defaults, effectNames⟩

end EffectRegistry

/-- The value a constraint asks for. A bare constraint on a boolean dimension asks that it
stays true. -/
def expectedValue (value : Option DimensionValue) (actual : DimensionValue) :
    Option DimensionValue :=
  match value, actual with
  | some expected, _ => some expected
  | none, .bool _ => some (.bool true)
  | none, _ => none

/-- The violation of one constraint, if there is one. -/
def checkConstraint (profile : ComposedProfile) (constraint : EffectConstraint) :
    Option ConstraintViolation :=
  let canonicalDim := canonicalDimensionName constraint.dimension.name
  match profile.dimensions.lookup canonicalDim with
  | none => none
  | some actual =>
    match expectedValue constraint.value actual with
    | none => none
    | some expected =>
      if dimensionSatisfies actual expected canonicalDim then none
      else some ⟨canonicalDim, expected, actual, constraint.span⟩

/-- Check a composed profile against a set of constraints. -/
def checkConstraints (profile : ComposedProfile) (constraints : List EffectConstraint) :
    List ConstraintViolation :=
  constraints.filterMap (checkConstraint profile)

/-! ## Each dimension composes on its own -/

namespace EffectRegistry

variable (r : EffectRegistry)

/-- One composition step of the dimension `d` under the schema `s`. -/
def step (s : DimensionSchema) (d : String) (current incoming : DimensionValue) :
    DimensionValue :=
  composeDimension s.composition current incoming d

/-- The value that an effect declares for a dimension. -/
def declaredBy (d : String) (effect : String) : Option DimensionValue :=
  (r.effects.lookup effect).bind fun profile => profile.dimensions.lookup d

/-- The values that a list of effects declares for a dimension, in order. -/
def declared (d : String) (effects : List String) : List DimensionValue :=
  effects.filterMap (r.declaredBy d)

/-- The values that some effect of the registry declares for a dimension. -/
def Declares (d : String) (v : DimensionValue) : Prop := ∃ effect, r.declaredBy d effect = some v

variable {r}

/-- What layering a value does to the dimension that it is declared for. -/
def entryStep (r : EffectRegistry) (k : String) (v : DimensionValue)
    (current : Option DimensionValue) : Option DimensionValue :=
  (r.dimensions.lookup k).elim current fun s => some (step s k (current.getD s.default) v)

theorem lookup_composeEntry (result : Map String DimensionValue) (k : String)
    (v : DimensionValue) (k' : String) :
    (r.composeEntry result k v).lookup k' =
      if k' = k then r.entryStep k v (result.lookup k) else result.lookup k' := by
  unfold composeEntry entryStep
  cases r.dimensions.lookup k with
  | none =>
    by_cases hk : k' = k
    · rw [if_pos hk, hk, Option.elim_none]
    · rw [if_neg hk]
  | some s => simp only [lookup_insert_ite, Option.elim_some, step]

theorem lookup_foldl_composeEntry (dims result : Map String DimensionValue) (d : String) :
    (dims.entries.foldl (fun m e => r.composeEntry m e.1 e.2) result).lookup d =
      (dims.lookup d).elim (result.lookup d) fun v => r.entryStep d v (result.lookup d) :=
  lookup_foldl_entries dims r.composeEntry r.entryStep lookup_composeEntry result d

/-- An effect applies one step to each dimension that it declares. -/
theorem lookup_composeEffect {d : String} {s : DimensionSchema}
    (hs : r.dimensions.lookup d = some s) {result : Map String DimensionValue}
    {current : DimensionValue} (hcur : result.lookup d = some current) (effect : String) :
    (r.composeEffect result effect).lookup d =
      some ((r.declaredBy d effect).elim current (step s d current)) := by
  unfold composeEffect declaredBy
  cases r.effects.lookup effect with
  | none => exact hcur
  | some profile =>
    rw [lookup_foldl_composeEntry, hcur, Option.bind_some]
    cases profile.dimensions.lookup d <;> simp [entryStep, hs]

theorem lookup_composeEffect_none {d : String} (hs : r.dimensions.lookup d = none)
    {result : Map String DimensionValue} (effect : String) :
    (r.composeEffect result effect).lookup d = result.lookup d := by
  unfold composeEffect
  cases r.effects.lookup effect with
  | none => rfl
  | some profile =>
    rw [lookup_foldl_composeEntry]
    cases profile.dimensions.lookup d <;> simp [entryStep, hs]

theorem lookup_defaults (d : String) :
    (r.dimensions.entries.foldl (fun (m : Map String DimensionValue) e =>
      m.insert e.1 e.2.default) ∅).lookup d = (r.dimensions.lookup d).map (·.default) := by
  rw [lookup_foldl_entries r.dimensions (fun m k s => m.insert k s.default)
    (fun _ s _ => some s.default) fun acc k s k' => lookup_insert_ite acc k k' s.default]
  cases r.dimensions.lookup d <;> simp

/-- **Composition is per dimension**: it folds the dimension's rule, from its default, over
the values that the effects declare for it. -/
theorem lookup_compose (effects : List String) (d : String) :
    (r.compose effects).dimensions.lookup d =
      (r.dimensions.lookup d).map fun s => (r.declared d effects).foldl (step s d) s.default := by
  have hdefaults := lookup_defaults (r := r) d
  change (effects.foldl r.composeEffect _).lookup d = _
  revert hdefaults
  generalize r.dimensions.entries.foldl _ _ = result
  cases hs : r.dimensions.lookup d with
  | none =>
    intro hres
    induction effects generalizing result with
    | nil => exact hres
    | cons e es ih => exact ih _ ((lookup_composeEffect_none hs e).trans hres)
  | some s =>
    simp only [Option.map_some]
    generalize s.default = current
    intro hres
    induction effects generalizing result current with
    | nil => exact hres
    | cons e es ih =>
      rw [List.foldl_cons, ih _ _ (lookup_composeEffect hs hres e), declared, declared]
      cases he : r.declaredBy d e with
      | none => rw [List.filterMap_cons_none he, Option.elim_none]
      | some v => rw [List.filterMap_cons_some he, Option.elim_some, List.foldl_cons]

theorem declares_of_mem_declared {d : String} {effects : List String} {v : DimensionValue}
    (h : v ∈ r.declared d effects) : r.Declares d v := by
  obtain ⟨e, -, he⟩ := List.mem_filterMap.mp h
  exact ⟨e, he⟩

/-- Every list of declared values is what some list of effects declares. -/
theorem exists_declared_eq {d : String} {l : List DimensionValue} (h : ∀ v ∈ l, r.Declares d v) :
    ∃ f : DimensionValue → String, ∀ l', (∀ v ∈ l', v ∈ l) → r.declared d (l'.map f) = l' := by
  classical
  refine ⟨fun v => if hv : r.Declares d v then hv.choose else "", fun l' hl' => ?_⟩
  induction l' with
  | nil => rfl
  | cons v l' ih =>
    have hv : r.Declares d v := h v (hl' v List.mem_cons_self)
    have hv' : r.declaredBy d (if hv : r.Declares d v then hv.choose else "") = some v := by
      rw [dif_pos hv]
      exact hv.choose_spec
    rw [List.map_cons, declared, List.filterMap_cons_some hv']
    exact congrArg (v :: ·) (ih fun w hw => hl' w (List.mem_cons_of_mem _ hw))

/-! ## What construction guarantees -/

/-- The schema of a built-in dimension. -/
def builtinSchema (d : String) : Option DimensionSchema :=
  builtinDimensions.find? (·.name = d)

/-- The reserved dimensions have their built-in schema and every default is plain. -/
structure Sound (r : EffectRegistry) : Prop where
  reserved : ∀ d ∈ builtinDimensionNames, r.dimensions.lookup d = builtinSchema d
  plain : ∀ d s, r.dimensions.lookup d = some s → Plain s.default

theorem sound_registerBuiltinDimensions : Sound (registerBuiltinDimensions {}) where
  reserved := by decide +kernel
  plain := by
    have hvalues : ∀ s ∈ (registerBuiltinDimensions {}).dimensions.values, Plain s.default := by
      decide +kernel
    exact fun d s hs => hvalues s (Keyed.mem_values_iff.mpr ⟨d, hs⟩)

theorem Sound.insertDimension {schema : DimensionSchema} (h : Sound r)
    (hname : schema.name ∉ builtinDimensionNames) (hplain : Plain schema.default) :
    Sound (r.insertDimension schema) where
  reserved := by
    intro d hd
    have hne : d ≠ schema.name := fun e => hname (e ▸ hd)
    rw [EffectRegistry.insertDimension, AList.lookup_insert_ne hne]
    exact h.reserved d hd
  plain := by
    intro d s hs
    rw [EffectRegistry.insertDimension, lookup_insert_ite] at hs
    split at hs
    · cases hs
      exact hplain
    · exact h.plain d s hs

theorem Sound.registerConfig (h : Sound r) (config : Option CorvidConfig) :
    Sound (r.registerConfig config) := by
  unfold EffectRegistry.registerConfig
  split
  · exact h
  split
  · exact h
  rename_i schemas hcfg
  have hentry := Result.mapM_eq_ok hcfg
  clear hcfg
  induction schemas generalizing r with
  | nil => exact h
  | cons e es ih =>
    obtain ⟨⟨name, dim⟩, -, he⟩ := hentry e List.mem_cons_self
    obtain ⟨rfl, hname, hplain⟩ := intoSchema_eq_ok he
    have h' := h.insertDimension hname hplain
    have h'' : Sound (r.insertCustomDimension e) := ⟨h'.reserved, h'.plain⟩
    exact ih h'' fun e' he' => hentry e' (List.mem_cons_of_mem _ he')

theorem plain_defaultForDimension (d : String) (rule : CompositionRule) :
    Plain (defaultForDimension d rule) := by
  unfold defaultForDimension
  split <;> (try cases rule) <;> simp [Plain, kind, defaultForRule]

theorem Sound.inferDimension (h : Sound r) (d : String) : Sound (r.inferDimension d) := by
  unfold EffectRegistry.inferDimension
  split
  · exact h
  rename_i hd
  refine h.insertDimension (fun hmem => hd ?_) (plain_defaultForDimension d _)
  -- A reserved dimension is never inferred: it has a schema from the start.
  have hsome : ∀ d ∈ builtinDimensionNames, (builtinSchema d).isSome := by decide +kernel
  exact AList.lookup_isSome.mp (h.reserved d hmem ▸ hsome d hmem)

theorem Sound.registerDecl (h : Sound r) (decl : EffectDecl) : Sound (r.registerDecl decl) := by
  suffices h' : Sound (decl.dimensions.foldl (fun r dim =>
      r.inferDimension (canonicalDimensionName dim.name.name)) r) from ⟨h'.reserved, h'.plain⟩
  generalize decl.dimensions = dims
  induction dims generalizing r with
  | nil => exact h
  | cons dim dims ih => exact ih (h.inferDimension _)

/-- **Construction is sound**, whatever the declarations and the configuration are. -/
theorem sound_fromDeclsWithConfig (decls : List EffectDecl) (config : Option CorvidConfig) :
    Sound (fromDeclsWithConfig decls config) := by
  have h₀ := sound_registerBuiltinDimensions.registerConfig config
  have h : Sound ((((registerBuiltinDimensions {}).registerConfig config).registerRetrievalEffect
      |>.registerStoreEffects |>.registerDangerousEffect).registerHumanBoundaryEffects) :=
    ⟨h₀.reserved, h₀.plain⟩
  change Sound (decls.foldl EffectRegistry.registerDecl _)
  revert h
  generalize EffectRegistry.registerHumanBoundaryEffects _ = r
  intro h
  induction decls generalizing r with
  | nil => exact h
  | cons decl decls ih => exact ih _ (h.registerDecl decl)

end EffectRegistry

end Corvid.Effects
