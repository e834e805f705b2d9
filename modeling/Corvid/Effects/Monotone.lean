import Corvid.Effects.Permutation
import Corvid.Lib.Persist
import Mathlib.Algebra.Order.Archimedean.Basic
import Mathlib.Tactic.Linarith

/-!
# When a violation survives composition

A constraint on an ordered dimension bounds the composed value, and composing further effects
is meant to move the value further from the bound only. The composers and `dimensionSatisfies`
are two separate tables over the kinds of values, however: a value of another kind replaces the
composed one, and a pair of kinds without an entry satisfies every constraint.

`Carries` says of one declared value that composing it keeps every violation of a constraint,
`Reaches` that the declared values can violate it at all. Violations survive further effects,
before or after the others, exactly when every declared value carries them or none is reached.

## Main definitions

* `OrderedDimension`: the dimensions whose constraints are bounds
* `ViolationsPersist`: adding an effect never removes a violation
* `Carries`, `Reaches`: the condition on the declared values

## Main results

* `persists_iff_carries`: the characterization for the values of one dimension
* `violationsPersist_iff`: the characterization for a registry
-/

namespace Corvid.Effects

open DimensionValue EffectRegistry Fold

/-- The dimensions whose constraints bound the composed value. -/
inductive OrderedDimension where
  | cost
  | tokens
  | latencyMs
  | trust
  | reversible
  | latency
  | confidence
deriving DecidableEq

namespace OrderedDimension

def name : OrderedDimension → String
  | cost => "cost"
  | tokens => "tokens"
  | latencyMs => "latency_ms"
  | trust => "trust"
  | reversible => "reversible"
  | latency => "latency"
  | confidence => "confidence"

/-- The built-in schema, which no configuration can change. -/
def schema : OrderedDimension → DimensionSchema
  | cost => ⟨"cost", .sum, .cost 0⟩
  | tokens => ⟨"tokens", .sum, .number 0⟩
  | latencyMs => ⟨"latency_ms", .max, .number 0⟩
  | trust => ⟨"trust", .max, .name "autonomous"⟩
  | reversible => ⟨"reversible", .leastReversible, .bool true⟩
  | latency => ⟨"latency", .max, .name "instant"⟩
  | confidence => ⟨"confidence", .min, .number 1⟩

theorem lookup_schema {r : EffectRegistry} (h : r.Sound) (o : OrderedDimension) :
    r.dimensions.lookup o.name = some o.schema := by
  cases o <;> exact h.reserved _ (by decide)

end OrderedDimension

/-! ## Violating values -/

/-- Whether a composed value violates a constraint with the value `k`. -/
def violates (d : String) (k : Option DimensionValue) (v : DimensionValue) : Bool :=
  match expectedValue k v with
  | none => false
  | some expected => !dimensionSatisfies v expected d

section Violates

attribute [local simp] violates expectedValue dimensionSatisfies

variable {d : String} {v : DimensionValue}

theorem violates_none : violates d none v = true ↔ v = .bool false := by
  cases v <;> simp

theorem violates_bool {b : Bool} :
    violates d (some (.bool b)) v = true ↔ b = true ∧ v = .bool false := by
  cases v <;> simp

theorem violates_cost {limit : Num} :
    violates d (some (cost limit)) v = true ↔ ∃ c, v = cost c ∧ limit < c := by
  cases v <;> simp

theorem violates_number {limit : Num} (hd : d ≠ "confidence") :
    violates d (some (number limit)) v = true ↔ ∃ n, v = number n ∧ limit < n := by
  cases v <;> simp [hd]

theorem violates_confidence {limit : Num} :
    violates "confidence" (some (number limit)) v = true ↔ ∃ n, v = number n ∧ n < limit := by
  cases v <;> simp

/-- Away from trust and latency a name must be matched exactly. -/
theorem violates_name {r : String} (ht : d ≠ "trust") (hl : d ≠ "latency") :
    violates d (some (name r)) v = true ↔ ∃ a, v = name a ∧ a ≠ r := by
  cases v <;> simp [ht, hl]

/-- The trust level that a value stands for. -/
def level : DimensionValue → Option String
  | name n => some n
  | confidenceGated _ above _ => some above
  | _ => none

theorem violates_trust {r : String} : violates "trust" (some (name r)) v = true ↔
    ∃ a, level v = some a ∧ trustRank r < trustRank a := by
  cases v <;> simp [level]

theorem violates_gate {t : Num} {above below : String} :
    violates "trust" (some (confidenceGated t above below)) v = true ↔
      ∃ a, v = name a ∧ trustRank above < trustRank a := by
  cases v <;> simp

theorem violates_gate_of_ne {t : Num} {above below : String} (hd : d ≠ "trust") :
    violates d (some (confidenceGated t above below)) v = false := by
  cases v <;> simp [hd]

theorem violates_latency {r : String} : violates "latency" (some (name r)) v = true ↔
    (∃ a, v = name a ∧ latencyRank r < latencyRank a) ∨
      v.kind = .streaming ∧ latencyRank r < latencyStreamingRank := by
  cases v <;> simp [kind]

theorem violates_streaming {q : BackpressurePolicy} :
    violates "latency" (some (streaming q)) v = true ↔
      ∃ p, v = streaming p ∧ backpressureSatisfies p q = false := by
  cases v <;> simp

theorem violates_streaming_of_ne {q : BackpressurePolicy} (hd : d ≠ "latency") :
    violates d (some (streaming q)) v = false := by
  cases v <;> simp [hd]

end Violates

/-! ## The condition -/

/-- Composing `v` keeps every violation of a constraint `k` that values of `S` can reach. -/
def Carries (o : OrderedDimension) (k : Option DimensionValue) (S : DimensionValue → Prop)
    (v : DimensionValue) : Prop :=
  match o, k with
  -- A numeric bound survives values of its own kind.
  | .cost, some (cost _) | .tokens, some (cost _) | .latencyMs, some (cost _)
  | .trust, some (cost _) => v.kind = .cost
  | .cost, some (number _) | .tokens, some (number _) | .latencyMs, some (number _)
  | .trust, some (number _) | .confidence, some (number _) => v.kind = .number
  | .reversible, some (.bool _) | .reversible, none => v.kind = .bool
  | .trust, some (name _) | .trust, some (confidenceGated ..) => (level v).isSome
  -- An exact name is violated by every other one: `v` must not lift or lower them to it.
  | .latencyMs, some (name r) =>
    ∃ b, level v = some b ∧ (b = r → ∀ a, S (name a) → a = r ∨ trustMax a r ≠ r)
  | .confidence, some (name r) =>
    ∃ b, v = name b ∧ (b = r → ∀ a, S (name a) → a = r ∨ trustMin a r ≠ r)
  -- A stream hides a slow name, and any other value replaces it.
  | .latency, some (name r) =>
    v.kind = .name ∨ v.kind = .streaming ∧ latencyRank r < latencyStreamingRank ∨
      v.kind ≠ .streaming ∧ ∀ a, S (name a) → latencyRank a ≤ latencyRank r
  -- Two pull sources compose to a buffer of one, unless an empty buffer comes first.
  | .latency, some (streaming q) => q = .bounded 0 → v = streaming (.bounded 0) →
    ∀ m n, S (streaming (.pullsFrom m)) → S (streaming (.pullsFrom n)) → m = n
  | _, _ => violates o.name k v

/-- The values of `S` can violate the constraint `k`. -/
def Reaches (o : OrderedDimension) (k : Option DimensionValue) (S : DimensionValue → Prop) :
    Prop :=
  match o, k with
  -- Repeating a positive summand passes every finite limit.
  | .cost, some (cost limit) | .tokens, some (cost limit) =>
    violates o.name k o.schema.default ∨ (∃ v, S v ∧ violates o.name k v) ∨
      limit ≠ ⊤ ∧ ∃ c, S (cost c) ∧ 0 < c
  | .cost, some (number limit) | .tokens, some (number limit) =>
    violates o.name k o.schema.default ∨ (∃ v, S v ∧ violates o.name k v) ∨
      limit ≠ ⊤ ∧ ∃ c, S (number c) ∧ 0 < c
  | .latencyMs, some (name r) =>
    ∃ a, S (name a) ∧ (a ≠ r ∨ ∃ t b c, S (confidenceGated t b c) ∧ trustMax a b ≠ r)
  | .trust, some (confidenceGated _ above _) => (∃ v, S v ∧ violates o.name k v) ∨
    ∃ t b c, S (confidenceGated t b c) ∧ trustRank above < trustRank (trustMax "autonomous" b)
  | .latency, some (streaming _) => True
  | _, _ => violates o.name k o.schema.default ∨ ∃ v, S v ∧ violates o.name k v

/-! ## Bounds within one class -/

section Bounds

variable {s : DimensionSchema} {d : String} {S V : DimensionValue → Prop}

/-- A payload meets another payload or replaces a value of another class. -/
theorem step_payload (hd : s.composition = .max → d ≠ "latency") {α : Type}
    {φ : α → DimensionValue} {k : Kind}
    (hclass : ∀ v, classOf s.composition d v = some k ↔ ∃ c, v = φ c) (x : DimensionValue)
    (c' : α) : (∃ c, x = φ c) ∨ step s d x (φ c') = φ c' := by
  by_cases hx : classOf s.composition d x = some k
  · exact Or.inl ((hclass x).mp hx)
  · exact Or.inr ((fallback_step hd).incoming x _ fun heq =>
      absurd (heq.trans ((hclass _).mpr ⟨c', rfl⟩)) hx)

/-- A bound that a join of two payloads passes when one of them does. -/
theorem persists_iff_of_join (hd : s.composition = .max → d ≠ "latency") {α : Type}
    {φ : α → DimensionValue} {g : α → α → α} {k : Kind} {P : α → Prop}
    (hV : ∀ v, V v ↔ ∃ c, v = φ c ∧ P c) (hφ : Function.Injective φ)
    (hg : AbsorbsOn g (fun _ => True) fun c => S (φ c))
    (hstep : ∀ c c', step s d (φ c) (φ c') = φ (g c c'))
    (hclass : ∀ v, classOf s.composition d v = some k ↔ ∃ c, v = φ c)
    (hcomm : ∀ c c', g c c' = g c' c) (hidem : ∀ c, S (φ c) → g c c = c)
    (hP : ∀ c c', P (g c c') ↔ P c ∨ P c') :
    Persists (step s d) s.default S V ↔
      (∀ v, S v → classOf s.composition d v = some k) ∨ ¬ (V s.default ∨ ∃ v, S v ∧ V v) := by
  have hVclass : ∀ v, V v → classOf s.composition d v = some k := by
    intro v hv
    obtain ⟨c, hc, -⟩ := (hV v).mp hv
    exact (hclass v).mpr ⟨c, hc⟩
  have hVφ : ∀ c, V (φ c) ↔ P c := by
    intro c
    rw [hV]
    exact ⟨fun ⟨c', hc, h⟩ => hφ hc ▸ h, fun h => ⟨c, rfl, h⟩⟩
  have hprime : ∀ x a, S a → V (step s d x a) → V x ∨ V a := by
    intro x a _ h
    obtain ⟨c', rfl⟩ := (hclass a).mp ((fallback_step hd).class_eq x a ▸ hVclass _ h)
    rcases step_payload hd hclass x c' with ⟨c, rfl⟩ | hin
    · rw [hstep, hVφ, hP] at h
      rwa [hVφ, hVφ]
    · exact Or.inr (hin ▸ h)
  refine persists_iff_of_fallback (R := fun _ => True) (fallback_step hd) hVclass
    (fun hall => (composes_of_map hd hg hstep hclass hall hcomm hidem).1) trivial
    (fun _ _ _ _ _ => trivial) (fun x a _ _ ha hx => ?_)
    fun _ => ⟨?_, Reachable.of_prime hprime⟩
  · obtain ⟨c', rfl⟩ := (hclass a).mp ha
    obtain ⟨c, rfl, hc⟩ := (hV x).mp hx
    rw [hstep, hVφ, hP]
    exact Or.inl hc
  · rintro (hb | ⟨v, hv, hVv⟩)
    · exact ⟨[], by simp, hb⟩
    · refine ⟨[v], by simp [hv], ?_⟩
      obtain ⟨c', rfl⟩ := (hclass v).mp (hVclass v hVv)
      rw [List.foldl_cons, List.foldl_nil]
      rcases step_payload hd hclass s.default c' with ⟨c, hc⟩ | hin
      · rw [hc, hstep, hVφ, hP]
        exact Or.inr ((hVφ c').mp hVv)
      · rwa [hin]

/-- Repeating a positive summand passes every finite limit. -/
theorem exists_lt_add_nsmul {limit c : Num} (hlimit : limit ≠ ⊤) (hc : 0 < c) :
    ∃ n : ℕ, limit < c + n • c := by
  lift limit to ℚ using hlimit
  induction c using WithTop.recTopCoe with
  | top => exact ⟨0, by simp⟩
  | coe p =>
    have hp : 0 < p := by exact_mod_cast hc
    obtain ⟨n, hn⟩ := Archimedean.arch limit hp
    refine ⟨n, ?_⟩
    have hlt : limit < p + n • p := by linarith
    exact_mod_cast hlt

/-- A limit on a sum of nonnegative summands. -/
theorem persists_iff_of_sum (hd : s.composition = .max → d ≠ "latency")
    {φ : Num → DimensionValue} {k : Kind} {limit : Num}
    (hV : ∀ v, V v ↔ ∃ c, v = φ c ∧ limit < c) (hφ : Function.Injective φ)
    (hstep : ∀ c c', step s d (φ c) (φ c') = φ (c + c'))
    (hclass : ∀ v, classOf s.composition d v = some k ↔ ∃ c, v = φ c)
    (hnonneg : ∀ c, S (φ c) → 0 ≤ c) (hdefault : ∀ c, s.default = φ c → c = 0) :
    Persists (step s d) s.default S V ↔
      (∀ v, S v → classOf s.composition d v = some k) ∨
        ¬ (V s.default ∨ (∃ v, S v ∧ V v) ∨ limit ≠ ⊤ ∧ ∃ c, S (φ c) ∧ 0 < c) := by
  have hVclass : ∀ v, V v → classOf s.composition d v = some k := by
    intro v hv
    obtain ⟨c, hc, -⟩ := (hV v).mp hv
    exact (hclass v).mpr ⟨c, hc⟩
  have hVφ : ∀ c, V (φ c) ↔ limit < c := by
    intro c
    rw [hV]
    exact ⟨fun ⟨c', hc, h⟩ => hφ hc ▸ h, fun h => ⟨c, rfl, h⟩⟩
  have hfirst : ∀ c, step s d s.default (φ c) = φ c := by
    intro c
    rcases step_payload hd hclass s.default c with ⟨c₀, hc₀⟩ | hin
    · rw [hc₀, hstep, hdefault c₀ hc₀, zero_add]
    · exact hin
  have hrepeat : ∀ (n : ℕ) (x c : Num),
      (List.replicate n (φ c)).foldl (step s d) (φ x) = φ (x + n • c) := by
    intro n
    induction n with
    | zero => intro x c; simp
    | succ n ih =>
      intro x c
      rw [List.replicate_succ, List.foldl_cons, hstep, ih, succ_nsmul', add_assoc]
  refine persists_iff_of_fallback (R := fun _ => True) (fallback_step hd) hVclass
    (orderFree_of_add hd hstep hclass) trivial (fun _ _ _ _ _ => trivial)
    (fun x a _ hSa ha hx => ?_) fun _ => ⟨?_, fun hreach => ?_⟩
  · obtain ⟨c', rfl⟩ := (hclass a).mp ha
    obtain ⟨c, rfl, hc⟩ := (hV x).mp hx
    rw [hstep, hVφ]
    exact lt_of_lt_of_le hc (le_add_of_nonneg_right (hnonneg c' hSa))
  · rintro (hb | ⟨v, hv, hVv⟩ | ⟨hlimit, c, hc, hpos⟩)
    · exact ⟨[], by simp, hb⟩
    · obtain ⟨c, rfl⟩ := (hclass v).mp (hVclass v hVv)
      exact ⟨[φ c], by simp [hv], by rwa [List.foldl_cons, List.foldl_nil, hfirst]⟩
    · obtain ⟨n, hn⟩ := exists_lt_add_nsmul hlimit hpos
      refine ⟨List.replicate (n + 1) (φ c), fun a ha => ?_, ?_⟩
      · rw [List.eq_of_mem_replicate ha]
        exact hc
      · rwa [List.replicate_succ, List.foldl_cons, hfirst, hrepeat, hVφ]
  · by_cases hpos : limit ≠ ⊤ ∧ ∃ c, S (φ c) ∧ 0 < c
    · exact Or.inr (Or.inr hpos)
    -- Otherwise all summands are zero, or nothing passes the limit.
    refine (hreach.of_prime fun x a hSa h => ?_).imp id Or.inl
    obtain ⟨c', rfl⟩ := (hclass a).mp ((fallback_step hd).class_eq x a ▸ hVclass _ h)
    rcases step_payload hd hclass x c' with ⟨c, rfl⟩ | hin
    · rw [hstep, hVφ] at h
      have hlimit : limit ≠ ⊤ := fun e => not_top_lt (e ▸ h)
      have hzero : c' = 0 := le_antisymm
        (not_lt.mp fun hlt => hpos ⟨hlimit, c', hSa, hlt⟩) (hnonneg c' hSa)
      rw [hzero, add_zero] at h
      exact Or.inl ((hVφ c).mpr h)
    · exact Or.inr (hin ▸ h)

end Bounds

/-! ## The ordered dimensions -/

/-- Violations of a constraint `k` survive values of `S` on the dimension `o`. -/
def PersistsAt (o : OrderedDimension) (k : Option DimensionValue) (S : DimensionValue → Prop) :
    Prop :=
  Persists (step o.schema o.name) o.schema.default S fun v => violates o.name k v = true

/-- Every declared amount is nonnegative. -/
def NonNegative : DimensionValue → Prop
  | cost c => 0 ≤ c
  | number n => 0 ≤ n
  | _ => True

variable {k : Option DimensionValue} {S : DimensionValue → Prop}

theorem not_latency {o : OrderedDimension} (h : o ≠ .latency) :
    o.schema.composition = .max → o.name ≠ "latency" := by
  cases o <;> first | exact absurd rfl h | simp [OrderedDimension.name]

/-- The condition for constraints that the last value decides. -/
def LastDecides (o : OrderedDimension) (k : Option DimensionValue) (S : DimensionValue → Prop) :
    Prop :=
  (∀ v, S v → violates o.name k v = true) ∨
    ¬ (violates o.name k o.schema.default = true ∨ ∃ v, S v ∧ violates o.name k v = true)

/-- A constraint whose kind the dimension does not compose: the last value decides. -/
theorem persistsAt_of_unclassed {o : OrderedDimension} (ho : o ≠ .latency)
    (hV : ∀ v, violates o.name k v = true →
      v ≠ o.schema.default ∧ classOf o.schema.composition o.name v = none) :
    PersistsAt o k S ↔ LastDecides o k S :=
  persists_iff_of_noClass (fallback_step (not_latency ho)) (fun v hv => (hV v hv).2)
    fun hb => (hV _ hb).1 rfl

theorem persistsAt_of_never {o : OrderedDimension} (hV : ∀ v, violates o.name k v = false) :
    PersistsAt o k S ↔ LastDecides o k S := by
  simp [PersistsAt, Persists, LastDecides, hV]

theorem persistsAt_bare {o : OrderedDimension} (ho : o ≠ .latency) (hr : o ≠ .reversible) :
    PersistsAt o none S ↔ LastDecides o none S := by
  refine persistsAt_of_unclassed ho fun v hv => ?_
  obtain rfl := violates_none.mp hv
  cases o <;> simp_all [OrderedDimension.schema, classOf, kind]

theorem persistsAt_flag {o : OrderedDimension} (ho : o ≠ .latency) (hr : o ≠ .reversible)
    (b : Bool) : PersistsAt o (some (.bool b)) S ↔ LastDecides o (some (.bool b)) S := by
  refine persistsAt_of_unclassed ho fun v hv => ?_
  obtain ⟨-, rfl⟩ := violates_bool.mp hv
  cases o <;> simp_all [OrderedDimension.schema, classOf, kind]

theorem persistsAt_streaming {o : OrderedDimension} (ho : o ≠ .latency) (p : BackpressurePolicy) :
    PersistsAt o (some (streaming p)) S ↔ LastDecides o (some (streaming p)) S :=
  persistsAt_of_never fun _ => violates_streaming_of_ne (by cases o <;> simp_all [OrderedDimension.name])

theorem persistsAt_gate {o : OrderedDimension} (ho : o ≠ .trust) (t : Num) (a b : String) :
    PersistsAt o (some (confidenceGated t a b)) S ↔ LastDecides o (some (confidenceGated t a b)) S :=
  persistsAt_of_never fun _ => violates_gate_of_ne (by cases o <;> simp_all [OrderedDimension.name])

theorem kind_eq_cost {v : DimensionValue} : v.kind = .cost ↔ ∃ c, v = cost c := by
  cases v <;> simp [kind]

theorem kind_eq_number {v : DimensionValue} : v.kind = .number ↔ ∃ n, v = number n := by
  cases v <;> simp [kind]

theorem kind_eq_bool {v : DimensionValue} : v.kind = .bool ↔ ∃ b, v = .bool b := by
  cases v <;> simp [kind]

/-- A limit on an added amount: amounts of its kind carry the violation. -/
theorem persistsAt_amount {o : OrderedDimension} (ho : o = .cost ∨ o = .tokens)
    {φ : Num → DimensionValue} {K : Kind} {limit : Num} (hK : K = .cost ∨ K = .number)
    (hφ : ∀ v, v.kind = K ↔ ∃ c, v = φ c) (hinj : Function.Injective φ)
    (hstep : ∀ c c', composeSum (φ c) (φ c') = φ (c + c'))
    (hV : ∀ v, violates o.name k v = true ↔ ∃ c, v = φ c ∧ limit < c)
    (hnonneg : ∀ c, S (φ c) → 0 ≤ c) (hzero : ∀ c, cost 0 = φ c ∨ number 0 = φ c → c = 0) :
    PersistsAt o k S ↔ (∀ v, S v → v.kind = K) ∨
      ¬ (violates o.name k o.schema.default ∨ (∃ v, S v ∧ violates o.name k v) ∨
        limit ≠ ⊤ ∧ ∃ c, S (φ c) ∧ 0 < c) := by
  have hclass : ∀ v, classOf o.schema.composition o.name v = some K ↔ v.kind = K := by
    intro v
    rcases ho with rfl | rfl <;> rcases hK with rfl | rfl <;> cases v <;>
      simp [classOf, kind, OrderedDimension.schema]
  have h := persists_iff_of_sum (s := o.schema) (d := o.name) (S := S)
    (not_latency (by rcases ho with rfl | rfl <;> decide)) hV hinj
    (fun c c' => by rcases ho with rfl | rfl <;> exact hstep c c')
    (fun v => (hclass v).trans (hφ v)) hnonneg fun c hc => hzero c ?_
  · simp only [hclass] at h
    exact h
  · rcases ho with rfl | rfl
    · exact Or.inl hc
    · exact Or.inr hc

theorem persists_amount_iff {o : OrderedDimension} (ho : o = .cost ∨ o = .tokens)
    (hS : ∀ v, S v → NonNegative v) :
    PersistsAt o k S ↔ (∀ v, S v → Carries o k S v) ∨ ¬ Reaches o k S := by
  have hl : o ≠ .latency := by rcases ho with rfl | rfl <;> decide
  have hr : o ≠ .reversible := by rcases ho with rfl | rfl <;> decide
  have ht : o ≠ .trust := by rcases ho with rfl | rfl <;> decide
  match k with
  | some (cost limit) =>
    have h := persistsAt_amount (k := some (cost limit)) (S := S) ho (Or.inl rfl)
      (fun v => kind_eq_cost) (fun _ _ h => by simpa using h) (fun _ _ => rfl)
      (fun v => violates_cost) (fun c hc => hS _ hc) (by simp)
    rcases ho with rfl | rfl <;> exact h
  | some (number limit) =>
    have h := persistsAt_amount (k := some (number limit)) (S := S) ho (Or.inr rfl)
      (fun v => kind_eq_number) (fun _ _ h => by simpa using h) (fun _ _ => rfl)
      (fun v => violates_number (by rcases ho with rfl | rfl <;> decide)) (fun c hc => hS _ hc)
      (by simp)
    rcases ho with rfl | rfl <;> exact h
  | some (name r) =>
    have h : PersistsAt o (some (name r)) S ↔ LastDecides o (some (name r)) S := by
      refine persistsAt_of_unclassed hl fun v hv => ?_
      rcases ho with rfl | rfl <;>
        obtain ⟨a, rfl, -⟩ := (violates_name (by decide) (by decide)).mp hv <;>
        simp [OrderedDimension.schema, classOf, kind]
    rcases ho with rfl | rfl <;> exact h
  | none => rcases ho with rfl | rfl <;> exact persistsAt_bare hl hr
  | some (.bool b) => rcases ho with rfl | rfl <;> exact persistsAt_flag hl hr b
  | some (streaming p) => rcases ho with rfl | rfl <;> exact persistsAt_streaming hl p
  | some (confidenceGated t a b) => rcases ho with rfl | rfl <;> exact persistsAt_gate ht t a b

/-- A limit on a maximum: amounts of its kind carry the violation. -/
theorem persistsAt_maximum {o : OrderedDimension} (ho : o = .latencyMs ∨ o = .trust)
    {φ : Num → DimensionValue} {K : Kind} {limit : Num} (hK : K = .cost ∨ K = .number)
    (hφ : ∀ v, v.kind = K ↔ ∃ c, v = φ c) (hinj : Function.Injective φ)
    (hstep : ∀ c c', composeGenericMax (φ c) (φ c') = φ (max c c'))
    (hV : ∀ v, violates o.name k v = true ↔ ∃ c, v = φ c ∧ limit < c) :
    PersistsAt o k S ↔ (∀ v, S v → v.kind = K) ∨
      ¬ (violates o.name k o.schema.default ∨ ∃ v, S v ∧ violates o.name k v) := by
  have hclass : ∀ v, classOf o.schema.composition o.name v = some K ↔ v.kind = K := by
    intro v
    rcases ho with rfl | rfl <;> rcases hK with rfl | rfl <;> cases v <;>
      simp [classOf, kind, OrderedDimension.schema, OrderedDimension.name, OwnComposer]
  have h := persists_iff_of_join (s := o.schema) (d := o.name) (S := S)
    (not_latency (by rcases ho with rfl | rfl <;> decide)) hV hinj (absorbsOn_max _)
    (fun c c' => by rcases ho with rfl | rfl <;> exact hstep c c')
    (fun v => (hclass v).trans (hφ v)) max_comm (fun c _ => max_self c) fun c c' => lt_max_iff
  simp only [hclass] at h
  exact h

theorem persists_reversible_iff :
    PersistsAt .reversible k S ↔
      (∀ v, S v → Carries .reversible k S v) ∨ ¬ Reaches .reversible k S := by
  have hclass : ∀ v, classOf .leastReversible "reversible" v = some .bool ↔ v.kind = .bool := by
    intro v
    cases v <;> simp [classOf, kind]
  have hflag : ∀ {P : Bool → Prop}, (∀ v, violates "reversible" k v = true ↔ ∃ c, v = .bool c ∧ P c) →
      (∀ c c', P (min c c') ↔ P c ∨ P c') → (PersistsAt .reversible k S ↔
        (∀ v, S v → v.kind = .bool) ∨ ¬ (violates "reversible" k (.bool true) ∨
          ∃ v, S v ∧ violates "reversible" k v)) := by
    intro P hV hP
    have h := persists_iff_of_join (s := OrderedDimension.reversible.schema) (d := "reversible")
      (S := S) (by decide) hV (fun _ _ h => by simpa using h) (absorbsOn_min _)
      (fun a b => by cases a <;> cases b <;> rfl) (fun v => (hclass v).trans kind_eq_bool)
      min_comm (fun c _ => min_self c) hP
    simp only [OrderedDimension.schema, hclass] at h
    exact h
  rcases k with _ | (b | r | limit | limit | p | ⟨t, a, b⟩)
  · -- no constraint
    exact hflag (P := fun c => c = false) (fun v => by rw [violates_none]; simp) (by decide)
  · -- a flag
    refine hflag (P := fun c => b = true ∧ c = false) (fun v => ?_) (by cases b <;> decide)
    rw [violates_bool]
    constructor
    · rintro ⟨h, h'⟩
      exact ⟨false, h', h, rfl⟩
    · rintro ⟨c, h, h', h''⟩
      exact ⟨h', by rw [h, h'']⟩
  · -- a name
    refine persistsAt_of_unclassed (by decide) fun v hv => ?_
    obtain ⟨a, rfl, -⟩ := (violates_name (by decide) (by decide)).mp hv
    simp [OrderedDimension.schema, classOf, kind]
  · -- a cost
    refine persistsAt_of_unclassed (by decide) fun v hv => ?_
    obtain ⟨a, rfl, -⟩ := violates_cost.mp hv
    simp [OrderedDimension.schema, classOf, kind]
  · -- a number
    refine persistsAt_of_unclassed (by decide) fun v hv => ?_
    obtain ⟨a, rfl, -⟩ := (violates_number (by decide)).mp hv
    simp [OrderedDimension.schema, classOf, kind]
  · exact persistsAt_streaming (by decide) p
  · exact persistsAt_gate (by decide) t a b

/-! ### Confidence -/

/-- A name on the confidence dimension is violated by every other name. -/
theorem persists_confidence_name {r : String} :
    PersistsAt .confidence (some (name r)) S ↔
      (∀ v, S v → Carries .confidence (some (name r)) S v) ∨
        ¬ Reaches .confidence (some (name r)) S := by
  have hV : ∀ v, violates "confidence" (some (name r)) v = true ↔ ∃ a, v = name a ∧ a ≠ r :=
    fun v => violates_name (by decide) (by decide)
  have hb : ¬ violates "confidence" (some (name r)) (number 1) = true := by simp [hV]
  refine persists_iff (fun hall => ?_) (fun v hv hbad hreach => ?_) fun _ h => h.of_prime ?_
  · -- Among names that all beat `r`, a composition is `r` only if every part is.
    have hbeat : ∀ a, S (name a) → S (name r) → a = r ∨ trustMin a r = a := by
      intro a ha hr
      obtain ⟨b, hb, hcarry⟩ := hall _ hr
      obtain rfl : r = b := by simpa using hb
      refine (hcarry rfl a ha).imp id fun hne => ?_
      exact (trustMin_selective a r).resolve_right hne
    refine persists_of_join (R := fun x => x = number 1 ∨ ∃ n, x = name n ∧ S (name n))
      (Or.inl rfl) (fun x v hx hv => ?_) fun x v hx hv => ?_
    · obtain ⟨n, rfl, -⟩ := hall v hv
      rcases hx with rfl | ⟨m, rfl, hm⟩
      · exact Or.inr ⟨n, rfl, hv⟩
      · refine Or.inr ⟨trustMin m n, rfl, ?_⟩
        rcases trustMin_selective m n with h | h <;> rw [h]
        · exact hm
        · exact hv
    · obtain ⟨n, rfl, -⟩ := hall v hv
      rcases hx with rfl | ⟨m, rfl, hm⟩
      · exact ⟨Or.inr, fun h => h.resolve_left hb⟩
      · change violates "confidence" _ (name (trustMin m n)) = true ↔ _
        simp only [OrderedDimension.name, hV, name.injEq, exists_eq_left']
        have hsel := trustMin_selective m n
        have hcomm := trustMin_comm m n
        have hmr := hbeat m hm
        have hnr := hbeat n hv
        grind
  · obtain ⟨a, ha, hne⟩ : ∃ a, S (name a) ∧ a ≠ r := by
      obtain ⟨u, hu, hVu⟩ := Or.resolve_left hreach hb
      obtain ⟨a, rfl, hne⟩ := (hV u).mp hVu
      exact ⟨a, hu, hne⟩
    by_cases hvr : v = name r
    · -- The name `r` itself replaces a name that it beats.
      obtain ⟨a', ha', hne', hlose⟩ : ∃ a', S (name a') ∧ a' ≠ r ∧ trustMin a' r = r := by
        by_contra hnone
        push Not at hnone
        refine hbad ⟨r, hvr, fun _ a' ha' => ?_⟩
        by_cases h : a' = r
        · exact Or.inl h
        · exact Or.inr (hnone a' ha' h)
      refine ⟨[name a'], by simp [ha'], (hV _).mpr ⟨a', rfl, hne'⟩, fun hboth => ?_⟩
      obtain ⟨b, hb, hbr⟩ := (hV _).mp hboth.1
      rw [hvr] at hb
      change name (trustMin a' r) = name b at hb
      rw [hlose] at hb
      exact hbr (by simpa using hb.symm)
    · have hreachable : Reachable (step OrderedDimension.confidence.schema "confidence")
          (number 1) S fun v => violates "confidence" (some (name r)) v = true :=
        ⟨[name a], by simp [ha], (hV _).mpr ⟨a, rfl, hne⟩⟩
      refine Breaks.of_last hreachable fun x hx hxv => hbad ?_
      obtain ⟨b, hb, -⟩ := (hV _).mp hxv
      obtain ⟨m, rfl, -⟩ := (hV x).mp hx
      -- Only a name composes with a name to a name.
      cases v with
      | name n => exact ⟨n, rfl, fun h => absurd (by rw [h]) hvr⟩
      | _ => cases hb
  · intro x v hv h
    obtain ⟨b, hb, hbr⟩ := (hV _).mp h
    cases v with
    | name n =>
      cases x with
      | name m =>
        change name (trustMin m n) = name b at hb
        rcases trustMin_selective m n with h | h <;> rw [h] at hb
        · exact Or.inl ((hV _).mpr ⟨b, hb, hbr⟩)
        · exact Or.inr ((hV _).mpr ⟨b, hb, hbr⟩)
      | _ => exact Or.inr ((hV _).mpr ⟨b, hb, hbr⟩)
    | _ => cases x <;> cases hb

theorem persists_confidence_iff :
    PersistsAt .confidence k S ↔
      (∀ v, S v → Carries .confidence k S v) ∨ ¬ Reaches .confidence k S := by
  match k with
  | none => exact persistsAt_bare (by decide) (by decide)
  | some (.bool b) => exact persistsAt_flag (by decide) (by decide) b
  | some (name r) => exact persists_confidence_name
  | some (cost limit) =>
    -- The smallest cost decides, so all have to violate the limit.
    have hV : ∀ v, violates "confidence" (some (cost limit)) v = true ↔ ∃ c, v = cost c ∧ limit < c :=
      fun v => violates_cost
    refine persists_iff_of_last (fun x v _ h => ?_) (fun x v _ hx hv => ?_) fun hb => ?_
    · obtain ⟨c, hc, hlt⟩ := (hV _).mp h
      refine (hV v).mpr ?_
      cases v with
      | cost b =>
        cases x with
        | cost a =>
          obtain rfl : min a b = c := cost.inj hc
          exact ⟨b, rfl, hlt.trans_le (min_le_right a b)⟩
        | _ => exact ⟨c, hc, hlt⟩
      | _ => cases x <;> cases hc
    · obtain ⟨b, rfl, hlt⟩ := (hV v).mp hv
      refine (hV _).mpr ?_
      rcases hx with hx | rfl
      · obtain ⟨a, rfl, hlt'⟩ := (hV x).mp hx
        exact ⟨min a b, rfl, lt_min hlt' hlt⟩
      · exact ⟨b, rfl, hlt⟩
    · obtain ⟨c, hc, -⟩ := (hV _).mp hb
      cases hc
  | some (number limit) =>
    have hclass : ∀ v, classOf .min "confidence" v = some .number ↔ v.kind = .number := by
      intro v
      cases v <;> simp [classOf, kind]
    have h := persists_iff_of_join (s := OrderedDimension.confidence.schema) (d := "confidence")
      (S := S) (by decide) (fun v => @violates_confidence v limit)
      (fun _ _ h => by simpa using h) (absorbsOn_min _) (fun _ _ => rfl)
      (fun v => (hclass v).trans kind_eq_number) min_comm (fun c _ => min_self c)
      fun c c' => min_lt_iff
    simp only [OrderedDimension.schema, hclass] at h
    exact h
  | some (streaming p) => exact persistsAt_streaming (by decide) p
  | some (confidenceGated t a b) => exact persistsAt_gate (by decide) t a b

/-! ### Trust -/

theorem trustMax_selective : Selective trustMax := by
  intro a b
  rw [trustMax_eq]
  split
  · exact Or.inl rfl
  · exact Or.inr rfl

theorem trustMax_ne_none {n m : String} (hn : n ≠ "none") : trustMax n m ≠ "none" := by
  unfold trustMax
  grind

theorem trustRank_le_trustMax {n m : String} (hn : n ≠ "none") :
    trustRank n ≤ trustRank (trustMax n m) := by
  unfold trustMax
  grind

theorem classOf_eq_level {d : String} (hd : ¬ OwnComposer d) {v : DimensionValue} :
    classOf .max d v = some .name ↔ (level v).isSome := by
  cases v <;> simp [classOf, kind, level, hd]

theorem level_eq_some {v : DimensionValue} {a : String} (h : level v = some a) :
    v = name a ∨ ∃ t b, v = confidenceGated t a b := by
  cases v <;> simp_all [level]

/-- Two levels compose to the stricter one; the result is a gate only if both are. -/
theorem level_composeGenericMax {x v : DimensionValue} {a b : String} (hx : level x = some a)
    (hv : level v = some b) : level (composeGenericMax x v) = some (trustMax a b) := by
  rcases level_eq_some hx with rfl | ⟨t, c, rfl⟩ <;>
    rcases level_eq_some hv with rfl | ⟨t', c', rfl⟩ <;> rfl

/-- A bound on trust persists over levels: from a name that is not `none` the rank only
grows. -/
theorem persists_trust_of_rank (rank : ℕ) {Reach : Prop}
    (hV : ∀ v, violates "trust" k v = true → (level v).isSome)
    (hname : ∀ a, violates "trust" k (name a) = true ↔ rank < trustRank a)
    (hreach : (¬ ∀ v, S v → (level v).isSome) → (Reach ↔
      Reachable (step OrderedDimension.trust.schema "trust") (name "autonomous") S
        fun v => violates "trust" k v = true)) :
    PersistsAt .trust k S ↔ (∀ v, S v → (level v).isSome) ∨ ¬ Reach := by
  have hown : ¬ OwnComposer "trust" := by decide
  have hstep : step OrderedDimension.trust.schema "trust" = composeGenericMax :=
    step_generic rfl hown
  have hfall := fallback_step (s := OrderedDimension.trust.schema) (d := "trust") (by decide)
  have h := persists_iff_of_fallback (b := name "autonomous") (i := Kind.name) (Q := Reach)
    (R := fun x => ∃ n, x = name n ∧ n ≠ "none")
    (S := S) (V := fun v => violates "trust" k v = true) hfall
    (fun v hv => (classOf_eq_level hown).mpr (hV v hv)) (fun hall => ?_)
    ⟨_, rfl, by decide⟩ ?_ ?_ ?_
  · simp only [OrderedDimension.schema, classOf_eq_level hown] at h
    exact h
  · rw [hstep]
    refine (absorbsOn_genericMax_name fun v hv => ?_).toCommutesOn.orderFree ⟨_, rfl⟩
    exact (level_cases rfl hown).mp (hall v hv)
  · rintro _ v ⟨n, rfl, hn⟩ hv hclass
    obtain ⟨m, hm⟩ := Option.isSome_iff_exists.mp ((classOf_eq_level hown).mp hclass)
    refine ⟨trustMax n m, ?_, trustMax_ne_none hn⟩
    rcases level_eq_some hm with rfl | ⟨t, c, rfl⟩ <;> rfl
  · rintro _ v ⟨n, rfl, hn⟩ hv hclass hVn
    obtain ⟨m, hm⟩ := Option.isSome_iff_exists.mp ((classOf_eq_level hown).mp hclass)
    have hres : step OrderedDimension.trust.schema "trust" (name n) v = name (trustMax n m) := by
      rcases level_eq_some hm with rfl | ⟨t, c, rfl⟩ <;> rfl
    change violates "trust" k (step _ _ _ _) = true
    rw [hres, hname]
    exact ((hname n).mp hVn).trans_le (trustRank_le_trustMax hn)
  · simp only [OrderedDimension.schema, classOf_eq_level hown] at hreach ⊢
    exact hreach

/-- A value that is no level makes the composition start again. -/
theorem composeGenericMax_restart {x w v : DimensionValue} {a b : String}
    (hx : level x = some a) (hw : level w = none) (hv : level v = some b) :
    composeGenericMax (composeGenericMax x w) v = v := by
  have hin : composeGenericMax x w = w := by
    rcases level_eq_some hx with rfl | ⟨t, c, rfl⟩ <;> cases w <;>
      simp_all [composeGenericMax, level]
  rw [hin]
  rcases level_eq_some hv with rfl | ⟨t, c, rfl⟩ <;> cases w <;>
    simp_all [composeGenericMax, level]

/-- A level comes from two levels, or from the incoming value alone. -/
theorem composeGenericMax_incoming {x v : DimensionValue} (h : level x = none ∨ level v = none)
    (hres : (level (composeGenericMax x v)).isSome) : composeGenericMax x v = v := by
  cases x <;> cases v <;> simp_all [composeGenericMax, level]

theorem reachable_trust (hV : ∀ v, violates "trust" k v = true → (level v).isSome)
    (hall : ¬ ∀ v, S v → (level v).isSome) {v : DimensionValue} (hv : S v)
    (hVv : violates "trust" k v = true) :
    Reachable (step OrderedDimension.trust.schema "trust") (name "autonomous") S
      fun v => violates "trust" k v = true := by
  push Not at hall
  obtain ⟨w, hw, hnone⟩ := hall
  rw [ne_eq, Option.not_isSome_iff_eq_none] at hnone
  obtain ⟨b, hb⟩ := Option.isSome_iff_exists.mp (hV v hVv)
  have hrestart : composeGenericMax (composeGenericMax (name "autonomous") w) v = v :=
    composeGenericMax_restart rfl hnone hb
  refine ⟨[w, v], by simp [hw, hv], ?_⟩
  change violates "trust" k (composeGenericMax (composeGenericMax (name "autonomous") w) v) = true
  rwa [hrestart]

theorem persists_trust_name {r : String} : PersistsAt .trust (some (name r)) S ↔
    (∀ v, S v → Carries .trust (some (name r)) S v) ∨ ¬ Reaches .trust (some (name r)) S := by
  have hV : ∀ v, violates "trust" (some (name r)) v = true → (level v).isSome := by
    intro v hv
    obtain ⟨a, ha, -⟩ := violates_trust.mp hv
    simp [ha]
  refine persists_trust_of_rank (trustRank r) hV
    (fun a => by simp [violates_trust, level]) fun hall => ⟨?_, fun h => h.of_prime fun x v _ hxv => ?_⟩
  · rintro (hb | ⟨v, hv, hVv⟩)
    · exact ⟨[], by simp, hb⟩
    · exact reachable_trust hV hall hv hVv
  · have hxv' : level x = none ∨ level v = none → violates "trust" (some (name r)) v = true := by
      intro h
      have hin := composeGenericMax_incoming h (hV _ hxv)
      rw [← hin]
      exact hxv
    obtain ⟨a, ha, hlt⟩ := violates_trust.mp hxv
    change level (composeGenericMax x v) = some a at ha
    cases hx : level x with
    | none => exact Or.inr (hxv' (Or.inl hx))
    | some n =>
      cases hv : level v with
      | none => exact Or.inr (hxv' (Or.inr hv))
      | some m =>
        rw [level_composeGenericMax hx hv] at ha
        rcases trustMax_selective n m with h | h <;> rw [h] at ha <;> cases ha
        · exact Or.inl (violates_trust.mpr ⟨a, hx, hlt⟩)
        · exact Or.inr (violates_trust.mpr ⟨a, hv, hlt⟩)

/-- The values that exceed a gated constraint, or do once they meet the default level. -/
def GateRisk (above : String) (v : DimensionValue) : Prop :=
  (∃ a, v = name a ∧ trustRank above < trustRank a) ∨
    ∃ t b c, v = confidenceGated t b c ∧ trustRank above < trustRank (trustMax "autonomous" b)

/-- A level that exceeds the bound next to another one does so next to the default level. -/
theorem gateRisk_of_trustMax {above n m : String} (h : trustMax n m = n)
    (hlt : trustRank above < trustRank n) :
    trustRank above < trustRank (trustMax "autonomous" n) ∨ n = "none" ∧ m = "none" := by
  by_cases hn : n = "none"
  · subst hn
    refine Or.inr ⟨rfl, ?_⟩
    by_contra hm
    exact trustMax_ne_none (m := "none") hm (trustMax_comm m "none" ▸ h)
  · left
    rw [trustMax_comm]
    exact hlt.trans_le (trustRank_le_trustMax hn)

theorem gateRisk_prime {above : String} {x v : DimensionValue}
    (h : GateRisk above (composeGenericMax x v)) : GateRisk above x ∨ GateRisk above v := by
  have hsome : (level (composeGenericMax x v)).isSome := by
    rcases h with ⟨a, ha, -⟩ | ⟨t, b, c, hg, -⟩
    · rw [ha]; rfl
    · rw [hg]; rfl
  cases hx : level x with
  | none => exact Or.inr (composeGenericMax_incoming (Or.inl hx) hsome ▸ h)
  | some n =>
    cases hv : level v with
    | none => exact Or.inr (composeGenericMax_incoming (Or.inr hv) hsome ▸ h)
    | some m =>
      have hsel := trustMax_selective n m
      have hn := @gateRisk_of_trustMax above n m
      have hm := @gateRisk_of_trustMax above m n
      rw [trustMax_comm m n] at hm
      rcases level_eq_some hx with rfl | ⟨t, c, rfl⟩ <;>
        rcases level_eq_some hv with rfl | ⟨t', c', rfl⟩ <;>
        simp only [GateRisk, composeGenericMax] at h ⊢ <;> grind

/-- A gated constraint bounds the names only, and a gate becomes a name when it meets one. -/
theorem persists_trust_gate {t : Num} {above below : String} :
    PersistsAt .trust (some (confidenceGated t above below)) S ↔
      (∀ v, S v → Carries .trust (some (confidenceGated t above below)) S v) ∨
        ¬ Reaches .trust (some (confidenceGated t above below)) S := by
  have hV : ∀ v, violates "trust" (some (confidenceGated t above below)) v = true →
      (level v).isSome := by
    intro v hv
    obtain ⟨a, rfl, -⟩ := violates_gate.mp hv
    rfl
  refine persists_trust_of_rank (trustRank above) hV
    (fun a => by simp [violates_gate]) fun hall => ⟨?_, fun h => ?_⟩
  · rintro (⟨v, hv, hVv⟩ | ⟨t', b, c, hg, hlt⟩)
    · exact reachable_trust hV hall hv hVv
    · exact ⟨[confidenceGated t' b c], by simp [hg], violates_gate.mpr ⟨_, rfl, hlt⟩⟩
  · have hW : Reachable composeGenericMax (name "autonomous") S (GateRisk above) := by
      obtain ⟨l, hl, hVl⟩ := h
      obtain ⟨a, ha, hlt⟩ := violates_gate.mp hVl
      exact ⟨l, hl, Or.inl ⟨a, ha, hlt⟩⟩
    rcases hW.of_prime fun x v _ => gateRisk_prime with hb | ⟨v, hv, ⟨a, rfl, hlt⟩ | hg⟩
    · rcases hb with ⟨a, ha, hlt⟩ | ⟨t, b, c, hg, -⟩
      · cases ha
        exact absurd hlt (Nat.not_lt_zero _)
      · cases hg
    · exact Or.inl ⟨name a, hv, violates_gate.mpr ⟨a, rfl, hlt⟩⟩
    · obtain ⟨t', b, c, rfl, hlt⟩ := hg
      exact Or.inr ⟨t', b, c, hv, hlt⟩

theorem persists_trust_iff :
    PersistsAt .trust k S ↔ (∀ v, S v → Carries .trust k S v) ∨ ¬ Reaches .trust k S := by
  match k with
  | none => exact persistsAt_bare (by decide) (by decide)
  | some (.bool b) => exact persistsAt_flag (by decide) (by decide) b
  | some (name r) => exact persists_trust_name
  | some (cost limit) =>
    exact persistsAt_maximum (Or.inr rfl) (Or.inl rfl) (fun v => kind_eq_cost)
      (fun _ _ h => by simpa using h) (fun _ _ => rfl) fun v => violates_cost
  | some (number limit) =>
    exact persistsAt_maximum (Or.inr rfl) (Or.inr rfl) (fun v => kind_eq_number)
      (fun _ _ h => by simpa using h) (fun _ _ => rfl) fun v => violates_number (by decide)
  | some (streaming p) => exact persistsAt_streaming (by decide) p
  | some (confidenceGated t a b) => exact persists_trust_gate

/-! ### Milliseconds -/

theorem trustMax_eq_right {a r : String} : trustMax a r = r ↔ trustKey a ≤ trustKey r := by
  rw [trustMax_comm, trustMax_eq]
  split
  · simpa
  · rename_i h
    exact ⟨fun e => absurd (e ▸ le_rfl) h, fun e => absurd e h⟩

theorem trustKey_trustMax (a b : String) :
    trustKey (trustMax a b) = max (trustKey a) (trustKey b) := key_maxBy trustMax_eq a b

/-- A composition of two levels is a name if one of them is. -/
theorem composeGenericMax_eq_name {x v : DimensionValue} {a b c : String}
    (hx : level x = some a) (hv : level v = some b) :
    composeGenericMax x v = name c ↔ (x = name a ∨ v = name b) ∧ c = trustMax a b := by
  rcases level_eq_some hx with rfl | ⟨t, d, rfl⟩ <;>
    rcases level_eq_some hv with rfl | ⟨t', d', rfl⟩ <;> simp [composeGenericMax, eq_comm]

theorem composeGenericMax_of_none {x v : DimensionValue} {b : String} (hx : level x = none)
    (hv : level v = some b) : composeGenericMax x v = v := by
  rcases level_eq_some hv with rfl | ⟨t, d, rfl⟩ <;> cases x <;>
    simp_all [composeGenericMax, level]

section LatencyMs

variable {r : String}

/-- The composed levels while every declared value carries an exact name `r`. -/
def CarriedLevel (S : DimensionValue → Prop) (r : String) (x : DimensionValue) : Prop :=
  level x = none ∨ ∃ b, level x = some b ∧
    ((∃ v, S v ∧ level v = some r) → x = name b → trustKey r ≤ trustKey b) ∧
    ((∀ v, S v → level v ≠ some r) → b ≠ r)

/-- `y` is a stricter level than `x`, and a name if `x` is one. -/
def Stricter (x y : DimensionValue) : Prop :=
  ∀ a, level x = some a → ∃ b, level y = some b ∧ trustKey a ≤ trustKey b ∧
    (x = name a → y = name b)

theorem stricter_composeGenericMax {x v : DimensionValue} {m : String} (hv : level v = some m) :
    Stricter x (composeGenericMax x v) := by
  intro a ha
  refine ⟨trustMax a m, level_composeGenericMax ha hv, ?_, fun hx => ?_⟩
  · rw [trustKey_trustMax]
    exact le_max_left _ _
  · exact (composeGenericMax_eq_name ha hv).mpr ⟨Or.inl hx, rfl⟩

theorem Stricter.compose {x y v : DimensionValue} {m : String} (h : Stricter x y)
    (hv : level v = some m) : Stricter (composeGenericMax x v) (composeGenericMax y v) := by
  intro c hc
  cases hx : level x with
  | none =>
    rw [composeGenericMax_of_none hx hv] at hc ⊢
    obtain rfl : m = c := Option.some.inj (hv.symm.trans hc)
    cases hy : level y with
    | none => exact ⟨m, by rw [composeGenericMax_of_none hy hv, hv], le_rfl,
        fun hname => by rw [composeGenericMax_of_none hy hv, hname]⟩
    | some b =>
      refine ⟨trustMax b m, level_composeGenericMax hy hv, ?_, fun hname => ?_⟩
      · rw [trustKey_trustMax]
        exact le_max_right _ _
      · exact (composeGenericMax_eq_name hy hv).mpr ⟨Or.inr hname, rfl⟩
  | some a =>
    obtain ⟨b, hb, hle, hname⟩ := h a hx
    obtain rfl : trustMax a m = c :=
      Option.some.inj ((level_composeGenericMax hx hv).symm.trans hc)
    refine ⟨trustMax b m, level_composeGenericMax hb hv, ?_, fun hres => ?_⟩
    · rw [trustKey_trustMax, trustKey_trustMax]
      exact max_le_max hle le_rfl
    · have hor := ((composeGenericMax_eq_name hx hv).mp hres).1
      exact (composeGenericMax_eq_name hb hv).mpr ⟨hor.imp hname id, rfl⟩

/-- A declared value that carries `r`, as a composed level. -/
theorem carriedLevel_of_carries (hall : ∀ v, S v → Carries .latencyMs (some (name r)) S v)
    {v : DimensionValue} (hv : S v) : ∃ b, level v = some b ∧
      ((∃ v, S v ∧ level v = some r) → v = name b → trustKey r ≤ trustKey b) ∧
      ((∀ v, S v → level v ≠ some r) → b ≠ r) := by
  obtain ⟨b, hb, -⟩ := hall v hv
  refine ⟨b, hb, ?_, fun hno hbr => hno v hv (hbr ▸ hb)⟩
  rintro ⟨w, hw, hwr⟩ rfl
  obtain ⟨c, hc, hcarry⟩ := hall w hw
  obtain rfl : c = r := Option.some.inj (hc.symm.trans hwr)
  rcases hcarry rfl b hv with rfl | hne
  · exact le_rfl
  · exact le_of_not_ge fun hle => hne (trustMax_eq_right.mpr hle)

theorem CarriedLevel.compose (hall : ∀ v, S v → Carries .latencyMs (some (name r)) S v)
    {x v : DimensionValue} (hx : CarriedLevel S r x) (hv : S v) :
    CarriedLevel S r (composeGenericMax x v) := by
  obtain ⟨m, hm, hmr, hmne⟩ := carriedLevel_of_carries hall hv
  right
  rcases hx with hx | ⟨b, hb, hbr, hbne⟩
  · rw [composeGenericMax_of_none hx hm]
    exact ⟨m, hm, hmr, hmne⟩
  · refine ⟨trustMax b m, level_composeGenericMax hb hm, fun hex hres => ?_, fun hno => ?_⟩
    · rw [trustKey_trustMax]
      rcases ((composeGenericMax_eq_name hb hm).mp hres).1 with hname | hname
      · exact le_max_of_le_left (hbr hex hname)
      · exact le_max_of_le_right (hmr hex hname)
    · rcases trustMax_selective b m with h | h <;> rw [h]
      · exact hbne hno
      · exact hmne hno

theorem violates_latencyMs {v : DimensionValue} :
    violates "latency_ms" (some (name r)) v = true ↔ ∃ a, v = name a ∧ a ≠ r :=
  violates_name (by decide) (by decide)

theorem persists_latencyMs_of_carries
    (hall : ∀ v, S v → Carries .latencyMs (some (name r)) S v) :
    PersistsAt .latencyMs (some (name r)) S := by
  refine persists_of_sim Stricter (R := CarriedLevel S r) (Or.inl rfl)
    (fun x v hx hv => hx.compose hall hv) (fun x v _ hv => ?_) (fun x y v _ _ hv h => ?_) ?_
  · obtain ⟨m, hm, -⟩ := carriedLevel_of_carries hall hv
    exact stricter_composeGenericMax hm
  · obtain ⟨m, hm, -⟩ := carriedLevel_of_carries hall hv
    exact h.compose hm
  · intro x y hx hy hxy hVx
    obtain ⟨a, rfl, hne⟩ := violates_latencyMs.mp hVx
    obtain ⟨b, hb, hle, hname⟩ := hxy a rfl
    refine violates_latencyMs.mpr ⟨b, hname rfl, ?_⟩
    by_cases hex : ∃ v, S v ∧ level v = some r
    · -- Names are at least `r` here, so a name other than `r` is above it.
      rcases hx with hx | ⟨a', ha', har, -⟩
      · cases hx
      obtain rfl : a = a' := Option.some.inj ha'
      rintro rfl
      exact hne (trustKey_injective (le_antisymm hle (har hex rfl)))
    · rcases hy with hy | ⟨b', hb', -, hbne⟩
      · rw [hb] at hy
        cases hy
      obtain rfl : b = b' := Option.some.inj (hb.symm.trans hb')
      exact hbne fun v hv h => hex ⟨v, hv, h⟩

/-- Without a name other than `r` in reach, every composed name is `r`. -/
theorem not_violates_latencyMs (hno : ¬ Reaches .latencyMs (some (name r)) S)
    {l : List DimensionValue} (hl : ∀ v ∈ l, S v) :
    ∀ b, level (l.foldl composeGenericMax (number 0)) = some b →
      (l.foldl composeGenericMax (number 0) = name b → b = r ∧ S (name r)) ∧
        (S (name r) → trustKey b ≤ trustKey r) := by
  have hname : ∀ a, S (name a) → a = r := by
    intro a ha
    by_contra hne
    exact hno ⟨a, ha, Or.inl hne⟩
  have hgate : ∀ v m, S v → level v = some m → S (name r) → trustKey m ≤ trustKey r := by
    intro v m hv hm hr
    rcases level_eq_some hm with rfl | ⟨t, c, rfl⟩
    · rw [hname m hv]
    · by_contra hle
      refine hno ⟨r, hr, Or.inr ⟨t, m, c, hv, fun h => hle ?_⟩⟩
      exact trustMax_eq_right.mp (trustMax_comm m r ▸ h)
  refine List.foldlRecOn (motive := fun x => ∀ b, level x = some b →
    (x = name b → b = r ∧ S (name r)) ∧ (S (name r) → trustKey b ≤ trustKey r)) l
    composeGenericMax (by simp [level]) fun x hx v hv b hb => ?_
  have hv := hl v hv
  cases hvl : level v with
  | none =>
    rw [composeGenericMax_incoming (Or.inr hvl) (by rw [hb]; rfl), hvl] at hb
    cases hb
  | some m =>
    cases hxl : level x with
    | none =>
      rw [composeGenericMax_of_none hxl hvl] at hb ⊢
      obtain rfl : m = b := Option.some.inj (hvl.symm.trans hb)
      refine ⟨?_, hgate v m hv hvl⟩
      rintro rfl
      exact ⟨hname m hv, hname m hv ▸ hv⟩
    | some n =>
      obtain ⟨hxr, hxle⟩ := hx n hxl
      obtain rfl : trustMax n m = b :=
        Option.some.inj ((level_composeGenericMax hxl hvl).symm.trans hb)
      have hle : S (name r) → trustKey (trustMax n m) ≤ trustKey r := fun hr => by
        rw [trustKey_trustMax]
        exact max_le (hxle hr) (hgate v m hv hvl hr)
      refine ⟨fun hres => ?_, hle⟩
      have hr : S (name r) := by
        rcases ((composeGenericMax_eq_name hxl hvl).mp hres).1 with h | rfl
        · exact (hxr h).2
        · exact hname m hv ▸ hv
      refine ⟨trustKey_injective (le_antisymm (hle hr) ?_), hr⟩
      rw [trustKey_trustMax]
      rcases ((composeGenericMax_eq_name hxl hvl).mp hres).1 with h | rfl
      · exact le_max_of_le_left (by rw [(hxr h).1])
      · exact le_max_of_le_right (by rw [hname m hv])

theorem persists_latencyMs_name : PersistsAt .latencyMs (some (name r)) S ↔
    (∀ v, S v → Carries .latencyMs (some (name r)) S v) ∨
      ¬ Reaches .latencyMs (some (name r)) S := by
  refine persists_iff persists_latencyMs_of_carries (fun v hv hbad hreach => ?_) fun _ h => ?_
  · cases hvl : level v with
    | none =>
      have hreachable : Reachable composeGenericMax (number 0) S
          fun v => violates "latency_ms" (some (name r)) v = true := by
        obtain ⟨a, ha, hne | ⟨t, b, c, hg, hne⟩⟩ := hreach
        · exact ⟨[name a], by simp [ha], violates_latencyMs.mpr ⟨a, rfl, hne⟩⟩
        · exact ⟨[name a, confidenceGated t b c], by simp [ha, hg],
            violates_latencyMs.mpr ⟨_, rfl, hne⟩⟩
      refine Breaks.of_last hreachable fun x _ hxv => ?_
      obtain ⟨a, ha, -⟩ := violates_latencyMs.mp hxv
      change composeGenericMax x v = name a at ha
      have hsome : (level (composeGenericMax x v)).isSome := by rw [ha]; rfl
      rw [composeGenericMax_incoming (Or.inr hvl) hsome, hvl] at hsome
      cases hsome
    | some b =>
      -- The level of `v` is `r`, and it lifts some other name to `r`.
      obtain ⟨rfl, a, ha, hne, hlift⟩ :
          b = r ∧ ∃ a, S (name a) ∧ a ≠ r ∧ trustMax a r = r := by
        by_contra hnot
        refine hbad ⟨b, hvl, fun hb a ha => ?_⟩
        by_contra hor
        push Not at hor
        exact hnot ⟨hb, a, ha, hor⟩
      refine ⟨[name a], by simp [ha], violates_latencyMs.mpr ⟨a, rfl, hne⟩, fun hboth => ?_⟩
      obtain ⟨c, hc, hcb⟩ := violates_latencyMs.mp hboth.1
      change composeGenericMax (name a) v = name c at hc
      exact hcb (((composeGenericMax_eq_name rfl hvl).mp hc).2.trans hlift)
  · by_contra hno
    obtain ⟨l, hl, hVl⟩ := h
    obtain ⟨a, ha, hne⟩ := violates_latencyMs.mp hVl
    change l.foldl composeGenericMax (number 0) = name a at ha
    exact hne ((not_violates_latencyMs hno hl a (by rw [ha]; rfl)).1 ha).1

end LatencyMs

theorem persists_latencyMs_iff :
    PersistsAt .latencyMs k S ↔
      (∀ v, S v → Carries .latencyMs k S v) ∨ ¬ Reaches .latencyMs k S := by
  match k with
  | none => exact persistsAt_bare (by decide) (by decide)
  | some (.bool b) => exact persistsAt_flag (by decide) (by decide) b
  | some (name r) => exact persists_latencyMs_name
  | some (cost limit) =>
    exact persistsAt_maximum (Or.inl rfl) (Or.inl rfl) (fun v => kind_eq_cost)
      (fun _ _ h => by simpa using h) (fun _ _ => rfl) fun v => violates_cost
  | some (number limit) =>
    exact persistsAt_maximum (Or.inl rfl) (Or.inr rfl) (fun v => kind_eq_number)
      (fun _ _ h => by simpa using h) (fun _ _ => rfl) fun v => violates_number (by decide)
  | some (streaming p) => exact persistsAt_streaming (by decide) p
  | some (confidenceGated t a b) => exact persistsAt_gate (by decide) t a b

/-! ### Latency -/

section Latency

/-- How two latency values compose: a stream hides the other value, names compose by rank, and
anything else replaces the composed value. -/
theorem composeLatencyDimension_cases (x v : DimensionValue) :
    (∃ p q, x = streaming p ∧ v = streaming q ∧
      composeLatencyDimension x v = streaming (composeBackpressure p q)) ∨
    (x.kind = .streaming ∧ v.kind ≠ .streaming ∧ composeLatencyDimension x v = x) ∨
    (∃ m n, x = name m ∧ v = name n ∧
      composeLatencyDimension x v = name (latencyMax m n)) ∨
    (x.kind ≠ .streaming ∧ ¬ (x.kind = .name ∧ v.kind = .name) ∧
      composeLatencyDimension x v = v) := by
  cases x <;> cases v <;> simp [composeLatencyDimension, kind]

theorem latencyRank_latencyMax (m n : String) :
    latencyRank (latencyMax m n) = max (latencyRank m) (latencyRank n) :=
  key_maxBy (fun _ _ => rfl) m n

/-- A constraint that neither names nor streams can violate: the last value decides. -/
theorem persists_latency_other
    (hV : ∀ v, violates "latency" k v = true → v.kind ≠ .name ∧ v.kind ≠ .streaming) :
    PersistsAt .latency k S ↔ LastDecides .latency k S := by
  refine persists_iff_of_last (fun x v _ h => ?_) (fun x v _ hx hv => ?_) fun hb => ?_
  · change violates "latency" k (composeLatencyDimension x v) = true at h
    rcases composeLatencyDimension_cases x v with ⟨p, q, -, -, hres⟩ | ⟨hst, -, hres⟩ |
      ⟨m, n, -, -, hres⟩ | ⟨-, -, hres⟩ <;> rw [hres] at h
    · exact absurd rfl (hV _ h).2
    · exact absurd hst (hV _ h).2
    · exact absurd rfl (hV _ h).1
    · exact h
  · change violates "latency" k (composeLatencyDimension x v) = true
    obtain ⟨hvn, hvs⟩ := hV v hv
    have hxs : x.kind ≠ .streaming := by
      rcases hx with hx | rfl
      · exact (hV x hx).2
      · decide
    rcases composeLatencyDimension_cases x v with ⟨p, q, -, rfl, -⟩ | ⟨hst, -, -⟩ |
      ⟨m, n, -, rfl, -⟩ | ⟨-, -, hres⟩
    · exact absurd rfl hvs
    · exact absurd hst hxs
    · exact absurd rfl hvn
    · rwa [hres]
  · exact (hV _ hb).1 rfl

section Name

variable {r : String}

theorem violates_latency_name {a : String} :
    violates "latency" (some (name r)) (name a) = true ↔ latencyRank r < latencyRank a := by
  simp [violates_latency, kind]

theorem violates_latency_stream {p : BackpressurePolicy} :
    violates "latency" (some (name r)) (streaming p) = true ↔
      latencyRank r < latencyStreamingRank := by
  simp [violates_latency, kind]

theorem not_violates_latency_other {v : DimensionValue} (hs : v.kind ≠ .streaming)
    (hn : v.kind ≠ .name) : ¬ violates "latency" (some (name r)) v = true := by
  intro h
  rcases violates_latency.mp h with ⟨a, rfl, -⟩ | ⟨hst, -⟩
  · exact hn rfl
  · exact hs hst

/-- A composition that violates a latency name has a part that does. -/
theorem violates_latency_prime {x v : DimensionValue}
    (h : violates "latency" (some (name r)) (composeLatencyDimension x v) = true) :
    violates "latency" (some (name r)) x = true ∨ violates "latency" (some (name r)) v = true := by
  rcases composeLatencyDimension_cases x v with ⟨p, q, rfl, rfl, hres⟩ | ⟨-, -, hres⟩ |
    ⟨m, n, rfl, rfl, hres⟩ | ⟨-, -, hres⟩ <;> rw [hres] at h
  · exact Or.inl (violates_latency_stream.mpr (violates_latency_stream.mp h))
  · exact Or.inl h
  · rw [violates_latency_name, latencyRank_latencyMax, lt_max_iff] at h
    exact h.imp violates_latency_name.mpr violates_latency_name.mpr
  · exact Or.inr h

/-- The composed values while every declared value carries a latency name: streams violate it,
and a name that does is matched by a declared one. -/
def CarriedLatency (S : DimensionValue → Prop) (r : String) (x : DimensionValue) : Prop :=
  (x.kind = .streaming → latencyRank r < latencyStreamingRank) ∧
    ∀ n, x = name n → latencyRank r < latencyRank n →
      ∃ a, S (name a) ∧ latencyRank r < latencyRank a

theorem persists_latency_of_carries (hall : ∀ v, S v → Carries .latency (some (name r)) S v) :
    PersistsAt .latency (some (name r)) S := by
  have hstream : ∀ v, S v → v.kind = .streaming → latencyRank r < latencyStreamingRank := by
    intro v hv hs
    rcases hall v hv with hn | ⟨-, hlt⟩ | ⟨hns, -⟩
    · rw [hs] at hn
      cases hn
    · exact hlt
    · exact absurd hs hns
  refine persists_of_join (R := CarriedLatency S r) ⟨?_, ?_⟩ (fun x v hx hv => ?_)
    fun x v hx hv => ⟨violates_latency_prime, ?_⟩
  · intro h
    cases h
  · intro n hn hlt
    cases hn
    exact absurd hlt (Nat.not_lt_zero _)
  · change CarriedLatency S r (composeLatencyDimension x v)
    rcases composeLatencyDimension_cases x v with ⟨p, q, rfl, rfl, hres⟩ | ⟨-, -, hres⟩ |
      ⟨m, n, rfl, rfl, hres⟩ | ⟨-, -, hres⟩ <;> rw [hres]
    · exact ⟨fun _ => hx.1 rfl, fun _ h => by cases h⟩
    · exact hx
    · refine ⟨fun h => (by cases h), fun l hl hlt => ?_⟩
      obtain rfl : latencyMax m n = l := name.inj hl
      rw [latencyRank_latencyMax, lt_max_iff] at hlt
      rcases hlt with hlt | hlt
      · exact hx.2 m rfl hlt
      · exact ⟨n, hv, hlt⟩
    · refine ⟨hstream v hv, ?_⟩
      rintro n rfl hlt
      exact ⟨n, hv, hlt⟩
  · change _ → violates "latency" _ (composeLatencyDimension x v) = true
    rcases composeLatencyDimension_cases x v with ⟨p, q, rfl, rfl, hres⟩ | ⟨hst, -, hres⟩ |
      ⟨m, n, rfl, rfl, hres⟩ | ⟨hns, hnames, hres⟩ <;> rw [hres]
    · exact fun _ => violates_latency_stream.mpr (hx.1 rfl)
    · exact fun _ => violates_latency.mpr (Or.inr ⟨hst, hx.1 hst⟩)
    · rintro (h | h)
      · rw [violates_latency_name, latencyRank_latencyMax]
        exact lt_max_of_lt_left (violates_latency_name.mp h)
      · rw [violates_latency_name, latencyRank_latencyMax]
        exact lt_max_of_lt_right (violates_latency_name.mp h)
    · rintro (h | h)
      · -- A violating name is only replaced by a stream.
        obtain ⟨n, rfl⟩ : ∃ n, x = name n := by
          by_contra hno
          exact not_violates_latency_other hns (fun hn => hno (kind_eq_name hn)) h
        obtain ⟨a, ha, hlt⟩ := hx.2 n rfl (violates_latency_name.mp h)
        rcases hall v hv with hn | ⟨hs, hlt'⟩ | ⟨-, hle⟩
        · exact absurd ⟨rfl, hn⟩ hnames
        · exact violates_latency.mpr (Or.inr ⟨hs, hlt'⟩)
        · exact absurd hlt (not_lt.mpr (hle a ha))
      · exact h

theorem persists_latency_name : PersistsAt .latency (some (name r)) S ↔
    (∀ v, S v → Carries .latency (some (name r)) S v) ∨
      ¬ Reaches .latency (some (name r)) S := by
  refine persists_iff persists_latency_of_carries (fun v hv hbad hreach => ?_)
    fun _ h => h.of_prime fun x v _ => violates_latency_prime
  -- A slow name that is declared, and how it is composed away.
  have hbreak : ∀ a, S (name a) → latencyRank r < latencyRank a →
      ¬ violates "latency" (some (name r)) (composeLatencyDimension (name a) v) = true →
      Breaks (step OrderedDimension.latency.schema "latency") (name "instant") S
        (fun v => violates "latency" (some (name r)) v = true) v := by
    intro a ha hlt hno
    have hfirst : latencyMax "instant" a = a := by
      have hpos : ¬ latencyRank "instant" ≥ latencyRank a :=
        fun hge => absurd (hlt.trans_le hge) (Nat.not_lt_zero _)
      exact if_neg hpos
    refine ⟨[name a], by simp [ha], ?_, fun hboth => hno ?_⟩
    · change violates "latency" _ (name (latencyMax "instant" a)) = true
      rwa [hfirst, violates_latency_name]
    · have hlast := hboth.1
      change violates "latency" _
        (composeLatencyDimension (name (latencyMax "instant" a)) v) = true at hlast
      rwa [hfirst] at hlast
  by_cases hs : v.kind = .streaming
  · obtain ⟨p, rfl⟩ := kind_eq_streaming hs
    have hrank : ¬ latencyRank r < latencyStreamingRank :=
      fun hlt => hbad (Or.inr (Or.inl ⟨rfl, hlt⟩))
    obtain ⟨u, hu, hVu⟩ : ∃ u, S u ∧ violates "latency" (some (name r)) u = true := by
      rcases hreach with hb | hu
      · exact absurd (violates_latency_name.mp hb) (Nat.not_lt_zero _)
      · exact hu
    rcases violates_latency.mp hVu with ⟨a, rfl, hlt⟩ | ⟨-, hlt⟩
    · exact hbreak a hu hlt fun h => hrank (violates_latency_stream.mp h)
    · exact absurd hlt hrank
  · have hn : v.kind ≠ .name := fun hn => hbad (Or.inl hn)
    obtain ⟨a, ha, hlt⟩ : ∃ a, S (name a) ∧ latencyRank r < latencyRank a := by
      by_contra hno
      push Not at hno
      exact hbad (Or.inr (Or.inr ⟨hs, hno⟩))
    refine hbreak a ha hlt fun h => ?_
    have hres : composeLatencyDimension (name a) v = v := by
      cases v <;> simp_all [composeLatencyDimension, kind]
    exact not_violates_latency_other hs hn (hres ▸ h)

end Name

section Streaming

variable {q : BackpressurePolicy}

/-- A constraint on the buffering of streams is violated by one of two composed policies,
unless it asks for an empty buffer. -/
theorem backpressureSatisfies_compose (hq : q ≠ .bounded 0) (p p' : BackpressurePolicy) :
    backpressureSatisfies (composeBackpressure p p') q = false ↔
      backpressureSatisfies p q = false ∨ backpressureSatisfies p' q = false := by
  cases p <;> cases p' <;> cases q <;>
    grind [composeBackpressure, backpressureSatisfies]

/-- A single pull source composes with buffers like an empty one. -/
theorem backpressureSatisfies_empty {p p' : BackpressurePolicy}
    (h : ∀ m n, p = .pullsFrom m → p' = .pullsFrom n → m = n) :
    backpressureSatisfies (composeBackpressure p p') (.bounded 0) = false ↔
      backpressureSatisfies p (.bounded 0) = false ∨
        backpressureSatisfies p' (.bounded 0) = false := by
  cases p <;> cases p' <;> grind [composeBackpressure, backpressureSatisfies]

/-- Streams alone violate a constraint on streams. -/
theorem persists_streaming_of_join {R : DimensionValue → Prop} (hb : R (name "instant"))
    (hR : ∀ x v, R x → S v → R (composeLatencyDimension x v))
    (hjoin : ∀ p p', R (streaming p) → S (streaming p') →
      (backpressureSatisfies (composeBackpressure p p') q = false ↔
        backpressureSatisfies p q = false ∨ backpressureSatisfies p' q = false)) :
    PersistsAt .latency (some (streaming q)) S := by
  refine persists_of_join hb hR fun x v hx hv => ?_
  change violates "latency" _ (composeLatencyDimension x v) = true ↔
    violates "latency" _ x = true ∨ violates "latency" _ v = true
  rcases composeLatencyDimension_cases x v with ⟨p, p', rfl, rfl, hres⟩ | ⟨-, hns, hres⟩ |
    ⟨m, n, rfl, rfl, hres⟩ | ⟨hns, -, hres⟩ <;> rw [hres]
  · simpa [violates_streaming] using hjoin p p' hx hv
  · refine ⟨Or.inl, fun h => h.resolve_right fun hv => ?_⟩
    obtain ⟨p, rfl, -⟩ := violates_streaming.mp hv
    exact hns rfl
  · simp [violates_streaming]
  · refine ⟨Or.inr, fun h => h.resolve_left fun hx => ?_⟩
    obtain ⟨p, rfl, -⟩ := violates_streaming.mp hx
    exact hns rfl

/-- `y` is a stream that buffers at least as much as the stream `x`. -/
def BuffersMore (x y : DimensionValue) : Prop :=
  ∀ p, x = streaming p → ∃ p', y = streaming p' ∧ p' ≠ .bounded 0 ∧ composeBackpressure p p' = p'

/-- Without a declared empty buffer the policies form a semilattice. -/
theorem persists_streaming_of_nonempty (h0 : ¬ S (streaming (.bounded 0))) :
    PersistsAt .latency (some (streaming (.bounded 0))) S := by
  have hS : ∀ {p}, S (streaming p) → p ≠ .bounded 0 := fun hp h => h0 (h ▸ hp)
  refine persists_of_sim BuffersMore
    (R := fun x => ∀ p, x = streaming p → p ≠ .bounded 0) (fun p h => by cases h)
    (fun x v hx hv => ?_) (fun x v hx hv => ?_) (fun x y v hx hy hv hxy => ?_) ?_
  · change ∀ p, composeLatencyDimension x v = streaming p → _
    rcases composeLatencyDimension_cases x v with ⟨p, p', rfl, rfl, hres⟩ | ⟨-, -, hres⟩ |
      ⟨m, n, rfl, rfl, hres⟩ | ⟨-, -, hres⟩ <;> rw [hres]
    · have hp := hx p rfl
      have hp' := hS hv
      rintro _ ⟨⟩
      cases p <;> cases p' <;> grind [composeBackpressure]
    · exact hx
    · rintro _ ⟨⟩
    · rintro p rfl
      exact hS hv
  · change BuffersMore x (composeLatencyDimension x v)
    rintro p rfl
    have hp := hx p rfl
    by_cases hv' : v.kind = .streaming
    · obtain ⟨p', rfl⟩ := kind_eq_streaming hv'
      have hp' := hS hv
      refine ⟨composeBackpressure p p', rfl, ?_⟩
      cases p <;> cases p' <;> grind [composeBackpressure]
    · rw [composeLatencyDimension_stream_left p hv']
      refine ⟨p, rfl, hp, ?_⟩
      cases p <;> simp [composeBackpressure]
  · change BuffersMore (composeLatencyDimension x v) (composeLatencyDimension y v)
    by_cases hv' : v.kind = .streaming
    · obtain ⟨p₀, rfl⟩ := kind_eq_streaming hv'
      have hp₀ := hS hv
      have hy₀ : ∃ p', composeLatencyDimension y (streaming p₀) = streaming p' ∧ p' ≠ .bounded 0 ∧
          composeBackpressure p₀ p' = p' := by
        by_cases hys : y.kind = .streaming
        · obtain ⟨p', rfl⟩ := kind_eq_streaming hys
          have hp' := hy p' rfl
          refine ⟨composeBackpressure p' p₀, rfl, ?_⟩
          cases p' <;> cases p₀ <;> grind [composeBackpressure]
        · refine ⟨p₀, composeLatencyDimension_stream_right p₀ hys, hp₀, ?_⟩
          cases p₀ <;> simp [composeBackpressure]
      by_cases hxs : x.kind = .streaming
      · obtain ⟨p, rfl⟩ := kind_eq_streaming hxs
        obtain ⟨p', rfl, hp', hle⟩ := hxy p rfl
        have hp := hx p rfl
        rintro _ ⟨⟩
        refine ⟨composeBackpressure p' p₀, rfl, ?_⟩
        cases p <;> cases p' <;> cases p₀ <;> grind [composeBackpressure]
      · rw [composeLatencyDimension_stream_right p₀ hxs]
        rintro _ ⟨⟩
        exact hy₀
    · intro p hp
      by_cases hxs : x.kind = .streaming
      · obtain ⟨p₁, rfl⟩ := kind_eq_streaming hxs
        rw [composeLatencyDimension_stream_left p₁ hv'] at hp
        obtain ⟨p', rfl, hp'⟩ := hxy p hp
        exact ⟨p', composeLatencyDimension_stream_left p' hv', hp'⟩
      · exact absurd (hp ▸ rfl) (kind_composeLatencyDimension hxs hv')
  · intro x y hx _ hxy hVx
    obtain ⟨p, rfl, hp⟩ := violates_streaming.mp hVx
    obtain ⟨p', rfl, hp', hle⟩ := hxy p rfl
    refine violates_streaming.mpr ⟨p', rfl, ?_⟩
    cases p <;> cases p' <;> grind [composeBackpressure, backpressureSatisfies]

theorem persists_latency_streaming : PersistsAt .latency (some (streaming q)) S ↔
    (∀ v, S v → Carries .latency (some (streaming q)) S v) ∨
      ¬ Reaches .latency (some (streaming q)) S := by
  refine persists_iff (fun hall => ?_) (fun v hv hbad _ => ?_) fun _ _ => trivial
  · by_cases hq : q = .bounded 0
    · subst hq
      by_cases h0 : S (streaming (.bounded 0))
      · have hunique := hall _ h0 rfl rfl
        refine persists_streaming_of_join
          (R := fun x => ∀ m, x = streaming (.pullsFrom m) → S (streaming (.pullsFrom m)))
          (fun m h => by cases h) (fun x v hx hv => ?_) fun p p' hp hp' => ?_
        · rcases composeLatencyDimension_cases x v with ⟨p, p', rfl, rfl, hres⟩ | ⟨-, -, hres⟩ |
            ⟨m, n, rfl, rfl, hres⟩ | ⟨-, -, hres⟩ <;> rw [hres]
          · intro m hm
            have hpulls : p = .pullsFrom m := by
              have hm := streaming.inj hm
              cases p <;> cases p' <;> grind [composeBackpressure]
            exact hx m (by rw [hpulls])
          · exact hx
          · intro _ h
            cases h
          · rintro m rfl
            exact hv
        · refine backpressureSatisfies_empty ?_
          rintro m n rfl rfl
          exact hunique m n (hp m rfl) hp'
      · exact persists_streaming_of_nonempty h0
    · exact persists_streaming_of_join (R := fun _ => True) trivial (fun _ _ _ _ => trivial)
        fun p p' _ _ => backpressureSatisfies_compose hq p p'
  · -- Two pull sources exceed an empty buffer, unless one was composed before them.
    obtain ⟨rfl, rfl, m, n, hm, hn, hne⟩ : q = .bounded 0 ∧ v = streaming (.bounded 0) ∧
        ∃ m n, S (streaming (.pullsFrom m)) ∧ S (streaming (.pullsFrom n)) ∧ m ≠ n := by
      by_contra hno
      refine hbad fun hq hv m n hm hn => ?_
      by_contra hne
      exact hno ⟨hq, hv, m, n, hm, hn, hne⟩
    refine ⟨[streaming (.pullsFrom m), streaming (.pullsFrom n)], by simp [hm, hn], ?_,
      fun hboth => ?_⟩
    · refine violates_streaming.mpr ⟨.bounded 1, ?_, rfl⟩
      change composeLatencyDimension (streaming (.pullsFrom m)) (streaming (.pullsFrom n)) = _
      simp [composeLatencyDimension, composeBackpressure, hne]
    · obtain ⟨p, hp, hsat⟩ := violates_streaming.mp hboth.2
      cases hp
      cases hsat

end Streaming

theorem persists_latency_iff :
    PersistsAt .latency k S ↔
      (∀ v, S v → Carries .latency k S v) ∨ ¬ Reaches .latency k S := by
  match k with
  | none =>
    refine persists_latency_other fun v hv => ?_
    obtain rfl := violates_none.mp hv
    decide
  | some (.bool b) =>
    refine persists_latency_other fun v hv => ?_
    obtain ⟨-, rfl⟩ := violates_bool.mp hv
    decide
  | some (name r) => exact persists_latency_name
  | some (cost limit) =>
    refine persists_latency_other fun v hv => ?_
    obtain ⟨c, rfl, -⟩ := violates_cost.mp hv
    simp [kind]
  | some (number limit) =>
    refine persists_latency_other fun v hv => ?_
    obtain ⟨c, rfl, -⟩ := (violates_number (by decide)).mp hv
    simp [kind]
  | some (streaming q) => exact persists_latency_streaming
  | some (confidenceGated t a b) => exact persistsAt_gate (by decide) t a b

end Latency

/-- **When violations of a constraint survive further values**: exactly when every value
carries them, or none is reached. -/
theorem persists_iff_carries (o : OrderedDimension) (hS : ∀ v, S v → NonNegative v) :
    PersistsAt o k S ↔ (∀ v, S v → Carries o k S v) ∨ ¬ Reaches o k S := by
  cases o with
  | cost => exact persists_amount_iff (Or.inl rfl) hS
  | tokens => exact persists_amount_iff (Or.inr rfl) hS
  | latencyMs => exact persists_latencyMs_iff
  | trust => exact persists_trust_iff
  | reversible => exact persists_reversible_iff
  | latency => exact persists_latency_iff
  | confidence => exact persists_confidence_iff

/-! ## Registries -/

/-- A constraint that some effects violate is still violated when one more effect is composed
after or before them. -/
def ViolationsPersist (r : EffectRegistry) (c : EffectConstraint) : Prop :=
  ∀ (effects : List String) (e : String), checkConstraints (r.compose effects) [c] ≠ [] →
    checkConstraints (r.compose (effects ++ [e])) [c] ≠ [] ∧
      checkConstraints (r.compose (e :: effects)) [c] ≠ []

section Registry

variable {r : EffectRegistry} {c : EffectConstraint} {o : OrderedDimension}

theorem checkConstraints_ne_nil_iff (hr : r.Sound)
    (hc : canonicalDimensionName c.dimension.name = o.name) (effects : List String) :
    checkConstraints (r.compose effects) [c] ≠ [] ↔
      violates o.name c.value
        ((r.declared o.name effects).foldl (step o.schema o.name) o.schema.default) = true := by
  have hlookup := lookup_compose (r := r) effects o.name
  rw [o.lookup_schema hr, Option.map_some] at hlookup
  simp only [checkConstraints, List.filterMap_cons, List.filterMap_nil, checkConstraint, violates]
  generalize canonicalDimensionName c.dimension.name = d at hc
  subst hc
  rw [hlookup]
  generalize (r.declared o.name effects).foldl (step o.schema o.name) o.schema.default = actual
  simp only
  cases expectedValue c.value actual with
  | none => simp
  | some expected => cases h : dimensionSatisfies actual expected o.name <;> simp [h]

theorem violationsPersist_iff_persistsAt (hr : r.Sound)
    (hc : canonicalDimensionName c.dimension.name = o.name) :
    ViolationsPersist r c ↔ PersistsAt o c.value (r.Declares o.name) := by
  simp only [ViolationsPersist, checkConstraints_ne_nil_iff hr hc]
  constructor
  · intro h l hl hV v hv
    have hvl : ∀ w ∈ v :: l, r.Declares o.name w := by
      intro w hw
      rcases List.mem_cons.mp hw with rfl | hw
      · exact hv
      · exact hl w hw
    obtain ⟨f, hf⟩ := exists_declared_eq hvl
    have hl' := hf l fun w hw => List.mem_cons_of_mem _ hw
    have hafter := hf (l ++ [v]) fun w hw => (List.perm_append_singleton v l).mem_iff.mp hw
    have hbefore := hf (v :: l) fun w hw => hw
    have hboth := h (l.map f) (f v) (hl'.symm ▸ hV)
    rw [List.map_append, List.map_cons, List.map_nil] at hafter
    rw [List.map_cons] at hbefore
    rwa [hafter, hbefore] at hboth
  · intro h effects e hV
    cases he : r.declaredBy o.name e with
    | none =>
      -- An effect that declares nothing for the dimension changes nothing.
      rw [declared, declared, List.filterMap_append, List.filterMap_cons_none he,
        List.filterMap_cons_none he, List.filterMap_nil, List.append_nil]
      exact ⟨hV, hV⟩
    | some v =>
      have hboth := h _ (fun w => declares_of_mem_declared) hV v ⟨e, he⟩
      rw [declared, declared, List.filterMap_append, List.filterMap_cons_some he,
        List.filterMap_cons_some he, List.filterMap_nil]
      exact hboth

end Registry

/-- **When a violation cannot be composed away.** For a constraint on an ordered dimension
whose declared amounts are nonnegative, violations survive further effects exactly when every
declared value carries them, or the declared values reach none. -/
theorem violationsPersist_iff (decls : List EffectDecl) (config : Option CorvidConfig)
    (o : OrderedDimension) (c : EffectConstraint)
    (hc : canonicalDimensionName c.dimension.name = o.name)
    (hnonneg : ∀ v, (fromDeclsWithConfig decls config).Declares o.name v → NonNegative v) :
    ViolationsPersist (fromDeclsWithConfig decls config) c ↔
      (∀ v, (fromDeclsWithConfig decls config).Declares o.name v →
        Carries o c.value ((fromDeclsWithConfig decls config).Declares o.name) v) ∨
      ¬ Reaches o c.value ((fromDeclsWithConfig decls config).Declares o.name) := by
  rw [violationsPersist_iff_persistsAt (sound_fromDeclsWithConfig decls config) hc]
  exact persists_iff_carries o hnonneg

/-- A cost in dollars next to a cost that is a name. -/
def mixedCosts : List EffectDecl :=
  [⟨⟨"pay", ⟨7, 10⟩⟩, [⟨⟨"cost", ⟨16, 20⟩⟩, cost 5, ⟨16, 24⟩⟩], ⟨0, 24⟩⟩,
    ⟨⟨"audit", ⟨32, 37⟩⟩, [⟨⟨"cost", ⟨43, 47⟩⟩, name "high", ⟨43, 53⟩⟩], ⟨25, 53⟩⟩]

/-- The constraint `@budget($1)`. -/
def oneDollarBudget : EffectConstraint := ⟨⟨"budget", ⟨1, 7⟩⟩, some (cost 1), ⟨0, 11⟩⟩

/-- The values that a registry declares are those of its profiles. -/
theorem mem_of_declares {r : EffectRegistry} {d : String} {v : DimensionValue}
    (h : r.Declares d v) : v ∈ r.effects.values.flatMap fun p => p.dimensions.values := by
  obtain ⟨e, he⟩ := h
  obtain ⟨p, hp, hv⟩ := Option.bind_eq_some_iff.mp he
  exact List.mem_flatMap.mpr ⟨p, Keyed.mem_values_iff.mpr ⟨e, hp⟩, Keyed.mem_values_iff.mpr ⟨d, hv⟩⟩

instance (v : DimensionValue) : Decidable (NonNegative v) :=
  match v with
  | cost c => inferInstanceAs (Decidable (0 ≤ c))
  | number n => inferInstanceAs (Decidable (0 ≤ n))
  | .bool _ | name _ | streaming _ | confidenceGated .. => isTrue trivial

theorem nonNegative_mixedCosts {d : String} {v : DimensionValue}
    (h : (fromDeclsWithConfig mixedCosts none).Declares d v) : NonNegative v := by
  have hall : ∀ v ∈ (fromDeclsWithConfig mixedCosts none).effects.values.flatMap
      (fun p => p.dimensions.values), NonNegative v := by
    decide +kernel
  exact hall v (mem_of_declares h)

/-- Composing the named cost after the payment hides that the budget is exceeded. -/
theorem not_violationsPersist_mixedCosts :
    canonicalDimensionName oneDollarBudget.dimension.name = OrderedDimension.cost.name ∧
      (∀ v, (fromDeclsWithConfig mixedCosts none).Declares "cost" v → NonNegative v) ∧
      ¬ ViolationsPersist (fromDeclsWithConfig mixedCosts none) oneDollarBudget := by
  refine ⟨rfl, fun v => nonNegative_mixedCosts, fun h => ?_⟩
  have hafter := (h ["pay"] "audit" (by decide +kernel)).1
  revert hafter
  decide +kernel

/-- The characterization at the same registry and budget. -/
theorem violationsPersist_mixedCosts_iff :
    ViolationsPersist (fromDeclsWithConfig mixedCosts none) oneDollarBudget ↔
      (∀ v, (fromDeclsWithConfig mixedCosts none).Declares "cost" v →
        Carries .cost (some (cost 1)) ((fromDeclsWithConfig mixedCosts none).Declares "cost") v) ∨
      ¬ Reaches .cost (some (cost 1)) ((fromDeclsWithConfig mixedCosts none).Declares "cost") :=
  violationsPersist_iff mixedCosts none .cost oneDollarBudget rfl fun _ => nonNegative_mixedCosts

end Corvid.Effects
