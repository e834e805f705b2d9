import Corvid.Effects.Names
import Corvid.Effects.Registry

/-!
# When composition depends on the order of effects

`compose` folds a step function over the values that the effects declare. The step combines two
values of one class and otherwise returns the incoming one, so a dimension that is declared
with values of different classes composes to whichever came last. Within a class most composers
are commutative; the exceptions are the latency names without a rank, the two name tournaments,
gates that differ below their threshold, and pull sources next to an empty buffer.

`Coherent` collects the conditions on the declared values, and they are exact: a registry
composes independently of order and repetition if and only if all its dimensions are coherent.

## Main definitions

* `OrderIndependent`: permuting effects changes nothing, repeating one only `Sum` dimensions
* `Coherent`: the condition on the values declared for one dimension

## Main results

* `composes_iff_coherent`: the characterization for one dimension
* `orderIndependent_iff_coherent`: the characterization for a whole registry
-/

namespace Corvid.Effects

open DimensionValue EffectRegistry Fold

/-! ## Classes of values -/

/-- The `Max` dimensions that have a composer of their own. -/
def OwnComposer (d : String) : Prop := d = "latency" ∨ d = "capability" ∨ d = "privacy_tier"

instance (d : String) : Decidable (OwnComposer d) := inferInstanceAs (Decidable (_ ∨ _))

/-- The class in which a rule combines a value, if it combines it at all. The generic maximum
reads a confidence gate as the name of its upper level. -/
def classOf (rule : CompositionRule) (d : String) (v : DimensionValue) : Option Kind :=
  match rule, v.kind with
  | .sum, .cost => some .cost
  | .sum, .number => some .number
  | .min, .number => some .number
  | .min, .cost => some .cost
  | .min, .name => some .name
  | .union, .name => some .name
  | .leastReversible, .bool => some .bool
  | .max, .name => some .name
  | .max, .number => if OwnComposer d then none else some .number
  | .max, .cost => if OwnComposer d then none else some .cost
  | .max, .confidenceGated => if OwnComposer d then none else some .name
  | _, _ => none

variable {s : DimensionSchema} {d : String} {S : DimensionValue → Prop}

/-- Away from latency a step combines values of one class only. -/
theorem fallback_step (hd : s.composition = .max → d ≠ "latency") :
    Fallback (step s d) (classOf s.composition d) := by
  obtain ⟨n, rule, b⟩ := s
  cases rule with
  | sum =>
    constructor <;> intro x a <;> cases x <;> cases a <;>
      simp [step, composeDimension, composeSum, classOf, kind]
  | min =>
    constructor <;> intro x a <;> cases x <;> cases a <;>
      simp [step, composeDimension, composeMin, classOf, kind]
  | union =>
    constructor <;> intro x a <;> cases x <;> cases a <;>
      simp [step, composeDimension, composeUnion, composeNames, classOf, kind]
  | leastReversible =>
    constructor <;> intro x a <;> cases x <;> cases a <;>
      simp [step, composeDimension, composeLeastReversible, classOf, kind]
  | max =>
    have hd := hd rfl
    by_cases hc : d = "capability"
    · subst hc
      constructor <;> intro x a <;> cases x <;> cases a <;>
        simp [step, composeDimension, composeMaxDimension, composeCapabilityDimension,
          composeNames, classOf, OwnComposer, kind]
    by_cases hp : d = "privacy_tier"
    · subst hp
      constructor <;> intro x a <;> cases x <;> cases a <;>
        simp [step, composeDimension, composeMaxDimension, composePrivacyTierDimension,
          composeNames, classOf, OwnComposer, kind]
    · constructor <;> intro x a <;> cases x <;> cases a <;>
        simp [step, composeDimension, composeMaxDimension, composeGenericMax, classOf,
          OwnComposer, kind, hd, hc, hp]

/-! ## Coherent declarations -/

/-- Every cycle of the tournament `g` through declared names, and through the default if it is
a name, consists of names that the default beats. -/
def CyclesBeaten (g : String → String → String) (b : DimensionValue)
    (S : DimensionValue → Prop) : Prop :=
  ∀ x y z, (b = name x ∨ S (name x)) → (b = name y ∨ S (name y)) → (b = name z ∨ S (name z)) →
    Cycle g x y z → ∃ n, b = name n ∧ Beats g n x ∧ Beats g n y ∧ Beats g n z

/-- The conditions on the values `S` that effects declare for the dimension `d`. -/
structure Coherent (s : DimensionSchema) (d : String) (S : DimensionValue → Prop) : Prop where
  /-- Two different values are of one class, unless one is a stream on the latency dimension. -/
  pairs : ∀ v w, S v → S w → v = w ∨
    (∃ k, classOf s.composition d v = some k ∧ classOf s.composition d w = some k) ∨
    (s.composition = .max ∧ d = "latency" ∧ (v.kind = .streaming ∨ w.kind = .streaming))
  /-- Sets start from a set, or are written in canonical form. -/
  sets : s.composition = .union →
    s.default.kind = .name ∨ ∀ n, S (name n) → mergeCommaSets n n = n
  trustMin : s.composition = .min → CyclesBeaten trustMin s.default S
  privacyTier : s.composition = .max → d = "privacy_tier" →
    CyclesBeaten privacyTierMax s.default S
  /-- At most one latency name has no rank of its own. -/
  latencyNames : s.composition = .max → d = "latency" → ∀ m n, S (name m) → S (name n) →
    latencyRank m = 5 → latencyRank n = 5 → m = n
  /-- Two pull sources never occur together with an empty buffer. -/
  latencyStreams : s.composition = .max → d = "latency" → ∀ m n,
    S (streaming (.pullsFrom m)) → S (streaming (.pullsFrom n)) → S (streaming (.bounded 0)) →
    m = n
  /-- Gates agree below their threshold, unless the default is a name. -/
  gates : s.composition = .max → ¬ OwnComposer d → s.default.kind = .name ∨
    ∀ t a b t' a' b', S (confidenceGated t a b) → S (confidenceGated t' a' b') → b = b'

/-- Folding the dimension's step over declared values depends neither on their order nor, for a
rule other than `Sum`, on repetitions. -/
def Composes (s : DimensionSchema) (d : String) (S : DimensionValue → Prop) : Prop :=
  OrderFree (step s d) s.default S ∧
    (s.composition ≠ .sum → RepetitionFree (step s d) s.default S)

theorem composes_of_absorbsOn {P : DimensionValue → Prop} (h : AbsorbsOn (step s d) P S)
    (hb : P s.default) : Composes s d S :=
  ⟨h.toCommutesOn.orderFree hb, fun _ => h.repetitionFree hb⟩

theorem kind_eq_name {v : DimensionValue} (h : v.kind = .name) : ∃ n, v = name n := by
  cases v <;> simp_all [kind]

/-- The entries of a class come from the payloads of its constructor. -/
theorem exists_of_kind {α : Type*} {φ : α → DimensionValue} {k : Kind}
    (hφ : ∀ v, v.kind = k → ∃ c, v = φ c) (hS : ∀ v, S v → v.kind = k) :
    ∀ v, S v → ∃ c, S (φ c) ∧ v = φ c := by
  intro v hv
  obtain ⟨c, rfl⟩ := hφ v (hS v hv)
  exact ⟨c, hv, rfl⟩

/-! ## Coherence is sufficient -/

/-- Coherent values are of one class, or they are all the same. -/
theorem Coherent.sameClass (h : Coherent s d S) (hd : s.composition = .max → d ≠ "latency") :
    (∃ k, ∀ v, S v → classOf s.composition d v = some k) ∨
      ((∀ v w, S v → S w → v = w) ∧ ∀ v, S v → classOf s.composition d v = none) := by
  refine sameClass_or_subsingleton fun v w hv hw => ?_
  rcases h.pairs v w hv hw with heq | hclass | ⟨hmax, hlat, -⟩
  · exact Or.inl heq
  · exact Or.inr hclass
  · exact absurd hlat (hd hmax)

/-- One class whose constructor `φ` turns the step into a commutative idempotent `g`. -/
theorem composes_of_map (hd : s.composition = .max → d ≠ "latency") {α : Type}
    {φ : α → DimensionValue} {g : α → α → α} {k : Kind}
    (hg : AbsorbsOn g (fun _ => True) fun c => S (φ c))
    (hstep : ∀ c c', step s d (φ c) (φ c') = φ (g c c'))
    (hclass : ∀ v, classOf s.composition d v = some k ↔ ∃ c, v = φ c)
    (hS : ∀ v, S v → classOf s.composition d v = some k)
    (hcomm : ∀ c c', g c c' = g c' c) (hidem : ∀ c, S (φ c) → g c c = c) : Composes s d S := by
  refine composes_of_absorbsOn ((fallback_step hd).absorbsOn_map hg hstep
    (fun c => (hclass _).mpr ⟨c, rfl⟩) (fun v hv => ?_) (fun _ _ => trivial)
    (fun c c' _ _ => hcomm c c') hidem) fun hb => ?_
  · obtain ⟨c, rfl⟩ := (hclass v).mp (hS v hv)
    exact ⟨c, hv, rfl⟩
  · obtain ⟨c, hc⟩ := (hclass _).mp hb
    exact ⟨c, trivial, hc⟩

/-- One class of names that a tournament composes. -/
theorem composes_of_tournament (hd : s.composition = .max → d ≠ "latency")
    {g : String → String → String} (hs : Selective g) (hc : ∀ a b, g a b = g b a)
    (hstep : ∀ a b, step s d (name a) (name b) = name (g a b))
    (hclass : ∀ v, classOf s.composition d v = some .name ↔ ∃ n, v = name n)
    (hS : ∀ v, S v → classOf s.composition d v = some .name) (hcyc : CyclesBeaten g s.default S) :
    Composes s d S := by
  have hS' : ∀ v, S v → ∃ n, S (name n) ∧ v = name n := by
    intro v hv
    obtain ⟨n, rfl⟩ := (hclass v).mp (hS v hv)
    exact ⟨n, hv, rfl⟩
  by_cases hb : ∃ n, s.default = name n
  · obtain ⟨n, hn⟩ := hb
    have hbeaten := commutesOn_of_cycles_beaten hs hc (S := fun m => S (name m)) (b := n) ?_
    · exact composes_of_absorbsOn ((hbeaten.absorbsOn_of_selective hs).map hstep hS')
        ⟨n, Or.inl rfl, hn⟩
    intro x y z hx hy hz hxyz
    have hor : ∀ {x}, (x = n ∨ S (name x)) → s.default = name x ∨ S (name x) := by
      rintro x (rfl | hx)
      · exact Or.inl hn
      · exact Or.inr hx
    obtain ⟨n', hn', hbeats⟩ := hcyc x y z (hor hx) (hor hy) (hor hz) hxyz
    obtain rfl : n = n' := by simpa using hn.symm.trans hn'
    exact hbeats
  · have hcomm := commutesOn_of_no_cycle hs hc (S := fun m => S (name m)) fun x y z hx hy hz h =>
      hb ((hcyc x y z (Or.inr hx) (Or.inr hy) (Or.inr hz) h).imp fun _ => And.left)
    exact composes_of_absorbsOn ((fallback_step hd).absorbsOn_map
      (hcomm.absorbsOn_of_selective hs) hstep (fun n => (hclass _).mpr ⟨n, rfl⟩) hS'
      (fun _ => id) (fun a b _ _ => hc a b) fun n _ => selective_self hs n)
      fun hb' => absurd ((hclass _).mp hb') hb

/-- One class whose constructor `φ` turns the step into addition. -/
theorem orderFree_of_add (hd : s.composition = .max → d ≠ "latency") {φ : Num → DimensionValue}
    {k : Kind} (hstep : ∀ c c', step s d (φ c) (φ c') = φ (c + c'))
    (hclass : ∀ v, classOf s.composition d v = some k ↔ ∃ c, v = φ c)
    (hS : ∀ v, S v → classOf s.composition d v = some k) :
    OrderFree (step s d) s.default S := by
  have hadd : CommutesOn (fun a b : Num => a + b) (fun _ => True) (fun c => S (φ c)) :=
    ⟨fun _ _ _ _ => trivial, fun x a a' _ _ _ => add_right_comm x a a'⟩
  refine ((fallback_step hd).commutesOn_map hadd hstep (fun c => (hclass _).mpr ⟨c, rfl⟩)
    (fun v hv => ?_) (fun _ _ => trivial) fun c c' _ _ => add_comm c c').orderFree fun hb => ?_
  · obtain ⟨c, rfl⟩ := (hclass v).mp (hS v hv)
    exact ⟨c, hv, rfl⟩
  · obtain ⟨c, hc⟩ := (hclass _).mp hb
    exact ⟨c, trivial, hc⟩

/-- A single value without class is always the result. -/
theorem composes_of_subsingleton (hd : s.composition = .max → d ≠ "latency")
    (hS : ∀ v w, S v → S w → v = w) (hnone : ∀ v, S v → classOf s.composition d v = none) :
    Composes s d S :=
  composes_of_absorbsOn ((fallback_step hd).absorbsOn_of_subsingleton hS hnone) trivial

/-- A class without values leaves nothing to compose. -/
theorem composes_of_noClass (hd : s.composition = .max → d ≠ "latency") {k : Kind}
    (hS : ∀ v, S v → classOf s.composition d v = some k)
    (hno : ∀ v, classOf s.composition d v ≠ some k) : Composes s d S :=
  composes_of_subsingleton hd (fun v _ hv _ => absurd (hS v hv) (hno v))
    fun v hv => absurd (hS v hv) (hno v)

theorem Coherent.composes_sum (h : Coherent s d S) (hrule : s.composition = .sum) :
    Composes s d S := by
  have hd : s.composition = .max → d ≠ "latency" := by simp [hrule]
  rcases h.sameClass hd with ⟨k, hk⟩ | ⟨hone, hnone⟩
  · obtain ⟨n, rule, b⟩ := s
    subst hrule
    cases k with
    | cost =>
      refine ⟨orderFree_of_add hd (φ := cost) (fun _ _ => rfl) (fun v => ?_) hk, by simp⟩
      cases v <;> simp [classOf, kind]
    | number =>
      refine ⟨orderFree_of_add hd (φ := number) (fun _ _ => rfl) (fun v => ?_) hk, by simp⟩
      cases v <;> simp [classOf, kind]
    | _ =>
      refine composes_of_noClass hd hk fun v => ?_
      cases v <;> simp [classOf, kind]
  · exact composes_of_subsingleton hd hone hnone

theorem Coherent.composes_min (h : Coherent s d S) (hrule : s.composition = .min) :
    Composes s d S := by
  have hd : s.composition = .max → d ≠ "latency" := by simp [hrule]
  have hcyc := h.trustMin hrule
  rcases h.sameClass hd with ⟨k, hk⟩ | ⟨hone, hnone⟩
  · obtain ⟨n, rule, b⟩ := s
    subst hrule
    cases k with
    | cost =>
      refine composes_of_map hd (φ := cost) (absorbsOn_min _) (fun _ _ => rfl) (fun v => ?_) hk
        min_comm fun c _ => min_self c
      cases v <;> simp [classOf, kind]
    | number =>
      refine composes_of_map hd (φ := number) (absorbsOn_min _) (fun _ _ => rfl) (fun v => ?_) hk
        min_comm fun c _ => min_self c
      cases v <;> simp [classOf, kind]
    | name =>
      refine composes_of_tournament hd trustMin_selective trustMin_comm (fun _ _ => rfl)
        (fun v => ?_) hk hcyc
      cases v <;> simp [classOf, kind]
    | _ =>
      refine composes_of_noClass hd hk fun v => ?_
      cases v <;> simp [classOf, kind]
  · exact composes_of_subsingleton hd hone hnone

theorem Coherent.composes_leastReversible (h : Coherent s d S)
    (hrule : s.composition = .leastReversible) : Composes s d S := by
  have hd : s.composition = .max → d ≠ "latency" := by simp [hrule]
  rcases h.sameClass hd with ⟨k, hk⟩ | ⟨hone, hnone⟩
  · obtain ⟨n, rule, b⟩ := s
    subst hrule
    cases k with
    | bool =>
      refine composes_of_map hd (φ := DimensionValue.bool) (absorbsOn_min _) (fun a b => ?_)
        (fun v => ?_) hk min_comm fun c _ => min_self c
      · cases a <;> cases b <;> rfl
      · cases v <;> simp [classOf, kind]
    | _ =>
      refine composes_of_noClass hd hk fun v => ?_
      cases v <;> simp [classOf, kind]
  · exact composes_of_subsingleton hd hone hnone

theorem Coherent.composes_union (h : Coherent s d S) (hrule : s.composition = .union) :
    Composes s d S := by
  have hd : s.composition = .max → d ≠ "latency" := by simp [hrule]
  have hsets := h.sets hrule
  rcases h.sameClass hd with ⟨k, hk⟩ | ⟨hone, hnone⟩
  · obtain ⟨n, rule, b⟩ := s
    subst hrule
    cases k with
    | name =>
      have hclass : ∀ v, classOf .union d v = some .name ↔ ∃ n, v = name n := by
        intro v
        cases v <;> simp [classOf, kind]
      rcases hsets with hb | hcanon
      · -- The default is a set, so every accumulator is one.
        obtain ⟨n, rfl⟩ := kind_eq_name hb
        refine composes_of_absorbsOn ((absorbsOn_mergeCommaSets fun n => S (name n)).map
          (φ := name) (fun _ _ => rfl) fun v hv => ?_) ⟨n, trivial, rfl⟩
        obtain ⟨m, rfl⟩ := (hclass v).mp (hk v hv)
        exact ⟨m, hv, rfl⟩
      · exact composes_of_map hd (φ := name) (absorbsOn_mergeCommaSets _) (fun _ _ => rfl) hclass
          hk mergeCommaSets_comm hcanon
    | _ =>
      refine composes_of_noClass hd hk fun v => ?_
      cases v <;> simp [classOf, kind]
  · exact composes_of_subsingleton hd hone hnone

/-! ### Maximum dimensions -/

theorem Coherent.composes_capability (h : Coherent s "capability" S)
    (hrule : s.composition = .max) : Composes s "capability" S := by
  have hd : s.composition = .max → "capability" ≠ "latency" := fun _ => by decide
  rcases h.sameClass hd with ⟨k, hk⟩ | ⟨hone, hnone⟩
  · obtain ⟨n, rule, b⟩ := s
    subst hrule
    cases k with
    | name =>
      refine composes_of_map hd (φ := name) (absorbsOn_capabilityMax _) (fun _ _ => rfl)
        (fun v => ?_) hk capabilityMax_comm fun c _ => ?_
      · cases v <;> simp [classOf, kind, OwnComposer]
      · rw [capabilityMax_eq, if_pos le_rfl]
    | _ =>
      refine composes_of_noClass hd hk fun v => ?_
      cases v <;> simp [classOf, kind, OwnComposer]
  · exact composes_of_subsingleton hd hone hnone

theorem Coherent.composes_privacyTier (h : Coherent s "privacy_tier" S)
    (hrule : s.composition = .max) : Composes s "privacy_tier" S := by
  have hd : s.composition = .max → "privacy_tier" ≠ "latency" := fun _ => by decide
  have hcyc := h.privacyTier hrule rfl
  rcases h.sameClass hd with ⟨k, hk⟩ | ⟨hone, hnone⟩
  · obtain ⟨n, rule, b⟩ := s
    subst hrule
    cases k with
    | name =>
      refine composes_of_tournament hd privacyTierMax_selective privacyTierMax_comm
        (fun _ _ => rfl) (fun v => ?_) hk hcyc
      cases v <;> simp [classOf, kind, OwnComposer]
    | _ =>
      refine composes_of_noClass hd hk fun v => ?_
      cases v <;> simp [classOf, kind, OwnComposer]
  · exact composes_of_subsingleton hd hone hnone

theorem step_generic (hrule : s.composition = .max) (hown : ¬ OwnComposer d) :
    step s d = composeGenericMax := by
  simp only [OwnComposer, not_or] at hown
  funext x a
  simp [step, composeDimension, composeMaxDimension, hrule, hown.1, hown.2.1, hown.2.2]

/-- The values that the generic maximum reads as a level. -/
theorem level_cases (hrule : s.composition = .max) (hown : ¬ OwnComposer d) {v : DimensionValue} :
    classOf s.composition d v = some .name ↔
      (∃ n, v = name n) ∨ ∃ t a b, v = confidenceGated t a b := by
  cases v <;> simp [classOf, kind, hrule, hown]

/-- From a name, gates compose like the names of their upper level. -/
theorem absorbsOn_genericMax_name
    (hS : ∀ v, S v → (∃ n, v = name n) ∨ ∃ t a b, v = confidenceGated t a b) :
    AbsorbsOn composeGenericMax (fun x => ∃ n, x = name n) S := by
  refine ⟨⟨?_, ?_⟩, ?_⟩
  · rintro _ a ⟨m, rfl⟩ ha
    rcases hS a ha with ⟨n, rfl⟩ | ⟨t, l, b, rfl⟩
    · exact ⟨_, rfl⟩
    · exact ⟨_, rfl⟩
  · rintro _ a a' ⟨m, rfl⟩ ha ha'
    rcases hS a ha with ⟨n, rfl⟩ | ⟨t, l, b, rfl⟩ <;>
      rcases hS a' ha' with ⟨n', rfl⟩ | ⟨t', l', b', rfl⟩ <;>
      exact congrArg name (trustMax_right_comm m _ _)
  · rintro _ a ⟨m, rfl⟩ ha
    rcases hS a ha with ⟨n, rfl⟩ | ⟨t, l, b, rfl⟩ <;>
      exact congrArg name (trustMax_trustMax_self m _)

/-- Gates that agree below their threshold compose independently of order, whatever the
initial value is. -/
theorem absorbsOn_genericMax_gates {β : String}
    (hS : ∀ v, S v → (∃ n, v = name n) ∨ ∃ t a, v = confidenceGated t a β) :
    AbsorbsOn composeGenericMax (fun _ => True) S := by
  refine ⟨⟨fun _ _ _ _ => trivial, fun x a a' _ ha ha' => ?_⟩, fun x a _ ha => ?_⟩
  · rcases hS a ha with ⟨n, rfl⟩ | ⟨t, l, rfl⟩ <;>
      rcases hS a' ha' with ⟨n', rfl⟩ | ⟨t', l', rfl⟩ <;>
      cases x <;>
      simp [composeGenericMax, trustMax_comm, trustMax_left_comm, max_comm, max_left_comm]
  · rcases hS a ha with ⟨n, rfl⟩ | ⟨t, l, rfl⟩ <;> cases x <;>
      simp [composeGenericMax, trustMax_self, trustMax_trustMax_self]

theorem Coherent.composes_generic (h : Coherent s d S) (hrule : s.composition = .max)
    (hown : ¬ OwnComposer d) : Composes s d S := by
  have hd : s.composition = .max → d ≠ "latency" := fun _ hlat => hown (Or.inl hlat)
  have hstep := step_generic hrule hown
  rcases h.sameClass hd with ⟨k, hk⟩ | ⟨hone, hnone⟩
  · cases k with
    | cost =>
      refine composes_of_map hd (φ := cost) (absorbsOn_max _) (fun _ _ => by rw [hstep]; rfl)
        (fun v => ?_) hk max_comm fun c _ => max_self c
      cases v <;> simp [classOf, kind, hrule, hown]
    | number =>
      refine composes_of_map hd (φ := number) (absorbsOn_max _) (fun _ _ => by rw [hstep]; rfl)
        (fun v => ?_) hk max_comm fun c _ => max_self c
      cases v <;> simp [classOf, kind, hrule, hown]
    | name =>
      have hlevel : ∀ v, S v → (∃ n, v = name n) ∨ ∃ t a b, v = confidenceGated t a b :=
        fun v hv => (level_cases hrule hown).mp (hk v hv)
      rcases h.gates hrule hown with hb | hgates
      · exact composes_of_absorbsOn (hstep ▸ absorbsOn_genericMax_name hlevel) (kind_eq_name hb)
      -- All gates agree below the threshold with one of them, if there is any.
      obtain ⟨β, hβ⟩ : ∃ β, ∀ t a b, S (confidenceGated t a b) → b = β := by
        by_cases hex : ∃ t a b, S (confidenceGated t a b)
        · obtain ⟨t, a, b, hv⟩ := hex
          exact ⟨b, fun t' a' b' hv' => hgates t' a' b' t a b hv' hv⟩
        · exact ⟨"", fun t a b hv => absurd ⟨t, a, b, hv⟩ hex⟩
      refine composes_of_absorbsOn (hstep ▸ absorbsOn_genericMax_gates (β := β) ?_) trivial
      intro v hv
      rcases hlevel v hv with hn | ⟨t, a, b, rfl⟩
      · exact Or.inl hn
      · exact Or.inr ⟨t, a, by rw [hβ t a b hv]⟩
    | _ =>
      refine composes_of_noClass hd hk fun v => ?_
      cases v <;> simp [classOf, kind, hrule, hown]
  · exact composes_of_subsingleton hd hone hnone

/-! ### Latency -/

theorem composeBackpressure_comm (p q : BackpressurePolicy) :
    composeBackpressure p q = composeBackpressure q p := by
  cases p <;> cases q <;> simp [composeBackpressure, max_comm, eq_comm]
  split <;> simp_all

/-- Policies ignore order and repetition unless two pull sources meet an empty buffer. -/
theorem absorbsOn_composeBackpressure {T : BackpressurePolicy → Prop}
    (h : ∀ m n, T (.pullsFrom m) → T (.pullsFrom n) → T (.bounded 0) → m = n) :
    ∃ A : BackpressurePolicy → Prop, (∀ p, T p → A p) ∧ AbsorbsOn composeBackpressure A T := by
  by_cases h0 : T (.bounded 0)
  · refine ⟨fun p => ∀ m, p = .pullsFrom m → T p, fun p hp _ _ => hp, ⟨⟨?_, ?_⟩, ?_⟩⟩
    · intro x a hx ha
      cases x <;> cases a <;> grind [composeBackpressure]
    · intro x a a' hx ha ha'
      cases x <;> cases a <;> cases a' <;> grind [composeBackpressure]
    · intro x a _ _
      cases x <;> cases a <;> grind [composeBackpressure]
  · refine ⟨fun p => p ≠ .bounded 0, fun p hp e => h0 (e ▸ hp), ⟨⟨?_, ?_⟩, ?_⟩⟩
    · intro x a hx ha
      cases x <;> cases a <;> grind [composeBackpressure]
    · intro x a a' hx ha ha'
      cases x <;> cases a <;> cases a' <;> grind [composeBackpressure]
    · intro x a _ _
      cases x <;> cases a <;> grind [composeBackpressure]

/-- A latency value is a stream or not; a stream hides every other value. -/
theorem composeLatencyDimension_stream_left (p : BackpressurePolicy) {v : DimensionValue}
    (hv : v.kind ≠ .streaming) : composeLatencyDimension (streaming p) v = streaming p := by
  cases v <;> simp_all [composeLatencyDimension, kind]

theorem composeLatencyDimension_stream_right {x : DimensionValue} (p : BackpressurePolicy)
    (hx : x.kind ≠ .streaming) : composeLatencyDimension x (streaming p) = streaming p := by
  cases x <;> simp_all [composeLatencyDimension, kind]

theorem kind_composeLatencyDimension {x v : DimensionValue} (hx : x.kind ≠ .streaming)
    (hv : v.kind ≠ .streaming) : (composeLatencyDimension x v).kind ≠ .streaming := by
  cases x <;> cases v <;> simp_all [composeLatencyDimension, kind]

theorem kind_eq_streaming {v : DimensionValue} (h : v.kind = .streaming) :
    ∃ p, v = streaming p := by
  cases v <;> simp_all [kind]

/-- The accumulators of a coherent latency dimension: streams with a policy of `A`, names
without a rank of their own only if declared, and declared values. -/
def LatencyReach (A : BackpressurePolicy → Prop) (S : DimensionValue → Prop)
    (x : DimensionValue) : Prop :=
  (∃ p, x = streaming p ∧ A p) ∨
    (∃ n, x = name n ∧ (latencyRank n = 5 → S (name n))) ∨ (x.kind ≠ .streaming ∧ S x)

/-- Away from streams the latency dimension composes coherent values in any order. -/
theorem Coherent.latency_right_comm (h : Coherent s "latency" S) (hrule : s.composition = .max)
    {A : BackpressurePolicy → Prop} {x a a' : DimensionValue} (hx : LatencyReach A S x)
    (hxs : x.kind ≠ .streaming) (ha : S a) (ha' : S a') (has : a.kind ≠ .streaming)
    (has' : a'.kind ≠ .streaming) :
    composeLatencyDimension (composeLatencyDimension x a) a' =
      composeLatencyDimension (composeLatencyDimension x a') a := by
  have hpair : ∀ {v w}, S v → S w → v.kind ≠ .streaming → w.kind ≠ .streaming → v = w ∨
      (∃ m, v = name m) ∧ ∃ n, w = name n := by
    intro v w hv hw hvs hws
    rcases h.pairs v w hv hw with heq | ⟨k, hk, hk'⟩ | ⟨-, -, hst | hst⟩
    · exact Or.inl heq
    · right
      have hname : ∀ {v}, classOf s.composition "latency" v = some k → ∃ n, v = name n := by
        intro v hv
        cases v <;> simp_all [classOf, kind, OwnComposer]
      exact ⟨hname hk, hname hk'⟩
    · exact absurd hst hvs
    · exact absurd hst hws
  rcases hpair ha ha' has has' with rfl | ⟨⟨m, rfl⟩, ⟨n, rfl⟩⟩
  · rfl
  have hlat := absorbsOn_latencyMax (S := fun n => S (name n)) (h.latencyNames hrule rfl)
  rcases hx with ⟨p, rfl, -⟩ | ⟨l, rfl, hl⟩ | ⟨-, hx⟩
  · exact absurd rfl hxs
  · exact congrArg name (hlat.comm l m n hl ha ha')
  · rcases hpair hx ha hxs has with rfl | ⟨⟨l, rfl⟩, -⟩
    · exact congrArg name (hlat.comm m m n (fun _ => ha) ha ha')
    · exact congrArg name (hlat.comm l m n (fun _ => hx) ha ha')

theorem composeLatencyDimension_absorb {x a : DimensionValue} (hxs : x.kind ≠ .streaming)
    (has : a.kind ≠ .streaming) :
    composeLatencyDimension (composeLatencyDimension x a) a = composeLatencyDimension x a := by
  have hlat : ∀ m n, latencyMax (latencyMax m n) n = latencyMax m n := by
    intro m n
    unfold latencyMax
    grind
  have hself : ∀ n, latencyMax n n = n := fun n => if_pos le_rfl
  cases x <;> cases a <;> simp_all [composeLatencyDimension, kind]

/-- Next to a stream, a value that is none has no effect. -/
theorem composeLatencyDimension_mixed (x : DimensionValue) (p : BackpressurePolicy)
    {v : DimensionValue} (hv : v.kind ≠ .streaming) :
    composeLatencyDimension (composeLatencyDimension x (streaming p)) v =
      composeLatencyDimension (composeLatencyDimension x v) (streaming p) := by
  by_cases hx : x.kind = .streaming
  · obtain ⟨q, rfl⟩ := kind_eq_streaming hx
    rw [composeLatencyDimension_stream_left q hv]
    exact composeLatencyDimension_stream_left _ hv
  · rw [composeLatencyDimension_stream_right p hx, composeLatencyDimension_stream_left p hv,
      composeLatencyDimension_stream_right p (kind_composeLatencyDimension hx hv)]

theorem Coherent.absorbsOn_latency (h : Coherent s "latency" S) (hrule : s.composition = .max) :
    ∃ P : DimensionValue → Prop, P (name "instant") ∧
      AbsorbsOn composeLatencyDimension P S := by
  obtain ⟨A, hTA, hA⟩ := absorbsOn_composeBackpressure (T := fun p => S (streaming p))
    (h.latencyStreams hrule rfl)
  have hinstant : latencyRank "instant" ≠ 5 := by decide
  refine ⟨LatencyReach A S, Or.inr (Or.inl ⟨_, rfl, fun h5 => absurd h5 hinstant⟩),
    ⟨⟨?_, ?_⟩, ?_⟩⟩
  · intro x a hx ha
    by_cases has : a.kind = .streaming
    · obtain ⟨p, rfl⟩ := kind_eq_streaming has
      rcases hx with ⟨q, rfl, hq⟩ | ⟨n, rfl, -⟩ | ⟨hxs, -⟩
      · exact Or.inl ⟨_, rfl, hA.step q p hq ha⟩
      · exact Or.inl ⟨p, rfl, hTA p ha⟩
      · exact Or.inl ⟨p, composeLatencyDimension_stream_right p hxs, hTA p ha⟩
    · by_cases hname : (∃ m, x = name m) ∧ ∃ n, a = name n
      · obtain ⟨⟨m, rfl⟩, ⟨n, rfl⟩⟩ := hname
        have hm : latencyRank m = 5 → S (name m) := by
          rcases hx with ⟨q, hq, -⟩ | ⟨l, hl, h5⟩ | ⟨-, hm⟩
          · cases hq
          · cases hl
            exact h5
          · exact fun _ => hm
        have hlat := absorbsOn_latencyMax (S := fun n => S (name n)) (h.latencyNames hrule rfl)
        exact Or.inr (Or.inl ⟨latencyMax m n, rfl, hlat.step m n hm ha⟩)
      · -- Neither a stream nor two names: the value is kept or replaced by the incoming one.
        by_cases hxs : x.kind = .streaming
        · obtain ⟨q, rfl⟩ := kind_eq_streaming hxs
          rw [composeLatencyDimension_stream_left q has]
          exact hx
        · have hin : composeLatencyDimension x a = a := by
            cases x <;> cases a <;> simp_all [composeLatencyDimension, kind]
          rw [hin]
          exact Or.inr (Or.inr ⟨has, ha⟩)
  · intro x a a' hx ha ha'
    by_cases has : a.kind = .streaming <;> by_cases has' : a'.kind = .streaming
    · obtain ⟨p, rfl⟩ := kind_eq_streaming has
      obtain ⟨q, rfl⟩ := kind_eq_streaming has'
      by_cases hxs : x.kind = .streaming
      · obtain ⟨o, rfl⟩ := kind_eq_streaming hxs
        have ho : A o := by
          rcases hx with ⟨o', ho', hAo⟩ | ⟨n, hn, -⟩ | ⟨hne, -⟩
          · cases ho'
            exact hAo
          · cases hn
          · exact absurd rfl hne
        exact congrArg streaming (hA.comm o p q ho ha ha')
      · rw [composeLatencyDimension_stream_right p hxs, composeLatencyDimension_stream_right q hxs]
        exact congrArg streaming (composeBackpressure_comm p q)
    · obtain ⟨p, rfl⟩ := kind_eq_streaming has
      exact composeLatencyDimension_mixed x p has'
    · obtain ⟨q, rfl⟩ := kind_eq_streaming has'
      exact (composeLatencyDimension_mixed x q has).symm
    · by_cases hxs : x.kind = .streaming
      · obtain ⟨o, rfl⟩ := kind_eq_streaming hxs
        simp only [composeLatencyDimension_stream_left o has,
          composeLatencyDimension_stream_left o has']
      · exact h.latency_right_comm hrule hx hxs ha ha' has has'
  · intro x a hx ha
    have hbp : ∀ o p, composeBackpressure (composeBackpressure o p) p = composeBackpressure o p := by
      intro o p
      cases o <;> cases p <;> grind [composeBackpressure]
    by_cases has : a.kind = .streaming <;> by_cases hxs : x.kind = .streaming
    · obtain ⟨p, rfl⟩ := kind_eq_streaming has
      obtain ⟨o, rfl⟩ := kind_eq_streaming hxs
      exact congrArg streaming (hbp o p)
    · obtain ⟨p, rfl⟩ := kind_eq_streaming has
      rw [composeLatencyDimension_stream_right p hxs]
      have hself : composeBackpressure p p = p := by
        cases p <;> simp [composeBackpressure]
      exact congrArg streaming hself
    · obtain ⟨o, rfl⟩ := kind_eq_streaming hxs
      simp only [composeLatencyDimension_stream_left o has]
    · exact composeLatencyDimension_absorb hxs has

theorem Coherent.composes_latency (h : Coherent s "latency" S) (hrule : s.composition = .max)
    (hdefault : s.default = name "instant") : Composes s "latency" S := by
  obtain ⟨P, hP, hf⟩ := h.absorbsOn_latency hrule
  have hstep : step s "latency" = composeLatencyDimension := by
    funext x a
    simp [step, composeDimension, composeMaxDimension, hrule]
  exact composes_of_absorbsOn (hstep ▸ hf) (hdefault ▸ hP)

/-- **Coherence is sufficient.** -/
theorem Coherent.composes (h : Coherent s d S)
    (hlat : d = "latency" → s.default = name "instant") : Composes s d S := by
  cases hrule : s.composition with
  | sum => exact h.composes_sum hrule
  | min => exact h.composes_min hrule
  | union => exact h.composes_union hrule
  | leastReversible => exact h.composes_leastReversible hrule
  | max =>
    by_cases hown : OwnComposer d
    · rcases hown with rfl | rfl | rfl
      · exact h.composes_latency hrule (hlat rfl)
      · exact h.composes_capability hrule
      · exact h.composes_privacyTier hrule
    · exact h.composes_generic hrule hown

/-! ## Coherence is necessary -/

theorem pairs_of_composes (h : Composes s d S)
    (hlat : d = "latency" → s.default = name "instant") (v w : DimensionValue) (hv : S v)
    (hw : S w) : v = w ∨
    (∃ k, classOf s.composition d v = some k ∧ classOf s.composition d w = some k) ∨
    (s.composition = .max ∧ d = "latency" ∧ (v.kind = .streaming ∨ w.kind = .streaming)) := by
  by_cases hd : s.composition = .max ∧ d = "latency"
  · obtain ⟨hrule, rfl⟩ := hd
    have hswap := h.1.swap hv hw
    rw [hlat rfl] at hswap
    simp only [step, composeDimension, hrule, composeMaxDimension, if_true] at hswap
    by_cases hst : v.kind = .streaming ∨ w.kind = .streaming
    · exact Or.inr (Or.inr ⟨hrule, rfl, hst⟩)
    by_cases hnames : v.kind = .name ∧ w.kind = .name
    · obtain ⟨m, rfl⟩ := kind_eq_name hnames.1
      obtain ⟨n, rfl⟩ := kind_eq_name hnames.2
      exact Or.inr (Or.inl ⟨.name, by rw [hrule]; rfl, by rw [hrule]; rfl⟩)
    · -- Otherwise the later of the two values is the result.
      left
      cases v <;> cases w <;> simp_all [composeLatencyDimension, kind]
  · have hd' : s.composition = .max → d ≠ "latency" := fun hrule hlat => hd ⟨hrule, hlat⟩
    rcases (fallback_step hd').eq_or_sameClass h.1 hv hw with heq | hclass
    · exact Or.inl heq
    · exact Or.inr (Or.inl hclass)

/-- A tournament whose folds do not depend on order has no cycle to depend on. -/
theorem cyclesBeaten_of_orderFree {g : String → String → String} (hs : Selective g)
    (hc : ∀ a b, g a b = g b a) (h : OrderFree (step s d) s.default S)
    (hstep : ∀ a b, step s d (name a) (name b) = name (g a b))
    (hin : ∀ n, (∀ m, s.default ≠ name m) → step s d s.default (name n) = name n) :
    CyclesBeaten g s.default S := by
  intro x y z hx hy hz hcyc
  by_cases hb : ∃ n, s.default = name n
  · obtain ⟨n, hn⟩ := hb
    refine ⟨n, hn, ?_⟩
    have hfree := (hn ▸ h).comap (fun _ _ h => by simpa using h) hstep
    have hor : ∀ {x}, (s.default = name x ∨ S (name x)) → x = n ∨ S (name x) := by
      rintro x (hx | hx)
      · rw [hn] at hx
        exact Or.inl (by simpa using hx.symm)
      · exact Or.inr hx
    exact (orderFree_iff_of_selective hs hc).mp hfree x y z (hor hx) (hor hy) (hor hz) hcyc
  · -- From another default the fold starts at its first name, so a cycle shows at once.
    have hne : ∀ m, s.default ≠ name m := fun m hm => hb ⟨m, hm⟩
    have hxS := hx.resolve_left (hne x)
    have hyS := hy.resolve_left (hne y)
    have hzS := hz.resolve_left (hne z)
    obtain ⟨hxy, hyz, hzx⟩ := hcyc
    have hrot := h [name x, name y, name z] [name y, name z, name x] (by simp [hxS, hyS, hzS])
      ((List.Perm.swap _ _ [name z]).trans ((List.Perm.swap _ _ []).cons (name y)))
    simp only [List.foldl_cons, List.foldl_nil, hin _ hne, hstep, hxy.1, hyz.1,
      hzx.eq_right hc, hxy.eq_right hc] at hrot
    exact absurd (by simpa using hrot.symm) hzx.2

/-- **Coherence is necessary.** -/
theorem Composes.coherent (h : Composes s d S) (hplain : Plain s.default)
    (hlat : d = "latency" → s.default = name "instant") : Coherent s d S where
  pairs := pairs_of_composes h hlat
  sets hrule := by
    by_cases hb : s.default.kind = .name
    · exact Or.inl hb
    refine Or.inr fun n hn => ?_
    have htwice := (h.2 (by simp [hrule])).twice hn
    simp only [step, composeDimension, hrule, composeUnion] at htwice
    cases hv : s.default <;> simp_all [composeNames, kind]
  trustMin hrule := by
    refine cyclesBeaten_of_orderFree trustMin_selective trustMin_comm h.1 (fun a b => ?_)
      fun n hne => ?_
    · simp [step, composeDimension, hrule, composeMin]
    · cases hv : s.default <;> simp_all [step, composeDimension, composeMin]
  privacyTier hrule hd := by
    refine cyclesBeaten_of_orderFree privacyTierMax_selective privacyTierMax_comm h.1
      (fun a b => ?_) fun n hne => ?_
    · simp [step, composeDimension, hrule, hd, composeMaxDimension, composePrivacyTierDimension,
        composeNames]
    · cases hv : s.default <;> simp_all [step, composeDimension, composeMaxDimension,
        composePrivacyTierDimension, composeNames]
  latencyNames hrule hd m n hm hn h5 h5' := by
    have hswap := h.1.swap hm hn
    have h0 : latencyRank "instant" = 0 := rfl
    simpa [step, composeDimension, hrule, hd, composeMaxDimension, hlat hd,
      composeLatencyDimension, latencyMax, h5, h5', h0] using hswap
  latencyStreams hrule hd m n hm hn h0 := by
    by_contra hne
    have hperm := h.1 [streaming (.pullsFrom m), streaming (.pullsFrom n), streaming (.bounded 0)]
      [streaming (.pullsFrom m), streaming (.bounded 0), streaming (.pullsFrom n)]
      (by simp [hm, hn, h0]) ((List.Perm.swap _ _ []).cons _)
    simp [step, composeDimension, hrule, hd, composeMaxDimension, hlat hd,
      composeLatencyDimension, composeBackpressure, hne] at hperm
  gates hrule hown := by
    by_cases hb : s.default.kind = .name
    · exact Or.inl hb
    refine Or.inr fun t a b t' a' b' hv hv' => ?_
    have hswap := h.1.swap hv hv'
    rw [step_generic hrule hown] at hswap
    cases hdef : s.default <;> simp_all [composeGenericMax, kind, Plain]

/-- **When a dimension composes independently of order and repetition**: exactly when the
declared values are coherent. -/
theorem composes_iff_coherent (hplain : Plain s.default)
    (hlat : d = "latency" → s.default = name "instant") : Composes s d S ↔ Coherent s d S :=
  ⟨fun h => h.coherent hplain hlat, fun h => h.composes hlat⟩

/-! ## Registries -/

/-- `compose` returns the same dimensions for every order of the effects, and repeating one of
them changes only the dimensions that compose by `Sum`. -/
def OrderIndependent (r : EffectRegistry) : Prop :=
  (∀ effects effects' : List String, effects.Perm effects' → ∀ d,
    (r.compose effects').dimensions.lookup d = (r.compose effects).dimensions.lookup d) ∧
  ∀ effects effects' : List String, ∀ e ∈ effects, effects'.Perm (e :: effects) →
    ∀ d s, r.dimensions.lookup d = some s → s.composition ≠ .sum →
      (r.compose effects').dimensions.lookup d = (r.compose effects).dimensions.lookup d

/-- Each dimension composes independently of order exactly when the whole registry does. -/
theorem orderIndependent_iff_composes (r : EffectRegistry) :
    OrderIndependent r ↔
      ∀ d s, r.dimensions.lookup d = some s → Composes s d (r.Declares d) := by
  constructor
  · rintro ⟨hperm, hrep⟩ d s hs
    refine ⟨fun l l' hl hp => ?_, fun hne l l' a ha hl hp => ?_⟩
    · obtain ⟨f, hf⟩ := exists_declared_eq hl
      have h := hperm (l.map f) (l'.map f) (hp.map f) d
      simpa [lookup_compose, hs, hf l (fun _ => id), hf l' fun v => hp.mem_iff.mpr] using h
    · have hl' : ∀ v ∈ l', v ∈ l := fun v hv =>
        (List.mem_cons.mp (hp.mem_iff.mp hv)).elim (fun e => e ▸ ha) id
      obtain ⟨f, hf⟩ := exists_declared_eq hl
      have h := hrep (l.map f) (l'.map f) (f a) (List.mem_map_of_mem ha) (hp.map f) d s hs hne
      simpa [lookup_compose, hs, hf l (fun _ => id), hf l' hl'] using h
  · intro h
    refine ⟨fun effects effects' hp d => ?_, fun effects effects' e he hp d s hs hne => ?_⟩
    · rw [lookup_compose, lookup_compose]
      cases hs : r.dimensions.lookup d with
      | none => rfl
      | some s =>
        exact congrArg some ((h d s hs).1 _ _ (fun v => declares_of_mem_declared)
          (hp.filterMap _))
    · rw [lookup_compose, lookup_compose, hs]
      refine congrArg some ?_
      have hdecl : (r.declared d effects').Perm (r.declared d (e :: effects)) := hp.filterMap _
      cases hv : r.declaredBy d e with
      | none =>
        rw [declared, declared, List.filterMap_cons_none hv] at hdecl
        exact (h d s hs).1 _ _ (fun v => declares_of_mem_declared) hdecl.symm
      | some v =>
        rw [declared, declared, List.filterMap_cons_some hv] at hdecl
        exact (h d s hs).2 hne _ _ v (List.mem_filterMap.mpr ⟨e, he, hv⟩)
          (fun v => declares_of_mem_declared) hdecl

/-- **When a registry composes independently of order and repetition**: exactly when the
values declared for each of its dimensions are coherent. -/
theorem orderIndependent_iff_coherent (decls : List EffectDecl) (config : Option CorvidConfig) :
    OrderIndependent (fromDeclsWithConfig decls config) ↔
      ∀ d s, (fromDeclsWithConfig decls config).dimensions.lookup d = some s →
        Coherent s d ((fromDeclsWithConfig decls config).Declares d) := by
  have hsound := sound_fromDeclsWithConfig decls config
  rw [orderIndependent_iff_composes]
  refine forall_congr' fun d => forall_congr' fun s => forall_congr' fun hs => ?_
  refine composes_iff_coherent (hsound.plain d s hs) fun hd => ?_
  have hlat := hsound.reserved "latency" (by decide)
  rw [← hd, hs, hd] at hlat
  cases hlat
  rfl

/-- Two effects with latency names that have no rank. -/
def unrankedLatencies : List EffectDecl :=
  [⟨⟨"poll", ⟨7, 11⟩⟩, [⟨⟨"latency", ⟨17, 24⟩⟩, name "hourly", ⟨17, 32⟩⟩], ⟨0, 32⟩⟩,
    ⟨⟨"sweep", ⟨40, 45⟩⟩, [⟨⟨"latency", ⟨51, 58⟩⟩, name "nightly", ⟨51, 67⟩⟩], ⟨33, 67⟩⟩]

/-- The latency maximum has no tie break: the effect composed first decides. -/
theorem not_orderIndependent_unrankedLatencies :
    ¬ OrderIndependent (fromDeclsWithConfig unrankedLatencies none) := by
  intro h
  have hswap := h.1 ["poll", "sweep"] ["sweep", "poll"] (List.Perm.swap _ _ []) "latency"
  revert hswap
  decide +kernel

end Corvid.Effects
