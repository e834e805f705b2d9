import Corvid.Runtime.EffectFilter
import Mathlib.Data.Finset.Insert
import Mathlib.Data.List.Perm.Basic

/-!
# The order of a filter

In three-valued logic, neither the order of the children of a filter nor that of the agents matters.
The evaluation follows the logic where it succeeds. Whether it succeeds depends on the order, where a
predicate that fails comes behind a decision in one order and not in another.

## Main definitions

* `Permuted`: filters with their children in another order
* `DeMorgan`: filters with a negation moved inwards
* `OrderFree`: what a filter is expected to satisfy on a catalog

## Main results

* `exists_permuted_first`: every predicate comes first in some order
* `orderFree_iff`: where a filter does not depend on the order
-/

namespace Corvid.EffectFilter

variable {F : Type} [Floats F] {agent : FilterAgent F} {agents agents' : List (FilterAgent F)}
  {known : Finset String} {expr expr' : FilterExpr} {p : LeafPredicate}

/-- A conjunction, or a disjunction. -/
def junction : Bool → List FilterExpr → FilterExpr
  | false => .all
  | true => .any

@[simp] theorem kleene_junction (value : LeafPredicate → MatchState) (decided : Bool)
    (children : List FilterExpr) :
    kleene value (junction decided children) = kleeneJoin value decided children := by
  cases decided <;> simp [junction, kleene]

@[simp] theorem evaluateExpr_junction (decided : Bool) (children : List FilterExpr) :
    evaluateExpr agent known (junction decided children) =
      evaluateUntil agent known decided false children := by
  cases decided <;> simp [junction, evaluateExpr]

/-- The same filter, with the children of its conjunctions and disjunctions in another order. -/
inductive Permuted : FilterExpr → FilterExpr → Prop where
  | refl (e : FilterExpr) : Permuted e e
  | trans {e₁ e₂ e₃} : Permuted e₁ e₂ → Permuted e₂ e₃ → Permuted e₁ e₃
  | not {e e'} : Permuted e e' → Permuted (.not e) (.not e')
  | children (decided : Bool) {cs ds} : cs.Perm ds →
      Permuted (junction decided cs) (junction decided ds)
  | child (decided : Bool) (before after : List FilterExpr) {c c'} : Permuted c c' →
      Permuted (junction decided (before ++ c :: after)) (junction decided (before ++ c' :: after))

/-- The predicates of a filter. -/
inductive Within (p : LeafPredicate) : FilterExpr → Prop where
  | leaf : Within p (.leaf p)
  | not {e} : Within p e → Within p (.not e)
  | all {c cs} : c ∈ cs → Within p c → Within p (.all cs)
  | any {c cs} : c ∈ cs → Within p c → Within p (.any cs)

theorem within_junction {decided : Bool} {cs : List FilterExpr} :
    Within p (junction decided cs) ↔ ∃ c ∈ cs, Within p c := by
  constructor
  · intro h
    cases decided with
    | false =>
      cases h with
      | all hmem hc => exact ⟨_, hmem, hc⟩
    | true =>
      cases h with
      | any hmem hc => exact ⟨_, hmem, hc⟩
  · rintro ⟨c, hmem, hc⟩
    cases decided with
    | false => exact .all hmem hc
    | true => exact .any hmem hc

theorem kleeneJoin_eq_foldr (value : LeafPredicate → MatchState) (decided : Bool)
    (cs : List FilterExpr) : kleeneJoin value decided cs =
      (cs.map (kleene value)).foldr (MatchState.join decided) (.ofBool !decided) := by
  induction cs with
  | nil => rw [kleeneJoin]; rfl
  | cons c cs ih => rw [kleeneJoin, ih]; rfl

/-- The logic does not depend on the order. -/
theorem Permuted.kleene_eq (h : Permuted expr expr') (value : LeafPredicate → MatchState) :
    kleene value expr = kleene value expr' := by
  induction h with
  | refl => rfl
  | trans _ _ ih₁ ih₂ => exact ih₁.trans ih₂
  | not _ ih => rw [kleene, kleene, ih]
  | children decided hperm =>
    rw [kleene_junction, kleene_junction, kleeneJoin_eq_foldr, kleeneJoin_eq_foldr]
    exact (hperm.map _).foldr_eq _
  | child decided before after _ ih =>
    simp [kleeneJoin_eq_foldr, ih]

theorem Permuted.within_iff (h : Permuted expr expr') : Within p expr ↔ Within p expr' := by
  induction h with
  | refl => rfl
  | trans _ _ ih₁ ih₂ => exact ih₁.trans ih₂
  | not _ ih =>
    constructor
    · rintro (_ | h)
      exact .not (ih.mp h)
    · rintro (_ | h)
      exact .not (ih.mpr h)
  | children decided hperm =>
    simp only [within_junction, hperm.mem_iff]
  | child decided before after _ ih =>
    simp only [within_junction, List.mem_append, List.mem_cons, or_and_right, exists_or,
      exists_eq_left, ih]

/-- A filter in which a predicate comes first fails where the predicate does. -/
theorem exists_permuted_first (h : Within p expr) : ∃ expr', Permuted expr expr' ∧
    ∀ (agent : FilterAgent F) known err, evaluateLeaf p agent known = .error err →
      evaluateExpr agent known expr' = .error err := by
  have hjunction : ∀ (decided : Bool) {c : FilterExpr} {cs : List FilterExpr}, c ∈ cs →
      (∃ c', Permuted c c' ∧ ∀ (agent : FilterAgent F) known err,
        evaluateLeaf p agent known = .error err → evaluateExpr agent known c' = .error err) →
      ∃ expr', Permuted (junction decided cs) expr' ∧
        ∀ (agent : FilterAgent F) known err, evaluateLeaf p agent known = .error err →
          evaluateExpr agent known expr' = .error err := by
    rintro decided c cs hmem ⟨c', hc', hfirst⟩
    obtain ⟨before, after, rfl⟩ := List.append_of_mem hmem
    refine ⟨junction decided (c' :: (before ++ after)),
      (Permuted.children decided List.perm_middle).trans (.child decided [] _ hc'), ?_⟩
    intro agent known err herr
    rw [evaluateExpr_junction, evaluateUntil, hfirst agent known err herr]
  induction h with
  | leaf => exact ⟨_, .refl _, fun agent known err herr => by rw [evaluateExpr, herr]⟩
  | not _ ih =>
    obtain ⟨e', hperm, hfirst⟩ := ih
    refine ⟨.not e', .not hperm, fun agent known err herr => ?_⟩
    rw [evaluateExpr, hfirst agent known err herr]
    rfl
  | all hmem _ ih => exact hjunction false hmem ih
  | any hmem _ ih => exact hjunction true hmem ih

/-! ## Negations -/

/-- The same filter, with one negation moved into a conjunction or disjunction. -/
inductive DeMorgan : FilterExpr → FilterExpr → Prop where
  | all (xs : List FilterExpr) : DeMorgan (.not (.all xs)) (.any (xs.map .not))
  | any (xs : List FilterExpr) : DeMorgan (.not (.any xs)) (.all (xs.map .not))
  | not {e e'} : DeMorgan e e' → DeMorgan (.not e) (.not e')
  | child (decided : Bool) (before after : List FilterExpr) {c c'} : DeMorgan c c' →
      DeMorgan (junction decided (before ++ c :: after)) (junction decided (before ++ c' :: after))

theorem negate_evaluateUntil (decided saw : Bool) (xs : List FilterExpr) :
    (evaluateUntil agent known decided saw xs).map MatchState.negate =
      evaluateUntil agent known (!decided) saw (xs.map .not) := by
  induction xs generalizing saw with
  | nil =>
    rw [List.map_nil, evaluateUntil, evaluateUntil]
    cases saw <;> cases decided <;> rfl
  | cons x xs ih =>
    rw [List.map_cons, evaluateUntil, evaluateUntil, evaluateExpr]
    cases evaluateExpr agent known x with
    | error err => rfl
    | ok state =>
      change Except.map MatchState.negate (if state = .ofBool decided then .ok state else _) =
        if state.negate = .ofBool !decided then .ok state.negate else _
      have hnegate : state.negate = .ofBool (!decided) ↔ state = .ofBool decided := by
        rw [MatchState.negate_eq_iff, MatchState.negate_ofBool, Bool.not_not]
      have hunspecified : (state.negate == .unspecified) = (state == .unspecified) := by
        cases state <;> rfl
      rw [hunspecified, ← ih]
      by_cases hdecided : state = .ofBool decided
      · rw [if_pos hdecided, if_pos (hnegate.mpr hdecided)]
        rfl
      · rw [if_neg hdecided, if_neg (hnegate.not.mpr hdecided)]

theorem evaluateUntil_congr {c c' : FilterExpr}
    (h : evaluateExpr agent known c = evaluateExpr agent known c') (decided saw : Bool)
    (before after : List FilterExpr) :
    evaluateUntil agent known decided saw (before ++ c :: after) =
      evaluateUntil agent known decided saw (before ++ c' :: after) := by
  induction before generalizing saw with
  | nil => rw [List.nil_append, List.nil_append, evaluateUntil, evaluateUntil, h]
  | cons b before ih => simp only [List.cons_append, evaluateUntil, ih]

/-- Moving a negation changes nothing, not even the failures. -/
theorem DeMorgan.evaluateExpr_eq (h : DeMorgan expr expr') :
    evaluateExpr agent known expr = evaluateExpr agent known expr' := by
  induction h with
  | all xs =>
    rw [evaluateExpr, evaluateExpr, evaluateExpr]
    exact negate_evaluateUntil false false xs
  | any xs =>
    rw [evaluateExpr, evaluateExpr, evaluateExpr]
    exact negate_evaluateUntil true false xs
  | not _ ih => rw [evaluateExpr, evaluateExpr, ih]
  | child decided before after _ ih =>
    rw [evaluateExpr_junction, evaluateExpr_junction, evaluateUntil_congr ih]

/-! ## The search -/

/-- A filter that is quiet on every agent succeeds, with the agents on which it is true. -/
theorem findFrom_of_quiet {i : ℕ} (h : ∀ agent ∈ agents, Quiet agent known expr) :
    findFrom expr known i agents = .ok (((agents.zipIdx i).filter fun x =>
      kleene (leafValue x.1 known) expr = .matched).map Prod.snd) := by
  induction agents generalizing i with
  | nil => rfl
  | cons agent agents ih =>
    rw [List.forall_mem_cons] at h
    rw [findFrom, (evaluateExpr_eq_ok_iff expr _).mpr ⟨h.1, rfl⟩, List.zipIdx_cons]
    simp only [ih h.2, Except.map, List.filter_cons]
    congr 1
    split <;> simp_all

/-- A filter that is not quiet on some agent fails, with the failure of one of them. -/
theorem findFrom_of_not_quiet {i : ℕ} (h : ∃ agent ∈ agents, ¬ Quiet agent known expr) :
    ∃ agent ∈ agents, ∃ err, findFrom expr known i agents = .error err ∧
      evaluateExpr agent known expr = .error err := by
  induction agents generalizing i with
  | nil => simp at h
  | cons agent agents ih =>
    rw [findFrom]
    cases hfirst : evaluateExpr agent known expr with
    | error err => exact ⟨agent, List.mem_cons_self, err, rfl, hfirst⟩
    | ok state =>
      have hquiet := ((evaluateExpr_eq_ok_iff expr state).mp hfirst).1
      rw [List.exists_mem_cons_iff] at h
      have hrest := h.resolve_left (not_not.mpr hquiet)
      obtain ⟨failing, hmem, err, hfind, herr⟩ := ih (i := i + 1) hrest
      exact ⟨failing, List.mem_cons_of_mem _ hmem, err, by rw [hfind]; rfl, herr⟩

theorem findFrom_congr (h : ∀ agent : FilterAgent F, evaluateExpr agent known expr =
      evaluateExpr agent known expr') (i : ℕ) (agents : List (FilterAgent F)) :
    findFrom expr known i agents = findFrom expr' known i agents := by
  induction agents generalizing i with
  | nil => rfl
  | cons agent agents ih => rw [findFrom, findFrom, h, ih]

/-- The agents that are matched. -/
def matchedAgents (agents : List (FilterAgent F)) (expr : FilterExpr) : List (FilterAgent F) :=
  (findMatchingIndices agents expr).matchedIndices.filterMap (agents[·]?)

/-- The filter is quiet on every agent of the catalog. -/
def AllQuiet (agents : List (FilterAgent F)) (expr : FilterExpr) : Prop :=
  ∀ agent ∈ agents, Quiet agent (knownCustomDims agents) expr

theorem findMatchingIndices_of_allQuiet (h : AllQuiet agents expr) :
    findMatchingIndices agents expr = ⟨.ok, (agents.zipIdx.filter fun x =>
      kleene (leafValue x.1 (knownCustomDims agents)) expr = .matched).map Prod.snd, none⟩ := by
  rw [findMatchingIndices, findFrom_of_quiet h]

theorem findMatchingIndices_of_not_allQuiet (h : ¬ AllQuiet agents expr) :
    ∃ agent ∈ agents, ∃ err, evaluateExpr agent (knownCustomDims agents) expr = .error err ∧
      findMatchingIndices agents expr = ⟨err.status, [], some err.message⟩ := by
  have hloud : ∃ agent ∈ agents, ¬ Quiet agent (knownCustomDims agents) expr := by
    simpa [AllQuiet] using h
  obtain ⟨agent, hmem, err, hfind, herr⟩ := findFrom_of_not_quiet (i := 0) hloud
  exact ⟨agent, hmem, err, herr, by rw [findMatchingIndices, hfind]⟩

theorem matchedAgents_of_allQuiet (h : AllQuiet agents expr) :
    matchedAgents agents expr = agents.filter fun agent =>
      kleene (leafValue agent (knownCustomDims agents)) expr = .matched := by
  rw [matchedAgents, findMatchingIndices_of_allQuiet h, List.filterMap_map]
  have hfst : ∀ x ∈ agents.zipIdx.filter fun x =>
      kleene (leafValue x.1 (knownCustomDims agents)) expr = .matched,
      ((agents[·]?) ∘ Prod.snd) x = some x.1 := fun x hx =>
    List.mem_zipIdx_iff_getElem?.mp (List.mem_of_mem_filter hx)
  have hfilter : ∀ keep : FilterAgent F → Bool,
      (agents.zipIdx.filter fun x => keep x.1).map Prod.fst = agents.filter keep := fun keep =>
    List.filter_map.symm.trans (congrArg _ (List.zipIdx_map_fst 0 agents))
  rw [List.filterMap_congr hfst, List.filterMap_eq_map']
  exact hfilter fun agent => kleene (leafValue agent (knownCustomDims agents)) expr = .matched

theorem exists_of_evaluateUntil {decided saw : Bool} {cs : List FilterExpr} {err : FilterError}
    (h : evaluateUntil agent known decided saw cs = .error err) :
    ∃ c ∈ cs, evaluateExpr agent known c = .error err := by
  induction cs generalizing saw with
  | nil => cases h
  | cons c cs ih =>
    rw [evaluateUntil] at h
    cases hc : evaluateExpr agent known c with
    | error err' =>
      rw [hc] at h
      exact ⟨c, List.mem_cons_self, hc.trans h⟩
    | ok state =>
      rw [hc] at h
      dsimp only at h
      split at h
      · cases h
      · obtain ⟨d, hmem, hd⟩ := ih h
        exact ⟨d, List.mem_cons_of_mem c hmem, hd⟩

/-- A filter fails with the failure of one of its predicates. -/
theorem exists_within_of_error {err : FilterError}
    (h : evaluateExpr agent known expr = .error err) :
    ∃ p, Within p expr ∧ evaluateLeaf p agent known = .error err := by
  induction expr using FilterExpr.induct with
  | all cs ih =>
    rw [evaluateExpr] at h
    obtain ⟨c, hmem, hc⟩ := exists_of_evaluateUntil h
    obtain ⟨p, hp, herr⟩ := ih c hmem hc
    exact ⟨p, .all hmem hp, herr⟩
  | any cs ih =>
    rw [evaluateExpr] at h
    obtain ⟨c, hmem, hc⟩ := exists_of_evaluateUntil h
    obtain ⟨p, hp, herr⟩ := ih c hmem hc
    exact ⟨p, .any hmem hp, herr⟩
  | not e ih =>
    rw [evaluateExpr] at h
    cases he : evaluateExpr agent known e with
    | error err' =>
      rw [he] at h
      obtain ⟨p, hp, herr⟩ := ih (he.trans h)
      exact ⟨p, .not hp, herr⟩
    | ok state =>
      rw [he] at h
      cases h
  | leaf p =>
    rw [evaluateExpr] at h
    exact ⟨p, .leaf, h⟩

/-! ## The order -/

/-- What a filter is expected to satisfy on a catalog. -/
structure OrderFree (agents : List (FilterAgent F)) (expr : FilterExpr) : Prop where
  permuted : ∀ agents' expr', agents.Perm agents' → Permuted expr expr' →
    (findMatchingIndices agents' expr').status = (findMatchingIndices agents expr).status ∧
      (matchedAgents agents' expr').Perm (matchedAgents agents expr)
  logical : (findMatchingIndices agents expr).status = .ok →
    ∀ index agent, agents[index]? = some agent →
      (index ∈ (findMatchingIndices agents expr).matchedIndices ↔
        kleene (leafValue agent (knownCustomDims agents)) expr = .matched)
  deMorgan : ∀ expr', DeMorgan expr expr' →
    findMatchingIndices agents expr' = findMatchingIndices agents expr
  rejected : ∀ p, Within p expr → ¬ Known (knownCustomDims agents) p.dim →
    ∀ (agents' : List (FilterAgent F)) expr', Permuted expr expr' →
      ¬ Known (knownCustomDims agents') p.dim →
      ((findMatchingIndices agents' expr').status = .unknownDimension ↔
        (findMatchingIndices agents expr).status = .unknownDimension)

theorem knownCustomDims_perm (h : agents.Perm agents') :
    knownCustomDims agents = knownCustomDims agents' := by
  ext dim
  simp [knownCustomDims, h.mem_iff]

theorem allQuiet_perm (h : agents.Perm agents') : AllQuiet agents expr ↔ AllQuiet agents' expr := by
  simp only [AllQuiet, knownCustomDims_perm h, h.mem_iff]

theorem matchedAgents_perm (hagents : agents.Perm agents') (hexpr : Permuted expr expr')
    (h : AllQuiet agents expr) (h' : AllQuiet agents' expr') :
    (matchedAgents agents' expr').Perm (matchedAgents agents expr) := by
  rw [matchedAgents_of_allQuiet h, matchedAgents_of_allQuiet h', ← knownCustomDims_perm hagents]
  simp only [← hexpr.kleene_eq]
  exact hagents.symm.filter _

theorem matchedAgents_of_not_allQuiet (h : ¬ AllQuiet agents expr) :
    matchedAgents agents expr = [] := by
  obtain ⟨_, _, _, _, hfind⟩ := findMatchingIndices_of_not_allQuiet h
  rw [matchedAgents, hfind]
  rfl

/-- Without unknown dimensions, every failure is one of types. -/
theorem status_of_not_allQuiet
    (hknown : ∀ p, Within p expr → Known (knownCustomDims agents) p.dim)
    (h : ¬ AllQuiet agents expr) : (findMatchingIndices agents expr).status = .opMismatch := by
  obtain ⟨agent, -, err, herr, hfind⟩ := findMatchingIndices_of_not_allQuiet h
  obtain ⟨p, hp, hleaf⟩ := exists_within_of_error herr
  rw [hfind]
  exact status_evaluateLeaf (hknown p hp) hleaf

/-- A filter without failing predicates is quiet. -/
theorem quiet_of_not_fails (h : ∀ p, Within p expr → ¬ Fails agent known p) :
    Quiet agent known expr := by
  by_contra hloud
  obtain ⟨err, herr⟩ := (evaluateExpr_eq_error_iff expr).mpr hloud
  obtain ⟨p, hp, hleaf⟩ := exists_within_of_error herr
  exact h p hp ⟨err, hleaf⟩

theorem mem_matchedIndices_iff (h : AllQuiet agents expr) {index : ℕ}
    (hindex : agents[index]? = some agent) :
    index ∈ (findMatchingIndices agents expr).matchedIndices ↔
      kleene (leafValue agent (knownCustomDims agents)) expr = .matched := by
  rw [findMatchingIndices_of_allQuiet h]
  simp only [List.mem_map, List.mem_filter, List.mem_zipIdx_iff_getElem?, decide_eq_true_eq]
  constructor
  · rintro ⟨⟨other, _⟩, ⟨hother, hvalue⟩, rfl⟩
    obtain rfl := Option.some.inj (hindex.symm.trans hother)
    exact hvalue
  · exact fun hvalue => ⟨(agent, index), ⟨hindex, hvalue⟩, rfl⟩

/-- An agent that declares nothing. -/
def undeclared : FilterAgent F where
  trustTier := none
  costBoundUsd := none
  latencyP99Ms := none
  dangerous := false
  replayable := false
  deterministic := false
  reversibility := none
  custom := ∅

/-- A filter that names an unknown dimension is rejected, or not, depending on the order and on the
catalog. -/
theorem OrderFree.all_known (h : OrderFree agents expr) (hp : Within p expr) :
    Known (knownCustomDims agents) p.dim := by
  by_contra hunknown
  have hbuiltin : ¬ Known ∅ p.dim := fun hknown =>
    hunknown (hknown.imp_right fun hmem => absurd hmem (Finset.notMem_empty _))
  -- no agent, and one for which the predicate comes first
  have hnone := h.rejected p hp hunknown [] expr (.refl expr) hbuiltin
  obtain ⟨first, hperm, hfirst⟩ := exists_permuted_first (F := F) hp
  have hone := h.rejected p hp hunknown [undeclared] first hperm hbuiltin
  obtain ⟨err, herr, hstatus⟩ := @evaluateLeaf_of_not_known F _ undeclared _ _ hbuiltin
  have hfind : (findMatchingIndices [(undeclared : FilterAgent F)] first).status =
      .unknownDimension := by
    have hloud := hfirst undeclared (knownCustomDims [(undeclared : FilterAgent F)]) err herr
    rw [findMatchingIndices, findFrom, hloud]
    exact hstatus
  have hempty : (findMatchingIndices ([] : List (FilterAgent F)) expr).status = .ok := rfl
  rw [← hnone, hfind, hempty] at hone
  simp at hone

theorem orderFree_iff (agents : List (FilterAgent F)) (expr : FilterExpr) :
    OrderFree agents expr ↔
      (∀ p, Within p expr → Known (knownCustomDims agents) p.dim) ∧
        ((∀ p, Within p expr → ∀ agent ∈ agents, ¬ Fails agent (knownCustomDims agents) p) ∨
          ¬ ∃ expr', Permuted expr expr' ∧ AllQuiet agents expr') := by
  constructor
  · intro h
    refine ⟨fun p hp => h.all_known hp, ?_⟩
    by_contra hcond
    obtain ⟨hfails, hquiet⟩ := not_or.mp hcond
    simp only [not_forall, not_not] at hfails
    obtain ⟨expr', hperm, hquiet⟩ := not_not.mp hquiet
    obtain ⟨p, hp, agent, hagent, err, herr⟩ := hfails
    -- one order succeeds, and one with the failing predicate first does not
    obtain ⟨first, hfirst, hloud⟩ := exists_permuted_first (F := F) hp
    have hok := (h.permuted agents expr' (.refl _) hperm).1
    have herror := (h.permuted agents first (.refl _) hfirst).1
    rw [findMatchingIndices_of_allQuiet hquiet] at hok
    have hnot : ¬ AllQuiet agents first := fun hall =>
      (evaluateExpr_eq_error_iff first).mp ⟨err, hloud agent _ err herr⟩ (hall agent hagent)
    have hknown : ∀ p, Within p first → Known (knownCustomDims agents) p.dim := fun p hp =>
      h.all_known (hfirst.within_iff.mpr hp)
    rw [status_of_not_allQuiet hknown hnot, ← hok] at herror
    cases herror
  · rintro ⟨hknown, hcases⟩
    have hsame : ∀ agents' expr', agents.Perm agents' → Permuted expr expr' →
        (AllQuiet agents' expr' ↔ AllQuiet agents expr) := by
      intro agents' expr' hagents hexpr
      rw [← allQuiet_perm hagents]
      rcases hcases with hnone | hno
      · have hquiet : ∀ e, Permuted expr e → AllQuiet agents e := fun e he agent hagent =>
          quiet_of_not_fails fun p hp => hnone p (he.within_iff.mpr hp) agent hagent
        exact iff_of_true (hquiet expr' hexpr) (hquiet expr (.refl _))
      · exact iff_of_false (fun h => hno ⟨expr', hexpr, h⟩) fun h => hno ⟨expr, .refl _, h⟩
    refine ⟨fun agents' expr' hagents hexpr => ?_, fun hok index agent hindex => ?_,
      fun expr' hmorgan => ?_, fun p hp hunknown => absurd (hknown p hp) hunknown⟩
    · have hiff := hsame agents' expr' hagents hexpr
      by_cases hquiet : AllQuiet agents expr
      · have hquiet' := hiff.mpr hquiet
        rw [findMatchingIndices_of_allQuiet hquiet, findMatchingIndices_of_allQuiet hquiet']
        exact ⟨rfl, matchedAgents_perm hagents hexpr hquiet hquiet'⟩
      · have hloud' := hiff.not.mpr hquiet
        have hknown' : ∀ p, Within p expr' → Known (knownCustomDims agents') p.dim := fun p hp =>
          knownCustomDims_perm hagents ▸ hknown p (hexpr.within_iff.mpr hp)
        rw [status_of_not_allQuiet hknown hquiet, status_of_not_allQuiet hknown' hloud',
          matchedAgents_of_not_allQuiet hquiet, matchedAgents_of_not_allQuiet hloud']
        exact ⟨rfl, .refl _⟩
    · have hquiet : AllQuiet agents expr := by
        by_contra hloud
        rw [status_of_not_allQuiet hknown hloud] at hok
        cases hok
      exact mem_matchedIndices_iff hquiet hindex
    · rw [findMatchingIndices, findMatchingIndices,
        findFrom_congr fun agent => hmorgan.evaluateExpr_eq]

/-- An unknown dimension behind a predicate that does not match. -/
theorem not_orderFree_unknown_behind : ¬ ∃ (F : Type) (_ : Floats F),
    OrderFree [(undeclared : FilterAgent F)]
      (.all [.leaf ⟨"dangerous", .eq, .bool true⟩, .leaf ⟨"made_up", .eq, .bool true⟩]) := by
  rintro ⟨F, inst, h⟩
  have hstatus := (h.permuted _ (.all [.leaf ⟨"made_up", .eq, .bool true⟩,
    .leaf ⟨"dangerous", .eq, .bool true⟩]) (.refl _) (.children false (.swap _ _ []))).1
  have hfirst : (findMatchingIndices [(undeclared : FilterAgent F)] (.all [
      .leaf ⟨"made_up", .eq, .bool true⟩, .leaf ⟨"dangerous", .eq, .bool true⟩])).status =
        .unknownDimension := rfl
  have hbehind : (findMatchingIndices [(undeclared : FilterAgent F)] (.all [
      .leaf ⟨"dangerous", .eq, .bool true⟩, .leaf ⟨"made_up", .eq, .bool true⟩])).status = .ok := rfl
  rw [hfirst, hbehind] at hstatus
  cases hstatus

end Corvid.EffectFilter
