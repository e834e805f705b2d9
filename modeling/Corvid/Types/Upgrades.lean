import Corvid.Types.Path
import Mathlib.Algebra.Order.Group.Nat

/-!
# Upgrades on the paths of an accepted agent

The walk of the checker and a path through the same body go side by side. What the path says the walk
has seen of a local, the walk rejects at the next upgrade: its count of the kind is above that at the
refresh. So in an accepted body no upgrade is of a local that is stale in a kind that the walk has seen.

## Main definitions

* `Checker.Ok`, `Checker.Grows`: the walk on its own
* `Tracks`, `After`: the walk beside a path

## Main results

* `fresh_iff_nothingMissed`: on a path of an accepted agent, all upgrades are of fresh locals if and
  only if the walk has missed nothing that makes an upgraded local stale
* `stale_upgrade_accepted`: it may have missed something
-/

namespace Corvid.Types

variable {types : LocalId → Option Ty} {c c₁ c₂ c' : Checker}

/-! ### The walk -/

theorem rowOf_eq_true {id : LocalId} {k : WeakEffect} : rowOf types id k = true ↔
    ∃ inner row, types id = some (.weak inner row) ∧ row.has k := by
  unfold rowOf
  split
  next inner row h => simp [h]
  next h => simpa using fun inner row heq => absurd heq (h inner row)

namespace Checker

/-- No refresh is ahead of the counts, and a local of one type has this type. -/
structure Ok (types : LocalId → Option Ty) (c : Checker) : Prop where
  le : ∀ id r, c.weakRefresh id = some r → ∀ k, r.get k ≤ c.effectFrontier.get k
  typed : ∀ id t t', types id = some t → c.localTypes id = some t' → t' = t
  weak : ∀ id t, types id = some t → (c.weakRefresh id).isSome →
    c.localTypes id = some t ∧ ∃ inner row, t = .weak inner row

/-- What the walk keeps. -/
structure Grows (types : LocalId → Option Ty) (c c' : Checker) : Prop where
  frontier : ∀ k, c.effectFrontier.get k ≤ c'.effectFrontier.get k
  refresh : ∀ id t, types id = some t → (c.weakRefresh id).isSome → (c'.weakRefresh id).isSome
  types : ∀ id t, types id = some t → c.localTypes id = some t → c'.localTypes id = some t

theorem Grows.refl (c : Checker) : Grows types c c :=
  ⟨fun _ => le_rfl, fun _ _ _ h => h, fun _ _ _ h => h⟩

theorem Grows.trans (h₁ : Grows types c c₁) (h₂ : Grows types c₁ c₂) : Grows types c c₂ where
  frontier k := (h₁.frontier k).trans (h₂.frontier k)
  refresh id t ht h := h₂.refresh id t ht (h₁.refresh id t ht h)
  types id t ht h := h₂.types id t ht (h₁.types id t ht h)

/-- The walk goes on from `c` to `c'`. -/
abbrev Goes (types : LocalId → Option Ty) (c c' : Checker) : Prop := Ok types c' ∧ Grows types c c'

theorem Goes.trans (h₁ : Goes types c c₁) (h₂ : Goes types c₁ c₂) : Goes types c c₂ :=
  ⟨h₂.1, h₁.2.trans h₂.2⟩

theorem Ok.bumpEffect (h : Ok types c) (k : WeakEffect) : Goes types c (c.bumpEffect k) := by
  have hle : ∀ k', c.effectFrontier.get k' ≤ (c.bumpEffect k).effectFrontier.get k' := by
    intro k'
    simp only [Checker.bumpEffect, EffectFrontier.get_bumped]
    split <;> omega
  exact ⟨⟨fun id r hr k' => (h.le id r hr k').trans (hle k'), h.typed, h.weak⟩,
    ⟨hle, fun _ _ _ h => h, fun _ _ _ h => h⟩⟩

theorem Ok.bumpAll (h : Ok types c) (ks : List WeakEffect) :
    Goes types c (ks.foldl Checker.bumpEffect c) := by
  induction ks generalizing c with
  | nil => exact ⟨h, Grows.refl c⟩
  | cons k ks ih => exact (h.bumpEffect k).trans (ih (h.bumpEffect k).1)

@[simp] theorem bumpAll_errors (ks : List WeakEffect) (c : Checker) :
    (ks.foldl bumpEffect c).errors = c.errors := by
  induction ks generalizing c with
  | nil => rfl
  | cons k ks ih => exact ih (c.bumpEffect k)

@[simp] theorem bumpAll_weakRefresh (ks : List WeakEffect) (c : Checker) :
    (ks.foldl bumpEffect c).weakRefresh = c.weakRefresh := by
  induction ks generalizing c with
  | nil => rfl
  | cons k ks ih => exact ih (c.bumpEffect k)

/-- A kind is counted. -/
theorem lt_bumpAll {ks : List WeakEffect} {k : WeakEffect} (hk : k ∈ ks) (c : Checker) :
    c.effectFrontier.get k < (ks.foldl bumpEffect c).effectFrontier.get k := by
  induction ks generalizing c with
  | nil => cases hk
  | cons k' ks ih =>
    have hle : ∀ (ks : List WeakEffect) (c : Checker),
        c.effectFrontier.get k ≤ (ks.foldl bumpEffect c).effectFrontier.get k := by
      intro ks
      induction ks with
      | nil => exact fun c => le_rfl
      | cons k'' ks ih =>
        intro c
        refine le_trans ?_ (ih (c.bumpEffect k''))
        simp only [bumpEffect, EffectFrontier.get_bumped]
        split <;> omega
    by_cases heq : k = k'
    · refine lt_of_lt_of_le ?_ (hle ks (c.bumpEffect k'))
      simp [bumpEffect, heq]
    · have hmem : k ∈ ks := (List.mem_cons.mp hk).resolve_left heq
      refine lt_of_le_of_lt ?_ (ih hmem (c.bumpEffect k'))
      simp [bumpEffect, heq]

end Checker

theorem errors_of_weakUpgrade {weak : Expr} {ty : Ty}
    (h : (checkExpr c (.weakUpgrade weak ty)).errors = []) : (checkExpr c weak).errors = [] := by
  simp only [checkExpr] at h
  split at h
  · split at h
    · simp [Checker.error] at h
    · unfold Checker.refreshAfterUpgrade at h
      split at h
      · exact h
      · exact h
  · exact h
  · simp [Checker.error] at h

mutual

theorem errors_of_checkExpr (e : Expr) (c : Checker) (h : (checkExpr c e).errors = []) :
    c.errors = [] := by
  cases e with
  | literal ty => exact h
  | ident id ty =>
    simp only [checkExpr] at h
    split at h
    · exact h
    · simp [Checker.error] at h
  | call callee args ty =>
    simp only [checkExpr, Checker.bumpAll_errors] at h
    exact errors_of_checkArgs args c h
  | methodCall callee target args ty =>
    simp only [checkExpr, Checker.bumpAll_errors] at h
    exact errors_of_checkExpr target c (errors_of_checkExpr target _ (errors_of_checkArgs args _ h))
  | choose options ty => exact errors_of_checkExpr options (c.bumpEffect .human) h
  | weakUpgrade weak ty =>
    exact errors_of_checkExpr weak c (errors_of_weakUpgrade h)
  | operands parts ty => exact errors_of_checkArgs parts c h
  | logical left right ty =>
    exact errors_of_checkExpr left c (errors_of_checkExpr right _ h)
  | tryPropagate inner ty => exact errors_of_checkExpr inner c h
  | tryRetry body attempts ty => exact errors_of_checkExpr body c h
  | replay trace arms elseBody ty =>
    exact errors_of_checkExpr trace c
      (errors_of_checkArgs arms _ (errors_of_checkExpr elseBody _ h))

theorem errors_of_checkArgs (es : Args) (c : Checker) (h : (checkArgs c es).errors = []) :
    c.errors = [] := by
  cases es with
  | nil => exact h
  | cons e es => exact errors_of_checkExpr e c (errors_of_checkArgs es _ h)

end

theorem errors_updateWeakLocalOnAssignment (c : Checker) (id : LocalId) (value : Expr) (ty : Ty) :
    (c.updateWeakLocalOnAssignment id value ty).errors = c.errors := by
  unfold Checker.updateWeakLocalOnAssignment
  split
  · rfl
  · rfl

mutual

theorem errors_of_checkStmt (s : Stmt) (c : Checker) (h : (checkStmt c s).errors = []) :
    c.errors = [] := by
  cases s with
  | letStmt id ty value =>
    refine errors_of_checkExpr value c ?_
    simpa [checkStmt, Checker.bindLocal, errors_updateWeakLocalOnAssignment] using h
  | returnStmt value =>
    cases value with
    | none => exact h
    | some value => exact errors_of_checkExpr value c h
  | yieldStmt value => exact errors_of_checkExpr value c h
  | ifThen cond thenBlock =>
    exact errors_of_checkExpr cond c (errors_of_checkBlock thenBlock _ h)
  | ifElse cond thenBlock elseBlock =>
    refine errors_of_checkExpr cond c (errors_of_checkBlock thenBlock _ ?_)
    exact errors_of_checkBlock elseBlock { checkBlock (checkExpr c cond) thenBlock with
      effectFrontier := (checkExpr c cond).effectFrontier
      weakRefresh := (checkExpr c cond).weakRefresh } h
  | forStmt var iter body =>
    exact errors_of_checkExpr iter c
      (errors_of_checkBlock body ((checkExpr c iter).bindLocal var (elementTy iter.ty)) h)
  | approve args => exact errors_of_checkArgs args c h
  | expr e => exact errors_of_checkExpr e c h
  | breakStmt => exact h
  | continueStmt => exact h
  | pass => exact h

theorem errors_of_checkBlock (b : Block) (c : Checker) (h : (checkBlock c b).errors = []) :
    c.errors = [] := by
  cases b with
  | nil => exact h
  | cons s b => exact errors_of_checkStmt s c (errors_of_checkBlock b _ h)

end

/-- A local has the type that is recorded for it. -/
theorem checkExpr_ident {id : LocalId} {ty : Ty} (h : (checkExpr c (.ident id ty)).errors = []) :
    checkExpr c (.ident id ty) = c ∧ (c.localTypes id).getD .unknown = ty := by
  simp only [checkExpr] at h ⊢
  split at h
  next heq => exact ⟨if_pos heq, heq⟩
  next hne => simp [Checker.error] at h

/-- An accepted upgrade: the counts of the kinds in the row have not moved, and the walk takes the local
to be refreshed. -/
theorem checkExpr_weakUpgrade {weak : Expr} {ty : Ty}
    (h : (checkExpr c (.weakUpgrade weak ty)).errors = []) :
    (weak.ty = .unknown ∧ checkExpr c (.weakUpgrade weak ty) = checkExpr c weak) ∨
      ∃ inner row, weak.ty = .weak inner row ∧
        (∀ k, row.has k → (checkExpr c weak).effectFrontier.get k =
          ((checkExpr c weak).refreshFrontierForExpr weak weak.ty).get k) ∧
        checkExpr c (.weakUpgrade weak ty) = (checkExpr c weak).refreshAfterUpgrade weak := by
  simp only [checkExpr] at h ⊢
  split at h
  next inner row heq =>
    refine .inr ⟨inner, row, heq, ?_⟩
    split at h
    next => simp [Checker.error] at h
    next hnil =>
      rw [ne_eq, not_not] at hnil
      refine ⟨EffectFrontier.invalidatingEffectsSince_eq_nil.mp hnil, ?_⟩
      rw [heq] at hnil
      simp [heq, hnil]
  next heq => exact .inl ⟨heq, by simp⟩
  next => simp [Checker.error] at h

/-- The walk takes a weak local to be refreshed at the counts that it has reached. -/
theorem Checker.Ok.refresh (hok : c.Ok types) {id : LocalId} {inner : Ty} {row : WeakEffectRow}
    (hty : c.localTypes id = some (.weak inner row)) :
    Checker.Goes types c { c with
      weakRefresh := Function.update c.weakRefresh id (some c.effectFrontier) } := by
  refine ⟨⟨?_, hok.typed, ?_⟩, ⟨fun _ => le_rfl, ?_, fun _ _ _ h => h⟩⟩
  · intro id' r hr k
    by_cases hid : id' = id
    · subst hid
      obtain rfl : c.effectFrontier = r := by simpa using hr
      exact le_rfl
    · exact hok.le id' r ((Function.update_of_ne hid _ _).symm.trans hr) k
  · intro id' t ht hsome
    by_cases hid : id' = id
    · subst hid
      obtain rfl := hok.typed id' t _ ht hty
      exact ⟨hty, inner, row, rfl⟩
    · dsimp only at hsome
      rw [Function.update_of_ne hid] at hsome
      exact hok.weak id' t ht hsome
  · intro id' t ht hsome
    by_cases hid : id' = id
    · subst hid
      simp
    · dsimp only
      rwa [Function.update_of_ne hid]

theorem getD_unknown_eq_weak {o : Option Ty} {inner : Ty} {row : WeakEffectRow}
    (h : o.getD .unknown = .weak inner row) : o = some (.weak inner row) := by
  cases o with
  | none => cases h
  | some t => exact congrArg some h

mutual

theorem checkExpr_goes (e : Expr) (c : Checker) (hok : c.Ok types)
    (h : (checkExpr c e).errors = []) : Checker.Goes types c (checkExpr c e) := by
  cases e with
  | literal ty => exact ⟨hok, .refl c⟩
  | ident id ty =>
    rw [(checkExpr_ident h).1]
    exact ⟨hok, .refl c⟩
  | call callee args ty =>
    simp only [checkExpr, Checker.bumpAll_errors] at h ⊢
    have hargs := checkArgs_goes args c hok h
    exact hargs.trans (hargs.1.bumpAll _)
  | methodCall callee target args ty =>
    simp only [checkExpr, Checker.bumpAll_errors] at h ⊢
    have htwice := errors_of_checkArgs args _ h
    have htarget := checkExpr_goes target c hok (errors_of_checkExpr target _ htwice)
    have hargs := (checkExpr_goes target _ htarget.1 htwice)
    have hall := checkArgs_goes args _ hargs.1 h
    exact htarget.trans (hargs.trans (hall.trans (hall.1.bumpAll _)))
  | choose options ty =>
    have hbump := hok.bumpEffect .human
    exact hbump.trans (checkExpr_goes options _ hbump.1 h)
  | weakUpgrade weak ty =>
    have hweak := errors_of_weakUpgrade h
    have hgoes := checkExpr_goes weak c hok hweak
    rcases checkExpr_weakUpgrade h with ⟨-, heq⟩ | ⟨inner, row, hty, -, heq⟩
    · exact heq ▸ hgoes
    · rw [heq]
      cases weak with
      | ident id ty' =>
        obtain ⟨hsame, hlocal⟩ := checkExpr_ident hweak
        obtain rfl : ty' = .weak inner row := hty
        rw [hsame]
        exact hok.refresh (getD_unknown_eq_weak hlocal)
      | _ => exact hgoes
  | operands parts ty => exact checkArgs_goes parts c hok h
  | logical left right ty =>
    have hleft := checkExpr_goes left c hok (errors_of_checkExpr right _ h)
    exact hleft.trans (checkExpr_goes right _ hleft.1 h)
  | tryPropagate inner ty => exact checkExpr_goes inner c hok h
  | tryRetry body attempts ty => exact checkExpr_goes body c hok h
  | replay trace arms elseBody ty =>
    have harms := errors_of_checkExpr elseBody _ h
    have htrace := checkExpr_goes trace c hok (errors_of_checkArgs arms _ harms)
    have hone := checkArgs_goes arms _ htrace.1 harms
    exact htrace.trans (hone.trans (checkExpr_goes elseBody _ hone.1 h))

theorem checkArgs_goes (es : Args) (c : Checker) (hok : c.Ok types)
    (h : (checkArgs c es).errors = []) : Checker.Goes types c (checkArgs c es) := by
  cases es with
  | nil => exact ⟨hok, .refl c⟩
  | cons e es =>
    have hhead := checkExpr_goes e c hok (errors_of_checkArgs es _ h)
    exact hhead.trans (checkArgs_goes es _ hhead.1 h)

end

/-! ### Statements -/

/-- A local of one type has this type in all bindings. -/
def Conforms (types : LocalId → Option Ty) (binds : List (LocalId × Ty)) : Prop :=
  ∀ b ∈ binds, ∀ t, types b.1 = some t → b.2 = t

namespace Checker

/-- Two walks from the same entry meet. -/
def join (base : Checker) (entry left right : LocalId → Option EffectFrontier)
    (leftFrontier rightFrontier : EffectFrontier) : Checker :=
  { base with
    effectFrontier := leftFrontier.mergeMax rightFrontier
    weakRefresh := base.mergeWeakRefresh entry left right }

section Join

variable {base : Checker} {entry left right : LocalId → Option EffectFrontier}
  {leftFrontier rightFrontier : EffectFrontier} {id : LocalId} {inner : Ty} {row : WeakEffectRow}

theorem mergeWeakRefresh_of_weak (hty : base.localTypes id = some (.weak inner row)) :
    base.mergeWeakRefresh entry left right id =
      some (((left id).getD ((entry id).getD .default)).meetMin
        ((right id).getD ((entry id).getD .default))) := by
  simp [mergeWeakRefresh, hty]

theorem localTypes_of_mergeWeakRefresh (h : (base.mergeWeakRefresh entry left right id).isSome) :
    ∃ inner row, base.localTypes id = some (.weak inner row) := by
  unfold mergeWeakRefresh at h
  split at h
  next inner row heq => exact ⟨inner, row, heq⟩
  next => cases h

theorem get_getD_le {o o' : Option EffectFrontier} {frontier : EffectFrontier} {k : WeakEffect}
    (h : ∀ r, o = some r → r.get k ≤ frontier.get k)
    (h' : ∀ r, o' = some r → r.get k ≤ frontier.get k) :
    (o.getD (o'.getD .default)).get k ≤ frontier.get k := by
  cases o with
  | some r => exact h r rfl
  | none =>
    cases o' with
    | some r => exact h' r rfl
    | none => simp

/-- What both walks meet the conditions for, their meeting does. -/
theorem join_goes {c : Checker} (hc : Ok types c) (hbase : Ok types base) (hgrows : Grows types c base)
    (hleft : ∀ k, c.effectFrontier.get k ≤ leftFrontier.get k)
    (hl : ∀ id r, left id = some r → ∀ k, r.get k ≤ leftFrontier.get k) :
    Goes types c (base.join c.weakRefresh left right leftFrontier rightFrontier) := by
  refine ⟨⟨?_, hbase.typed, ?_⟩, ⟨?_, ?_, hgrows.types⟩⟩
  · intro id r hr k
    obtain ⟨inner, row, hty⟩ := localTypes_of_mergeWeakRefresh (Option.isSome_iff_exists.mpr ⟨r, hr⟩)
    obtain rfl := Option.some.inj ((mergeWeakRefresh_of_weak hty).symm.trans hr)
    simp only [join, EffectFrontier.get_meetMin, EffectFrontier.get_mergeMax]
    -- the side on the left is below the counts on the left
    refine (min_le_left _ _).trans (le_max_of_le_left ?_)
    exact get_getD_le (fun r hr => hl id r hr k) fun r hr => (hc.le id r hr k).trans (hleft k)
  · intro id t ht hsome
    obtain ⟨inner, row, hty⟩ := localTypes_of_mergeWeakRefresh hsome
    obtain rfl := hbase.typed id t _ ht hty
    exact ⟨hty, inner, row, rfl⟩
  · intro k
    simp only [join, EffectFrontier.get_mergeMax]
    exact le_max_of_le_left (hleft k)
  · intro id t ht hsome
    obtain ⟨hty, inner, row, rfl⟩ := hc.weak id t ht hsome
    simp [join, mergeWeakRefresh_of_weak (hgrows.types id _ ht hty)]

end Join

/-- A walk from the counts of `c`, with the types that another walk has left. -/
theorem Ok.restart (hc : Ok types c) (h : Goes types c c₁) : Goes types c { c₁ with
    effectFrontier := c.effectFrontier
    weakRefresh := c.weakRefresh } := by
  refine ⟨⟨hc.le, h.1.typed, ?_⟩, ⟨fun _ => le_rfl, fun _ _ _ h => h, h.2.types⟩⟩
  intro id t ht hsome
  obtain ⟨hty, hweak⟩ := hc.weak id t ht hsome
  exact ⟨h.2.types id t ht hty, hweak⟩

theorem Ok.bindLocal (hc : Ok types c) {id : LocalId} {ty : Ty}
    (hid : ∀ t, types id = some t → ty = t) : Goes types c (c.bindLocal id ty) := by
  have hkeep : ∀ id' t, types id' = some t → c.localTypes id' = some t →
      (c.bindLocal id ty).localTypes id' = some t := by
    intro id' t ht hty
    by_cases heq : id' = id
    · subst heq
      simp [Checker.bindLocal, hid t ht]
    · exact (Function.update_of_ne heq _ _).trans hty
  refine ⟨⟨hc.le, ?_, ?_⟩, ⟨fun _ => le_rfl, fun _ _ _ h => h, hkeep⟩⟩
  · intro id' t t' ht hty
    by_cases heq : id' = id
    · subst heq
      obtain rfl : ty = t' := by simpa [Checker.bindLocal] using hty
      exact hid t ht
    · exact hc.typed id' t t' ht ((Function.update_of_ne heq _ _).symm.trans hty)
  · intro id' t ht hsome
    obtain ⟨hty, hweak⟩ := hc.weak id' t ht hsome
    exact ⟨hkeep id' t ht hty, hweak⟩

theorem Ok.refreshFrontier_le (hc : Ok types c) (value : Expr) (ty : Ty) (k : WeakEffect) :
    (c.refreshFrontierForExpr value ty).get k ≤ c.effectFrontier.get k := by
  unfold refreshFrontierForExpr
  split
  next id _ _ _ =>
    cases h : c.weakRefresh id with
    | none => exact le_rfl
    | some r => exact hc.le id r h k
  next => exact le_rfl

theorem Ok.assign (hc : Ok types c) {id : LocalId} {value : Expr} {ty : Ty}
    (hid : ∀ t, types id = some t → ty = t) :
    Goes types c ((c.updateWeakLocalOnAssignment id value ty).bindLocal id ty) := by
  obtain ⟨hbind, hgrows⟩ := hc.bindLocal hid
  cases ty with
  | weak inner row =>
    refine ⟨⟨?_, hbind.typed, ?_⟩, ⟨fun _ => le_rfl, ?_, hgrows.types⟩⟩
    · intro id' r hr k
      by_cases heq : id' = id
      · subst heq
        obtain rfl : c.refreshFrontierForExpr value (.weak inner row) = r := by
          simpa [updateWeakLocalOnAssignment, Checker.bindLocal] using hr
        exact hc.refreshFrontier_le value _ k
      · exact hc.le id' r ((Function.update_of_ne heq _ _).symm.trans hr) k
    · intro id' t ht hsome
      by_cases heq : id' = id
      · subst heq
        obtain rfl := hid t ht
        exact ⟨Function.update_self .., inner, row, rfl⟩
      · simp only [updateWeakLocalOnAssignment, Checker.bindLocal, Function.update_of_ne heq] at hsome
        exact hbind.weak id' t ht hsome
    · intro id' t ht hsome
      by_cases heq : id' = id
      · subst heq
        simp [updateWeakLocalOnAssignment, Checker.bindLocal]
      · simpa [updateWeakLocalOnAssignment, Checker.bindLocal, Function.update_of_ne heq] using hsome
  | _ =>
    -- a local of one type that is not weak has never been refreshed
    have hnone : ∀ t, types id = some t → c.weakRefresh id = none := by
      intro t ht
      by_contra hne
      obtain ⟨-, inner, row, rfl⟩ := hc.weak id t ht (Option.isSome_iff_ne_none.mpr hne)
      exact absurd (hid _ ht) (by simp)
    refine ⟨⟨?_, hbind.typed, ?_⟩, ⟨fun _ => le_rfl, ?_, hgrows.types⟩⟩
    · intro id' r hr k
      by_cases heq : id' = id
      · subst heq
        simp [updateWeakLocalOnAssignment, Checker.bindLocal] at hr
      · exact hc.le id' r ((Function.update_of_ne heq _ _).symm.trans hr) k
    · intro id' t ht hsome
      by_cases heq : id' = id
      · subst heq
        simp [updateWeakLocalOnAssignment, Checker.bindLocal] at hsome
      · simp only [updateWeakLocalOnAssignment, Checker.bindLocal, Function.update_of_ne heq] at hsome
        exact hbind.weak id' t ht hsome
    · intro id' t ht hsome
      by_cases heq : id' = id
      · subst heq
        simp [hnone t ht] at hsome
      · simpa [updateWeakLocalOnAssignment, Checker.bindLocal, Function.update_of_ne heq] using hsome

end Checker

theorem conforms_append {l l' : List (LocalId × Ty)} :
    Conforms types (l ++ l') ↔ Conforms types l ∧ Conforms types l' := by
  simp only [Conforms, List.forall_mem_append]

mutual

theorem checkStmt_goes (s : Stmt) (c : Checker) (hok : c.Ok types) (hs : Conforms types s.bindings)
    (h : (checkStmt c s).errors = []) : Checker.Goes types c (checkStmt c s) := by
  cases s with
  | letStmt id ty value =>
    have hvalue : (checkExpr c value).errors = [] := by
      simpa [checkStmt, Checker.bindLocal, errors_updateWeakLocalOnAssignment] using h
    have hgoes := checkExpr_goes value c hok hvalue
    exact hgoes.trans (hgoes.1.assign (hs _ (List.mem_singleton_self _)))
  | returnStmt value =>
    cases value with
    | none => exact ⟨hok, .refl c⟩
    | some value => exact checkExpr_goes value c hok h
  | yieldStmt value => exact checkExpr_goes value c hok h
  | ifThen cond thenBlock =>
    have hcond := checkExpr_goes cond c hok (errors_of_checkBlock thenBlock _ h)
    have hthen := checkBlock_goes thenBlock _ hcond.1 hs h
    exact hcond.trans (Checker.join_goes hcond.1 hthen.1 hthen.2 hthen.2.frontier hthen.1.le)
  | ifElse cond thenBlock elseBlock =>
    obtain ⟨hs₁, hs₂⟩ := conforms_append.mp hs
    have helse : (checkBlock { checkBlock (checkExpr c cond) thenBlock with
      effectFrontier := (checkExpr c cond).effectFrontier
      weakRefresh := (checkExpr c cond).weakRefresh } elseBlock).errors = [] := h
    have hthen := errors_of_checkBlock elseBlock _ helse
    have hcond := checkExpr_goes cond c hok (errors_of_checkBlock thenBlock _ hthen)
    have hfst := checkBlock_goes thenBlock _ hcond.1 hs₁ hthen
    have hre := hcond.1.restart hfst
    have hsnd := checkBlock_goes elseBlock _ hre.1 hs₂ helse
    exact hcond.trans (Checker.join_goes hcond.1 hsnd.1 (hre.trans hsnd).2 hfst.2.frontier hfst.1.le)
  | forStmt var iter body =>
    have hbody : (checkBlock ((checkExpr c iter).bindLocal var (elementTy iter.ty)) body).errors = [] :=
      h
    have hiter := checkExpr_goes iter c hok
      (errors_of_checkBlock body ((checkExpr c iter).bindLocal var (elementTy iter.ty)) hbody)
    have hbind := hiter.1.bindLocal (hs _ List.mem_cons_self)
    have hgoes := checkBlock_goes body _ hbind.1 (fun b hb => hs b (List.mem_cons_of_mem _ hb)) hbody
    exact hiter.trans (hbind.trans
      (Checker.join_goes hbind.1 hgoes.1 hgoes.2 (fun _ => le_rfl) hbind.1.le))
  | approve args =>
    have hargs := checkArgs_goes args c hok h
    exact hargs.trans (hargs.1.bumpEffect .approve)
  | expr e => exact checkExpr_goes e c hok h
  | breakStmt => exact ⟨hok, .refl c⟩
  | continueStmt => exact ⟨hok, .refl c⟩
  | pass => exact ⟨hok, .refl c⟩

theorem checkBlock_goes (b : Block) (c : Checker) (hok : c.Ok types)
    (hb : Conforms types b.bindings) (h : (checkBlock c b).errors = []) :
    Checker.Goes types c (checkBlock c b) := by
  cases b with
  | nil => exact ⟨hok, .refl c⟩
  | cons s b =>
    obtain ⟨hs, hb⟩ := conforms_append.mp hb
    have hhead := checkStmt_goes s c hok hs (errors_of_checkBlock b _ h)
    exact hhead.trans (checkBlock_goes b _ hhead.1 hb h)

end

/-! ### The walk beside a path -/

section Beside

variable {σ σ₁ σ₂ σ' entry : Path}

/-- What the path says the walk has seen, the walk has counted since the refresh. -/
structure Tracks (types : LocalId → Option Ty) (c : Checker) (σ : Path) : Prop where
  follows : ∀ id k, σ.follows id k → rowOf types id k ∧ (c.weakRefresh id).isSome
  seen : ∀ id k, σ.seen id k → rowOf types id k ∧
    ∃ r, c.weakRefresh id = some r ∧ r.get k < c.effectFrontier.get k

/-- The path goes from `σ` to `σ'` while the walk goes from `c` to `c'`. Unless the path has got to the
same point as the walk, the walk may be ahead of it. -/
structure After (types : LocalId → Option Ty) (c c' : Checker) (σ σ' : Path) (same : Prop) :
    Prop where
  missed : σ'.NothingMissed → σ.NothingMissed
  fresh : σ'.NothingMissed → σ.Fresh → σ'.Fresh
  counted_le : ∀ k, σ.counted k ≤ σ'.counted k
  counted : ∀ k, σ.counted k < σ'.counted k → c.effectFrontier.get k < c'.effectFrontier.get k
  follows : ∀ id k, σ'.follows id k → rowOf types id k ∧ (c'.weakRefresh id).isSome
  seen : same → ∀ id k, σ'.seen id k → rowOf types id k ∧
    ∃ r, c'.weakRefresh id = some r ∧ r.get k < c'.effectFrontier.get k

variable {p q : Prop}

theorem After.tracks (h : After types c c' σ σ' p) (hp : p) : Tracks types c' σ' :=
  ⟨h.follows, h.seen hp⟩

theorem Tracks.after (h : Tracks types c σ) : After types c c σ σ p :=
  ⟨id, fun _ h => h, fun _ => le_rfl, fun _ h => absurd h (lt_irrefl _), h.follows, fun _ => h.seen⟩

theorem After.imp (h : After types c c' σ σ' p) (hqp : q → p) : After types c c' σ σ' q :=
  ⟨h.missed, h.fresh, h.counted_le, h.counted, h.follows, fun hq => h.seen (hqp hq)⟩

theorem Checker.Grows.isSome_of_rowOf (h : c.Grows types c') {id : LocalId} {k : WeakEffect}
    (hrow : rowOf types id k) (hsome : (c.weakRefresh id).isSome) : (c'.weakRefresh id).isSome := by
  obtain ⟨inner, row, ht, -⟩ := rowOf_eq_true.mp hrow
  exact h.refresh id _ ht hsome

/-- The walk gets ahead. -/
theorem After.ahead (h : After types c c₁ σ σ' p) (hgrows : c₁.Grows types c₂) :
    After types c c₂ σ σ' False := by
  refine ⟨h.missed, h.fresh, h.counted_le, fun k hk => ?_, fun id k hk => ?_, False.elim⟩
  · exact (h.counted k hk).trans_le (hgrows.frontier k)
  · obtain ⟨hrow, hsome⟩ := h.follows id k hk
    exact ⟨hrow, hgrows.isSome_of_rowOf hrow hsome⟩

theorem After.trans (h₁ : After types c c₁ σ σ₁ p) (h₂ : After types c₁ c₂ σ₁ σ₂ q)
    (hgrows₁ : c.Grows types c₁) (hgrows₂ : c₁.Grows types c₂) : After types c c₂ σ σ₂ q := by
  refine ⟨fun h => h₁.missed (h₂.missed h), fun h hσ => h₂.fresh h (h₁.fresh (h₂.missed h) hσ),
    fun k => (h₁.counted_le k).trans (h₂.counted_le k), fun k hk => ?_, h₂.follows, h₂.seen⟩
  by_cases h : σ.counted k < σ₁.counted k
  · exact (h₁.counted k h).trans_le (hgrows₂.frontier k)
  · have heq := le_antisymm (not_lt.mp h) (h₁.counted_le k)
    exact (hgrows₁.frontier k).trans_lt (h₂.counted k (heq.symm ▸ hk))

/-- The walk has been behind. -/
theorem After.from (h : After types c₁ c₂ σ σ' p) (hgrows : c.Grows types c₁) :
    After types c c₂ σ σ' p :=
  ⟨h.missed, h.fresh, h.counted_le, fun k hk => (hgrows.frontier k).trans_lt (h.counted k hk),
    h.follows, h.seen⟩

/-- The walk goes over a stretch that the path does not take. -/
theorem After.pass (h : After types c c₁ σ σ' p) (hgrows : c₁.Grows types c₂)
    (hpass : Tracks types c₁ σ' → Tracks types c₂ σ') : After types c c₂ σ σ' p :=
  { h.ahead hgrows with seen := fun hp => (hpass (h.tracks hp)).seen }

/-- One after the other, with the walk. -/
theorem After.seq {first second : ExprPaths} {r : Result}
    (h : ExprPaths.seq first second σ σ' r)
    (hfirst : ∀ σ' r, first σ σ' r → After types c c₁ σ σ' (r = .value))
    (hsecond : ∀ σ₁, Tracks types c₁ σ₁ → second σ₁ σ' r → After types c₁ c₂ σ₁ σ' (r = .value))
    (hgrows₁ : c.Grows types c₁) (hgrows₂ : c₁.Grows types c₂) :
    After types c c₂ σ σ' (r = .value) := by
  rcases h with ⟨σ₁, h₁, h₂⟩ | ⟨h₁, hr⟩
  · have hafter := hfirst σ₁ .value h₁
    exact hafter.trans (hsecond σ₁ (hafter.tracks rfl) h₂) hgrows₁ hgrows₂
  · exact ((hfirst σ' r h₁).ahead hgrows₂).imp hr

/-- Going on without an upgrade. -/
theorem Tracks.after_of_upgrades_eq (h : Tracks types c' σ') (hupgrades : σ'.upgrades = σ.upgrades)
    (hle : ∀ k, σ.counted k ≤ σ'.counted k)
    (hcounted : ∀ k, σ.counted k < σ'.counted k →
      c.effectFrontier.get k < c'.effectFrontier.get k) : After types c c' σ σ' p := by
  refine ⟨?_, ?_, hle, hcounted, h.follows, fun _ => h.seen⟩
  · intro hmissed
    unfold Path.NothingMissed at hmissed ⊢
    exact hupgrades ▸ hmissed
  · intro _ hfresh
    unfold Path.Fresh at hfresh ⊢
    exact hupgrades ▸ hfresh

/-! ### Effects -/

theorem upgrades_performAll (counts ks : List WeakEffect) (σ : Path) :
    (ks.foldl (Path.perform counts) σ).upgrades = σ.upgrades := by
  induction ks generalizing σ with
  | nil => rfl
  | cons k ks ih => exact ih (σ.perform counts k)

theorem follows_performAll (counts ks : List WeakEffect) (σ : Path) :
    (ks.foldl (Path.perform counts) σ).follows = σ.follows := by
  induction ks generalizing σ with
  | nil => rfl
  | cons k ks ih => exact ih (σ.perform counts k)

theorem seen_performAll {counts ks : List WeakEffect} {id : LocalId} {k : WeakEffect}
    (h : (ks.foldl (Path.perform counts) σ).seen id k) :
    σ.seen id k ∨ (k ∈ counts ∧ σ.follows id k) := by
  induction ks generalizing σ with
  | nil => exact .inl h
  | cons k' ks ih =>
    rcases ih h with hseen | hcount
    · simp only [Path.perform, Bool.or_eq_true, Bool.and_eq_true, decide_eq_true_eq] at hseen
      rcases hseen with ⟨⟨rfl, hk⟩, hfollows⟩ | hseen
      · exact .inr ⟨hk, hfollows⟩
      · exact .inl hseen
    · exact .inr hcount

theorem counted_performAll (counts ks : List WeakEffect) (σ : Path) (k : WeakEffect) :
    σ.counted k ≤ (ks.foldl (Path.perform counts) σ).counted k ∧
      (σ.counted k < (ks.foldl (Path.perform counts) σ).counted k → k ∈ counts) := by
  induction ks generalizing σ with
  | nil => exact ⟨le_rfl, fun h => absurd h (lt_irrefl _)⟩
  | cons k' ks ih =>
    obtain ⟨hle, hlt⟩ := ih (σ.perform counts k')
    by_cases hk : k = k' ∧ k' ∈ counts
    · have hcounted : (σ.perform counts k').counted k = σ.counted k + 1 := if_pos hk
      rw [hcounted] at hle
      exact ⟨(Nat.le_succ _).trans hle, fun _ => hk.1 ▸ hk.2⟩
    · have hcounted : (σ.perform counts k').counted k = σ.counted k := if_neg hk
      rw [hcounted] at hle hlt
      exact ⟨hle, hlt⟩

/-- The effects of a call, and what the walk counts for it. -/
theorem Tracks.performAll (h : Tracks types c σ) (hok : c.Ok types) (counts ks : List WeakEffect) :
    After types c (counts.foldl Checker.bumpEffect c) σ (ks.foldl (Path.perform counts) σ) p := by
  have hgrows := (hok.bumpAll counts).2
  have htracks : Tracks types (counts.foldl Checker.bumpEffect c)
      (ks.foldl (Path.perform counts) σ) := by
    constructor
    · intro id k hk
      rw [follows_performAll] at hk
      rw [Checker.bumpAll_weakRefresh]
      exact h.follows id k hk
    · intro id k hk
      rw [Checker.bumpAll_weakRefresh]
      rcases seen_performAll hk with hseen | ⟨hcount, hfollows⟩
      · obtain ⟨hrow, r, hr, hlt⟩ := h.seen id k hseen
        exact ⟨hrow, r, hr, hlt.trans_le (hgrows.frontier k)⟩
      · -- the refresh was at the counts before the call at the latest
        obtain ⟨hrow, hsome⟩ := h.follows id k hfollows
        obtain ⟨r, hr⟩ := Option.isSome_iff_exists.mp hsome
        exact ⟨hrow, r, hr, (hok.le id r hr k).trans_lt (Checker.lt_bumpAll hcount c)⟩
  refine htracks.after_of_upgrades_eq (upgrades_performAll counts ks σ)
    (fun k => (counted_performAll counts ks σ k).1) fun k hk => ?_
  exact Checker.lt_bumpAll ((counted_performAll counts ks σ k).2 hk) c

/-- The walk counts ahead. -/
theorem Tracks.foresee (h : Tracks types c σ) (hok : c.Ok types) (k : WeakEffect) :
    After types c (c.bumpEffect k) σ (σ.foresee k) p := by
  have htracks : Tracks types (c.bumpEffect k) (σ.foresee k) := by
    refine ⟨h.follows, fun id k' hk' => ?_⟩
    simp only [Path.foresee, Bool.or_eq_true, Bool.and_eq_true, decide_eq_true_eq] at hk'
    rcases hk' with ⟨rfl, hfollows⟩ | hseen
    · obtain ⟨hrow, hsome⟩ := h.follows id k' hfollows
      obtain ⟨r, hr⟩ := Option.isSome_iff_exists.mp hsome
      refine ⟨hrow, r, hr, (hok.le id r hr k').trans_lt ?_⟩
      simp [Checker.bumpEffect]
    · obtain ⟨hrow, r, hr, hlt⟩ := h.seen id k' hseen
      exact ⟨hrow, r, hr, hlt.trans_le ((hok.bumpEffect k).2.frontier k')⟩
  exact htracks.after_of_upgrades_eq rfl (fun _ => le_rfl) fun _ hlt => absurd hlt (lt_irrefl _)

/-! ### Upgrades and assignments -/

/-- An accepted upgrade is of a local that is fresh as far as the walk has seen. -/
theorem Tracks.upgrade (h : Tracks types c σ) {id : LocalId}
    {row : WeakEffectRow} (haccepted : ∀ k, row.has k → c.effectFrontier.get k =
      ((c.weakRefresh id).getD c.effectFrontier).get k) (success : Bool) :
    After types c { c with weakRefresh := Function.update c.weakRefresh id (some c.effectFrontier) }
      σ (σ.upgrade types id row success) p := by
  have hunseen : ∀ k, row.has k → ¬ σ.seen id k := by
    intro k hk hseen
    obtain ⟨-, r, hr, hlt⟩ := h.seen id k hseen
    have heq := haccepted k hk
    rw [hr, Option.getD_some] at heq
    omega
  refine ⟨fun hmissed u hu => hmissed u (List.mem_cons_of_mem _ hu), ?_, fun _ => le_rfl,
    fun _ hlt => absurd hlt (lt_irrefl _), ?_, fun _ => ?_⟩
  · intro hmissed hfresh u hu
    rcases List.mem_cons.mp hu with rfl | hu
    · intro k hk hstale
      exact hunseen k hk (hmissed _ List.mem_cons_self k hk hstale)
    · exact hfresh u hu
  · intro id' k hk
    by_cases heq : id' = id
    · subst heq
      refine ⟨?_, by simp⟩
      simpa [Path.upgrade] using hk
    · simp only [Path.upgrade, Function.update_of_ne heq] at hk ⊢
      exact h.follows id' k hk
  · intro id' k hk
    by_cases heq : id' = id
    · subst heq
      simp [Path.upgrade] at hk
    · simp only [Path.upgrade, Function.update_of_ne heq] at hk ⊢
      exact h.seen id' k hk

theorem Tracks.assign (h : Tracks types c σ) (id : LocalId) (ty : Option Ty) (value : Expr)
    (hid : ∀ t, types id = some t → ty.getD value.ty = t) :
    After types c ((c.updateWeakLocalOnAssignment id value (ty.getD value.ty)).bindLocal id
      (ty.getD value.ty)) σ (σ.assign types id ty value) p := by
  have hkeep : ∀ id' k, id' ≠ id → (σ.assign types id ty value).follows id' k = σ.follows id' k ∧
      (σ.assign types id ty value).seen id' k = σ.seen id' k := by
    intro id' k hne
    unfold Path.assign
    split <;> simp [Path.bindAlias, Path.bindFresh, hne]
  have hrefresh : ∀ id', id' ≠ id → ((c.updateWeakLocalOnAssignment id value
      (ty.getD value.ty)).bindLocal id (ty.getD value.ty)).weakRefresh id' = c.weakRefresh id' := by
    intro id' hne
    unfold Checker.updateWeakLocalOnAssignment
    split <;> simp [Checker.bindLocal, hne]
  have hfrontier : ((c.updateWeakLocalOnAssignment id value (ty.getD value.ty)).bindLocal id
      (ty.getD value.ty)).effectFrontier = c.effectFrontier := by
    unfold Checker.updateWeakLocalOnAssignment
    split <;> rfl
  have htracks : Tracks types ((c.updateWeakLocalOnAssignment id value (ty.getD value.ty)).bindLocal
      id (ty.getD value.ty)) (σ.assign types id ty value) := by
    constructor
    · intro id' k hk
      by_cases hne : id' = id
      · subst hne
        have hrow : rowOf types id' k := by
          unfold Path.assign at hk
          split at hk <;> simpa [Path.bindAlias, Path.bindFresh] using hk
        -- so the local is weak in this binding
        obtain ⟨inner, row, ht, -⟩ := rowOf_eq_true.mp hrow
        refine ⟨hrow, ?_⟩
        rw [hid _ ht]
        simp [Checker.updateWeakLocalOnAssignment, Checker.bindLocal]
      · rw [hrefresh id' hne]
        exact h.follows id' k ((hkeep id' k hne).1 ▸ hk)
    · intro id' k hk
      by_cases hne : id' = id
      · subst hne
        unfold Path.assign at hk
        split at hk
        next inner row source inner' row' hty =>
          simp only [Path.bindAlias, Function.update_self, Bool.and_eq_true] at hk
          obtain ⟨-, r, hr, hlt⟩ := h.seen source k hk.1
          refine ⟨hk.2, r, ?_, hlt.trans_eq (by rw [hfrontier])⟩
          rw [hty]
          simp [Checker.updateWeakLocalOnAssignment, Checker.bindLocal,
            Checker.refreshFrontierForExpr, hr]
        next => simp [Path.bindFresh] at hk
      · rw [hrefresh id' hne]
        rw [hfrontier]
        exact h.seen id' k ((hkeep id' k hne).2 ▸ hk)
  refine htracks.after_of_upgrades_eq ?_ ?_ ?_
  · unfold Path.assign
    split <;> rfl
  · intro k
    unfold Path.assign
    split <;> exact le_rfl
  · intro k hlt
    unfold Path.assign at hlt
    split at hlt <;> exact absurd hlt (lt_irrefl _)

/-! ### Coming back -/

/-- A path that is back at the start has the walk where it was. -/
theorem Tracks.again (h : Tracks types c entry) (σ : Path) : Tracks types c (σ.again entry) := by
  constructor
  · intro id k hk
    exact h.follows id k (Bool.and_eq_true_iff.mp hk).2
  · intro id k hk
    exact h.seen id k (Bool.and_eq_true_iff.mp hk).2

/-- Two paths over the same stretch of the walk, one after the other. -/
theorem After.rerun (h₁ : After types c c' σ σ₁ p) (h₂ : After types c c' σ₂ σ' q)
    (hupgrades : σ₂.upgrades = σ₁.upgrades) (hcounted : σ₂.counted = σ₁.counted) :
    After types c c' σ σ' q := by
  have hmissed : σ'.NothingMissed → σ₁.NothingMissed := by
    intro h
    have h' := h₂.missed h
    unfold Path.NothingMissed at h' ⊢
    exact hupgrades ▸ h'
  have hle := h₂.counted_le
  have hlt := h₂.counted
  rw [hcounted] at hle hlt
  refine ⟨fun h => h₁.missed (hmissed h), ?_, fun k => (h₁.counted_le k).trans (hle k), ?_,
    h₂.follows, h₂.seen⟩
  · intro h hσ
    have hfresh := h₁.fresh (hmissed h) hσ
    refine h₂.fresh h ?_
    unfold Path.Fresh at hfresh ⊢
    exact hupgrades ▸ hfresh
  · intro k hk
    by_cases h : σ.counted k < σ₁.counted k
    · exact h₁.counted k h
    · exact hlt k (lt_of_le_of_lt (not_lt.mp h) hk)

theorem After.attempts {body : ExprPaths} (hentry : Tracks types c entry)
    (hbody : ∀ σ σ' r, Tracks types c σ → body σ σ' r → After types c c' σ σ' (r = .value))
    {n : ℕ} {r : Result} (h : ExprPaths.Attempts body entry n σ σ' r) (hσ : Tracks types c σ) :
    After types c c' σ σ' (r = .value) := by
  induction h with
  | last h => exact hbody _ _ _ hσ h
  | retry h hr hrest ih =>
    exact (hbody _ _ _ hσ h).rerun (ih (hentry.again _)) rfl rfl
  | abandon h =>
    have hafter := hbody _ _ _ hσ h
    exact ⟨hafter.missed, hafter.fresh, hafter.counted_le, hafter.counted, hafter.follows,
      fun _ _ _ hseen => absurd hseen (by simp [Path.abandon])⟩

/-! ### Expressions -/

/-- An expression that stops at once. -/
theorem Tracks.stop (h : Tracks types c σ) (hgrows : c.Grows types c') {r : Result}
    (hstop : ExprPaths.stop σ σ' r) : After types c c' σ σ' (r = .value) := by
  obtain ⟨rfl, rfl⟩ := hstop
  exact (h.after (p := True)).ahead hgrows |>.imp (by simp)

theorem Tracks.skip (h : Tracks types c σ) {r : Result} (hskip : ExprPaths.skip σ σ' r) :
    After types c c σ σ' (r = .value) := by
  obtain ⟨rfl, -⟩ := hskip
  exact h.after

theorem Tracks.performs (h : Tracks types c σ) (hok : c.Ok types) {callee : Callee} {r : Result}
    (hperforms : Types.performs callee σ σ' r) :
    After types c (callee.counts.foldl Checker.bumpEffect c) σ σ' (r = .value) := by
  obtain ⟨ks, -, rfl, -⟩ := hperforms
  exact h.performAll hok _ ks

theorem Tracks.bumpAll (h : Tracks types c σ) (hok : c.Ok types) (ks : List WeakEffect) :
    Tracks types (ks.foldl Checker.bumpEffect c) σ :=
  (h.performAll (p := True) hok ks []).tracks trivial

/-- The walk takes a local to be refreshed that the path does not upgrade. For the kinds in its row that
makes no difference. -/
theorem Tracks.refresh (h : Tracks types c σ) (hok : c.Ok types) {id : LocalId} {inner : Ty}
    {row : WeakEffectRow} (hty : c.localTypes id = some (.weak inner row))
    (haccepted : ∀ k, row.has k → c.effectFrontier.get k =
      ((c.weakRefresh id).getD c.effectFrontier).get k) :
    Tracks types { c with
      weakRefresh := Function.update c.weakRefresh id (some c.effectFrontier) } σ := by
  constructor
  · intro id' k hk
    obtain ⟨hrow, hsome⟩ := h.follows id' k hk
    exact ⟨hrow, (hok.refresh hty).2.isSome_of_rowOf hrow hsome⟩
  · intro id' k hk
    obtain ⟨hrow, r, hr, hlt⟩ := h.seen id' k hk
    by_cases heq : id' = id
    · subst heq
      obtain ⟨inner', row', ht, hk'⟩ := rowOf_eq_true.mp hrow
      cases hok.typed id' _ _ ht hty
      have hsame := haccepted k hk'
      rw [hr, Option.getD_some] at hsame
      omega
    · exact ⟨hrow, r, (Function.update_of_ne heq _ _).trans hr, hlt⟩

mutual

/-- The walk goes over an expression that the path does not evaluate. -/
theorem Tracks.passExpr (e : Expr) (c : Checker) (hok : c.Ok types)
    (herr : (checkExpr c e).errors = []) (h : Tracks types c σ) :
    Tracks types (checkExpr c e) σ := by
  cases e with
  | literal ty => exact h
  | ident id ty =>
    rw [(checkExpr_ident herr).1]
    exact h
  | call callee args ty =>
    simp only [checkExpr, Checker.bumpAll_errors] at herr ⊢
    exact (Tracks.passArgs args c hok herr h).bumpAll (checkArgs_goes args c hok herr).1 _
  | methodCall callee target args ty =>
    simp only [checkExpr, Checker.bumpAll_errors] at herr ⊢
    have htwice := errors_of_checkArgs args _ herr
    have honce := errors_of_checkExpr target _ htwice
    have hok₁ := (checkExpr_goes target c hok honce).1
    have hok₂ := (checkExpr_goes target _ hok₁ htwice).1
    have h₁ := Tracks.passExpr target c hok honce h
    have h₂ := Tracks.passExpr target _ hok₁ htwice h₁
    exact (Tracks.passArgs args _ hok₂ herr h₂).bumpAll (checkArgs_goes args _ hok₂ herr).1 _
  | choose options ty =>
    have hbump := h.bumpAll hok [.human]
    exact Tracks.passExpr options _ (hok.bumpEffect .human).1 herr hbump
  | weakUpgrade weak ty =>
    have hweak := errors_of_weakUpgrade herr
    have hpass := Tracks.passExpr weak c hok hweak h
    rcases checkExpr_weakUpgrade herr with ⟨-, heq⟩ | ⟨inner, row, hty, haccepted, heq⟩
    · exact heq ▸ hpass
    · rw [heq]
      cases weak with
      | ident id ty' =>
        obtain ⟨hsame, hlocal⟩ := checkExpr_ident hweak
        obtain rfl : ty' = .weak inner row := hty
        rw [hsame] at haccepted ⊢
        exact h.refresh hok (getD_unknown_eq_weak hlocal) haccepted
      | _ => exact hpass
  | operands parts ty => exact Tracks.passArgs parts c hok herr h
  | logical left right ty =>
    have hleft := errors_of_checkExpr right _ herr
    exact Tracks.passExpr right _ (checkExpr_goes left c hok hleft).1 herr
      (Tracks.passExpr left c hok hleft h)
  | tryPropagate inner ty => exact Tracks.passExpr inner c hok herr h
  | tryRetry body attempts ty => exact Tracks.passExpr body c hok herr h
  | replay trace arms elseBody ty =>
    have harms := errors_of_checkExpr elseBody _ herr
    have htrace := errors_of_checkArgs arms _ harms
    have hok₁ := (checkExpr_goes trace c hok htrace).1
    have hok₂ := (checkArgs_goes arms _ hok₁ harms).1
    exact Tracks.passExpr elseBody _ hok₂ herr
      (Tracks.passArgs arms _ hok₁ harms (Tracks.passExpr trace c hok htrace h))

theorem Tracks.passArgs (es : Args) (c : Checker) (hok : c.Ok types)
    (herr : (checkArgs c es).errors = []) (h : Tracks types c σ) :
    Tracks types (checkArgs c es) σ := by
  cases es with
  | nil => exact h
  | cons e es =>
    have hhead := errors_of_checkArgs es _ herr
    exact Tracks.passArgs es _ (checkExpr_goes e c hok hhead).1 herr
      (Tracks.passExpr e c hok hhead h)

end

mutual

theorem evalExpr_after (e : Expr) (c : Checker) (σ σ' : Path) (r : Result) (hok : c.Ok types)
    (herr : (checkExpr c e).errors = []) (hσ : Tracks types c σ) (h : evalExpr types e σ σ' r) :
    After types c (checkExpr c e) σ σ' (r = .value) := by
  have hgoes := checkExpr_goes e c hok herr
  cases e with
  | literal ty =>
    rcases h with hstop | h
    · exact hσ.stop hgoes.2 hstop
    · exact hσ.skip h
  | ident id ty =>
    rcases h with hstop | h
    · exact hσ.stop hgoes.2 hstop
    · rw [(checkExpr_ident herr).1]
      exact hσ.skip h
  | call callee args ty =>
    rcases h with hstop | h
    · exact hσ.stop hgoes.2 hstop
    · simp only [checkExpr, Checker.bumpAll_errors] at herr ⊢
      have hargs := checkArgs_goes args c hok herr
      exact After.seq h (fun σ' r h => evalArgs_after args c σ σ' r hok herr hσ h)
        (fun σ₁ hσ₁ h => hσ₁.performs hargs.1 h) hargs.2 (hargs.1.bumpAll _).2
  | methodCall callee target args ty =>
    rcases h with hstop | h
    · exact hσ.stop hgoes.2 hstop
    · simp only [checkExpr, Checker.bumpAll_errors] at herr ⊢
      have htwice := errors_of_checkArgs args _ herr
      have honce := errors_of_checkExpr target _ htwice
      have hgoes₁ := checkExpr_goes target c hok honce
      have hgoes₂ := checkExpr_goes target _ hgoes₁.1 htwice
      have hargs := checkArgs_goes args _ hgoes₂.1 herr
      have hbump := hargs.1.bumpAll callee.counts
      refine After.seq h (fun σ' r h => evalExpr_after target c σ σ' r hok honce hσ h)
        (fun σ₁ hσ₁ h => ?_) hgoes₁.2 (hgoes₂.trans (hargs.trans hbump)).2
      -- the walk goes over the receiver once more
      have hpass := Tracks.passExpr target _ hgoes₁.1 htwice hσ₁
      have hrest := After.seq h
        (fun σ' r h => evalArgs_after args _ σ₁ σ' r hgoes₂.1 herr hpass h)
        (fun σ₂ hσ₂ h => hσ₂.performs hargs.1 h) hargs.2 hbump.2
      exact hrest.from hgoes₂.2
  | choose options ty =>
    rcases h with hstop | h
    · exact hσ.stop hgoes.2 hstop
    · have hbump := hok.bumpEffect .human
      have herr : (checkExpr (c.bumpEffect .human) options).errors = [] := herr
      have hforesee : After types c (c.bumpEffect .human) σ (σ.foresee .human) True :=
        hσ.foresee hok .human
      have hoptions := checkExpr_goes options _ hbump.1 herr
      refine hforesee.trans ?_ hbump.2 hoptions.2
      refine After.seq h
        (fun σ' r h => evalExpr_after options _ _ σ' r hbump.1 herr (hforesee.tracks trivial) h)
        (fun σ₁ hσ₁ h => ?_) hoptions.2 (.refl _)
      obtain ⟨rfl, -⟩ := h
      exact hσ₁.performAll hoptions.1 [] [.human]
  | weakUpgrade weak ty =>
    rcases h with hstop | h
    · exact hσ.stop hgoes.2 hstop
    · have hweak := errors_of_weakUpgrade herr
      have hgoes₁ := checkExpr_goes weak c hok hweak
      have hfirst : ∀ σ' r, evalExpr types weak σ σ' r →
          After types c (checkExpr c weak) σ σ' (r = .value) :=
        fun σ' r h => evalExpr_after weak c σ σ' r hok hweak hσ h
      rcases checkExpr_weakUpgrade herr with ⟨hty, heq⟩ | ⟨inner, row, hty, haccepted, heq⟩
      · rw [heq]
        refine After.seq h hfirst (fun σ₁ hσ₁ h => ?_) hgoes₁.2 (.refl _)
        split at h
        next id inner row => cases hty
        next => exact hσ₁.skip h
      · rw [heq] at hgoes ⊢
        cases weak with
        | ident id ty' =>
          obtain ⟨hsame, hlocal⟩ := checkExpr_ident hweak
          obtain rfl : ty' = .weak inner row := hty
          rw [hsame] at haccepted hgoes hgoes₁ hfirst ⊢
          refine After.seq h hfirst (fun σ₁ hσ₁ h => ?_) hgoes₁.2 hgoes.2
          obtain ⟨success, rfl, -⟩ := h
          exact hσ₁.upgrade haccepted success
        | _ => exact After.seq h hfirst (fun σ₁ hσ₁ h => hσ₁.skip h) hgoes₁.2 (.refl _)
  | operands parts ty =>
    rcases h with hstop | h
    · exact hσ.stop hgoes.2 hstop
    · exact evalArgs_after parts c σ σ' r hok herr hσ h
  | logical left right ty =>
    rcases h with hstop | h
    · exact hσ.stop hgoes.2 hstop
    · have hleft := errors_of_checkExpr right _ herr
      have hgoes₁ := checkExpr_goes left c hok hleft
      have hgoes₂ := checkExpr_goes right _ hgoes₁.1 herr
      refine After.seq h (fun σ' r h => evalExpr_after left c σ σ' r hok hleft hσ h)
        (fun σ₁ hσ₁ h => ?_) hgoes₁.2 hgoes₂.2
      rcases h with ⟨rfl, -⟩ | h
      · exact (Tracks.passExpr right _ hgoes₁.1 herr hσ₁).after_of_upgrades_eq rfl (fun _ => le_rfl)
          fun _ hlt => absurd hlt (lt_irrefl _)
      · exact evalExpr_after right _ σ₁ σ' r hgoes₁.1 herr hσ₁ h
  | tryPropagate inner ty =>
    rcases h with hstop | h | ⟨h, rfl⟩
    · exact hσ.stop hgoes.2 hstop
    · exact evalExpr_after inner c σ σ' r hok herr hσ h
    · exact (evalExpr_after inner c σ σ' .value hok herr hσ h).imp (by simp)
  | tryRetry body attempts ty =>
    rcases h with hstop | h
    · exact hσ.stop hgoes.2 hstop
    · exact After.attempts hσ
        (fun σ σ' r hσ h => evalExpr_after body c σ σ' r hok herr hσ h) h hσ
  | replay trace arms elseBody ty =>
    rcases h with hstop | h
    · exact hσ.stop hgoes.2 hstop
    · have harms := errors_of_checkExpr elseBody _ herr
      have htrace := errors_of_checkArgs arms _ harms
      have hgoes₁ := checkExpr_goes trace c hok htrace
      have hgoes₂ := checkArgs_goes arms _ hgoes₁.1 harms
      have hgoes₃ := checkExpr_goes elseBody _ hgoes₂.1 herr
      refine After.seq h (fun σ' r h => evalExpr_after trace c σ σ' r hok htrace hσ h)
        (fun σ₁ hσ₁ h => ?_) hgoes₁.2 (hgoes₂.trans hgoes₃).2
      rcases h with h | h
      · refine (evalOne_after arms _ σ₁ σ' r hgoes₁.1 harms hσ₁ h).pass hgoes₃.2 fun htracks => ?_
        exact Tracks.passExpr elseBody _ hgoes₂.1 herr htracks
      · have hpass := Tracks.passArgs arms _ hgoes₁.1 harms hσ₁
        exact (evalExpr_after elseBody _ σ₁ σ' r hgoes₂.1 herr hpass h).from hgoes₂.2

theorem evalArgs_after (es : Args) (c : Checker) (σ σ' : Path) (r : Result) (hok : c.Ok types)
    (herr : (checkArgs c es).errors = []) (hσ : Tracks types c σ) (h : evalArgs types es σ σ' r) :
    After types c (checkArgs c es) σ σ' (r = .value) := by
  cases es with
  | nil => exact hσ.skip h
  | cons e es =>
    have hhead := errors_of_checkArgs es _ herr
    have hgoes := checkExpr_goes e c hok hhead
    exact After.seq h (fun σ' r h => evalExpr_after e c σ σ' r hok hhead hσ h)
      (fun σ₁ hσ₁ h => evalArgs_after es _ σ₁ σ' r hgoes.1 herr hσ₁ h) hgoes.2
      (checkArgs_goes es _ hgoes.1 herr).2

theorem evalOne_after (es : Args) (c : Checker) (σ σ' : Path) (r : Result) (hok : c.Ok types)
    (herr : (checkArgs c es).errors = []) (hσ : Tracks types c σ) (h : evalOne types es σ σ' r) :
    After types c (checkArgs c es) σ σ' (r = .value) := by
  cases es with
  | nil => exact h.elim
  | cons e es =>
    have hhead := errors_of_checkArgs es _ herr
    have hgoes := checkExpr_goes e c hok hhead
    rcases h with h | h
    · refine (evalExpr_after e c σ σ' r hok hhead hσ h).pass
        (checkArgs_goes es _ hgoes.1 herr).2 fun htracks => ?_
      exact Tracks.passArgs es _ hgoes.1 herr htracks
    · have hpass := Tracks.passExpr e c hok hhead hσ
      exact (evalOne_after es _ σ σ' r hgoes.1 herr hpass h).from hgoes.2

end

/-! ### Statements and a path -/

/-- An expression, and what is done with its value, with the walk. -/
theorem After.ofExpr {first : ExprPaths} {next : StmtPaths} {o : Outcome}
    (h : StmtPaths.ofExpr first next σ σ' o)
    (hfirst : ∀ σ' r, first σ σ' r → After types c c₁ σ σ' (r = .value))
    (hnext : ∀ σ₁, Tracks types c₁ σ₁ → next σ₁ σ' o → After types c₁ c₂ σ₁ σ' (o = .normal))
    (hgrows₁ : c.Grows types c₁) (hgrows₂ : c₁.Grows types c₂) :
    After types c c₂ σ σ' (o = .normal) := by
  rcases h with ⟨σ₁, h₁, h₂⟩ | ⟨rfl, r, hr, h₁⟩
  · have hafter := hfirst σ₁ .value h₁
    exact hafter.trans (hnext σ₁ (hafter.tracks rfl) h₂) hgrows₁ hgrows₂
  · exact ((hfirst σ' r h₁).ahead hgrows₂).imp (by simp)

section Join

variable {base : Checker} {refresh left right : LocalId → Option EffectFrontier}
  {leftFrontier rightFrontier : EffectFrontier}

/-- What one of two walks has counted since a refresh, their meeting has. -/
theorem seen_join {id : LocalId} {k : WeakEffect} {r : EffectFrontier} (hok : c'.Ok types)
    (hbase : ∀ id t, types id = some t → c'.localTypes id = some t → base.localTypes id = some t)
    (hside : (left = c'.weakRefresh ∧ leftFrontier = c'.effectFrontier) ∨
      (right = c'.weakRefresh ∧ rightFrontier = c'.effectFrontier))
    (hrow : rowOf types id k) (hr : c'.weakRefresh id = some r)
    (hlt : r.get k < c'.effectFrontier.get k) :
    ∃ r, (base.join refresh left right leftFrontier rightFrontier).weakRefresh id = some r ∧
      r.get k < (base.join refresh left right leftFrontier rightFrontier).effectFrontier.get k := by
  obtain ⟨inner, row, ht, -⟩ := rowOf_eq_true.mp hrow
  have hty := hbase id _ ht (hok.weak id _ ht (Option.isSome_iff_exists.mpr ⟨r, hr⟩)).1
  refine ⟨_, Checker.mergeWeakRefresh_of_weak hty, ?_⟩
  simp only [Checker.join, EffectFrontier.get_meetMin, EffectFrontier.get_mergeMax]
  rcases hside with ⟨rfl, rfl⟩ | ⟨rfl, rfl⟩
  · rw [hr, Option.getD_some]
    exact (min_le_left _ _).trans_lt (lt_max_of_lt_left hlt)
  · rw [hr, Option.getD_some]
    exact (min_le_right _ _).trans_lt (lt_max_of_lt_right hlt)

/-- The path has taken one of two walks that meet. -/
theorem After.join (h : After types c c' σ σ' p) (hok : c'.Ok types)
    (hbase : ∀ id t, types id = some t → c'.localTypes id = some t → base.localTypes id = some t)
    (hside : (left = c'.weakRefresh ∧ leftFrontier = c'.effectFrontier) ∨
      (right = c'.weakRefresh ∧ rightFrontier = c'.effectFrontier)) :
    After types c (base.join refresh left right leftFrontier rightFrontier) σ σ' p := by
  refine ⟨h.missed, h.fresh, h.counted_le, fun k hk => ?_, fun id k hk => ?_, fun hp id k hk => ?_⟩
  · simp only [Checker.join, EffectFrontier.get_mergeMax]
    rcases hside with ⟨-, rfl⟩ | ⟨-, rfl⟩
    · exact lt_max_of_lt_left (h.counted k hk)
    · exact lt_max_of_lt_right (h.counted k hk)
  · obtain ⟨hrow, hsome⟩ := h.follows id k hk
    obtain ⟨inner, row, ht, -⟩ := rowOf_eq_true.mp hrow
    have hty := hbase id _ ht (hok.weak id _ ht hsome).1
    exact ⟨hrow, Option.isSome_iff_exists.mpr ⟨_, Checker.mergeWeakRefresh_of_weak hty⟩⟩
  · obtain ⟨hrow, r, hr, hlt⟩ := h.seen hp id k hk
    exact ⟨hrow, seen_join hok hbase hside hrow hr hlt⟩

end Join

/-! ### Loops and a path -/

theorem counted_performAll_nil (ks : List WeakEffect) (σ : Path) :
    (ks.foldl (Path.perform []) σ).counted = σ.counted := by
  ext k
  obtain ⟨hle, hlt⟩ := counted_performAll [] ks σ k
  exact le_antisymm (not_lt.mp fun h => absurd (hlt h) List.not_mem_nil) hle

theorem Tracks.bindElement (h : Tracks types c σ) (id : LocalId) :
    Tracks types c (σ.bindElement id) := by
  constructor
  · intro id' k hk
    by_cases heq : id' = id
    · subst heq
      simp [Path.bindElement] at hk
    · exact h.follows id' k (by simpa [Path.bindElement, heq] using hk)
  · intro id' k hk
    by_cases heq : id' = id
    · subst heq
      simp [Path.bindElement] at hk
    · exact h.seen id' k (by simpa [Path.bindElement, heq] using hk)

/-- The start of the next iteration. -/
theorem Tracks.next (h : Tracks types c entry) (hok : c.Ok types) (var : LocalId)
    (ks : List WeakEffect) (σ : Path) :
    Tracks types c ((ks.foldl (Path.perform []) (σ.again entry)).bindElement var) := by
  have hagain : After types c c (σ.again entry) (ks.foldl (Path.perform []) (σ.again entry)) True :=
    (h.again σ).performAll hok [] ks
  exact (hagain.tracks trivial).bindElement var

/-- The path is somewhere in a loop that it has entered in `entry`, and the walk is behind the body. -/
structure Within (types : LocalId → Option Ty) (c c' : Checker) (entry σ : Path) (atEnd : Bool) :
    Prop where
  after : After types c c' entry σ False
  seen : atEnd → ∀ id k, σ.seen id k → entry.seen id k ∨ (rowOf types id k ∧
    ∃ r, c'.weakRefresh id = some r ∧ r.get k < c'.effectFrontier.get k)

/-- The walk leaves the body of a loop, which it has entered in `c`. -/
abbrev Checker.exit (c c' : Checker) : Checker :=
  c'.join c.weakRefresh c.weakRefresh c'.weakRefresh c.effectFrontier c'.effectFrontier

/-- The path leaves the loop. -/
theorem Within.leave {atEnd : Bool} (h : Within types c c' entry σ atEnd) (hentry : Tracks types c entry)
    (hok : c.Ok types) (hgoes : Checker.Goes types c c') :
    After types c (c.exit c') entry (σ.leave entry atEnd) p := by
  have hjoin : After types c (c.exit c') entry σ False :=
    h.after.join hgoes.1 (fun _ _ _ h => h) (.inr ⟨rfl, rfl⟩)
  refine ⟨hjoin.missed, hjoin.fresh, hjoin.counted_le, hjoin.counted, hjoin.follows,
    fun _ id k hk => ?_⟩
  simp only [Path.leave, Bool.or_eq_true, Bool.and_eq_true, decide_eq_true_eq] at hk
  have hfirst : entry.seen id k → rowOf types id k ∧
      ∃ r, (c.exit c').weakRefresh id = some r ∧ r.get k < (c.exit c').effectFrontier.get k := by
    intro hseen
    obtain ⟨hrow, r, hr, hlt⟩ := hentry.seen id k hseen
    exact ⟨hrow, seen_join hok hgoes.2.types (.inl ⟨rfl, rfl⟩) hrow hr hlt⟩
  rcases hk with (⟨hcount, hfollows⟩ | hseen) | ⟨hend, hseen⟩
  · -- the meeting of the refreshes is below the counts at the entry
    obtain ⟨hrow, hsome⟩ := h.after.follows id k hfollows
    obtain ⟨inner, row, ht, -⟩ := rowOf_eq_true.mp hrow
    refine ⟨hrow, _, Checker.mergeWeakRefresh_of_weak (hgoes.1.weak id _ ht hsome).1, ?_⟩
    simp only [Checker.exit, Checker.join, EffectFrontier.get_meetMin, EffectFrontier.get_mergeMax]
    refine (min_le_left _ _).trans_lt (lt_max_of_lt_right ?_)
    refine (Checker.get_getD_le ?_ ?_).trans_lt (h.after.counted k hcount)
    · exact fun r hr => hok.le id r hr k
    · exact fun r hr => hok.le id r hr k
  · exact hfirst hseen
  · rcases h.seen hend id k hseen with hseen | ⟨hrow, r, hr, hlt⟩
    · exact hfirst hseen
    · exact ⟨hrow, seen_join hgoes.1 (fun _ _ _ h => h) (.inr ⟨rfl, rfl⟩) hrow hr hlt⟩

/-- The iterations of a loop, by induction over them. -/
theorem Within.iterations {var : LocalId} {streams atEnd : Bool} {body : StmtPaths} {o : Outcome}
    (hentry : Tracks types c entry) (hok : c.Ok types) (hgoes : Checker.Goes types c c')
    (hbody : ∀ σ σ' o, Tracks types c σ → body σ σ' o → After types c c' σ σ' (o = .normal))
    (h : Iterations var streams body entry atEnd σ σ' o) (hσ : Within types c c' entry σ atEnd) :
    After types c (c.exit c') entry σ' (o = .normal) := by
  -- one more iteration, from its start
  have hround : ∀ {atEnd : Bool} {σ σ₁ : Path} {o : Outcome} (ks : List WeakEffect),
      Within types c c' entry σ atEnd →
      body ((ks.foldl (Path.perform []) (σ.again entry)).bindElement var) σ₁ o →
      After types c c' entry σ₁ (o = .normal) := by
    intro atEnd σ σ₁ o ks hσ h
    have hafter := hbody _ _ _ (hentry.next hok var ks σ) h
    exact hσ.after.rerun hafter (upgrades_performAll [] ks (σ.again entry))
      (counted_performAll_nil ks (σ.again entry))
  induction h with
  | done => exact hσ.leave hentry hok hgoes
  | @next atEnd σ σ₁ σ' o o' ks hks h ho hrest ih =>
    have hafter := hround ks hσ h
    refine ih ⟨hafter.imp False.elim, fun hend id k hk => ?_⟩
    exact .inr (hafter.seen (by simpa using hend) id k hk)
  | @leave atEnd σ σ₁ ks hks h =>
    have hafter := hround ks hσ h
    exact Within.leave ⟨hafter.imp False.elim, fun hend => absurd hend (by simp)⟩ hentry hok hgoes
  | @stop atEnd σ σ₁ ks hks h =>
    have hafter := hround ks hσ h
    exact (hafter.join hgoes.1 (fun _ _ _ h => h) (.inr ⟨rfl, rfl⟩)).imp (by simp)

mutual

theorem execStmt_after (s : Stmt) (c : Checker) (σ σ' : Path) (o : Outcome) (hok : c.Ok types)
    (hs : Conforms types s.bindings) (herr : (checkStmt c s).errors = []) (hσ : Tracks types c σ)
    (h : execStmt types s σ σ' o) : After types c (checkStmt c s) σ σ' (o = .normal) := by
  cases s with
  | letStmt id ty value =>
    unfold execStmt at h
    have hvalue : (checkExpr c value).errors = [] := by
      simpa [checkStmt, Checker.bindLocal, errors_updateWeakLocalOnAssignment] using herr
    have hgoes := checkExpr_goes value c hok hvalue
    have hid : ∀ t, types id = some t → ty.getD value.ty = t := hs _ (List.mem_singleton_self _)
    refine After.ofExpr h (fun σ' r h => evalExpr_after value c σ σ' r hok hvalue hσ h)
      (fun σ₁ hσ₁ h => ?_) hgoes.2 (hgoes.1.assign hid).2
    obtain ⟨rfl, -⟩ := h
    exact hσ₁.assign id ty value hid
  | returnStmt value =>
    cases value with
    | none =>
      obtain ⟨rfl, rfl⟩ := h
      exact hσ.after
    | some value =>
      unfold execStmt at h
      have hgoes := checkExpr_goes value c hok herr
      refine After.ofExpr h (fun σ' r h => evalExpr_after value c σ σ' r hok herr hσ h)
        (fun σ₁ hσ₁ h => ?_) hgoes.2 (.refl _)
      obtain ⟨rfl, -⟩ := h
      exact hσ₁.after
  | yieldStmt value =>
    unfold execStmt at h
    have hgoes := checkExpr_goes value c hok herr
    refine After.ofExpr h (fun σ' r h => evalExpr_after value c σ σ' r hok herr hσ h)
      (fun σ₁ hσ₁ h => ?_) hgoes.2 (.refl _)
    obtain ⟨rfl, -⟩ := h
    exact hσ₁.after
  | ifThen cond thenBlock =>
    unfold execStmt at h
    have hentry := errors_of_checkBlock thenBlock _ herr
    have hcond := checkExpr_goes cond c hok hentry
    have hthen := checkBlock_goes thenBlock _ hcond.1 hs herr
    have hjoin : Checker.Goes types (checkExpr c cond) (checkStmt c (.ifThen cond thenBlock)) :=
      Checker.join_goes hcond.1 hthen.1 hthen.2 hthen.2.frontier hthen.1.le
    refine After.ofExpr h (fun σ' r h => evalExpr_after cond c σ σ' r hok hentry hσ h)
      (fun σ₁ hσ₁ h => ?_) hcond.2 hjoin.2
    rcases h with h | ⟨rfl, -⟩
    · have hafter := execBlock_after thenBlock _ σ₁ σ' o hcond.1 hs herr hσ₁ h
      exact hafter.join hthen.1 (fun _ _ _ h => h) (.inl ⟨rfl, rfl⟩)
    · exact hσ₁.after.join hcond.1 hthen.2.types (.inr ⟨rfl, rfl⟩)
  | ifElse cond thenBlock elseBlock =>
    unfold execStmt at h
    obtain ⟨hs₁, hs₂⟩ := conforms_append.mp hs
    have helse : (checkBlock { checkBlock (checkExpr c cond) thenBlock with
      effectFrontier := (checkExpr c cond).effectFrontier
      weakRefresh := (checkExpr c cond).weakRefresh } elseBlock).errors = [] := herr
    have hthen := errors_of_checkBlock elseBlock _ helse
    have hentry := errors_of_checkBlock thenBlock _ hthen
    have hcond := checkExpr_goes cond c hok hentry
    have hfst := checkBlock_goes thenBlock _ hcond.1 hs₁ hthen
    have hre := hcond.1.restart hfst
    have hsnd := checkBlock_goes elseBlock _ hre.1 hs₂ helse
    have hjoin : Checker.Goes types (checkExpr c cond)
        (checkStmt c (.ifElse cond thenBlock elseBlock)) :=
      Checker.join_goes hcond.1 hsnd.1 (hre.trans hsnd).2 hfst.2.frontier hfst.1.le
    refine After.ofExpr h (fun σ' r h => evalExpr_after cond c σ σ' r hok hentry hσ h)
      (fun σ₁ hσ₁ h => ?_) hcond.2 hjoin.2
    rcases h with h | h
    · have hafter := execBlock_after thenBlock _ σ₁ σ' o hcond.1 hs₁ hthen hσ₁ h
      exact hafter.join hfst.1 (fun id t ht hty => hsnd.2.types id t ht hty) (.inl ⟨rfl, rfl⟩)
    · -- the walk is back at the counts of the entry
      have hafter := execBlock_after elseBlock _ σ₁ σ' o hre.1 hs₂ helse ⟨hσ₁.follows, hσ₁.seen⟩ h
      exact (hafter.from hre.2).join hsnd.1 (fun _ _ _ h => h) (.inr ⟨rfl, rfl⟩)
  | forStmt var iter body =>
    unfold execStmt at h
    have hbody : (checkBlock ((checkExpr c iter).bindLocal var (elementTy iter.ty)) body).errors = [] :=
      herr
    have hentry : (checkExpr c iter).errors = [] :=
      errors_of_checkBlock body ((checkExpr c iter).bindLocal var (elementTy iter.ty)) hbody
    have hs' : Conforms types body.bindings := fun b hb => hs b (List.mem_cons_of_mem _ hb)
    have hiter := checkExpr_goes iter c hok hentry
    have hbind := hiter.1.bindLocal (hs _ List.mem_cons_self)
    have hgoes := checkBlock_goes body _ hbind.1 hs' hbody
    have hjoin : Checker.Goes types ((checkExpr c iter).bindLocal var (elementTy iter.ty))
        (checkStmt c (.forStmt var iter body)) :=
      Checker.join_goes hbind.1 hgoes.1 hgoes.2 (fun _ => le_rfl) hbind.1.le
    refine After.ofExpr h (fun σ' r h => evalExpr_after iter c σ σ' r hok hentry hσ h)
      (fun σ₁ hσ₁ h => ?_) hiter.2 (hbind.2.trans hjoin.2)
    have htracks : Tracks types ((checkExpr c iter).bindLocal var (elementTy iter.ty)) σ₁ :=
      ⟨hσ₁.follows, hσ₁.seen⟩
    refine (Within.iterations htracks hbind.1 hgoes ?_ h ⟨?_, fun _ _ _ hseen => .inl hseen⟩).from
      hbind.2
    · exact fun σ σ' o hσ h => execBlock_after body _ σ σ' o hbind.1 hs' hbody hσ h
    · exact (htracks.after (p := True)).ahead hgoes.2
  | approve args =>
    unfold execStmt at h
    have hargs := checkArgs_goes args c hok herr
    refine After.ofExpr h (fun σ' r h => evalArgs_after args c σ σ' r hok herr hσ h)
      (fun σ₁ hσ₁ h => ?_) hargs.2 (hargs.1.bumpEffect .approve).2
    obtain ⟨rfl, -⟩ := h
    exact hσ₁.performAll hargs.1 [.approve] [.approve]
  | expr e =>
    unfold execStmt at h
    have hgoes := checkExpr_goes e c hok herr
    refine After.ofExpr h (fun σ' r h => evalExpr_after e c σ σ' r hok herr hσ h)
      (fun σ₁ hσ₁ h => ?_) hgoes.2 (.refl _)
    obtain ⟨rfl, -⟩ := h
    exact hσ₁.after
  | breakStmt =>
    obtain ⟨rfl, -⟩ := h
    exact hσ.after
  | continueStmt =>
    obtain ⟨rfl, -⟩ := h
    exact hσ.after
  | pass =>
    obtain ⟨rfl, -⟩ := h
    exact hσ.after

theorem execBlock_after (b : Block) (c : Checker) (σ σ' : Path) (o : Outcome) (hok : c.Ok types)
    (hb : Conforms types b.bindings) (herr : (checkBlock c b).errors = []) (hσ : Tracks types c σ)
    (h : execBlock types b σ σ' o) : After types c (checkBlock c b) σ σ' (o = .normal) := by
  cases b with
  | nil =>
    obtain ⟨rfl, -⟩ := h
    exact hσ.after
  | cons s b =>
    obtain ⟨hs, hb⟩ := conforms_append.mp hb
    have hhead := errors_of_checkBlock b _ herr
    have hgoes := checkStmt_goes s c hok hs hhead
    have hrest := checkBlock_goes b _ hgoes.1 hb herr
    rcases h with ⟨σ₁, h₁, h₂⟩ | ⟨h₁, ho⟩
    · have hafter := execStmt_after s c σ σ₁ .normal hok hs hhead hσ h₁
      exact hafter.trans (execBlock_after b _ σ₁ σ' o hgoes.1 hb herr (hafter.tracks rfl) h₂)
        hgoes.2 hrest.2
    · exact ((execStmt_after s c σ σ' o hok hs hhead hσ h₁).ahead hrest.2).imp ho

end

end Beside

/-! ### Agents -/

theorem conforms_oneType (binds : List (LocalId × Ty)) : Conforms (oneType binds) binds := by
  intro b hb t ht
  unfold oneType at ht
  split at ht
  next b' ty' hfind =>
    split at ht
    next hall =>
      obtain rfl := Option.some.inj ht
      exact hall b hb rfl
    next => cases ht
  next => cases ht

/-- A parameter is bound as if it were assigned. -/
theorem bindParams_cons (c : Checker) (id : LocalId) (ty : Ty) (params : List (LocalId × Ty)) :
    bindParams c ((id, ty) :: params) = bindParams
      ((c.updateWeakLocalOnAssignment id (.literal ty) ty).bindLocal id ty) params := by
  cases ty <;> rfl

theorem bindParams_goes (params : List (LocalId × Ty)) (c : Checker) (hok : c.Ok types)
    (hparams : Conforms types params) : Checker.Goes types c (bindParams c params) := by
  induction params generalizing c with
  | nil => exact ⟨hok, .refl c⟩
  | cons b params ih =>
    obtain ⟨id, ty⟩ := b
    obtain ⟨hb, hparams⟩ := List.forall_mem_cons.mp hparams
    rw [bindParams_cons]
    have hassign : Checker.Goes types c
        ((c.updateWeakLocalOnAssignment id (.literal ty) ty).bindLocal id ty) := hok.assign hb
    exact hassign.trans (ih _ hassign.1 hparams)

theorem isSome_bindParams {params : List (LocalId × Ty)} (c : Checker) (hok : c.Ok types)
    (hparams : Conforms types params) {id : LocalId} (hid : id ∈ params.map Prod.fst)
    {k : WeakEffect} (hrow : rowOf types id k) : ((bindParams c params).weakRefresh id).isSome := by
  induction params generalizing c with
  | nil => cases hid
  | cons b params ih =>
    obtain ⟨id', ty⟩ := b
    obtain ⟨hb, hrest⟩ := List.forall_mem_cons.mp hparams
    rw [bindParams_cons]
    have hassign : Checker.Goes types c
        ((c.updateWeakLocalOnAssignment id' (.literal ty) ty).bindLocal id' ty) := hok.assign hb
    rcases List.mem_cons.mp hid with rfl | hid
    · obtain ⟨inner, row, ht, -⟩ := rowOf_eq_true.mp hrow
      obtain rfl := hb _ ht
      refine (bindParams_goes params _ hassign.1 hrest).2.isSome_of_rowOf hrow ?_
      simp [Checker.updateWeakLocalOnAssignment, Checker.bindLocal]
    · exact ih _ hassign.1 hrest hid

/-- Nothing is bound yet. -/
theorem ok_start (frontier : EffectFrontier) :
    Checker.Ok types ⟨fun _ => none, frontier, fun _ => none, []⟩ :=
  ⟨fun _ _ h => by simp at h, fun _ _ _ _ h => by simp at h, fun _ _ _ h => by simp at h⟩

/-- In an accepted agent, no upgrade on any path is of a stale local if and only if the walk has missed
nothing that makes an upgraded local stale. -/
theorem fresh_iff_nothingMissed (frontier : EffectFrontier) (agent : Agent)
    (hchecked : (checkAgent frontier agent).errors = []) {σ : Path} {o : Outcome}
    (h : agent.paths σ o) : σ.Fresh ↔ σ.NothingMissed := by
  constructor
  · intro hfresh u hu k hk hstale
    exact absurd hstale (hfresh u hu k hk)
  · intro hmissed
    obtain ⟨hparams, hbody⟩ := conforms_append.mp (conforms_oneType (agent.params ++ agent.body.bindings))
    have hstart : Checker.Ok agent.types ⟨fun _ => none, frontier, fun _ => none, []⟩ :=
      ok_start frontier
    have hbound := bindParams_goes agent.params _ hstart hparams
    have htracks : Tracks agent.types
        (bindParams ⟨fun _ => none, frontier, fun _ => none, []⟩ agent.params) agent.start := by
      refine ⟨fun id k hk => ?_, fun _ _ hk => absurd hk (by simp [Agent.start])⟩
      simp only [Agent.start, Bool.and_eq_true, decide_eq_true_eq] at hk
      exact ⟨hk.2, isSome_bindParams _ hstart hparams hk.1 hk.2⟩
    have hafter := execBlock_after agent.body _ _ σ o hbound.1 hbody hchecked htracks h
    exact hafter.fresh hmissed (by simp [Path.Fresh, Agent.start])

/-! ### A loop -/

namespace Polling

abbrev row : WeakEffectRow := ⟨true, false, false, false⟩

/-- `for item in items: Weak::upgrade(w)`, then a call of a tool, in the same loop -/
def body : Block :=
  .cons (.expr (.weakUpgrade (.ident 0 (.weak .string row)) (.option .string)))
    (.cons (.expr (.call .tool .nil .string)) .nil)

def agent : Agent where
  params := [(0, .weak .string row), (1, .list .string)]
  body := .cons (.forStmt 2 (.ident 1 (.list .string)) body) .nil

/-- One iteration. -/
def iteration (σ : Path) : Path :=
  (((σ.again agent.start).bindElement 2).upgrade agent.types 0 row true).perform [.toolCall] .toolCall

theorem accepted : (checkAgent .default agent).errors = [] := by decide

theorem exec_body (σ : Path) : execBlock agent.types body ((σ.again agent.start).bindElement 2)
    (iteration σ) .normal := by
  refine .inl ⟨((σ.again agent.start).bindElement 2).upgrade agent.types 0 row true, ?_, ?_⟩
  · exact .inl ⟨_, .inr (.inl ⟨_, .inr ⟨rfl, rfl⟩, true, rfl, rfl⟩), rfl, rfl⟩
  · refine .inl ⟨iteration σ, .inl ⟨_, .inr (.inl ⟨_, ⟨rfl, rfl⟩, [.toolCall], ?_, rfl, ?_⟩), rfl, rfl⟩,
      rfl, rfl⟩
    · simp [Callee.kinds]
    · simp

/-- Two iterations. -/
theorem paths_twice : agent.paths ((iteration (iteration agent.start)).leave agent.start true) .normal := by
  refine .inl ⟨_, .inl ⟨agent.start, .inr ⟨rfl, rfl⟩, ?_⟩, rfl, rfl⟩
  have hnone : ([] : List WeakEffect) ≠ [] → (Ty.list Ty.string).isStream := fun h => absurd rfl h
  refine .next hnone (exec_body _) (.inl rfl) ?_
  exact .next hnone (exec_body _) (.inl rfl) .done

theorem not_fresh_twice :
    ¬ ((iteration (iteration agent.start)).leave agent.start true).Fresh := by
  intro h
  exact h _ List.mem_cons_self .toolCall rfl rfl

end Polling

/-- The second iteration upgrades a local that the tool call in the first one has made stale, and the
walk has missed it. -/
theorem missed_in_loop :
    ¬ ((Polling.iteration (Polling.iteration Polling.agent.start)).leave Polling.agent.start
      true).NothingMissed := by
  rw [← fresh_iff_nothingMissed .default Polling.agent Polling.accepted Polling.paths_twice]
  exact Polling.not_fresh_twice

theorem stale_upgrade_accepted : ¬ ∀ (frontier : EffectFrontier) (agent : Agent),
    (checkAgent frontier agent).errors = [] → ∀ σ o, agent.paths σ o → σ.Fresh := by
  intro h
  exact Polling.not_fresh_twice (h .default Polling.agent Polling.accepted _ _ Polling.paths_twice)

end Corvid.Types
