import Corvid.Connectors.Runtime
import Corvid.Lib.Calls
import Mathlib.Algebra.Order.Floor.Div

/-!
# What a manifest declares

A manifest can declare several rate limits, and a replay policy for each operation. The runtime checks
the first limit only, and tells a write by the effects of the scope that the caller names. The other
limits are kept if they follow from the first one, and the policies if writes are made under scopes
with a write effect.

## Main definitions

* `LimitKept`: a declared limit is kept in a sequence of calls
* `ReplayKept`: a call in replay mode does not answer a write
* `LimitsFollow`, `ReplayGuarded`: the conditions

## Main results

* `declared_iff`: what is declared is kept just under these conditions
-/

namespace Corvid.Connectors

namespace ConnectorRuntime

variable (rt : ConnectorRuntime) (call : ConnectorCall)

/-- The request gets past the limiter. -/
def passes (request : ConnectorRequest) : Bool :=
  (rt.accept request).isOk && (rt.consult request).1.allowed

def next : ConnectorRuntime := (rt.execute call).2

/-- The bucket of the runtime's tenant and actor. -/
def bucket : RateBucket := rt.rateLimiter.bucket rt.firstLimit.key

/-- The times of the requests that get past the limiter. -/
def passedTimes : ConnectorRuntime → List ConnectorCall → List ℕ
  | _, [] => []
  | rt, call :: calls =>
    if rt.passes call.request then
      call.request.nowMs.toNat :: passedTimes (rt.next call) calls
    else passedTimes (rt.next call) calls

/-- The starts of the windows that the limiter opens, the first of which starts at zero. -/
def windowStarts : ConnectorRuntime → List ConnectorCall → List ℕ
  | rt, [] => [rt.bucket.start]
  | rt, call :: calls => rt.bucket.start :: windowStarts (rt.next call) calls

/-! ## The claims of a manifest -/

/-- A request that the limiter refuses passes after the time it is told to wait. -/
def RetryKept (rt : ConnectorRuntime) (call : ConnectorCall) : Prop :=
  ∀ retryAfterMs, (rt.execute call).1 = .error (.rateLimited retryAfterMs) →
    ¬ rt.passes call.request → ∀ request : ConnectorRequest,
      request.nowMs.toNat = call.request.nowMs.toNat + retryAfterMs →
      ((rt.next call).accept request).isOk → (rt.next call).passes request

/-- A declared limit is kept in a sequence of calls. -/
structure LimitKept (declaration : RateLimitDeclaration) (rt : ConnectorRuntime)
    (calls : List ConnectorCall) : Prop where
  window : ∀ start ∈ windowStarts rt calls,
    (passedTimes rt calls).countP
      (fun t => start ≤ t ∧ t < start + declaration.windowMs.toNat) ≤ declaration.limit.toNat
  interval : ∀ first last, last < first + declaration.windowMs.toNat →
    (passedTimes rt calls).countP (fun t => first ≤ t ∧ t ≤ last) ≤ 2 * declaration.limit.toNat
  retry : Calls.Throughout next RetryKept calls rt

/-- Whether the manifest declares the operation as a write to be quarantined. -/
def Quarantines (operation : String) : Prop :=
  ∃ declaration ∈ rt.manifest.replay, declaration.operation = operation ∧
    declaration.policy = .quarantineWrite

/-- Whether the call names a scope with a write effect. -/
def NamesWrite (request : ConnectorRequest) : Prop :=
  ∃ scope, (rt.manifest.scope.find? fun scope => scope.id = request.scopeId) = some scope ∧
    scopeIsWrite scope

/-- A write has no answer in replay mode. -/
def ReplayKept (rt : ConnectorRuntime) (call : ConnectorCall) : Prop :=
  rt.mode = .replay → rt.Quarantines call.request.operation ∨ rt.NamesWrite call.request →
    ¬ (rt.execute call).1.isOk

/-! ## The conditions -/

/-- A quarantined write that gets past the limiter names a scope with a write effect, or it has no
recorded answer. -/
def ReplayGuarded (rt : ConnectorRuntime) (call : ConnectorCall) : Prop :=
  rt.mode = .replay → rt.Quarantines call.request.operation → rt.passes call.request →
    rt.NamesWrite call.request ∨ rt.mocks call.request.operation = none

/-- The times of the calls do not decrease. -/
def InOrder (calls : List ConnectorCall) : Prop :=
  calls.Pairwise fun call call' => call.request.nowMs ≤ call'.request.nowMs

instance (calls : List ConnectorCall) : Decidable (InOrder calls) :=
  inferInstanceAs (Decidable (calls.Pairwise _))

end ConnectorRuntime

/-- Every limit allows what the first one lets pass in as many of its windows as it takes to cover
the other's. -/
def ConnectorManifest.LimitsFollow (manifest : ConnectorManifest) : Prop :=
  manifest.scope = [] ∨ ∀ first ∈ manifest.rateLimit.head?, ∀ declaration ∈ manifest.rateLimit,
    (declaration.windowMs.toNat ⌈/⌉ first.windowMs.toNat) * first.limit.toNat ≤
      declaration.limit.toNat

/-! ## One call -/

namespace ConnectorRuntime

variable {rt : ConnectorRuntime} {call : ConnectorCall} {request : ConnectorRequest}

theorem accept_ne_rateLimited {retryAfterMs : ℕ} :
    rt.accept request ≠ .error (.rateLimited retryAfterMs) := by
  unfold accept
  split
  next => simp
  next =>
    split
    next => simp
    next => split <;> simp

theorem authorize_eq_ok {auth : ConnectorAuthState} {scope : String} {nowMs : UInt64} :
    auth.authorize scope nowMs = .ok () ↔ isBlank auth.tenantId = false ∧
      isBlank auth.actorId = false ∧ isBlank auth.tokenId = false ∧ nowMs < auth.expiresAtMs ∧
      scope ∈ auth.scopes := by
  unfold ConnectorAuthState.authorize
  split
  next h => simp [h]
  next h =>
    split
    next h => simp [h]
    next h =>
      split
      next h => simp [h]
      next h =>
        split
        next h => simp [UInt64.not_lt.mpr h]
        next h => split <;> simp_all

theorem accept_eq_ok {scope : ConnectorScope} :
    rt.accept request = .ok scope ↔
      (rt.manifest.scope.find? fun scope => scope.id = request.scopeId) = some scope ∧
        rt.auth.authorize scope.id request.nowMs = .ok () ∧
        ¬ (scope.approval = .required ∧ isBlank request.approvalId) := by
  unfold accept
  cases hfind : rt.manifest.scope.find? fun scope => scope.id = request.scopeId with
  | none => simp
  | some found =>
    dsimp only
    cases hauth : rt.auth.authorize found.id request.nowMs with
    | error err =>
      simp only [reduceCtorEq, Option.some.injEq, false_iff, not_and]
      rintro rfl h
      rw [hauth] at h
      cases h
    | ok =>
      dsimp only
      split
      next happroval =>
        simp only [reduceCtorEq, Option.some.injEq, false_iff, not_and]
        rintro rfl - h
        exact h happroval.1 happroval.2
      next happroval =>
        simp only [Except.ok.injEq, Option.some.injEq]
        constructor
        · rintro rfl
          exact ⟨rfl, hauth, happroval⟩
        · exact And.left

/-- What a call does, by how far it gets. -/
theorem execute_of_error {err : ConnectorRuntimeError} (h : rt.accept call.request = .error err) :
    rt.execute call = (.error err, rt) := by
  rw [execute, h]

theorem execute_of_ok {scope : ConnectorScope} (h : rt.accept call.request = .ok scope) :
    rt.execute call =
      (if (rt.consult call.request).1.allowed then
        (rt.payload call.request scope call.answer).map (⟨·, rt.trace call.request scope⟩)
        else .error (.rateLimited (rt.consult call.request).1.retryAfterMs),
        { rt with rateLimiter := (rt.consult call.request).2 }) := by
  rw [execute, h]
  dsimp only
  cases (rt.consult call.request).1.allowed with
  | false => rfl
  | true =>
    have hpayload : ({ rt with rateLimiter := (rt.consult call.request).2 } :
        ConnectorRuntime).payload call.request scope call.answer =
        rt.payload call.request scope call.answer := rfl
    simp only [Bool.not_true, Bool.false_eq_true, if_false, hpayload]
    cases rt.payload call.request scope call.answer <;> rfl

variable (rt call) in
/-- A call changes the limiter only. -/
theorem next_eq : ∃ rateLimiter, rt.next call = { rt with rateLimiter } := by
  cases h : rt.accept call.request with
  | error err => exact ⟨rt.rateLimiter, by rw [next, execute_of_error h]⟩
  | ok scope => exact ⟨_, by rw [next, execute_of_ok h]⟩

@[simp] theorem manifest_next : (rt.next call).manifest = rt.manifest := by
  obtain ⟨rateLimiter, h⟩ := rt.next_eq call
  rw [h]

@[simp] theorem mode_next : (rt.next call).mode = rt.mode := by
  obtain ⟨rateLimiter, h⟩ := rt.next_eq call
  rw [h]

@[simp] theorem accept_next : (rt.next call).accept request = rt.accept request := by
  obtain ⟨rateLimiter, h⟩ := rt.next_eq call
  rw [h]
  rfl

@[simp] theorem firstLimit_next : (rt.next call).firstLimit = rt.firstLimit := by
  obtain ⟨rateLimiter, h⟩ := rt.next_eq call
  rw [h]
  rfl

theorem firstLimit_limit {first : RateLimitDeclaration} (h : first ∈ rt.manifest.rateLimit.head?) :
    rt.firstLimit.limit = first.limit := by
  rw [firstLimit, Option.mem_def.mp h]
  rfl

theorem firstLimit_windowMs {first : RateLimitDeclaration}
    (h : first ∈ rt.manifest.rateLimit.head?) : rt.firstLimit.windowMs = first.windowMs := by
  rw [firstLimit, Option.mem_def.mp h]
  rfl

/-- The first limit can be met. -/
structure Positive (rt : ConnectorRuntime) : Prop where
  limit : 0 < rt.firstLimit.limit.toNat
  window : 0 < rt.firstLimit.windowMs.toNat

theorem Positive.of_valid (h : rt.manifest.Valid) : rt.Positive := by
  unfold ConnectorManifest.Valid at h
  cases hfirst : rt.manifest.rateLimit with
  | nil =>
    constructor
    · simp only [firstLimit, hfirst]
      decide
    · simp only [firstLimit, hfirst]
      decide
  | cons first rest =>
    obtain ⟨hlimit, hwindow⟩ := RateLimitDeclaration.positive_of_valid h
      (by simp [hfirst] : first ∈ rt.manifest.rateLimit)
    exact ⟨by simpa [firstLimit, hfirst] using hlimit, by simpa [firstLimit, hfirst] using hwindow⟩

theorem Positive.next (h : rt.Positive) : (rt.next call).Positive :=
  ⟨by simpa using h.limit, by simpa using h.window⟩

theorem Positive.consult (h : rt.Positive) :
    rt.consult request =
      (if rt.bucket.room rt.firstLimit.limit.toNat rt.firstLimit.windowMs.toNat request.nowMs.toNat
        then ⟨true, 0⟩
        else ⟨false, rt.firstLimit.windowMs.toNat - (request.nowMs.toNat -
          (rt.bucket.roll rt.firstLimit.windowMs.toNat request.nowMs.toNat).start)⟩,
        Function.update rt.rateLimiter rt.firstLimit.key (some (rt.bucket.take
          rt.firstLimit.limit.toNat rt.firstLimit.windowMs.toNat request.nowMs.toNat))) :=
  ConnectorRateLimiter.check_of_pos h.limit h.window

theorem Positive.passes (h : rt.Positive) :
    rt.passes request = ((rt.accept request).isOk &&
      rt.bucket.room rt.firstLimit.limit.toNat rt.firstLimit.windowMs.toNat request.nowMs.toNat) := by
  rw [ConnectorRuntime.passes, h.consult]
  dsimp only
  split <;> simp [*]

theorem Positive.bucket_next (h : rt.Positive) :
    (rt.next call).bucket =
      if (rt.accept call.request).isOk then rt.bucket.take rt.firstLimit.limit.toNat
        rt.firstLimit.windowMs.toNat call.request.nowMs.toNat
      else rt.bucket := by
  rw [bucket, firstLimit_next]
  cases haccept : rt.accept call.request with
  | error err =>
    rw [ConnectorRuntime.next, execute_of_error haccept]
    rfl
  | ok scope =>
    rw [ConnectorRuntime.next, execute_of_ok haccept, h.consult]
    simp [ConnectorRateLimiter.bucket, Except.isOk, Except.toBool]

/-! ## Sequences of calls -/

/-- The times of the requests that reach the limiter. -/
def reached (rt : ConnectorRuntime) (calls : List ConnectorCall) : List ℕ :=
  (calls.filter fun call => (rt.accept call.request).isOk).map (·.request.nowMs.toNat)

@[simp] theorem reached_nil : rt.reached [] = [] := rfl

@[simp] theorem reached_next {calls : List ConnectorCall} :
    (rt.next call).reached calls = rt.reached calls := by
  simp [reached]

theorem reached_cons {calls : List ConnectorCall} :
    rt.reached (call :: calls) = if (rt.accept call.request).isOk then
      call.request.nowMs.toNat :: rt.reached calls else rt.reached calls := by
  unfold reached
  rw [List.filter_cons]
  split <;> rfl

/-- The limiter of a run is the fixed-window limiter on the requests that reach it. -/
theorem Positive.passedTimes (h : rt.Positive) (calls : List ConnectorCall) :
    passedTimes rt calls = FixedWindow.Bucket.passed rt.firstLimit.limit.toNat
      rt.firstLimit.windowMs.toNat rt.bucket (rt.reached calls) := by
  induction calls generalizing rt with
  | nil => rfl
  | cons call calls ih =>
    rw [ConnectorRuntime.passedTimes, ih h.next, firstLimit_next, reached_next, h.bucket_next,
      h.passes, reached_cons]
    cases (rt.accept call.request).isOk with
    | false => rfl
    | true => rfl

theorem Positive.windowStarts (h : rt.Positive) {calls : List ConnectorCall} {start : ℕ}
    (hs : start ∈ windowStarts rt calls) :
    start ∈ FixedWindow.Bucket.starts rt.firstLimit.limit.toNat rt.firstLimit.windowMs.toNat
      rt.bucket (rt.reached calls) := by
  induction calls generalizing rt with
  | nil => exact hs
  | cons call calls ih =>
    rw [reached_cons]
    rcases List.mem_cons.mp hs with rfl | hs
    · split
      · exact .head _
      · cases rt.reached calls <;> exact .head _
    · have hrest := ih h.next hs
      rw [firstLimit_next, reached_next, h.bucket_next] at hrest
      split
      next hok =>
        rw [if_pos hok] at hrest
        exact .tail _ hrest
      next hok =>
        rwa [if_neg hok] at hrest

/-! ### Limits that are kept -/

/-- The limiter is not ahead of the calls, and has not let too many pass. -/
structure Ready (rt : ConnectorRuntime) (calls : List ConnectorCall) : Prop where
  positive : rt.Positive
  ordered : InOrder calls
  start_le : ∀ call ∈ calls, rt.bucket.start ≤ call.request.nowMs.toNat
  used_le : rt.bucket.used ≤ rt.firstLimit.limit.toNat

variable {calls : List ConnectorCall}

theorem Ready.create {manifest : ConnectorManifest} (hmanifest : manifest.Valid)
    (auth : ConnectorAuthState) (mode : ConnectorRuntimeMode) (mocks : String → Option Json)
    (hcalls : InOrder calls) : (create manifest auth mode mocks).Ready calls where
  positive := .of_valid hmanifest
  ordered := hcalls
  start_le _ _ := Nat.zero_le _
  used_le := Nat.zero_le _

theorem Ready.next (h : rt.Ready (call :: calls)) : (rt.next call).Ready calls where
  positive := h.positive.next
  ordered := (List.pairwise_cons.mp h.ordered).2
  start_le call' hcall' := by
    have hle := UInt64.le_iff_toNat_le.mp ((List.pairwise_cons.mp h.ordered).1 call' hcall')
    have hstart := h.start_le call (.head _)
    rw [h.positive.bucket_next]
    split
    · rw [FixedWindow.Bucket.start_take]
      exact (FixedWindow.Bucket.start_roll_le hstart).trans hle
    · exact hstart.trans hle
  used_le := by
    rw [h.positive.bucket_next, firstLimit_next]
    split
    · exact FixedWindow.Bucket.used_take_le h.used_le
    · exact h.used_le

theorem Ready.retryKept (h : rt.Ready (call :: calls)) : rt.RetryKept call := by
  intro retryAfterMs hresult hpasses request hlater haccepted
  rw [accept_next] at haccepted
  have hstart := h.start_le call (.head _)
  rw [h.positive.next.passes, accept_next, haccepted, Bool.true_and, firstLimit_next,
    h.positive.bucket_next]
  cases haccept : rt.accept call.request with
  | error err =>
    rw [execute_of_error haccept] at hresult
    obtain rfl := Except.error.inj hresult
    exact absurd haccept accept_ne_rateLimited
  | ok scope =>
    rw [execute_of_ok haccept, h.positive.consult] at hresult
    rw [h.positive.passes, haccept] at hpasses
    simp only [Except.isOk, Except.toBool, Bool.true_and, Bool.not_eq_true] at hpasses ⊢
    rw [hpasses] at hresult
    have hretry : retryAfterMs = rt.firstLimit.windowMs.toNat - (call.request.nowMs.toNat -
        (rt.bucket.roll rt.firstLimit.windowMs.toNat call.request.nowMs.toNat).start) := by
      simpa using hresult.symm
    rw [if_pos trivial, FixedWindow.Bucket.take, hpasses, if_neg (by simp)]
    -- the window has ended by then, and the next one is empty
    have hroll := @FixedWindow.Bucket.start_roll_le rt.firstLimit.windowMs.toNat _ _ hstart
    rw [FixedWindow.Bucket.room, FixedWindow.Bucket.roll_of_le (by omega)]
    exact decide_eq_true h.positive.limit

theorem Ready.throughout_retryKept (h : rt.Ready calls) :
    Calls.Throughout ConnectorRuntime.next RetryKept calls rt := by
  induction calls generalizing rt with
  | nil => trivial
  | cons call calls ih => exact ⟨h.retryKept, ih h.next⟩

theorem Ready.sorted_reached (h : rt.Ready calls) : (rt.reached calls).Pairwise (· ≤ ·) :=
  List.pairwise_map.mpr ((h.ordered.filter _).imp UInt64.le_iff_toNat_le.mp)

theorem Ready.le_of_mem_reached (h : rt.Ready calls) : ∀ t ∈ rt.reached calls, rt.bucket.start ≤ t := by
  intro t ht
  obtain ⟨call, hcall, rfl⟩ := List.mem_map.mp ht
  exact h.start_le call (List.mem_of_mem_filter hcall)

/-- A limit that follows from the first one is kept. -/
theorem Ready.limitKept (h : rt.Ready calls) {declaration : RateLimitDeclaration}
    (hwindow : 0 < declaration.windowMs.toNat)
    (hfollows : (declaration.windowMs.toNat ⌈/⌉ rt.firstLimit.windowMs.toNat) *
      rt.firstLimit.limit.toNat ≤ declaration.limit.toNat) :
    LimitKept declaration rt calls := by
  have hpos := h.positive.window
  set n := declaration.windowMs.toNat ⌈/⌉ rt.firstLimit.windowMs.toNat with hn
  have hcover : declaration.windowMs.toNat ≤ n * rt.firstLimit.windowMs.toNat := by
    rw [Nat.mul_comm]
    exact (ceilDiv_le_iff_le_mul hpos).mp hn.ge
  have hn0 : 0 < n := by
    rcases Nat.eq_zero_or_pos n with h0 | h0
    · rw [h0, Nat.zero_mul] at hcover
      omega
    · exact h0
  refine ⟨fun start hs => ?_, fun first last hlast => ?_, h.throughout_retryKept⟩
  · rw [h.positive.passedTimes]
    refine ((List.countP_mono_left fun t _ ht => ?_).trans
      (FixedWindow.Bucket.countP_passed_le hpos h.sorted_reached h.le_of_mem_reached h.used_le hn0
        (h.positive.windowStarts hs))).trans hfollows
    have ht := of_decide_eq_true ht
    exact decide_eq_true ⟨ht.1, by omega⟩
  · rw [h.positive.passedTimes]
    have htwice : (n + 1) * rt.firstLimit.limit.toNat ≤ 2 * declaration.limit.toNat := by
      have hone := Nat.le_mul_of_pos_left rt.firstLimit.limit.toNat hn0
      rw [Nat.succ_mul]
      omega
    refine ((List.countP_mono_left fun t _ ht => ?_).trans
      (FixedWindow.Bucket.countP_passed_interval_le hpos h.sorted_reached h.le_of_mem_reached
        h.used_le hn0 first)).trans htwice
    have ht := of_decide_eq_true ht
    exact decide_eq_true ⟨ht.1, by omega⟩

/-- Without scopes, no request gets to the limiter. -/
theorem Ready.limitKept_of_scope_eq_nil (h : rt.Ready calls) (hscope : rt.manifest.scope = [])
    {declaration : RateLimitDeclaration} : LimitKept declaration rt calls := by
  have hreached : rt.reached calls = [] := by
    rw [reached, List.map_eq_nil_iff, List.filter_eq_nil_iff]
    intro call _
    simp [accept, hscope, Except.isOk, Except.toBool]
  have hpassed : passedTimes rt calls = [] := by
    rw [h.positive.passedTimes, hreached]
    rfl
  exact ⟨by simp [hpassed], by simp [hpassed], h.throughout_retryKept⟩

/-! ### Limits that are not kept -/

theorem toNat_ofNat {n : ℕ} (h : n < 2 ^ 64) : (UInt64.ofNat n).toNat = n :=
  UInt64.toNat_ofNat_of_lt' h

/-- A call that gets to the limiter, at a time. -/
def probe (scope : ConnectorScope) (t : ℕ) : ConnectorCall where
  request := ⟨scope.id, "", .null, "approval", "", UInt64.ofNat t⟩
  answer := .error (.realModeNotBound "")

def probeAuth (scope : ConnectorScope) : ConnectorAuthState :=
  ⟨"tenant", "actor", "token", [scope.id], UInt64.ofNat (2 ^ 64 - 1)⟩

def probed (manifest : ConnectorManifest) (scope : ConnectorScope) : ConnectorRuntime :=
  create manifest (probeAuth scope) .mock fun _ => none

theorem isOk_accept_probe {manifest : ConnectorManifest} {scope : ConnectorScope}
    {rest : List ConnectorScope} (hscope : manifest.scope = scope :: rest) {t : ℕ}
    (ht : t < 2 ^ 64 - 1) : ((probed manifest scope).accept (probe scope t).request).isOk := by
  have haccept : (probed manifest scope).accept (probe scope t).request = .ok scope := by
    refine accept_eq_ok.mpr ⟨?_, authorize_eq_ok.mpr ⟨?_, ?_, ?_, ?_, List.mem_singleton_self _⟩, ?_⟩
    · show (manifest.scope.find? fun s : ConnectorScope => s.id = scope.id) = some scope
      rw [hscope, List.find?_cons_of_pos (by simp)]
    · show isBlank "tenant" = false
      decide +kernel
    · show isBlank "actor" = false
      decide +kernel
    · show isBlank "token" = false
      decide +kernel
    · show UInt64.ofNat t < UInt64.ofNat (2 ^ 64 - 1)
      rw [UInt64.lt_iff_toNat_lt, toNat_ofNat (by omega), toNat_ofNat (by decide)]
      exact ht
    · have hblank : isBlank (probe scope t).request.approvalId = false := by
        show isBlank "approval" = false
        decide +kernel
      simp [hblank]
  rw [haccept]
  rfl

/-- As many full windows of the first limit as it takes to cover the window of another one. -/
theorem limitsFollow_of_limitKept {manifest : ConnectorManifest} (hvalid : manifest.Valid)
    (h : ∀ auth mode mocks calls, InOrder calls → ∀ declaration ∈ manifest.rateLimit,
      LimitKept declaration (create manifest auth mode mocks) calls) : manifest.LimitsFollow := by
  cases hscope : manifest.scope with
  | nil => exact .inl hscope
  | cons scope rest =>
    refine .inr fun first hfirst declaration hdeclaration => ?_
    set rt := probed manifest scope with hrt
    have hpositive : rt.Positive := .of_valid hvalid
    have hlimit : rt.firstLimit.limit = first.limit := firstLimit_limit hfirst
    have hwindow : rt.firstLimit.windowMs = first.windowMs := firstLimit_windowMs hfirst
    have hlimit0 := hpositive.limit
    have hwindow0 := hpositive.window
    rw [hlimit] at hlimit0
    rw [hwindow] at hwindow0
    set n := declaration.windowMs.toNat ⌈/⌉ first.windowMs.toNat with hn
    let bursts := FixedWindow.Bucket.bursts first.limit.toNat first.windowMs.toNat 0 n
    have hceil : n * first.windowMs.toNat < declaration.windowMs.toNat + first.windowMs.toNat := by
      rw [hn, Nat.ceilDiv_eq_add_pred_div]
      have := Nat.div_mul_le_self (declaration.windowMs.toNat + first.windowMs.toNat - 1)
        first.windowMs.toNat
      omega
    have hbound : ∀ t ∈ bursts, t < declaration.windowMs.toNat := fun t ht => by
      have := FixedWindow.Bucket.mem_bursts ht
      omega
    have htime : ∀ t ∈ bursts, t < 2 ^ 64 - 1 := fun t ht => by
      have := hbound t ht
      have := declaration.windowMs.toNat_lt
      omega
    let calls := bursts.map (probe scope)
    have haccept : ∀ call ∈ calls, (rt.accept call.request).isOk := by
      intro call hcall
      obtain ⟨t, ht, rfl⟩ := List.mem_map.mp hcall
      exact isOk_accept_probe hscope (htime t ht)
    have hordered : InOrder calls := by
      refine List.pairwise_map.mpr ((FixedWindow.Bucket.sorted_bursts 0 n).imp_of_mem ?_)
      intro t t' ht ht' hle
      have hlt := htime t ht
      have hlt' := htime t' ht'
      show UInt64.ofNat t ≤ UInt64.ofNat t'
      rwa [UInt64.le_iff_toNat_le, toNat_ofNat (by omega), toNat_ofNat (by omega)]
    have hreached : rt.reached calls = bursts := by
      rw [reached, List.filter_eq_self.mpr haccept, List.map_map]
      refine (List.map_congr_left fun t ht => ?_).trans (List.map_id _)
      have hlt := htime t ht
      exact toNat_ofNat (by omega)
    have hpassed : passedTimes rt calls = bursts := by
      rw [hpositive.passedTimes, hreached, hlimit, hwindow]
      exact FixedWindow.Bucket.passed_bursts hwindow0 hlimit0 (.inl rfl) n
    have hstart : 0 ∈ windowStarts rt calls := by
      cases calls <;> exact .head _
    have hkept := (h _ _ _ calls hordered declaration hdeclaration).window 0 hstart
    rw [← probed, ← hrt, hpassed, List.countP_eq_length.mpr] at hkept
    · rwa [FixedWindow.Bucket.length_bursts] at hkept
    · exact fun t ht => decide_eq_true ⟨Nat.zero_le t, by simpa using hbound t ht⟩

/-! ### Replayed writes -/

/-- A call has an answer if it passes and its scope and mode provide one. -/
theorem isOk_execute : (rt.execute call).1.isOk ↔ rt.passes call.request ∧
    ∃ scope, rt.accept call.request = .ok scope ∧ (rt.payload call.request scope call.answer).isOk := by
  cases haccept : rt.accept call.request with
  | error err => simp [execute_of_error haccept, passes, haccept, Except.isOk, Except.toBool]
  | ok scope =>
    rw [execute_of_ok haccept, passes, haccept]
    simp only [Except.ok.injEq, exists_eq_left']
    cases (rt.consult call.request).1.allowed with
    | false => simp [Except.isOk, Except.toBool]
    | true =>
      cases rt.payload call.request scope call.answer <;>
        simp [Except.isOk, Except.toBool, Except.map]

theorem isOk_payload_replay {scope : ConnectorScope} {answer : Except ConnectorRuntimeError Json}
    (h : rt.mode = .replay) : (rt.payload request scope answer).isOk ↔
      ¬ scopeIsWrite scope ∧ rt.mocks request.operation ≠ none := by
  rw [payload, h]
  dsimp only
  split
  next hwrite => simp [hwrite, Except.isOk, Except.toBool]
  next hwrite =>
    rw [mock]
    cases rt.mocks request.operation <;> simp [hwrite, Except.isOk, Except.toBool]

theorem namesWrite_iff {scope : ConnectorScope} (h : rt.accept request = .ok scope) :
    rt.NamesWrite request ↔ scopeIsWrite scope := by
  have hfind := (accept_eq_ok.mp h).1
  constructor
  · rintro ⟨found, hfound, hwrite⟩
    obtain rfl := Option.some.inj (hfind.symm.trans hfound)
    exact hwrite
  · exact fun hwrite => ⟨scope, hfind, hwrite⟩

theorem replayKept_iff_guarded : rt.ReplayKept call ↔ rt.ReplayGuarded call := by
  constructor
  · intro hkept hmode hquarantines hpasses
    obtain ⟨haccepted, -⟩ := Bool.and_eq_true_iff.mp hpasses
    cases haccept : rt.accept call.request with
    | error err => simp [haccept, Except.isOk, Except.toBool] at haccepted
    | ok scope =>
      rw [namesWrite_iff haccept]
      by_contra hopen
      obtain ⟨hwrite, hmock⟩ := not_or.mp hopen
      exact hkept hmode (.inl hquarantines)
        (isOk_execute.mpr ⟨hpasses, scope, haccept, (isOk_payload_replay hmode).mpr ⟨hwrite, hmock⟩⟩)
  · intro hguarded hmode hwrite hok
    obtain ⟨hpasses, scope, haccept, hpayload⟩ := isOk_execute.mp hok
    obtain ⟨hnowrite, hmock⟩ := (isOk_payload_replay hmode).mp hpayload
    have hnamed := (namesWrite_iff haccept).not.mpr hnowrite
    rcases hwrite with hquarantines | hnames
    · exact (hguarded hmode hquarantines hpasses).elim hnamed hmock
    · exact hnamed hnames

end ConnectorRuntime

/-! ## Main results -/

open ConnectorRuntime in
/-- The limits of a manifest are kept, in every sequence of calls, just when they follow from the first
one. The writes of a sequence of calls are quarantined just when they are guarded. -/
theorem declared_iff (manifest : ConnectorManifest) (hvalid : manifest.Valid) :
    ((∀ auth mode mocks calls, InOrder calls → ∀ declaration ∈ manifest.rateLimit,
        LimitKept declaration (create manifest auth mode mocks) calls) ↔ manifest.LimitsFollow) ∧
      ∀ auth mode mocks calls, InOrder calls →
        (Calls.Throughout next ReplayKept calls (create manifest auth mode mocks) ↔
          Calls.Throughout next ReplayGuarded calls (create manifest auth mode mocks)) := by
  refine ⟨⟨limitsFollow_of_limitKept hvalid, ?_⟩, fun auth mode mocks calls _ => ?_⟩
  · intro hfollow auth mode mocks calls hordered declaration hdeclaration
    have hready := Ready.create hvalid auth mode mocks hordered
    rcases hfollow with hscope | hfollow
    · exact hready.limitKept_of_scope_eq_nil hscope
    obtain ⟨first, hfirst⟩ : ∃ first, first ∈ manifest.rateLimit.head? := by
      cases hlimits : manifest.rateLimit with
      | nil => simp [hlimits] at hdeclaration
      | cons first rest => exact ⟨first, rfl⟩
    have hfollow := hfollow first hfirst declaration hdeclaration
    refine hready.limitKept (RateLimitDeclaration.positive_of_valid hvalid hdeclaration).2 ?_
    rwa [firstLimit_limit hfirst, firstLimit_windowMs hfirst]
  · exact Calls.throughout_iff_of_inv (I := fun _ => True) (fun _ _ _ _ => replayKept_iff_guarded)
      (fun _ _ _ _ _ => trivial) trivial

/-- A manifest with a scope to read and one to write, and with the given limits for each second. -/
def mail (limits : List UInt64) : ConnectorManifest where
  schema := connectorManifestSchema
  name := "gmail"
  provider := "google"
  mode := [.mock, .replay, .real]
  scope :=
    [⟨"gmail.search", "gmail.readonly", ["email_metadata"], ["network.read"], .none⟩,
      ⟨"gmail.send", "gmail.send", ["email_metadata"], ["network.write", "send_email"], .required⟩]
  rateLimit := limits.map fun limit => ⟨"user_id", limit, 1000, "provider_header"⟩
  redaction := []
  replay := [⟨"search", .recordRead⟩, ⟨"send", .quarantineWrite⟩]

def mailAuth : ConnectorAuthState :=
  ⟨"tenant", "actor", "token", ["gmail.search", "gmail.send"], 9000⟩

def mailCall (scopeId operation : String) : ConnectorCall :=
  ⟨⟨scopeId, operation, .null, "approval", "key", 5⟩, .error (.realModeNotBound operation)⟩

open ConnectorRuntime in
theorem mail_declared :
    (∀ auth mode mocks calls, InOrder calls → ∀ declaration ∈ (mail [2, 3]).rateLimit,
        LimitKept declaration (create (mail [2, 3]) auth mode mocks) calls) ∧
      Calls.Throughout next ReplayKept [mailCall "gmail.send" "send", mailCall "gmail.search" "search"]
        (create (mail [2, 3]) mailAuth .replay fun _ => some .null) := by
  obtain ⟨hlimits, hreplay⟩ := declared_iff (mail [2, 3]) (by decide +kernel)
  refine ⟨hlimits.mpr (.inr ?_), (hreplay mailAuth .replay _ _ (by decide)).mpr ⟨?_, ?_, trivial⟩⟩
  · decide
  · exact fun _ _ _ => .inl ⟨⟨"gmail.send", "gmail.send", ["email_metadata"],
      ["network.write", "send_email"], .required⟩, by decide +kernel, by decide +kernel⟩
  · intro _ hquarantines
    simp [Quarantines, create, mail, mailCall] at hquarantines

open ConnectorRuntime in
/-- Two requests pass where the second limit allows one, and a replayed write is answered under the
scope to search. -/
theorem not_declared_mail :
    (mail [2, 1]).Valid ∧
      ¬ LimitKept ⟨"user_id", 1, 1000, "provider_header"⟩
        (create (mail [2, 1]) mailAuth .mock fun _ => some .null)
        [mailCall "gmail.search" "search", mailCall "gmail.search" "search"] ∧
      ¬ Calls.Throughout next ReplayKept [mailCall "gmail.search" "send"]
        (create (mail [2, 1]) mailAuth .replay fun _ => some .null) := by
  refine ⟨by decide +kernel, fun hlimit => ?_, fun hreplay => ?_⟩
  · have hwindow := hlimit.window 0 (by decide +kernel)
    exact absurd hwindow (by decide +kernel)
  · have hquarantines : (create (mail [2, 1]) mailAuth .replay fun _ => some .null).Quarantines "send" :=
      ⟨⟨"send", .quarantineWrite⟩, by decide, rfl, rfl⟩
    exact absurd (by decide +kernel) (hreplay.1 rfl (.inl hquarantines))

end Corvid.Connectors
