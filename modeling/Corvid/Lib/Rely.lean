import Corvid.Lib.Pool

/-!
# Rely and guarantee

A program that runs beside others relies on what they do to the store between its queries, and
guarantees something of each of its own queries. When all programs guarantee what the others rely on,
the guarantees and the invariant of the store hold in all interleavings.

## Main definitions

* `Prog.Guarantees`: what a program guarantees, from a state on
* `RelyGuarantee`: an invariant, a rely relation and guarantees that fit together
* `Pool.calling`: the operation that a thread is in, from the log
* `Prog.Ends`: how a program ends, failures included

## Main results

* `RelyGuarantee.of_run`: the invariant holds, and the calls in progress keep their guarantees
* `Pool.Run.ends`: the results of calls, when every query satisfies the rely relation
* `RelyGuarantee.of_access`, `RelyGuarantee.of_finish`: the entries of a log
-/

namespace Store

variable {Q : Type} {R : Q → Type} {ε α β ι σ Ω : Type}

namespace Prog

section

variable (exec : (q : Q) → σ → R q × σ) (rely : σ → σ → Prop) (allowed guarantee : σ → Q → Prop)

/-- Each query satisfies `guarantee` when it is issued and the result satisfies `post`, whatever the
others do in between. Queries that are not allowed need not be followed. -/
def Guarantees (post : α → σ → Prop) : Prog R ε α → σ → Prop
  | ret a, s => ∀ s', rely s s' → post a s'
  | fail _, _ => True
  | call q k, s => ∀ s', rely s s' → guarantee s' q ∧
      (allowed s' q → (k (exec q s').1).Guarantees post (exec q s').2)

end

variable {exec : (q : Q) → σ → R q × σ} {rely : σ → σ → Prop} {allowed guarantee : σ → Q → Prop}

theorem guarantees_ret {post : α → σ → Prop} {a : α} {s : σ} (h : ∀ s', rely s s' → post a s') :
    (pure a : Prog R ε α).Guarantees exec rely allowed guarantee post s :=
  h

/-- What others do meanwhile does no harm. -/
theorem Guarantees.mono (htrans : ∀ s₁ s₂ s₃, rely s₁ s₂ → rely s₂ s₃ → rely s₁ s₃)
    {post : α → σ → Prop} {p : Prog R ε α} {s s' : σ} (hs : rely s s')
    (h : p.Guarantees exec rely allowed guarantee post s) :
    p.Guarantees exec rely allowed guarantee post s' := by
  cases p with
  | ret a => exact fun s'' hs'' => h s'' (htrans _ _ _ hs hs'')
  | fail e => trivial
  | call q k => exact fun s'' hs'' => h s'' (htrans _ _ _ hs hs'')

theorem Guarantees.bind (hrefl : ∀ s, rely s s) {post : α → σ → Prop} {post' : β → σ → Prop}
    {p : Prog R ε α} {f : α → Prog R ε β} {s : σ}
    (hp : p.Guarantees exec rely allowed guarantee post s)
    (hf : ∀ a s', post a s' → (f a).Guarantees exec rely allowed guarantee post' s') :
    (p >>= f).Guarantees exec rely allowed guarantee post' s := by
  induction p generalizing s with
  | ret a => exact hf a s (hp s (hrefl s))
  | fail e => trivial
  | call q k ih => exact fun s' hs' => ⟨(hp s' hs').1, fun hq => ih _ ((hp s' hs').2 hq)⟩

theorem Guarantees.map {post : β → σ → Prop} {p : Prog R ε α} {f : α → β} {s : σ}
    (h : p.Guarantees exec rely allowed guarantee (fun a => post (f a)) s) :
    (f <$> p).Guarantees exec rely allowed guarantee post s := by
  induction p generalizing s with
  | ret a => exact h
  | fail e => trivial
  | call q k ih => exact fun s' hs' => ⟨(h s' hs').1, fun hq => ih _ ((h s' hs').2 hq)⟩

theorem guarantees_query_bind {post : β → σ → Prop} {q : Q} {f : R q → Prog R ε β} {s : σ}
    (h : ∀ s', rely s s' → guarantee s' q ∧
      (allowed s' q → (f (exec q s').1).Guarantees exec rely allowed guarantee post (exec q s').2)) :
    (query q >>= f).Guarantees exec rely allowed guarantee post s :=
  h

theorem guarantees_ofExcept_bind {post : β → σ → Prop} {x : Except ε α} {f : α → Prog R ε β} {s : σ}
    (h : ∀ a, x = .ok a → (f a).Guarantees exec rely allowed guarantee post s) :
    (ofExcept x >>= f).Guarantees exec rely allowed guarantee post s := by
  cases x with
  | error e => trivial
  | ok a => exact h a rfl

/-- A program whose queries need no guarantee of their states. -/
theorem guarantees_of_all {P : Q → Prop} (hguarantee : ∀ s q, P q → guarantee s q)
    {p : Prog R ε α} (hp : p.All P) {post : α → σ → Prop} (hpost : ∀ a s, post a s) (s : σ) :
    p.Guarantees exec rely allowed guarantee post s := by
  induction p generalizing s with
  | ret a => exact fun s' _ => hpost a s'
  | fail e => trivial
  | call q k ih => exact fun s' _ => ⟨hguarantee s' q hp.1, fun _ => ih _ (hp.2 _) _⟩

end Prog

/-- What each operation guarantees is what the others rely on. -/
structure RelyGuarantee (exec : (q : Q) → σ → R q × σ) (prog : Ω → Prog R ε α) where
  inv : σ → Prop
  rely : σ → σ → Prop
  allowed : σ → Q → Prop
  guarantee : Ω → σ → Q → Prop
  post : Ω → α → σ → Prop
  refl : ∀ s, rely s s
  trans : ∀ s₁ s₂ s₃, rely s₁ s₂ → rely s₂ s₃ → rely s₁ s₃
  exec_inv : ∀ op s q, inv s → allowed s q → guarantee op s q →
    inv (exec q s).2 ∧ rely s (exec q s).2
  prog_guarantees : ∀ op s, (prog op).Guarantees exec rely allowed (guarantee op) (post op) s

namespace Pool

variable [DecidableEq ι]

/-- The operation that a thread is in after an entry. -/
def Label.calling (i : ι) (op : Option Ω) : Label ι σ Q ε α Ω → Option Ω
  | start j op' => if j = i then some op' else op
  | access .. => op
  | finish j _ _ => if j = i then none else op

/-- The operation that a thread is in. -/
def calling (i : ι) (log : List (Label ι σ Q ε α Ω)) : Option Ω := log.foldl (Label.calling i) none

theorem calling_snoc (i : ι) (log : List (Label ι σ Q ε α Ω)) (l : Label ι σ Q ε α Ω) :
    calling i (log ++ [l]) = l.calling i (calling i log) :=
  List.foldl_append

variable {exec : (q : Q) → σ → R q × σ} {prog : Ω → Prog R ε α} {s₀ : σ}
  {C : List (Label ι σ Q ε α Ω) → Pool ι σ R ε α Ω → Label ι σ Q ε α Ω → Prop}
  {log : List (Label ι σ Q ε α Ω)} {c : Pool ι σ R ε α Ω}

theorem Run.calling_eq (h : Run exec prog s₀ C log c) (i : ι) :
    calling i log = (c.calls i).map Call.op := by
  induction h with
  | nil => rfl
  | snoc _ hstep _ ih =>
    rw [calling_snoc, ih]
    cases hstep with
    | @start i' op hidle =>
      by_cases hi : i' = i
      · simp [Label.calling, hi]
      · simp [Label.calling, hi, Function.update_of_ne (Ne.symm hi)]
    | @access i' op done q k hbusy =>
      by_cases hi : i' = i
      · subst hi
        simp [Label.calling, hbusy]
      · simp [Label.calling, Function.update_of_ne (Ne.symm hi)]
    | @ret i' op done a hbusy =>
      by_cases hi : i' = i
      · simp [Label.calling, hi]
      · simp [Label.calling, hi, Function.update_of_ne (Ne.symm hi)]
    | @fail i' op done e hbusy =>
      by_cases hi : i' = i
      · simp [Label.calling, hi]
      · simp [Label.calling, hi, Function.update_of_ne (Ne.symm hi)]

end Pool

namespace RelyGuarantee

variable [DecidableEq ι] {exec : (q : Q) → σ → R q × σ} {prog : Ω → Prog R ε α}
  (rg : RelyGuarantee exec prog) {s₀ : σ}
  {C : List (Pool.Label ι σ Q ε α Ω) → Pool ι σ R ε α Ω → Pool.Label ι σ Q ε α Ω → Prop}
  (hC : ∀ log c i s q, C log c (.access i s q) → rg.allowed s q) (hs₀ : rg.inv s₀)
  {log : List (Pool.Label ι σ Q ε α Ω)} {c : Pool ι σ R ε α Ω}

include hC hs₀

/-- The invariant holds, and the calls in progress keep their guarantees. -/
theorem of_run (h : Pool.Run exec prog s₀ C log c) :
    rg.inv c.state ∧ ∀ i call, c.calls i = some call →
      call.rest.Guarantees exec rg.rely rg.allowed (rg.guarantee call.op) (rg.post call.op)
        c.state := by
  induction h with
  | nil => exact ⟨hs₀, fun i call hcall => nomatch hcall⟩
  | @snoc log c c' l _ hstep hallowed ih =>
    obtain ⟨hinv, hcalls⟩ := ih
    have hstate : rg.inv c'.state ∧ rg.rely c.state c'.state := by
      cases hstep with
      | start op hidle => exact ⟨hinv, rg.refl _⟩
      | access hbusy =>
        exact rg.exec_inv _ _ _ hinv (hC _ _ _ _ _ hallowed)
          (hcalls _ _ hbusy _ (rg.refl _)).1
      | ret hbusy => exact ⟨hinv, rg.refl _⟩
      | fail hbusy => exact ⟨hinv, rg.refl _⟩
    refine ⟨hstate.1, fun i call hcall => ?_⟩
    rcases hstep.calls hcall with ⟨hold, -⟩ | ⟨op, rfl, -⟩ | ⟨op, done, q, k, hold, rfl, rfl⟩
    · exact (hcalls i call hold).mono rg.trans hstate.2
    · exact rg.prog_guarantees op _
    · cases hstep
      exact (hcalls i _ hold _ (rg.refl _)).2 (hC _ _ _ _ _ hallowed)

/-- A query keeps the guarantee of its call. -/
theorem of_access {pre post : List (Pool.Label ι σ Q ε α Ω)} {i : ι} {s : σ} {q : Q}
    (h : Pool.Run exec prog s₀ C (pre ++ .access i s q :: post) c) :
    ∃ op, Pool.calling i pre = some op ∧ rg.inv s ∧ rg.allowed s q ∧ rg.guarantee op s q := by
  obtain ⟨c₁, c₂, hrun, hstep, hallowed⟩ := h.split
  obtain ⟨hinv, hcalls⟩ := rg.of_run hC hs₀ hrun
  have hcalling := hrun.calling_eq i
  cases hstep with
  | access hbusy =>
    rw [hbusy] at hcalling
    exact ⟨_, hcalling, hinv, hC _ _ _ _ _ hallowed, (hcalls _ _ hbusy _ (rg.refl _)).1⟩

/-- A result satisfies the postcondition of its operation. -/
theorem of_finish {i : ι} {op : Ω} {a : α} (h : Pool.Run exec prog s₀ C log c)
    (hmem : .finish i op (.ok a) ∈ log) : ∃ s, rg.inv s ∧ rg.post op a s := by
  obtain ⟨pre, post, rfl⟩ := List.append_of_mem hmem
  obtain ⟨c₁, c₂, hrun, hstep, -⟩ := h.split
  obtain ⟨hinv, hcalls⟩ := rg.of_run hC hs₀ hrun
  cases hstep with
  | ret hbusy => exact ⟨c₁.state, hinv, hcalls _ _ hbusy _ (rg.refl _)⟩

end RelyGuarantee

/-! ### Results -/

namespace Prog

variable (exec : (q : Q) → σ → R q × σ) (rely : σ → σ → Prop) (allowed : σ → Q → Prop)

/-- The program returns or fails with `post`, whatever the others do in between. -/
def Ends (post : Except ε α → σ → Prop) : Prog R ε α → σ → Prop
  | ret a, s => ∀ s', rely s s' → post (.ok a) s'
  | fail e, s => ∀ s', rely s s' → post (.error e) s'
  | call q k, s => ∀ s', rely s s' → allowed s' q →
      (k (exec q s').1).Ends post (exec q s').2

variable {exec rely allowed} {post : Except ε α → σ → Prop}

theorem Ends.mono (htrans : ∀ s₁ s₂ s₃, rely s₁ s₂ → rely s₂ s₃ → rely s₁ s₃) {p : Prog R ε α}
    {s s' : σ} (hs : rely s s') (h : p.Ends exec rely allowed post s) :
    p.Ends exec rely allowed post s' := by
  cases p with
  | ret a => exact fun s'' hs'' => h s'' (htrans _ _ _ hs hs'')
  | fail e => exact fun s'' hs'' => h s'' (htrans _ _ _ hs hs'')
  | call q k => exact fun s'' hs'' => h s'' (htrans _ _ _ hs hs'')

theorem Ends.map {post : Except ε β → σ → Prop} {f : α → β} {p : Prog R ε α} {s : σ}
    (h : p.Ends exec rely allowed (fun r => post (r.map f)) s) :
    (f <$> p).Ends exec rely allowed post s := by
  induction p generalizing s with
  | ret a => exact h
  | fail e => exact h
  | call q k ih => exact fun s' hs' hq => ih _ (h s' hs' hq)

theorem ends_query_bind {q : Q} {f : R q → Prog R ε α} {s : σ}
    (h : ∀ s', rely s s' → allowed s' q →
      (f (exec q s').1).Ends exec rely allowed post (exec q s').2) :
    (query q >>= f).Ends exec rely allowed post s :=
  h

/-- A program of which nothing is asked. -/
theorem ends_of_forall (hpost : ∀ r s, post r s) (p : Prog R ε α) (s : σ) :
    p.Ends exec rely allowed post s := by
  induction p generalizing s with
  | ret a => exact fun s' _ => hpost _ s'
  | fail e => exact fun s' _ => hpost _ s'
  | call q k ih => exact fun s' _ _ => ih _ _

end Prog

namespace Pool

variable [DecidableEq ι] {exec : (q : Q) → σ → R q × σ} {prog : Ω → Prog R ε α} {s₀ : σ}
  {C : List (Label ι σ Q ε α Ω) → Pool ι σ R ε α Ω → Label ι σ Q ε α Ω → Prop}
  {log : List (Label ι σ Q ε α Ω)} {c : Pool ι σ R ε α Ω} {inv : σ → Prop} {rely : σ → σ → Prop}
  {allowed : σ → Q → Prop} {post : Ω → Except ε α → σ → Prop}

/-- The calls in progress are about to end as they should, and those that have returned have done so,
and still have. -/
theorem Run.ends (hrefl : ∀ s, rely s s)
    (htrans : ∀ s₁ s₂ s₃, rely s₁ s₂ → rely s₂ s₃ → rely s₁ s₃)
    (hstep : ∀ s q, inv s → inv (exec q s).2 ∧ rely s (exec q s).2)
    (hC : ∀ log c i s q, C log c (.access i s q) → allowed s q)
    (hprog : ∀ op s, (prog op).Ends exec rely allowed (post op) s) (hs₀ : inv s₀)
    (h : Run exec prog s₀ C log c) :
    inv c.state ∧
      (∀ i call, c.calls i = some call →
        call.rest.Ends exec rely allowed (post call.op) c.state) ∧
      ∀ i op r, .finish i op r ∈ log → post op r c.state := by
  suffices hstable : inv c.state ∧
      (∀ i call, c.calls i = some call →
        call.rest.Ends exec rely allowed (post call.op) c.state) ∧
      ∀ i op r, .finish i op r ∈ log → ∀ s, rely c.state s → post op r s from
    ⟨hstable.1, hstable.2.1, fun i op r hmem => hstable.2.2 i op r hmem _ (hrefl _)⟩
  induction h with
  | nil => exact ⟨hs₀, (fun _ _ hcall => nomatch hcall), by simp⟩
  | @snoc log c c' l _ hl hallowed ih =>
    obtain ⟨hinv, hcalls, hfinish⟩ := ih
    have hstate : inv c'.state ∧ rely c.state c'.state := by
      cases hl with
      | access => exact hstep _ _ hinv
      | _ => exact ⟨hinv, hrefl _⟩
    refine ⟨hstate.1, fun i call hcall => ?_, fun i op r hmem s hs => ?_⟩
    · rcases hl.calls hcall with ⟨hold, -⟩ | ⟨op, rfl, -⟩ | ⟨op, done, q, k, hold, rfl, rfl⟩
      · exact (hcalls i call hold).mono htrans hstate.2
      · exact hprog op _
      · cases hl
        exact hcalls i _ hold _ (hrefl _) (hC _ _ _ _ _ hallowed)
    · rcases List.mem_append.mp hmem with hmem | hmem
      · exact hfinish i op r hmem s (htrans _ _ _ hstate.2 hs)
      · -- the call returns in this step
        obtain rfl := List.mem_singleton.mp hmem
        cases hl with
        | ret hbusy => exact hcalls _ _ hbusy s hs
        | fail hbusy => exact hcalls _ _ hbusy s hs

end Pool

end Store
