import Mathlib.Data.Set.Basic
import Mathlib.Logic.Function.Basic
import Mathlib.Tactic.Common

/-!
# Variables that hold references

A variable holds some number of references to its value. It can be given one more or give one up, hand
one over with a use that consumes it, be looked at, or be set to a fresh value; all but the last need a
reference. A run of a program does a list of these and then goes on, or leaves a loop, an iteration or
the whole program. Two programs are the same when, wherever the first one never lacks a reference, they
have the same runs up to the references that are gained and given up by themselves, with the same counts
at the end.

## Main definitions

* `exec`: the counts after a list of operations, if none of them lacks a reference
* `Behaviour`: the runs of a program, with `seq` and `loop`
* `Equivalent`: the same runs with the same counts, wherever the first program is safe

## Main results

* `exec_eq_some_iff`: each variable can be followed by itself
* `run_pair`: a reference that is gained before uses of one kind and given up after them is not needed
* `Equivalent.trans`, `Equivalent.seq`, `Equivalent.loop`: equivalent parts can be exchanged
* `equivalent_pair`, `equivalent_move`: a pair is left out, a reference is given up earlier
-/

namespace Holding

inductive Act where
  | dup
  | drop
  /-- A use that consumes a reference. -/
  | take
  /-- A use that needs a reference and leaves it. -/
  | look
  | define
deriving DecidableEq, Repr

structure Op (κ : Type*) where
  act : Act
  key : κ
deriving DecidableEq, Repr

/-! ### One variable -/

def Act.step (n : ℕ) : Act → Option ℕ
  | dup => if 0 < n then some (n + 1) else none
  | drop => if 0 < n then some (n - 1) else none
  | take => if 0 < n then some (n - 1) else none
  | look => if 0 < n then some n else none
  | define => some 1

/-- The references of one variable after a list of operations. -/
def run (n : ℕ) (acts : List Act) : Option ℕ :=
  acts.foldlM Act.step n

@[simp] theorem run_nil (n : ℕ) : run n [] = some n := rfl

@[simp] theorem run_cons (n : ℕ) (a : Act) (acts : List Act) :
    run n (a :: acts) = (a.step n).bind fun m => run m acts := rfl

theorem run_append (n : ℕ) (acts acts' : List Act) :
    run n (acts ++ acts') = (run n acts).bind fun m => run m acts' :=
  List.foldlM_append

/-- A number of uses that consume. -/
theorem run_take {acts : List Act} (h : ∀ a ∈ acts, a = .take) (n : ℕ) :
    run n acts = if acts.length ≤ n then some (n - acts.length) else none := by
  induction acts generalizing n with
  | nil => simp
  | cons a acts ih =>
    obtain ⟨rfl, hacts⟩ := List.forall_mem_cons.mp h
    rw [run_cons, Act.step, List.length_cons]
    split_ifs with hpos hle hle
    · rw [Option.bind_some, ih hacts, if_pos (by omega), Nat.sub_sub, Nat.add_comm 1]
    · rw [Option.bind_some, ih hacts, if_neg (by omega)]
    · omega
    · rfl

theorem run_look {acts : List Act} (h : ∀ a ∈ acts, a = .look) {n : ℕ} (hn : 0 < n) :
    run n acts = some n := by
  induction acts with
  | nil => rfl
  | cons a acts ih =>
    obtain ⟨rfl, hacts⟩ := List.forall_mem_cons.mp h
    rw [run_cons, Act.step, if_pos hn, Option.bind_some, ih hacts]

/-- A reference that is gained and given up again, with uses of one kind in between, is not needed. With
uses of both kinds it may be: the last look needs it when all others have been taken. -/
theorem run_pair {acts : List Act} (h : (∀ a ∈ acts, a = .take) ∨ ∀ a ∈ acts, a = .look) {n m : ℕ}
    (hrun : run n (.dup :: (acts ++ [.drop])) = some m) : run n acts = some m := by
  rw [run_cons, Act.step] at hrun
  split_ifs at hrun with hpos
  · rw [Option.bind_some, run_append] at hrun
    rcases h with h | h
    · rw [run_take h] at hrun ⊢
      split_ifs at hrun with hle
      · rw [Option.bind_some, run_cons, Act.step] at hrun
        split_ifs at hrun with hlast
        · rw [Option.bind_some, run_nil, Option.some_inj] at hrun
          rw [if_pos (by omega)]
          congr 1
          omega
        · cases hrun
      · cases hrun
    · rw [run_look h (Nat.succ_pos n), Option.bind_some, run_cons, Act.step,
        if_pos (Nat.succ_pos n), Option.bind_some, run_nil] at hrun
      rw [run_look h hpos]
      exact hrun
  · cases hrun

/-! ### All variables -/

section Counts

variable {κ : Type*} [DecidableEq κ]

def Op.step (c : κ → ℕ) (op : Op κ) : Option (κ → ℕ) :=
  (op.act.step (c op.key)).map fun n => Function.update c op.key n

/-- The counts after a list of operations; there are none once a reference is lacking. -/
def exec (c : κ → ℕ) (ops : List (Op κ)) : Option (κ → ℕ) :=
  ops.foldlM Op.step c

/-- What is done to one variable. -/
def actsOn (k : κ) (ops : List (Op κ)) : List Act :=
  (ops.filter fun op => op.key = k).map Op.act

/-- What is left of a list of operations when references are not gained or given up by themselves. -/
def observed (ops : List (Op κ)) : List (Op κ) :=
  ops.filter fun op => op.act ≠ .dup ∧ op.act ≠ .drop

variable {c d : κ → ℕ} {k : κ} {ops ops' : List (Op κ)}

@[simp] theorem actsOn_nil : actsOn k [] = [] := rfl

@[simp] theorem actsOn_append : actsOn k (ops ++ ops') = actsOn k ops ++ actsOn k ops' := by
  simp [actsOn]

theorem actsOn_cons (op : Op κ) :
    actsOn k (op :: ops) = if op.key = k then op.act :: actsOn k ops else actsOn k ops := by
  by_cases h : op.key = k <;> simp [actsOn, h]

theorem actsOn_eq_nil (h : ∀ op ∈ ops, op.key ≠ k) : actsOn k ops = [] := by
  simpa [actsOn] using h

omit [DecidableEq κ] in
@[simp] theorem observed_append : observed (ops ++ ops') = observed ops ++ observed ops' := by
  simp [observed]

theorem exec_append : exec c (ops ++ ops') = (exec c ops).bind fun d => exec d ops' :=
  List.foldlM_append

theorem exec_eq_some_iff :
    exec c ops = some d ↔ ∀ k, run (c k) (actsOn k ops) = some (d k) := by
  induction ops generalizing c with
  | nil => simp [exec, funext_iff]
  | cons op ops ih =>
    have hexec : exec c (op :: ops) = (op.step c).bind fun c' => exec c' ops := rfl
    rw [hexec, Op.step]
    cases hstep : op.act.step (c op.key) with
    | none =>
      simp only [Option.map_none, Option.bind_none, reduceCtorEq, false_iff, not_forall]
      exact ⟨op.key, by simp [actsOn_cons, hstep]⟩
    | some n =>
      rw [Option.map_some, Option.bind_some, ih]
      refine forall_congr' fun k => ?_
      rw [actsOn_cons]
      by_cases hk : op.key = k
      · subst hk
        rw [if_pos rfl, run_cons, hstep, Option.bind_some, Function.update_self]
      · rw [if_neg hk, Function.update_of_ne (Ne.symm hk)]

end Counts

/-! ### Programs -/

/-- How a run of a part of a program ends. -/
inductive Exit where
  | normal
  | broken
  | continued
  | returned
deriving DecidableEq, Repr

section Programs

variable {κ : Type*} [DecidableEq κ]

/-- The runs of a program, or of a part of one. A run that is cut short is the beginning of one of
these. -/
abbrev Behaviour (κ : Type*) := Set (List (Op κ) × Exit)

namespace Behaviour

/-- One run, which goes on. -/
def once (ops : List (Op κ)) : Behaviour κ :=
  {(ops, .normal)}

/-- The second part is run if the first one goes on. -/
def seq (a b : Behaviour κ) : Behaviour κ :=
  {p | p ∈ a ∧ p.2 ≠ .normal} ∪ {p | ∃ t u, (t, Exit.normal) ∈ a ∧ (u, p.2) ∈ b ∧ p.1 = t ++ u}

/-- The body is run some number of times, each time for a fresh value of the variable. -/
inductive Loop (k : κ) (body : Behaviour κ) : List (Op κ) → Exit → Prop where
  | done : Loop k body [] .normal
  | again {t u x y} (h : (t, x) ∈ body) (hx : x = .normal ∨ x = .continued) (hu : Loop k body u y) :
      Loop k body (⟨.define, k⟩ :: (t ++ u)) y
  | broken {t} (h : (t, Exit.broken) ∈ body) : Loop k body (⟨.define, k⟩ :: t) .normal
  | returned {t} (h : (t, Exit.returned) ∈ body) : Loop k body (⟨.define, k⟩ :: t) .returned

def loop (k : κ) (body : Behaviour κ) : Behaviour κ :=
  {p | Loop k body p.1 p.2}

end Behaviour

open Behaviour

/-- No run lacks a reference, so none that is cut short does. -/
def Safe (c : κ → ℕ) (a : Behaviour κ) : Prop :=
  ∀ p ∈ a, ∃ d, exec c p.1 = some d

/-- Two runs with the same uses and the same end that come to the same counts. -/
structure Matches (c : κ → ℕ) (p q : List (Op κ) × Exit) : Prop where
  exit : p.2 = q.2
  observed : observed p.1 = observed q.1
  exec : exec c p.1 = exec c q.1

/-- Every run of the first program is one of the second. -/
def Covers (c : κ → ℕ) (a b : Behaviour κ) : Prop :=
  ∀ p ∈ a, ∃ q ∈ b, Matches c p q

/-- From whatever counts the first program is safe, the two have the same runs. -/
def Equivalent (a b : Behaviour κ) : Prop :=
  ∀ c, Safe c a → Covers c a b ∧ Covers c b a

variable {c d : κ → ℕ} {k : κ} {a a' b b' : Behaviour κ} {p q r : List (Op κ) × Exit}

theorem Matches.symm (h : Matches c p q) : Matches c q p :=
  ⟨h.exit.symm, h.observed.symm, h.exec.symm⟩

theorem Matches.trans (h : Matches c p q) (h' : Matches c q r) : Matches c p r :=
  ⟨h.exit.trans h'.exit, h.observed.trans h'.observed, h.exec.trans h'.exec⟩

theorem Matches.append {t t' u u' : List (Op κ)} {x x' y y' : Exit}
    (h : Matches c (t, x) (t', x')) (hd : Holding.exec c t = some d)
    (h' : Matches d (u, y) (u', y')) : Matches c (t ++ u, y) (t' ++ u', y') where
  exit := h'.exit
  observed := by
    have ht := h.observed
    have hu := h'.observed
    dsimp only at ht hu ⊢
    rw [observed_append, observed_append, ht, hu]
  exec := by
    have ht := h.exec
    have hu := h'.exec
    dsimp only at ht hu ⊢
    rw [exec_append, exec_append, ← ht, hd, Option.bind_some, Option.bind_some, hu]

theorem Covers.trans (h : Covers c a b) (h' : Covers c b b') : Covers c a b' := by
  intro p hp
  obtain ⟨q, hq, hpq⟩ := h p hp
  obtain ⟨r, hr, hqr⟩ := h' q hq
  exact ⟨r, hr, hpq.trans hqr⟩

theorem Equivalent.refl (a : Behaviour κ) : Equivalent a a :=
  fun _ _ => ⟨fun p hp => ⟨p, hp, rfl, rfl, rfl⟩, fun p hp => ⟨p, hp, rfl, rfl, rfl⟩⟩

/-- A program that is equivalent to a safe one is safe. -/
theorem Equivalent.safe (h : Equivalent a b) (hsafe : Safe c a) : Safe c b := by
  intro p hp
  obtain ⟨q, hq, hmatch⟩ := (h c hsafe).2 p hp
  obtain ⟨d, hd⟩ := hsafe q hq
  exact ⟨d, hmatch.exec.trans hd⟩

theorem Equivalent.trans (h : Equivalent a b) (h' : Equivalent b b') : Equivalent a b' := by
  intro c hsafe
  have hab := h c hsafe
  have hbb' := h' c (h.safe hsafe)
  exact ⟨hab.1.trans hbb'.1, hbb'.2.trans hab.2⟩

theorem Equivalent.union (ha : Equivalent a a') (hb : Equivalent b b') :
    Equivalent (a ∪ b) (a' ∪ b') := by
  intro c hsafe
  have ha := ha c fun p hp => hsafe p (.inl hp)
  have hb := hb c fun p hp => hsafe p (.inr hp)
  constructor
  · rintro p (hp | hp)
    · obtain ⟨q, hq, h⟩ := ha.1 p hp
      exact ⟨q, .inl hq, h⟩
    · obtain ⟨q, hq, h⟩ := hb.1 p hp
      exact ⟨q, .inr hq, h⟩
  · rintro p (hp | hp)
    · obtain ⟨q, hq, h⟩ := ha.2 p hp
      exact ⟨q, .inl hq, h⟩
    · obtain ⟨q, hq, h⟩ := hb.2 p hp
      exact ⟨q, .inr hq, h⟩

theorem Covers.seq (h : Covers c a a')
    (h' : ∀ t d, (t, Exit.normal) ∈ a → exec c t = some d → Covers d b b')
    (hsafe : ∀ t, (t, Exit.normal) ∈ a → ∃ d, exec c t = some d) : Covers c (seq a b) (seq a' b') := by
  rintro ⟨v, x⟩ (⟨hp, hx⟩ | ⟨t, u, ht, hu, rfl⟩)
  · obtain ⟨q, hq, hmatch⟩ := h _ hp
    exact ⟨q, .inl ⟨hq, hmatch.exit ▸ hx⟩, hmatch⟩
  · obtain ⟨d, hd⟩ := hsafe t ht
    obtain ⟨⟨t', y⟩, ht', hmatch⟩ := h _ ht
    obtain ⟨⟨u', x'⟩, hu', hmatch'⟩ := h' t d ht hd _ hu
    obtain rfl : Exit.normal = y := hmatch.exit
    exact ⟨(t' ++ u', x'), .inr ⟨t', u', ht', hu', rfl⟩, hmatch.append hd hmatch'⟩

/-- The first part of a safe program is safe, if the second one has a run to go on with. -/
theorem Safe.of_seq (h : Safe c (seq a b)) (hb : b.Nonempty) : Safe c a := by
  rintro ⟨t, x⟩ hp
  by_cases hx : x = .normal
  · subst hx
    obtain ⟨⟨u, y⟩, hu⟩ := hb
    obtain ⟨d, hd⟩ := h (t ++ u, y) (.inr ⟨t, u, hp, hu, rfl⟩)
    rw [exec_append, Option.bind_eq_some_iff] at hd
    obtain ⟨d', hd', -⟩ := hd
    exact ⟨d', hd'⟩
  · exact h (t, x) (.inl ⟨hp, hx⟩)

theorem Safe.seq_right {t : List (Op κ)} (h : Safe c (seq a b)) (ht : (t, Exit.normal) ∈ a)
    (hd : exec c t = some d) : Safe d b := by
  rintro ⟨u, x⟩ hu
  obtain ⟨d', hd'⟩ := h (t ++ u, x) (.inr ⟨t, u, ht, hu, rfl⟩)
  rw [exec_append, hd, Option.bind_some] at hd'
  exact ⟨d', hd'⟩

theorem Equivalent.seq (ha : Equivalent a a') (hb : Equivalent b b') (hne : b.Nonempty) :
    Equivalent (seq a b) (seq a' b') := by
  intro c hsafe
  have hsafeA := hsafe.of_seq hne
  obtain ⟨hcov, hcov'⟩ := ha c hsafeA
  refine ⟨hcov.seq (fun t d ht hd => (hb d (hsafe.seq_right ht hd)).1) fun t ht => hsafeA _ ht,
    hcov'.seq (fun t d ht hd => ?_) fun t ht => ha.safe hsafeA _ ht⟩
  obtain ⟨⟨t', x⟩, ht', hmatch⟩ := hcov' _ ht
  obtain rfl : Exit.normal = x := hmatch.exit
  exact (hb d (hsafe.seq_right ht' (hmatch.exec.symm.trans hd))).2

omit [DecidableEq κ] in
theorem seq_assoc (a b b' : Behaviour κ) : seq (seq a b) b' = seq a (seq b b') := by
  ext ⟨v, x⟩
  constructor
  · rintro (⟨⟨hp, -⟩ | ⟨t, u, ht, hu, rfl⟩, hx⟩ | ⟨v, w, ⟨-, hne⟩ | ⟨t, u, ht, hu, rfl⟩, hw, rfl⟩)
    · exact .inl ⟨hp, hx⟩
    · exact .inr ⟨t, u, ht, .inl ⟨hu, hx⟩, rfl⟩
    · exact absurd rfl hne
    · exact .inr ⟨t, u ++ w, ht, .inr ⟨u, w, hu, hw, rfl⟩, List.append_assoc t u w⟩
  · rintro (⟨hp, hx⟩ | ⟨t, u, ht, ⟨hu, hx⟩ | ⟨v, w, hv, hw, rfl⟩, rfl⟩)
    · exact .inl ⟨.inl ⟨hp, hx⟩, hx⟩
    · exact .inl ⟨.inr ⟨t, u, ht, hu, rfl⟩, hx⟩
    · exact .inr ⟨t ++ v, w, .inr ⟨t, v, ht, hv, rfl⟩, hw, (List.append_assoc t v w).symm⟩

omit [DecidableEq κ] in
@[simp] theorem once_nil_seq (a : Behaviour κ) : seq (once []) a = a := by
  ext ⟨v, x⟩
  constructor
  · rintro (⟨hp, hx⟩ | ⟨t, u, ht, hu, rfl⟩)
    · exact absurd (congrArg Prod.snd hp) hx
    · obtain rfl := congrArg Prod.fst ht
      exact hu
  · exact fun h => .inr ⟨[], v, rfl, h, rfl⟩

omit [DecidableEq κ] in
theorem seq_nonempty (ha : a.Nonempty) (hb : b.Nonempty) : (seq a b).Nonempty := by
  obtain ⟨⟨t, x⟩, ht⟩ := ha
  by_cases hx : x = .normal
  · subst hx
    obtain ⟨⟨u, y⟩, hu⟩ := hb
    exact ⟨(t ++ u, y), .inr ⟨t, u, ht, hu, rfl⟩⟩
  · exact ⟨(t, x), .inl ⟨ht, hx⟩⟩

/-! ### Operations by themselves -/

omit [DecidableEq κ] in
/-- The runs of a part that always goes on, with more after it. -/
theorem mem_seq_of_normal (ha : ∀ p ∈ a, p.2 = .normal) {v : List (Op κ)} {x : Exit} :
    (v, x) ∈ seq a b ↔ ∃ t u, (t, Exit.normal) ∈ a ∧ (u, x) ∈ b ∧ v = t ++ u := by
  constructor
  · rintro (⟨hp, hx⟩ | h)
    · exact absurd (ha _ hp) hx
    · exact h
  · exact .inr

omit [DecidableEq κ] in
theorem mem_once_seq {ops v : List (Op κ)} {x : Exit} :
    (v, x) ∈ seq (once ops) a ↔ ∃ u, (u, x) ∈ a ∧ v = ops ++ u := by
  rw [mem_seq_of_normal (by rintro p rfl; rfl)]
  constructor
  · rintro ⟨t, u, ht, hu, rfl⟩
    obtain rfl := congrArg Prod.fst ht
    exact ⟨u, hu, rfl⟩
  · rintro ⟨u, hu, rfl⟩
    exact ⟨ops, u, rfl, hu, rfl⟩

/-- A reference can be given up before operations on other variables as well as after them. -/
theorem exec_move_drop {t : List (Op κ)} (ht : actsOn k t = []) (u : List (Op κ)) :
    exec c (t ++ ⟨.drop, k⟩ :: u) = exec c (⟨.drop, k⟩ :: (t ++ u)) := by
  refine Option.ext fun d => ?_
  rw [exec_eq_some_iff, exec_eq_some_iff]
  refine forall_congr' fun k' => ?_
  rw [actsOn_append, actsOn_cons, actsOn_cons, actsOn_append]
  dsimp only
  split_ifs with h
  · subst h
    rw [ht, List.nil_append, List.nil_append]
  · rfl

theorem equivalent_move (ha : ∀ p ∈ a, p.2 = .normal ∧ actsOn k p.1 = []) (b : Behaviour κ) :
    Equivalent (seq a (seq (once [⟨.drop, k⟩]) b)) (seq (once [⟨.drop, k⟩]) (seq a b)) := by
  intro c _
  have hnormal (p) (hp : p ∈ a) : p.2 = .normal := (ha p hp).1
  have hmatch (t u : List (Op κ)) (x : Exit) (ht : (t, Exit.normal) ∈ a) :
      Matches c (t ++ ⟨.drop, k⟩ :: u, x) (⟨.drop, k⟩ :: (t ++ u), x) :=
    ⟨rfl, by simp [Holding.observed], exec_move_drop (ha _ ht).2 u⟩
  constructor
  · rintro ⟨v, x⟩ hv
    obtain ⟨t, w, ht, hw, rfl⟩ := (mem_seq_of_normal hnormal).mp hv
    obtain ⟨u, hu, rfl⟩ := mem_once_seq.mp hw
    exact ⟨_, mem_once_seq.mpr ⟨t ++ u, .inr ⟨t, u, ht, hu, rfl⟩, rfl⟩, hmatch t u x ht⟩
  · rintro ⟨v, x⟩ hv
    obtain ⟨w, hw, rfl⟩ := mem_once_seq.mp hv
    obtain ⟨t, u, ht, hu, rfl⟩ := (mem_seq_of_normal hnormal).mp hw
    exact ⟨_, .inr ⟨t, _, ht, mem_once_seq.mpr ⟨u, hu, rfl⟩, rfl⟩, (hmatch t u x ht).symm⟩

/-- A reference that is gained before uses of one kind and given up after them makes no difference to a
run that lacks none. -/
theorem exec_pair {t u : List (Op κ)}
    (ht : (∀ a ∈ actsOn k t, a = .take) ∨ ∀ a ∈ actsOn k t, a = .look)
    (hexec : exec c (⟨.dup, k⟩ :: (t ++ ⟨.drop, k⟩ :: u)) = some d) : exec c (t ++ u) = some d := by
  rw [exec_eq_some_iff] at hexec ⊢
  intro k'
  have hrun := hexec k'
  rw [actsOn_cons, actsOn_append, actsOn_cons] at hrun
  rw [actsOn_append]
  dsimp only at hrun
  split_ifs at hrun with h
  · subst h
    have hsplit : Act.dup :: (actsOn k t ++ .drop :: actsOn k u) =
        (.dup :: (actsOn k t ++ [.drop])) ++ actsOn k u := by simp
    rw [hsplit, run_append, Option.bind_eq_some_iff] at hrun
    obtain ⟨m, hm, hrun⟩ := hrun
    rw [run_append, run_pair ht hm, Option.bind_some, hrun]
  · exact hrun

theorem equivalent_pair
    (ha : ∀ p ∈ a, p.2 = .normal ∧
      ((∀ a ∈ actsOn k p.1, a = .take) ∨ ∀ a ∈ actsOn k p.1, a = .look)) (b : Behaviour κ) :
    Equivalent (seq (once [⟨.dup, k⟩]) (seq a (seq (once [⟨.drop, k⟩]) b))) (seq a b) := by
  intro c hsafe
  have hnormal (p) (hp : p ∈ a) : p.2 = .normal := (ha p hp).1
  have hmem (t u : List (Op κ)) (x : Exit) (ht : (t, Exit.normal) ∈ a) (hu : (u, x) ∈ b) :
      (⟨.dup, k⟩ :: (t ++ ⟨.drop, k⟩ :: u), x) ∈
        seq (once [⟨.dup, k⟩]) (seq a (seq (once [⟨.drop, k⟩]) b)) :=
    mem_once_seq.mpr ⟨_, .inr ⟨t, _, ht, mem_once_seq.mpr ⟨u, hu, rfl⟩, rfl⟩, rfl⟩
  have hmatch (t u : List (Op κ)) (x : Exit) (ht : (t, Exit.normal) ∈ a) (hu : (u, x) ∈ b) :
      Matches c (⟨.dup, k⟩ :: (t ++ ⟨.drop, k⟩ :: u), x) (t ++ u, x) := by
    obtain ⟨d, hd⟩ := hsafe _ (hmem t u x ht hu)
    exact ⟨rfl, by simp [Holding.observed], hd.trans (exec_pair (ha _ ht).2 hd).symm⟩
  constructor
  · rintro ⟨v, x⟩ hv
    obtain ⟨v', hv', rfl⟩ := mem_once_seq.mp hv
    obtain ⟨t, w, ht, hw, rfl⟩ := (mem_seq_of_normal hnormal).mp hv'
    obtain ⟨u, hu, rfl⟩ := mem_once_seq.mp hw
    exact ⟨_, .inr ⟨t, u, ht, hu, rfl⟩, hmatch t u x ht hu⟩
  · rintro ⟨v, x⟩ hv
    obtain ⟨t, u, ht, hu, rfl⟩ := (mem_seq_of_normal hnormal).mp hv
    exact ⟨_, hmem t u x ht hu, (hmatch t u x ht hu).symm⟩

/-! ### Loops -/

theorem exec_define (ops : List (Op κ)) :
    exec c (⟨.define, k⟩ :: ops) = exec (Function.update c k 1) ops := rfl

theorem Matches.define {t t' : List (Op κ)} {x x' : Exit}
    (h : Matches (Function.update c k 1) (t, x) (t', x')) :
    Matches c (⟨.define, k⟩ :: t, x) (⟨.define, k⟩ :: t', x') where
  exit := h.exit
  observed := by
    have hobs := h.observed
    simpa [Holding.observed] using hobs
  exec := h.exec

/-- Runs of loops are covered while the counts before an iteration satisfy an invariant. -/
theorem Covers.loop (inv : (κ → ℕ) → Prop)
    (hcov : ∀ c, inv c → Covers (Function.update c k 1) a a')
    (hnext : ∀ c, inv c → ∀ t x, (t, x) ∈ a → x = .normal ∨ x = .continued →
      ∃ d, exec (Function.update c k 1) t = some d ∧ inv d) (hc : inv c) :
    Covers c (loop k a) (loop k a') := by
  rintro ⟨t, x⟩ (ht : Loop k a t x)
  induction ht generalizing c with
  | done => exact ⟨([], .normal), .done, rfl, rfl, rfl⟩
  | again h hx hu ih =>
    obtain ⟨d, hd, hinv⟩ := hnext c hc _ _ h hx
    obtain ⟨⟨t', x'⟩, ht', hmatch⟩ := hcov c hc _ h
    obtain rfl := hmatch.exit
    obtain ⟨⟨u', y'⟩, hu', hmatch'⟩ := ih hinv
    exact ⟨(_, y'), .again ht' hx hu', (hmatch.append hd hmatch').define⟩
  | broken h =>
    obtain ⟨⟨t', x'⟩, ht', hmatch⟩ := hcov c hc _ h
    obtain rfl : Exit.broken = x' := hmatch.exit
    have hdefine := hmatch.define
    exact ⟨(_, .normal), .broken ht', rfl, hdefine.observed, hdefine.exec⟩
  | returned h =>
    obtain ⟨⟨t', x'⟩, ht', hmatch⟩ := hcov c hc _ h
    obtain rfl : Exit.returned = x' := hmatch.exit
    exact ⟨(_, .returned), .returned ht', hmatch.define⟩

theorem Safe.of_loop (h : Safe c (loop k a)) : Safe (Function.update c k 1) a := by
  rintro ⟨t, x⟩ ht
  have hmore (hx : x = .normal ∨ x = .continued) :
      ∃ d, exec (Function.update c k 1) t = some d := by
    obtain ⟨d, hd⟩ := h (_, .normal) (.again ht hx .done)
    rw [List.append_nil] at hd
    exact ⟨d, hd⟩
  cases x with
  | normal => exact hmore (.inl rfl)
  | continued => exact hmore (.inr rfl)
  | broken => exact h (_, .normal) (.broken ht)
  | returned => exact h (_, .returned) (.returned ht)

theorem Safe.loop_next {t : List (Op κ)} {x : Exit} (h : Safe c (loop k a)) (ht : (t, x) ∈ a)
    (hx : x = .normal ∨ x = .continued) (hd : exec (Function.update c k 1) t = some d) :
    Safe d (loop k a) := by
  rintro ⟨u, y⟩ hu
  obtain ⟨d', hd'⟩ := h (_, y) (.again ht hx hu)
  rw [exec_define, exec_append, hd, Option.bind_some] at hd'
  exact ⟨d', hd'⟩

theorem Equivalent.loop (h : Equivalent a a') : Equivalent (loop k a) (loop k a') := by
  intro c hsafe
  constructor
  · refine Covers.loop (fun c => Safe c (Behaviour.loop k a)) (fun c hc => (h _ hc.of_loop).1)
      (fun c hc t x ht hx => ?_) hsafe
    obtain ⟨d, hd⟩ := hc.of_loop _ ht
    exact ⟨d, hd, hc.loop_next ht hx hd⟩
  · refine Covers.loop (fun c => Safe c (Behaviour.loop k a)) (fun c hc => (h _ hc.of_loop).2)
      (fun c hc t x ht hx => ?_) hsafe
    obtain ⟨⟨t', x'⟩, ht', hmatch⟩ := (h _ hc.of_loop).2 _ ht
    obtain rfl := hmatch.exit
    obtain ⟨d, hd⟩ := hc.of_loop _ ht'
    exact ⟨d, hmatch.exec.trans hd, hc.loop_next ht' hx hd⟩

end Programs

end Holding
