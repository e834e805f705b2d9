import Mathlib.Algebra.Order.Floor.Semiring
import Mathlib.Data.List.Sort
import Mathlib.Tactic.Common
import Mathlib.Tactic.Linarith

/-!
# Fixed-window limiters

A limiter counts what it lets pass in a window, and opens the next window with the first attempt after
the end of the one before. Attempts come in the order of time.

## Main definitions

* `FixedWindow.Bucket`, `Bucket.take`: the limiter and an attempt
* `Bucket.passed`, `Bucket.starts`: what passes, and the windows that are opened

## Main results

* `Bucket.countP_passed_le`: how many attempts pass from the start of a window on
* `Bucket.countP_passed_interval_le`: how many pass in any interval
* `Bucket.passed_bursts`: full windows one after the other
-/

namespace FixedWindow

structure Bucket where
  start : ℕ
  used : ℕ
deriving DecidableEq, Repr

namespace Bucket

variable {limit window : ℕ} {b : Bucket} {t a n : ℕ} {ts : List ℕ}

/-- The window of an attempt. -/
def roll (window : ℕ) (b : Bucket) (t : ℕ) : Bucket := if window ≤ t - b.start then ⟨t, 0⟩ else b

/-- An attempt passes if its window has room. -/
def room (limit window : ℕ) (b : Bucket) (t : ℕ) : Bool := (b.roll window t).used < limit

def take (limit window : ℕ) (b : Bucket) (t : ℕ) : Bucket :=
  if b.room limit window t then { b.roll window t with used := (b.roll window t).used + 1 }
  else b.roll window t

/-- The attempts that pass. -/
def passed (limit window : ℕ) : Bucket → List ℕ → List ℕ
  | _, [] => []
  | b, t :: ts =>
    if b.room limit window t then t :: passed limit window (b.take limit window t) ts
    else passed limit window (b.take limit window t) ts

/-- The starts of the windows, the current one included. -/
def starts (limit window : ℕ) : Bucket → List ℕ → List ℕ
  | b, [] => [b.start]
  | b, t :: ts => b.start :: starts limit window (b.take limit window t) ts

/-! ### One attempt -/

theorem roll_of_lt (h : t < b.start + window) (hb : b.start ≤ t) : b.roll window t = b :=
  if_neg (by omega)

theorem roll_of_le (h : b.start + window ≤ t) : b.roll window t = ⟨t, 0⟩ := if_pos (by omega)

theorem start_roll_le (hb : b.start ≤ t) : (b.roll window t).start ≤ t := by
  unfold roll
  split
  · exact le_rfl
  · exact hb

@[simp] theorem start_take : (b.take limit window t).start = (b.roll window t).start := by
  unfold take
  split <;> rfl

theorem lt_start_roll (hwindow : 0 < window) : t < (b.roll window t).start + window := by
  unfold roll
  split
  · simpa using hwindow
  · omega

@[simp] theorem roll_roll (hwindow : 0 < window) :
    (b.roll window t).roll window t = b.roll window t := by
  by_cases h : window ≤ t - b.start
  · rw [show b.roll window t = ⟨t, 0⟩ from if_pos h, roll_of_lt (by simpa using hwindow) le_rfl]
  · have hsame : b.roll window t = b := if_neg h
    rw [hsame, hsame]

theorem used_take_le (hused : b.used ≤ limit) : (b.take limit window t).used ≤ limit := by
  have hroll : (b.roll window t).used ≤ limit := by
    unfold roll
    split
    · exact Nat.zero_le limit
    · exact hused
  unfold take
  split
  next hroom => exact of_decide_eq_true hroom
  next => exact hroll

/-- An attempt after its window has been opened by it. -/
theorem passed_roll (hwindow : 0 < window) :
    passed limit window (b.roll window t) (t :: ts) = passed limit window b (t :: ts) := by
  have htake : (b.roll window t).take limit window t = b.take limit window t := by
    rw [take, take, room, room, roll_roll hwindow]
  rw [passed, passed, htake, room, room, roll_roll hwindow]

theorem le_of_mem_passed (hle : ∀ t ∈ ts, a ≤ t) : ∀ t ∈ passed limit window b ts, a ≤ t := by
  induction ts generalizing b with
  | nil => simp [passed]
  | cons t ts ih =>
    have hrest := ih (b := b.take limit window t) fun t' ht' => hle t' (.tail _ ht')
    unfold passed
    split
    · exact List.forall_mem_cons.mpr ⟨hle t (.head _), hrest⟩
    · exact hrest

/-! ### Counting -/

/-- An attempt in the current window uses it up as much as it counts. -/
theorem countP_passed_cons_add_used_le {p : ℕ → Bool} {m : ℕ} (hbt : b.start ≤ t)
    (hlt : t < b.start + window) (hrest : (passed limit window (b.take limit window t) ts).countP p +
      (b.take limit window t).used ≤ m) :
    (passed limit window b (t :: ts)).countP p + b.used ≤ m := by
  have hsame := roll_of_lt hlt hbt
  unfold passed
  unfold take at hrest ⊢
  rw [hsame] at hrest ⊢
  split
  next hroom =>
    rw [if_pos hroom] at hrest
    simp only [List.countP_cons] at hrest ⊢
    split <;> omega
  next hroom =>
    rw [if_neg hroom] at hrest
    exact hrest

/-- Attempts from the start of the current window on, up to the end of the `n`-th window at least. -/
theorem countP_passed_add_used_le (hwindow : 0 < window) (hsorted : ts.Pairwise (· ≤ ·))
    (hstart : ∀ t ∈ ts, b.start ≤ t) (hused : b.used ≤ limit) (hn : 0 < n) :
    (passed limit window b ts).countP (· < b.start + n * window) + b.used ≤ n * limit := by
  induction ts generalizing b n with
  | nil =>
    simp only [passed, List.countP_nil, Nat.zero_add]
    exact hused.trans (Nat.le_mul_of_pos_left limit hn)
  | cons t ts ih =>
    obtain ⟨hle, hsorted⟩ := List.pairwise_cons.mp hsorted
    have hbt := hstart t (.head _)
    -- an attempt in the current window of a bucket
    have hwithin : ∀ (c : Bucket) (n : ℕ), c.start ≤ t → t < c.start + window → c.used ≤ limit →
        0 < n → (passed limit window c (t :: ts)).countP (· < c.start + n * window) + c.used ≤
          n * limit := by
      intro c n hct hlt hused hn
      have hsame : (c.take limit window t).start = c.start := by rw [start_take, roll_of_lt hlt hct]
      have hrest := @ih (c.take limit window t) n hsorted
        (fun t' ht' => by rw [hsame]; exact hct.trans (hle t' ht')) (used_take_le hused) hn
      rw [hsame] at hrest
      exact countP_passed_cons_add_used_le hct hlt hrest
    by_cases hlt : t < b.start + window
    · exact hwithin b n hbt hlt hused hn
    -- what passes from the next window on is bounded with one window less
    have hroll := roll_of_le (not_lt.mp hlt)
    rw [← passed_roll hwindow, hroll]
    rcases Nat.lt_or_ge 1 n with hn | hn
    · obtain ⟨m, rfl⟩ : ∃ m, n = m + 1 := ⟨n - 1, by omega⟩
      have hnext := hwithin ⟨t, 0⟩ m le_rfl (by simpa using hwindow) (Nat.zero_le _) (by omega)
      have hmono : (passed limit window ⟨t, 0⟩ (t :: ts)).countP (· < b.start + (m + 1) * window) ≤
          (passed limit window ⟨t, 0⟩ (t :: ts)).countP (· < t + m * window) := by
        refine List.countP_mono_left fun t' _ h => ?_
        have h := of_decide_eq_true h
        have hmul := Nat.succ_mul m window
        exact decide_eq_true (by simp only [Nat.succ_eq_add_one] at hmul; omega)
      dsimp only at hnext
      have hmul := Nat.succ_mul m limit
      simp only [Nat.succ_eq_add_one] at hmul
      omega
    · obtain rfl : n = 1 := by omega
      have hnone : (passed limit window ⟨t, 0⟩ (t :: ts)).countP (· < b.start + 1 * window) = 0 := by
        refine List.countP_eq_zero.mpr fun t' ht' h => ?_
        have hle := le_of_mem_passed (a := t) (List.forall_mem_cons.mpr ⟨le_rfl, hle⟩) t' ht'
        have h := of_decide_eq_true h
        omega
      rw [hnone]
      omega

/-- A window that is opened is the current one, or it starts after its end. -/
theorem start_cases (hwindow : 0 < window) (hstart : ∀ t ∈ ts, b.start ≤ t)
    (hsorted : ts.Pairwise (· ≤ ·)) {s : ℕ} (hs : s ∈ starts limit window b ts) :
    s = b.start ∨ b.start + window ≤ s := by
  induction ts generalizing b with
  | nil =>
    rw [starts, List.mem_singleton] at hs
    exact .inl hs
  | cons t ts ih =>
    obtain ⟨hle, hsorted⟩ := List.pairwise_cons.mp hsorted
    have hbt := hstart t (.head _)
    rcases List.mem_cons.mp hs with rfl | hs
    · exact .inl rfl
    have hafter : ∀ t' ∈ ts, (b.take limit window t).start ≤ t' := fun t' ht' => by
      rw [start_take]
      exact (start_roll_le hbt).trans (hle t' ht')
    have hrest := ih hafter hsorted hs
    rw [start_take] at hrest
    by_cases hlt : t < b.start + window
    · rwa [roll_of_lt hlt hbt] at hrest
    · rw [roll_of_le (not_lt.mp hlt)] at hrest
      dsimp only at hrest
      omega

/-- What passes from the start of a window on. -/
theorem countP_passed_le (hwindow : 0 < window) (hsorted : ts.Pairwise (· ≤ ·))
    (hstart : ∀ t ∈ ts, b.start ≤ t) (hused : b.used ≤ limit) (hn : 0 < n) {s : ℕ}
    (hs : s ∈ starts limit window b ts) :
    (passed limit window b ts).countP (fun t => s ≤ t ∧ t < s + n * window) ≤ n * limit := by
  -- the bound for the current window of a bucket
  have hcurrent : ∀ (c : Bucket) (ts : List ℕ), ts.Pairwise (· ≤ ·) → (∀ t ∈ ts, c.start ≤ t) →
      c.used ≤ limit → (passed limit window c ts).countP
        (fun t => c.start ≤ t ∧ t < c.start + n * window) ≤ n * limit := by
    intro c ts hsorted hstart hused
    refine (List.countP_mono_left fun t _ h => ?_).trans
      (Nat.le_of_add_right_le (countP_passed_add_used_le hwindow hsorted hstart hused hn))
    exact decide_eq_true (of_decide_eq_true h).2
  induction ts generalizing b with
  | nil => simp [passed]
  | cons t ts ih =>
    have hbt := hstart t (.head _)
    rcases List.mem_cons.mp hs with rfl | hs'
    · exact hcurrent b (t :: ts) hsorted hstart hused
    obtain ⟨hle, hsorted'⟩ := List.pairwise_cons.mp hsorted
    have hafter : ∀ t' ∈ ts, (b.take limit window t).start ≤ t' := fun t' ht' => by
      rw [start_take]
      exact (start_roll_le hbt).trans (hle t' ht')
    have hrest := ih hsorted' hafter (used_take_le hused) hs'
    by_cases hst : s ≤ t
    · -- the window is the one that the attempt belongs to
      have hcases := start_cases hwindow hafter hsorted' hs'
      rw [start_take] at hcases
      have hlt := lt_start_roll (b := b) (t := t) hwindow
      obtain rfl : s = (b.roll window t).start := by omega
      rw [← passed_roll hwindow]
      refine hcurrent _ _ hsorted ?_ ?_
      · exact List.forall_mem_cons.mpr ⟨start_roll_le hbt, fun t' ht' => by simpa using hafter t' ht'⟩
      · unfold roll
        split
        · exact Nat.zero_le limit
        · exact hused
    · unfold passed
      split
      · rw [List.countP_cons_of_neg (by simp [hst])]
        exact hrest
      · exact hrest

/-- What passes in an interval that the attempts begin in. -/
theorem countP_passed_add_used_le_of_le (hwindow : 0 < window) (hsorted : ts.Pairwise (· ≤ ·))
    (hstart : ∀ t ∈ ts, b.start ≤ t) (hused : b.used ≤ limit) (hn : 0 < n) (ha : ∀ t ∈ ts, a ≤ t) :
    (passed limit window b ts).countP (· < a + n * window) + b.used ≤ (n + 1) * limit := by
  have hmul := Nat.succ_mul n limit
  rw [Nat.succ_eq_add_one] at hmul
  induction ts generalizing b with
  | nil =>
    simp only [passed, List.countP_nil, Nat.zero_add]
    omega
  | cons t ts ih =>
    obtain ⟨hle, hsorted'⟩ := List.pairwise_cons.mp hsorted
    have hbt := hstart t (.head _)
    by_cases hlt : t < b.start + window
    · have hafter : ∀ t' ∈ ts, (b.take limit window t).start ≤ t' := fun t' ht' => by
        rw [start_take, roll_of_lt hlt hbt]
        exact hbt.trans (hle t' ht')
      exact countP_passed_cons_add_used_le hbt hlt
        (ih hsorted' hafter (used_take_le hused) fun t' ht' => ha t' (.tail _ ht'))
    · -- the rest belongs to the windows from the next one on
      rw [← passed_roll hwindow, roll_of_le (not_lt.mp hlt)]
      have hnext := countP_passed_add_used_le (b := ⟨t, 0⟩) hwindow hsorted
        (List.forall_mem_cons.mpr ⟨le_rfl, hle⟩) (Nat.zero_le limit) hn
      have hmono : (passed limit window ⟨t, 0⟩ (t :: ts)).countP (· < a + n * window) ≤
          (passed limit window ⟨t, 0⟩ (t :: ts)).countP (· < t + n * window) := by
        refine List.countP_mono_left fun t' _ h => ?_
        have hat := ha t (.head _)
        have h := of_decide_eq_true h
        exact decide_eq_true (by omega)
      dsimp only at hnext
      omega

/-- What passes in any interval. -/
theorem countP_passed_interval_le (hwindow : 0 < window) (hsorted : ts.Pairwise (· ≤ ·))
    (hstart : ∀ t ∈ ts, b.start ≤ t) (hused : b.used ≤ limit) (hn : 0 < n) (a : ℕ) :
    (passed limit window b ts).countP (fun t => a ≤ t ∧ t < a + n * window) ≤ (n + 1) * limit := by
  induction ts generalizing b with
  | nil => simp [passed]
  | cons t ts ih =>
    obtain ⟨hle, hsorted'⟩ := List.pairwise_cons.mp hsorted
    have hbt := hstart t (.head _)
    by_cases hat : a ≤ t
    · have hall := countP_passed_add_used_le_of_le hwindow hsorted hstart hused hn
        (List.forall_mem_cons.mpr ⟨hat, fun t' ht' => hat.trans (hle t' ht')⟩)
      refine (List.countP_mono_left fun t' _ h => ?_).trans (Nat.le_of_add_right_le hall)
      exact decide_eq_true (of_decide_eq_true h).2
    · have hafter : ∀ t' ∈ ts, (b.take limit window t).start ≤ t' := fun t' ht' => by
        rw [start_take]
        exact (start_roll_le hbt).trans (hle t' ht')
      have hrest := ih hsorted' hafter (used_take_le hused)
      unfold passed
      split
      · rw [List.countP_cons_of_neg (by simp [hat])]
        exact hrest
      · exact hrest

/-! ### Bursts -/

/-- Full windows one after the other, each used up at its start. -/
def bursts (limit window : ℕ) (s : ℕ) : ℕ → List ℕ
  | 0 => []
  | n + 1 => List.replicate limit s ++ bursts limit window (s + window) n

@[simp] theorem length_bursts (s n : ℕ) : (bursts limit window s n).length = n * limit := by
  induction n generalizing s with
  | zero => simp [bursts]
  | succ n ih => simp [bursts, ih, Nat.succ_mul, Nat.add_comm]

theorem mem_bursts {s : ℕ} (ht : t ∈ bursts limit window s n) :
    s ≤ t ∧ t + window ≤ s + n * window := by
  induction n generalizing s with
  | zero => simp [bursts] at ht
  | succ n ih =>
    rw [Nat.succ_mul]
    rcases List.mem_append.mp ht with ht | ht
    · obtain rfl := List.eq_of_mem_replicate ht
      omega
    · have := ih ht
      omega

theorem sorted_bursts (s n : ℕ) : (bursts limit window s n).Pairwise (· ≤ ·) := by
  induction n generalizing s with
  | zero => simp [bursts]
  | succ n ih =>
    refine List.pairwise_append.mpr ⟨List.pairwise_replicate.mpr (.inr le_rfl), ih _, ?_⟩
    intro t ht t' ht'
    obtain rfl := List.eq_of_mem_replicate ht
    exact (Nat.le_add_right _ window).trans (mem_bursts ht').1

theorem passed_replicate_append {m : ℕ} (hbt : b.start ≤ t) (hlt : t < b.start + window)
    (hroom : b.used + m ≤ limit) :
    passed limit window b (List.replicate m t ++ ts) =
      List.replicate m t ++ passed limit window ⟨b.start, b.used + m⟩ ts := by
  induction m generalizing b with
  | zero => rfl
  | succ m ih =>
    have hsame := roll_of_lt hlt hbt
    have hpass : b.room limit window t = true := by
      rw [room, hsame]
      exact decide_eq_true (by omega)
    rw [List.replicate_succ, List.cons_append, passed, if_pos hpass, take, if_pos hpass, hsame,
      ih (b := ⟨b.start, b.used + 1⟩) hbt hlt (by dsimp only; omega), List.cons_append]
    dsimp only
    rw [show b.used + 1 + m = b.used + (m + 1) by omega]

theorem passed_bursts (hwindow : 0 < window) (hlimit : 0 < limit) {s : ℕ}
    (hb : b = ⟨s, 0⟩ ∨ b.start + window ≤ s) (n : ℕ) :
    passed limit window b (bursts limit window s n) = bursts limit window s n := by
  induction n generalizing b s with
  | zero => rfl
  | succ n ih =>
    have hopen : passed limit window b (bursts limit window s (n + 1)) =
        passed limit window ⟨s, 0⟩ (bursts limit window s (n + 1)) := by
      rcases hb with rfl | hle
      · rfl
      · obtain ⟨m, rfl⟩ : ∃ m, limit = m + 1 := ⟨limit - 1, by omega⟩
        rw [bursts, List.replicate_succ, List.cons_append, ← passed_roll hwindow, roll_of_le hle]
    rw [hopen, bursts, passed_replicate_append le_rfl (by simpa using hwindow) (by simp),
      ih (.inr le_rfl)]

end Bucket

end FixedWindow
