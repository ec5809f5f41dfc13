import Mathlib

/-!
# The rate limiter

`Wait` grants a call one interval after the last grant, or sooner if earlier calls came late: what is left over is
kept as a negative `sleep`, down to the slack.  Times are nanoseconds from the zero time, and durations exact.

* `Limiter.wait`, `grant`: the code, and the moment to which a call is put off;
* `Limiter.credit_wait`, `due_wait`: what a call does to the credit and to the earliest moment for the next grant;
* `window_bound`: **how many calls are granted in a window**;
* `window_exceeded`: a grant at the zero time makes the limiter forget it.
-/

namespace Bamboo

/-- `benchmark.Limiter`; a `last` of zero says that there was no call. -/
structure Limiter where
  last : ℤ
  sleep : ℤ
  interval : ℤ
  slack : ℤ

namespace Limiter

/-- One second. -/
def second : ℤ := 1000000000

/-- `NewLimiter`. -/
def new (rate : ℤ) : Limiter := ⟨0, 0, second.tdiv rate, (-10 * second).tdiv rate⟩

/-- `Limiter.Wait` at the time `now`. -/
def wait (l : Limiter) (now : ℤ) : Limiter :=
  if l.last = 0 then { l with last := now }
  else
    let sleep := l.sleep + (l.interval - (now - l.last))
    let sleep := if sleep < l.slack then l.slack else sleep
    if 0 < sleep then { l with last := now + sleep, sleep := 0 }
    else { l with last := now, sleep := sleep }

/-- The limiter after the first calls, at the times that the clock shows. -/
def after (rate : ℤ) (clock : ℕ → ℤ) : ℕ → Limiter
  | 0 => new rate
  | k + 1 => (after rate clock k).wait (clock k)

/-- The time at which a call is granted. -/
def grant (rate : ℤ) (clock : ℕ → ℤ) (k : ℕ) : ℤ := (after rate clock (k + 1)).last

variable {l : Limiter} {rate : ℤ} {clock : ℕ → ℤ}

/-- The moment from which the interval to the next grant counts. -/
def due (l : Limiter) : ℤ := l.last + l.sleep

/-- The credit is at most the slack. -/
def Credit (l : Limiter) : Prop := l.slack ≤ l.sleep ∧ l.sleep ≤ 0

@[simp] theorem interval_wait (l : Limiter) (now : ℤ) : (l.wait now).interval = l.interval := by
  unfold wait
  dsimp only
  split_ifs <;> rfl

@[simp] theorem slack_wait (l : Limiter) (now : ℤ) : (l.wait now).slack = l.slack := by
  unfold wait
  dsimp only
  split_ifs <;> rfl

theorem credit_wait (h : l.Credit) (now : ℤ) : (l.wait now).Credit := by
  obtain ⟨hlow, hhigh⟩ := h
  unfold wait Credit
  dsimp only
  split_ifs <;> dsimp only <;> omega

/-- A call puts the due moment off by an interval at least. -/
theorem due_wait (h : l.last ≠ 0) (now : ℤ) : l.due + l.interval ≤ (l.wait now).due := by
  unfold wait due
  rw [if_neg h]
  dsimp only
  split_ifs <;> dsimp only <;> omega

theorem interval_after (k : ℕ) : (after rate clock k).interval = second.tdiv rate := by
  induction k with
  | zero => rfl
  | succ k ih => rw [after, interval_wait, ih]

theorem slack_after (k : ℕ) : (after rate clock k).slack = (-10 * second).tdiv rate := by
  induction k with
  | zero => rfl
  | succ k ih => rw [after, slack_wait, ih]

theorem credit_after (h : 1 ≤ rate) (clock : ℕ → ℤ) (k : ℕ) : (after rate clock k).Credit := by
  induction k with
  | zero =>
    have hnn : 0 ≤ (10 * second).tdiv rate := Int.tdiv_nonneg (by decide) (by omega)
    refine ⟨?_, le_rfl⟩
    show (-(10 * second)).tdiv rate ≤ 0
    rw [Int.neg_tdiv]
    omega
  | succ k ih => exact credit_wait ih _

/-- The due moment after more calls. -/
theorem due_after {i : ℕ} (n : ℕ) (h : ∀ k, i ≤ k → k < i + n → grant rate clock k ≠ 0) :
    (after rate clock (i + 1)).due + n * second.tdiv rate ≤ (after rate clock (i + n + 1)).due := by
  induction n with
  | zero => simp
  | succ n ih =>
    have hprev := ih fun k hik hk => h k hik (by omega)
    have hstep := due_wait (h (i + n) (by omega) (by omega)) (clock (i + n + 1))
    rw [interval_after] at hstep
    push_cast
    rw [add_mul, one_mul]
    show _ ≤ ((after rate clock (i + n + 1)).wait (clock (i + n + 1))).due
    omega

/-- After the zero time there is no grant at the zero time. -/
theorem grant_pos (h : ∀ k, 0 < clock k) (k : ℕ) : 0 < grant rate clock k := by
  have hk := h k
  show 0 < ((after rate clock k).wait (clock k)).last
  unfold wait
  dsimp only
  split_ifs <;> dsimp only <;> omega

/-- **The rate limiter bounds every window** in which no grant but the last is at the zero time: for every rate and
every sequence of calls. -/
theorem window_bound (rate : ℤ) (h : 1 ≤ rate) (clock : ℕ → ℤ) (i j : ℕ) (hij : i < j)
    (hzero : ∀ k, i ≤ k → k < j → grant rate clock k ≠ 0) :
    (j - i) * second.tdiv rate + (-10 * second).tdiv rate ≤ grant rate clock j - grant rate clock i := by
  obtain ⟨n, rfl⟩ := Nat.exists_eq_add_of_le hij.le
  have hdue := due_after n hzero
  obtain ⟨hlow, -⟩ := credit_after h clock (i + 1)
  obtain ⟨-, hhigh⟩ := credit_after h clock (i + n + 1)
  rw [slack_after] at hlow
  unfold due at hdue
  unfold grant
  push_cast
  rw [add_sub_cancel_left]
  omega

/-- Calls at one moment. -/
theorem window_bound_atOnce :
    grant 1000 (fun _ => 5) 1 + 100 * 1000000 - 10000000 ≤ grant 1000 (fun _ => 5) 101 := by
  have h := window_bound 1000 (by decide) (fun _ => 5) 1 101 (by decide) fun k _ _ =>
    (grant_pos (fun _ => by decide) k).ne'
  have hinterval : second.tdiv 1000 = 1000000 := by decide
  have hslack : (-10 * second).tdiv 1000 = -10000000 := by decide
  rw [hinterval, hslack] at h
  push_cast at h
  omega

/-- A call long after the first one, eleven more that use up the credit and end with a grant at the zero time, and
one right after that. -/
def beforeTime (k : ℕ) : ℤ := if k = 0 then -20 * second else if k < 13 then -second else 1

/-- **The limiter takes a last grant at the zero time for none**, and grants the next call at once. -/
theorem window_exceeded : (∀ k, beforeTime k ≠ 0) ∧ grant 1 beforeTime 12 = 0 ∧
    ¬ (13 - 1) * second.tdiv 1 + (-10 * second).tdiv 1 ≤ grant 1 beforeTime 13 - grant 1 beforeTime 1 := by
  refine ⟨fun k => ?_, by decide, by decide⟩
  unfold beforeTime second
  split_ifs <;> decide

end Limiter

end Bamboo
