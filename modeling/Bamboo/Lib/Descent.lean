import Bamboo.Lib.Walk

/-!
# Recursion with one call at a time

A recursion in which each call leads to one more call at most, with a bound on its depth.

* `calls next n a`: the first `n` calls, from `a` on;
* `pairwise_calls`: the ranks of the calls increase if each one is above the one before;
* `length_calls_le`: there are no more calls than places that lead to another one, and one;
* `eq_of_length_calls_le`: from this depth on the bound does not matter.
-/

namespace Descent

variable {α κ ρ : Type} {next : α → Option α} {a : α}

/-- The first `n` calls. -/
def calls (next : α → Option α) : ℕ → α → List α
  | 0, _ => []
  | n + 1, a => a :: (match next a with
    | none => []
    | some b => calls next n b)

theorem calls_succ_of_none (n : ℕ) (h : next a = none) : calls next (n + 1) a = [a] := by
  rw [calls, h]

theorem calls_succ_of_some (n : ℕ) {b : α} (h : next a = some b) :
    calls next (n + 1) a = a :: calls next n b := by
  rw [calls, h]

section Ranked

variable [LinearOrder κ] {P : α → Prop} {rank : α → κ}

/-- All calls are at or above the first. -/
theorem le_of_mem_calls (hstep : ∀ a b, P a → next a = some b → P b ∧ rank a < rank b) {n : ℕ} (ha : P a) :
    ∀ c ∈ calls next n a, rank a ≤ rank c := by
  induction n generalizing a with
  | zero => simp [calls]
  | succ n ih =>
    intro c hc
    cases hn : next a with
    | none =>
      rw [calls_succ_of_none n hn, List.mem_singleton] at hc
      rw [hc]
    | some b =>
      obtain ⟨hb, hlt⟩ := hstep a b ha hn
      rw [calls_succ_of_some n hn] at hc
      rcases List.mem_cons.1 hc with rfl | hc
      · exact le_rfl
      · exact hlt.le.trans (ih hb c hc)

/-- **The ranks of the calls increase.** -/
theorem pairwise_calls (hstep : ∀ a b, P a → next a = some b → P b ∧ rank a < rank b) (n : ℕ) (ha : P a) :
    (calls next n a).Pairwise fun b c => rank b < rank c := by
  induction n generalizing a with
  | zero => exact .nil
  | succ n ih =>
    cases hn : next a with
    | none =>
      rw [calls_succ_of_none n hn]
      exact List.pairwise_singleton _ a
    | some b =>
      obtain ⟨hb, hlt⟩ := hstep a b ha hn
      rw [calls_succ_of_some n hn]
      exact .cons (fun c hc => hlt.trans_le (le_of_mem_calls hstep hb c hc)) (ih hb)

/-- **No more calls than places that lead to another one, and one.** -/
theorem length_calls_le (hstep : ∀ a b, P a → next a = some b → P b ∧ rank a < rank b) {L : List κ}
    (hL : ∀ a b, P a → next a = some b → rank a ∈ L) (n : ℕ) (ha : P a) :
    (calls next n a).length ≤ L.length + 1 := by
  suffices hgen : ∀ n a, P a → (calls next n a).length ≤ (L.filter (rank a ≤ ·)).length + 1 from
    Nat.le_trans (hgen n a ha) (Nat.succ_le_succ (List.length_filter_le _ _))
  intro n
  induction n with
  | zero => exact fun a _ => Nat.zero_le _
  | succ n ih =>
    intro a ha
    cases hn : next a with
    | none =>
      rw [calls_succ_of_none n hn]
      exact Nat.succ_le_succ (Nat.zero_le _)
    | some b =>
      obtain ⟨hb, hlt⟩ := hstep a b ha hn
      rw [calls_succ_of_some n hn, List.length_cons]
      -- the rank of the first call does not come again
      have hfewer := Walk.length_filter_lt (p := fun k => decide (rank b ≤ k)) (q := fun k => decide (rank a ≤ k))
        (fun k hk => decide_eq_true (hlt.le.trans (of_decide_eq_true hk))) (hL a b ha hn) (decide_eq_true le_rfl)
        (fun h => absurd (of_decide_eq_true h) (not_le.2 hlt))
      have := ih b hb
      omega

end Ranked

/-- **The bound does not matter** from the number of calls on. -/
theorem eq_of_length_calls_le {m : ℕ → α → ρ}
    (hm : ∀ n n' a, (∀ b, next a = some b → m n b = m n' b) → m (n + 1) a = m (n' + 1) a)
    {d : ℕ} (hd : ∀ n, (calls next n a).length ≤ d) (k : ℕ) : m (d + k) a = m d a := by
  induction d generalizing a with
  | zero => exact absurd (hd 1) (by simp [calls])
  | succ d ih =>
    rw [Nat.add_right_comm]
    refine hm _ _ a fun b hb => ih fun n => ?_
    have := hd (n + 1)
    rw [calls_succ_of_some n hb, List.length_cons] at this
    omega

end Descent
