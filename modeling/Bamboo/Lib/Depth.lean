import Bamboo.Lib.Prog

/-!
# Recursion with a bound on its depth

Functions that call each other without a structure to recurse on are programs `m n`, where `n` bounds the depth
of the calls and a program that exceeds it faults.  The recursion ends when the bound does not matter any more
from some `n` on.

* `Ends m Q E s`: run from `s`, the program `m` ends in a value and a state that satisfy `Q`, or with a fault that
  satisfies `E`, with one rule for each program constructor;
* `Settled m d Q E s`: run from `s`, the program `m n` is the same for all `n` from `d` on, and ends in this way;
  with rules to put such programs together.
-/

namespace Prog

variable {ε σ τ α β : Type} {s : σ} {E : ε → Prop}

/-! ### Faults -/

/-- `Q` for the normal end of a program, `E` for the fault it stops with. -/
def Ends (m : EStateM ε σ α) (Q : α → σ → Prop) (E : ε → Prop) (s : σ) : Prop :=
  match m s with
  | .ok a t => Q a t
  | .error e _ => E e

namespace Ends

theorem mono {m : EStateM ε σ α} {Q Q' : α → σ → Prop} (h : Ends m Q E s) (hQ : ∀ a t, Q a t → Q' a t) :
    Ends m Q' E s := by
  unfold Ends at h ⊢
  cases hm : m s with
  | ok a t => rw [hm] at h; exact hQ a t h
  | error e t => rw [hm] at h; exact h

theorem bind {m : EStateM ε σ α} {f : α → EStateM ε σ β} {Q : α → σ → Prop} {Q' : β → σ → Prop}
    (hm : Ends m Q E s) (hf : ∀ a t, Q a t → Ends (f a) Q' E t) : Ends (m >>= f) Q' E s := by
  unfold Ends at hm
  cases hs : m s with
  | ok a t =>
    rw [hs] at hm
    unfold Ends
    rw [bind_apply_ok hs]
    exact hf a t hm
  | error e t =>
    rw [hs] at hm
    unfold Ends
    rw [bind_apply_error hs]
    exact hm

theorem get_bind {f : σ → EStateM ε σ β} {Q : β → σ → Prop} (h : Ends (f s) Q E s) : Ends (get >>= f) Q E s := h

theorem ite {p : Prop} [Decidable p] {m n : EStateM ε σ α} {Q : α → σ → Prop} (hm : p → Ends m Q E s)
    (hn : ¬p → Ends n Q E s) : Ends (if p then m else n) Q E s := by
  by_cases h : p
  · rw [if_pos h]
    exact hm h
  · rw [if_neg h]
    exact hn h

theorem ofExcept {x : Except ε α} {Q : α → σ → Prop} (hok : ∀ a, x = .ok a → Q a s)
    (herr : ∀ e, x = .error e → E e) : Ends (ofExcept x) Q E s := by
  cases x with
  | ok a => exact hok a rfl
  | error e => exact herr e rfl

theorem zoom {rd : σ → τ} {wr : τ → σ → σ} {m : EStateM ε τ α} {Q : α → σ → Prop}
    (h : Ends m (fun a t => Q a (wr t s)) E (rd s)) : Ends (zoom rd wr m) Q E s := by
  unfold Ends at h
  unfold Ends Prog.zoom
  cases hm : m (rd s) with
  | ok a t => rw [hm] at h; exact h
  | error e t => rw [hm] at h; exact h

end Ends

/-! ### Bounds that do not matter -/

/-- The program is the same for all bounds from `d` on, and ends in this way. -/
structure Settled (m : ℕ → EStateM ε σ α) (d : ℕ) (Q : α → σ → Prop) (E : ε → Prop) (s : σ) : Prop where
  stable : ∀ k, m (d + k) s = m d s
  ends : Ends (m d) Q E s

namespace Settled

variable {d : ℕ}

theorem mono {m : ℕ → EStateM ε σ α} {Q Q' : α → σ → Prop} (h : Settled m d Q E s) (hQ : ∀ a t, Q a t → Q' a t) :
    Settled m d Q' E s := ⟨h.stable, h.ends.mono hQ⟩

/-- The programs need to be the same only where they are run. -/
theorem of_eq {m m' : ℕ → EStateM ε σ α} {Q : α → σ → Prop} {s' : σ} (h : Settled m' d Q E s')
    (heq : ∀ n, m n s = m' n s') : Settled m d Q E s := by
  refine ⟨fun k => ?_, ?_⟩
  · rw [heq, heq]
    exact h.stable k
  · have hends := h.ends
    unfold Ends at hends ⊢
    rw [heq]
    exact hends

/-- What a program does after another one that has settled. -/
theorem bind {m : ℕ → EStateM ε σ α} {f : ℕ → α → EStateM ε σ β} {Q : α → σ → Prop} {Q' : β → σ → Prop}
    (hm : Settled m d Q E s) (hf : ∀ a t, Q a t → Settled (fun n => f n a) d Q' E t) :
    Settled (fun n => m n >>= f n) d Q' E s := by
  refine ⟨fun k => ?_, hm.ends.bind fun a t h => (hf a t h).ends⟩
  have hs := hm.stable k
  have he := hm.ends
  unfold Ends at he
  cases hd : m d s with
  | ok a t =>
    rw [hd] at hs he
    rw [bind_apply_ok hs, bind_apply_ok hd]
    exact (hf a t he).stable k
  | error e t =>
    rw [hd] at hs
    rw [bind_apply_error hs, bind_apply_error hd]

theorem get_bind {f : ℕ → σ → EStateM ε σ β} {Q : β → σ → Prop} (hf : Settled (fun n => f n s) d Q E s) :
    Settled (fun n => get >>= f n) d Q E s := ⟨hf.stable, hf.ends⟩

theorem ite {p : Prop} [Decidable p] {m n : ℕ → EStateM ε σ α} {Q : α → σ → Prop} (hm : p → Settled m d Q E s)
    (hn : ¬p → Settled n d Q E s) : Settled (fun k => if p then m k else n k) d Q E s := by
  by_cases h : p
  · simp only [if_pos h]
    exact hm h
  · simp only [if_neg h]
    exact hn h

/-- One call down. -/
theorem succ {m : ℕ → EStateM ε σ α} {Q : α → σ → Prop} (h : Settled (fun n => m (n + 1)) d Q E s) :
    Settled m (d + 1) Q E s := by
  refine ⟨fun k => ?_, h.ends⟩
  rw [Nat.add_right_comm]
  exact h.stable k

/-- What a program returns for some bound on, it returns for the bound it has settled at. -/
theorem post {m : ℕ → EStateM ε σ α} {Q : α → σ → Prop} (h : Settled m d Q E s) {d' : ℕ} {a : α} {t : σ}
    (hm : ∀ k, m (d' + k) s = .ok a t) : Q a t := by
  have he := h.ends
  unfold Ends at he
  rw [← h.stable d', Nat.add_comm, hm d] at he
  exact he

end Settled

end Prog
