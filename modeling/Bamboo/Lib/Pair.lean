import Bamboo.Lib.Prog

/-!
# Two programs side by side

Two runs that are to be compared: of one program from two states, or of two programs.

* `Pair m n Q s t`: run from `s` and `t`, the programs `m` and `n` both return, with values and states
  that satisfy `Q`, or both stop with a fault;
* one rule for each program constructor that the two have in common;
* `Pair.trans`, `Pair.and_left`, `Pair.and_right`: more runs, and what is known of one run.
-/

namespace Prog

variable {ε σ τ υ α β γ δ : Type}

/-- Both programs return and satisfy `Q`, or both fault. -/
def Pair (m : EStateM ε σ α) (n : EStateM ε τ β) (Q : α → β → σ → τ → Prop) (s : σ) (t : τ) : Prop :=
  match m s, n t with
  | .ok a s', .ok b t' => Q a b s' t'
  | .error _ _, .error _ _ => True
  | _, _ => False

variable {m : EStateM ε σ α} {n : EStateM ε τ β} {Q : α → β → σ → τ → Prop} {s s' : σ} {t t' : τ}
  {a : α} {b : β}

theorem pair_of_ok (hm : m s = .ok a s') (hn : n t = .ok b t') (h : Q a b s' t') : Pair m n Q s t := by
  unfold Pair
  rw [hm, hn]
  exact h

/-- The three ways to have a pair, from the first run. -/
theorem Pair.cases (h : Pair m n Q s t) :
    (∃ a s' b t', m s = .ok a s' ∧ n t = .ok b t' ∧ Q a b s' t') ∨
      ∃ e s' e' t', m s = .error e s' ∧ n t = .error e' t' := by
  unfold Pair at h
  cases hm : m s with
  | ok a s' =>
    cases hn : n t with
    | ok b t' =>
      rw [hm, hn] at h
      exact Or.inl ⟨a, s', b, t', rfl, rfl, h⟩
    | error e t' =>
      rw [hm, hn] at h
      exact h.elim
  | error e s' =>
    cases hn : n t with
    | ok b t' =>
      rw [hm, hn] at h
      exact h.elim
    | error e' t' => exact Or.inr ⟨e, s', e', t', rfl, rfl⟩

theorem pair_of_error {e e' : ε} (hm : m s = .error e s') (hn : n t = .error e' t') : Pair m n Q s t := by
  unfold Pair
  rw [hm, hn]
  trivial

/-- The second run, given the first. -/
theorem Pair.ok (h : Pair m n Q s t) (hm : m s = .ok a s') : ∃ b t', n t = .ok b t' ∧ Q a b s' t' := by
  rcases h.cases with ⟨a', u, b, t', hm', hn, hQ⟩ | ⟨e, u, e', t', hm', -⟩
  · rw [hm] at hm'
    cases hm'
    exact ⟨b, t', hn, hQ⟩
  · rw [hm] at hm'
    cases hm'

theorem Pair.symm (h : Pair m n Q s t) : Pair n m (fun b a t' s' => Q a b s' t') t s := by
  rcases h.cases with ⟨a, s', b, t', hm, hn, hQ⟩ | ⟨e, s', e', t', hm, hn⟩
  · exact pair_of_ok hn hm hQ
  · exact pair_of_error hn hm

theorem Pair.mono {Q' : α → β → σ → τ → Prop} (h : Pair m n Q s t)
    (hQ : ∀ a b s' t', Q a b s' t' → Q' a b s' t') : Pair m n Q' s t := by
  rcases h.cases with ⟨a, s', b, t', hm, hn, h⟩ | ⟨e, s', e', t', hm, hn⟩
  · exact pair_of_ok hm hn (hQ a b s' t' h)
  · exact pair_of_error hm hn

theorem Pair.trans {k : EStateM ε υ γ} {Q' : β → γ → τ → υ → Prop} {u : υ} (h : Pair m n Q s t)
    (h' : Pair n k Q' t u) :
    Pair m k (fun a c s' u' => ∃ b t', Q a b s' t' ∧ Q' b c t' u') s u := by
  rcases h.cases with ⟨a, s', b, t', hm, hn, hQ⟩ | ⟨e, s', e', t', hm, hn⟩
  · obtain ⟨c, u', hk, hQ'⟩ := h'.ok hn
    exact pair_of_ok hm hk ⟨b, t', hQ, hQ'⟩
  · rcases h'.cases with ⟨b, t'', c, u', hn', -, -⟩ | ⟨e₁, t'', e₂, u', -, hk⟩
    · rw [hn] at hn'
      cases hn'
    · exact pair_of_error hm hk

theorem Pair.and_left {P : α → σ → Prop} {E : σ → Prop} (h : Pair m n Q s t) (hw : wp m P E s) :
    Pair m n (fun a b s' t' => Q a b s' t' ∧ P a s') s t := by
  rcases h.cases with ⟨a, s', b, t', hm, hn, hQ⟩ | ⟨e, s', e', t', hm, hn⟩
  · have hP := wp_ok hw hm
    exact pair_of_ok hm hn ⟨hQ, hP⟩
  · exact pair_of_error hm hn

theorem Pair.and_right {P : β → τ → Prop} {E : τ → Prop} (h : Pair m n Q s t) (hw : wp n P E t) :
    Pair m n (fun a b s' t' => Q a b s' t' ∧ P b t') s t :=
  (h.symm.and_left hw).symm

/-- A program may be replaced by one with the same run. -/
theorem Pair.congr_left {m' : EStateM ε σ α} (h : Pair m' n Q s' t) (he : m s = m' s') : Pair m n Q s t := by
  unfold Pair at h ⊢
  rw [he]
  exact h

/-- One of the runs goes on and returns. -/
theorem Pair.bind_left {f : α → EStateM ε σ γ} {Q' : γ → β → σ → τ → Prop} (h : Pair m n Q s t)
    (hf : ∀ a b s' t', Q a b s' t' → ∃ c s'', f a s' = .ok c s'' ∧ Q' c b s'' t') :
    Pair (m >>= f) n Q' s t := by
  rcases h.cases with ⟨a, s', b, t', hm, hn, hQ⟩ | ⟨e, s', e', t', hm, hn⟩
  · obtain ⟨c, s'', hc, hQ'⟩ := hf a b s' t' hQ
    exact pair_of_ok ((bind_apply_ok hm).trans hc) hn hQ'
  · exact pair_of_error (bind_apply_error hm) hn

/-! ### Rules -/

theorem pair_pure (h : Q a b s t) : Pair (pure a : EStateM ε σ α) (pure b : EStateM ε τ β) Q s t := h

theorem Pair.bind {f : α → EStateM ε σ γ} {g : β → EStateM ε τ δ} {Q' : γ → δ → σ → τ → Prop}
    (h : Pair m n Q s t) (hf : ∀ a b s' t', Q a b s' t' → Pair (f a) (g b) Q' s' t') :
    Pair (m >>= f) (n >>= g) Q' s t := by
  rcases h.cases with ⟨a, s', b, t', hm, hn, hQ⟩ | ⟨e, s', e', t', hm, hn⟩
  · unfold Pair
    rw [bind_apply_ok hm, bind_apply_ok hn]
    exact hf a b s' t' hQ
  · exact pair_of_error (bind_apply_error hm) (bind_apply_error hn)

theorem pair_get_bind {f : σ → EStateM ε σ α} {g : τ → EStateM ε τ β} (h : Pair (f s) (g t) Q s t) :
    Pair (get >>= f) (get >>= g) Q s t := h

theorem pair_set_bind {f : PUnit → EStateM ε σ α} {g : PUnit → EStateM ε τ β}
    (h : Pair (f ⟨⟩) (g ⟨⟩) Q s' t') : Pair (set s' >>= f) (set t' >>= g) Q s t := h

theorem pair_modify_bind {i : σ → σ} {j : τ → τ} {f : PUnit → EStateM ε σ α} {g : PUnit → EStateM ε τ β}
    (h : Pair (f ⟨⟩) (g ⟨⟩) Q (i s) (j t)) : Pair (modify i >>= f) (modify j >>= g) Q s t := h

theorem pair_ite {p q : Prop} [Decidable p] [Decidable q] {m' : EStateM ε σ α} {n' : EStateM ε τ β}
    (hpq : p ↔ q) (hp : p → Pair m n Q s t) (hn : ¬ p → Pair m' n' Q s t) :
    Pair (if p then m else m') (if q then n else n') Q s t := by
  by_cases h : p
  · rw [if_pos h, if_pos (hpq.1 h)]
    exact hp h
  · rw [if_neg h, if_neg fun hq => h (hpq.2 hq)]
    exact hn h

theorem pair_ofExcept_bind {x y : Except ε γ} {f : γ → EStateM ε σ α} {g : γ → EStateM ε τ β} (hxy : x = y)
    (h : ∀ c, x = .ok c → Pair (f c) (g c) Q s t) :
    Pair (ofExcept x >>= f) (ofExcept y >>= g) Q s t := by
  subst hxy
  cases x with
  | ok c => exact h c rfl
  | error e => exact pair_of_error error_bind_apply error_bind_apply

theorem pair_zoom {ρ ρ' : Type} {rd : σ → ρ} {wr : ρ → σ → σ} {rd' : τ → ρ'} {wr' : ρ' → τ → τ}
    {m : EStateM ε ρ α} {n : EStateM ε ρ' β}
    (h : Pair m n (fun a b r r' => Q a b (wr r s) (wr' r' t)) (rd s) (rd' t)) :
    Pair (zoom rd wr m) (zoom rd' wr' n) Q s t := by
  rcases h.cases with ⟨a, s', b, t', hm, hn, hQ⟩ | ⟨e, s', e', t', hm, hn⟩
  · exact pair_of_ok (zoom_apply_ok hm) (zoom_apply_ok hn) hQ
  · have hm' : zoom rd wr m s = .error e (wr s' s) := by
      unfold zoom
      rw [hm]
    have hn' : zoom rd' wr' n t = .error e' (wr' t' t) := by
      unfold zoom
      rw [hn]
    exact pair_of_error hm' hn'

end Prog
