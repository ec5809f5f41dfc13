import Mathlib

/-!
# Stateful programs that may fault

A program over a state `σ` is a value of core's `EStateM ε σ α`: it returns a value or stops with
a fault `ε`, and in both cases leaves a state behind.  A fault does not roll the state back, so what
a program did before it stopped stays visible.

* `wp m Q E s`: run from `s`, the program `m` ends in a value and a state that satisfy `Q`, or in a
  fault and a state that satisfy `E`;
* one rule for each program constructor, so that a goal about a program becomes a goal about its
  tests and its assignments;
* `Steps R m Q s`: run from `s`, the program `m` changes the state by a sequence of steps of `R`, and
  a normal end satisfies `Q`;
* `Moves R m`: run from any state, the program `m` ends in a state to which `R` relates that one.
-/

namespace Prog

variable {ε σ τ α β : Type}

/-- The state in which a run ended. -/
def final : EStateM.Result ε σ α → σ
  | .ok _ t => t
  | .error _ t => t

/-- The weakest precondition of a program: `Q` for its normal end, `E` for a fault. -/
def wp (m : EStateM ε σ α) (Q : α → σ → Prop) (E : σ → Prop) (s : σ) : Prop :=
  match m s with
  | .ok a t => Q a t
  | .error _ t => E t

theorem wp_mono {m : EStateM ε σ α} {Q Q' : α → σ → Prop} {E E' : σ → Prop} {s : σ}
    (h : wp m Q E s) (hQ : ∀ a t, Q a t → Q' a t) (hE : ∀ t, E t → E' t) : wp m Q' E' s := by
  unfold wp at h ⊢
  cases hm : m s with
  | ok a t => rw [hm] at h; exact hQ a t h
  | error e t => rw [hm] at h; exact hE t h

theorem wp_and {m : EStateM ε σ α} {Q Q' : α → σ → Prop} {E E' : σ → Prop} {s : σ}
    (h : wp m Q E s) (h' : wp m Q' E' s) :
    wp m (fun a t => Q a t ∧ Q' a t) (fun t => E t ∧ E' t) s := by
  unfold wp at h h' ⊢
  cases hm : m s with
  | ok a t => rw [hm] at h h'; exact ⟨h, h'⟩
  | error e t => rw [hm] at h h'; exact ⟨h, h'⟩

/-- What a run that returned has established. -/
theorem wp_ok {m : EStateM ε σ α} {Q : α → σ → Prop} {E : σ → Prop} {s t : σ} {a : α}
    (h : wp m Q E s) (hm : m s = .ok a t) : Q a t := by
  unfold wp at h
  rw [hm] at h
  exact h

/-- A run whose outcome is known. -/
theorem wp_of_ok {m : EStateM ε σ α} {Q : α → σ → Prop} {E : σ → Prop} {s t : σ} {a : α}
    (hm : m s = .ok a t) (h : Q a t) : wp m Q E s := by
  unfold wp
  rw [hm]
  exact h

theorem wp_of_error {m : EStateM ε σ α} {Q : α → σ → Prop} {E : σ → Prop} {s t : σ} {e : ε}
    (hm : m s = .error e t) (h : E t) : wp m Q E s := by
  unfold wp
  rw [hm]
  exact h

/-- The run returns, with a value and a state that pass the test. -/
def passes (m : EStateM ε σ α) (test : α → σ → Bool) (s : σ) : Bool :=
  match m s with
  | .ok a t => test a t
  | .error _ _ => false

theorem exists_ok_of_passes {m : EStateM ε σ α} {test : α → σ → Bool} {s : σ}
    (h : passes m test s = true) : ∃ a t, m s = .ok a t ∧ test a t = true := by
  unfold passes at h
  cases hm : m s with
  | ok a t =>
    rw [hm] at h
    exact ⟨a, t, rfl, h⟩
  | error e t =>
    rw [hm] at h
    cases h

/-- A program that cannot fault returns. -/
theorem exists_ok_of_wp {m : EStateM ε σ α} {Q : α → σ → Prop} {s : σ}
    (h : wp m Q (fun _ => False) s) : ∃ a t, m s = .ok a t ∧ Q a t := by
  unfold wp at h
  cases hm : m s with
  | ok a t => rw [hm] at h; exact ⟨a, t, rfl, h⟩
  | error e t => rw [hm] at h; exact h.elim

/-- A run satisfies what is known of its outcome. -/
theorem wp_self {m : EStateM ε σ α} {s : σ} : wp m (fun a t => m s = .ok a t) (fun _ => True) s := by
  unfold wp
  cases m s with
  | ok a t => rfl
  | error e t => trivial

/-- A postcondition that does not look at the value is a statement about the final state. -/
theorem wp_final {m : EStateM ε σ α} {P : σ → Prop} {s : σ} :
    wp m (fun _ t => P t) P s ↔ P (final (m s)) := by
  unfold wp final
  cases m s <;> rfl

@[simp] theorem wp_pure {a : α} {Q : α → σ → Prop} {E : σ → Prop} {s : σ} :
    wp (pure a : EStateM ε σ α) Q E s ↔ Q a s := Iff.rfl

@[simp] theorem wp_bind {m : EStateM ε σ α} {f : α → EStateM ε σ β} {Q : β → σ → Prop}
    {E : σ → Prop} {s : σ} :
    wp (m >>= f) Q E s ↔ wp m (fun a t => wp (f a) Q E t) E s := by
  unfold wp
  simp only [bind, EStateM.bind]
  cases m s <;> rfl

@[simp] theorem wp_get {Q : σ → σ → Prop} {E : σ → Prop} {s : σ} :
    wp (get : EStateM ε σ σ) Q E s ↔ Q s s := Iff.rfl

@[simp] theorem wp_set {t : σ} {Q : PUnit → σ → Prop} {E : σ → Prop} {s : σ} :
    wp (set t : EStateM ε σ PUnit) Q E s ↔ Q ⟨⟩ t := Iff.rfl

@[simp] theorem wp_modify {f : σ → σ} {Q : PUnit → σ → Prop} {E : σ → Prop} {s : σ} :
    wp (modify f : EStateM ε σ PUnit) Q E s ↔ Q ⟨⟩ (f s) := Iff.rfl

@[simp] theorem wp_throw {e : ε} {Q : α → σ → Prop} {E : σ → Prop} {s : σ} :
    wp (throw e : EStateM ε σ α) Q E s ↔ E s := Iff.rfl

@[simp] theorem wp_ite {p : Prop} [Decidable p] {m n : EStateM ε σ α} {Q : α → σ → Prop}
    {E : σ → Prop} {s : σ} :
    wp (if p then m else n) Q E s ↔ (p → wp m Q E s) ∧ (¬ p → wp n Q E s) := by
  by_cases h : p <;> simp [h]

/-! ### Running a program one instruction at a time -/

theorem get_bind_apply {f : σ → EStateM ε σ α} {s : σ} :
    (get >>= f : EStateM ε σ α) s = f s s := rfl

theorem set_bind_apply {f : PUnit → EStateM ε σ α} {s t : σ} :
    (set t >>= f : EStateM ε σ α) s = f ⟨⟩ t := rfl

theorem modify_bind_apply {g : σ → σ} {f : PUnit → EStateM ε σ α} {s : σ} :
    (modify g >>= f : EStateM ε σ α) s = f ⟨⟩ (g s) := rfl

theorem bind_apply_ok {m : EStateM ε σ α} {f : α → EStateM ε σ β} {s t : σ} {a : α}
    (h : m s = .ok a t) : (m >>= f) s = f a t := by
  show EStateM.bind m f s = f a t
  unfold EStateM.bind
  rw [h]

theorem bind_apply_error {m : EStateM ε σ α} {f : α → EStateM ε σ β} {s t : σ} {e : ε}
    (h : m s = .error e t) : (m >>= f) s = .error e t := by
  show EStateM.bind m f s = .error e t
  unfold EStateM.bind
  rw [h]

/-- A sequence that returns has returned halfway. -/
theorem bind_eq_ok {m : EStateM ε σ α} {f : α → EStateM ε σ β} {s t : σ} {b : β}
    (h : (m >>= f) s = .ok b t) : ∃ a s', m s = .ok a s' ∧ f a s' = .ok b t := by
  cases hm : m s with
  | ok a s' =>
    rw [bind_apply_ok hm] at h
    exact ⟨a, s', rfl, h⟩
  | error e s' =>
    rw [bind_apply_error hm] at h
    cases h

/-! ### Programs on a component of the state -/

/-- Run a program on a component of the state, given how the component is read and written. -/
def zoom (rd : σ → τ) (wr : τ → σ → σ) (m : EStateM ε τ α) : EStateM ε σ α := fun s =>
  match m (rd s) with
  | .ok a t => .ok a (wr t s)
  | .error e t => .error e (wr t s)

@[simp] theorem wp_zoom {rd : σ → τ} {wr : τ → σ → σ} {m : EStateM ε τ α} {Q : α → σ → Prop}
    {E : σ → Prop} {s : σ} :
    wp (zoom rd wr m) Q E s ↔ wp m (fun a t => Q a (wr t s)) (fun t => E (wr t s)) (rd s) := by
  unfold wp zoom
  cases m (rd s) <;> rfl

theorem zoom_apply_ok {rd : σ → τ} {wr : τ → σ → σ} {m : EStateM ε τ α} {s : σ} {a : α} {t : τ}
    (h : m (rd s) = .ok a t) : zoom rd wr m s = .ok a (wr t s) := by
  unfold zoom
  rw [h]

theorem zoom_eq_ok {rd : σ → τ} {wr : τ → σ → σ} {m : EStateM ε τ α} {s s' : σ} {a : α}
    (h : zoom rd wr m s = .ok a s') : ∃ t, m (rd s) = .ok a t ∧ s' = wr t s := by
  unfold zoom at h
  cases hm : m (rd s) with
  | ok a' t =>
    rw [hm] at h
    cases h
    exact ⟨t, rfl, rfl⟩
  | error e t =>
    rw [hm] at h
    cases h

/-- Lift a pure computation that may fault. -/
def ofExcept (x : Except ε α) : EStateM ε σ α :=
  match x with
  | .ok a => pure a
  | .error e => throw e

theorem wp_ofExcept {x : Except ε α} {Q : α → σ → Prop} {E : σ → Prop} {s : σ} :
    wp (ofExcept x) Q E s ↔ (∀ a, x = .ok a → Q a s) ∧ (∀ e, x = .error e → E s) := by
  cases x <;> simp [ofExcept]

theorem ok_bind_apply {a : α} {f : α → EStateM ε σ β} {s : σ} :
    (ofExcept (.ok a) >>= f : EStateM ε σ β) s = f a s := rfl

theorem error_bind_apply {e : ε} {f : α → EStateM ε σ β} {s : σ} :
    (ofExcept (.error e) >>= f : EStateM ε σ β) s = .error e s := rfl

/-! ### Programs made of small steps -/

/-- Run from `s`, the program goes through a sequence of steps of `R`, however it ends; if it ends
normally, its value and its last state satisfy `Q`. -/
def Steps (R : σ → σ → Prop) (m : EStateM ε σ α) (Q : α → σ → Prop) (s : σ) : Prop :=
  wp m (fun a t => Relation.ReflTransGen R s t ∧ Q a t) (Relation.ReflTransGen R s) s

variable {R : σ → σ → Prop} {Q : α → σ → Prop} {s : σ}

theorem Steps.final {m : EStateM ε σ α} (h : Steps R m Q s) :
    Relation.ReflTransGen R s (final (m s)) := by
  refine wp_final.1 (wp_mono h (fun _ _ h => h.1) fun _ h => h)

theorem Steps.mono {m : EStateM ε σ α} {Q' : α → σ → Prop} (h : Steps R m Q s)
    (hQ : ∀ a t, Q a t → Q' a t) : Steps R m Q' s :=
  wp_mono h (fun a t h => ⟨h.1, hQ a t h.2⟩) fun _ h => h

theorem Steps.pure {a : α} (h : Q a s) : Steps R (pure a : EStateM ε σ α) Q s := ⟨.refl, h⟩

theorem Steps.throw {e : ε} : Steps R (throw e : EStateM ε σ α) Q s := Relation.ReflTransGen.refl

/-- A program that makes one step. -/
theorem Steps.single {m : EStateM ε σ α} (h : wp m (fun a t => R s t ∧ Q a t) (R s) s) :
    Steps R m Q s :=
  wp_mono h (fun _ _ h => ⟨.single h.1, h.2⟩) fun _ h => .single h

theorem Steps.bind {m : EStateM ε σ α} {f : α → EStateM ε σ β} {Q' : β → σ → Prop}
    (hm : Steps R m Q s)
    (hf : ∀ a t, Relation.ReflTransGen R s t → Q a t → Steps R (f a) Q' t) :
    Steps R (m >>= f) Q' s := by
  refine wp_bind.2 (wp_mono hm (fun a t h => ?_) fun _ h => h)
  exact wp_mono (hf a t h.1 h.2) (fun b u hu => ⟨h.1.trans hu.1, hu.2⟩) fun u hu => h.1.trans hu

theorem Steps.get_bind {f : σ → EStateM ε σ α} (h : Steps R (f s) Q s) :
    Steps R (get >>= f) Q s := h

/-- A program that makes one step to a known state, followed by another. -/
theorem Steps.step_bind {m : EStateM ε σ α} {a : α} {t : σ} {f : α → EStateM ε σ β}
    {Q : β → σ → Prop} (hm : m s = .ok a t) (hR : R s t) (h : Steps R (f a) Q t) :
    Steps R (m >>= f) Q s := by
  refine Steps.bind (Q := fun b u => b = a ∧ u = t) (.single ?_) ?_
  · exact wp_of_ok hm ⟨hR, rfl, rfl⟩
  · rintro _ _ - ⟨rfl, rfl⟩
    exact h

/-- The steps of a program after a first step. -/
theorem Steps.after {m : EStateM ε σ α} {t : σ} (hR : R s t) (h : Steps R m Q t) :
    wp m (fun a u => Relation.ReflTransGen R s u ∧ Q a u) (Relation.ReflTransGen R s) t :=
  wp_mono h (fun _ _ h => ⟨h.1.head hR, h.2⟩) fun _ h => h.head hR

theorem Steps.ite {p : Prop} [Decidable p] {m n : EStateM ε σ α} (hm : p → Steps R m Q s)
    (hn : ¬ p → Steps R n Q s) : Steps R (if p then m else n) Q s := by
  by_cases h : p
  · rw [if_pos h]; exact hm h
  · rw [if_neg h]; exact hn h

theorem Steps.ofExcept_bind {x : Except ε β} {f : β → EStateM ε σ α}
    (h : ∀ b, x = .ok b → Steps R (f b) Q s) : Steps R (ofExcept x >>= f) Q s := by
  cases x with
  | ok b => exact h b rfl
  | error e => exact .throw

/-! ### Programs that move along a relation -/

/-- Run from any state, the program ends in a state to which `R` relates that one, however it ends. -/
def Moves (R : σ → σ → Prop) (m : EStateM ε σ α) : Prop := ∀ s, wp m (fun _ t => R s t) (R s) s

namespace Moves

theorem final {m : EStateM ε σ α} (h : Moves R m) (s : σ) : R s (final (m s)) := wp_final.1 (h s)

theorem ok {m : EStateM ε σ α} (h : Moves R m) {t : σ} {a : α} (hm : m s = .ok a t) : R s t :=
  wp_ok (Q := fun _ t => R s t) (h s) hm

theorem mono {R' : σ → σ → Prop} {m : EStateM ε σ α} (h : Moves R m) (hR : ∀ s t, R s t → R' s t) : Moves R' m :=
  fun s => wp_mono (h s) (fun _ t => hR s t) fun t => hR s t

theorem get {f : σ → EStateM ε σ α} (hf : ∀ s, wp (f s) (fun _ t => R s t) (R s) s) : Moves R (get >>= f) :=
  fun s => wp_bind.2 (wp_get.2 (hf s))

theorem ite {p : Prop} [Decidable p] {m n : EStateM ε σ α} (hm : Moves R m) (hn : Moves R n) :
    Moves R (if p then m else n) := fun s => wp_ite.2 ⟨fun _ => hm s, fun _ => hn s⟩

theorem modify {f : σ → σ} (hf : ∀ s, R s (f s)) : Moves R (modify f : EStateM ε σ PUnit) :=
  fun s => wp_modify.2 (hf s)

theorem zoom {rd : σ → τ} {wr : τ → σ → σ} (h : ∀ t s, R s (wr t s)) (m : EStateM ε τ α) :
    Moves R (zoom rd wr m) := by
  intro s
  refine wp_zoom.2 ?_
  unfold wp
  cases m (rd s) with
  | ok a t => exact h t s
  | error e t => exact h t s

section Refl

variable [Std.Refl R]

theorem pure (a : α) : Moves R (pure a : EStateM ε σ α) := fun s => Std.Refl.refl s

theorem throw (e : ε) : Moves R (throw e : EStateM ε σ α) := fun s => Std.Refl.refl s

theorem ofExcept (x : Except ε α) : Moves R (ofExcept x : EStateM ε σ α) :=
  fun s => wp_ofExcept.2 ⟨fun _ _ => Std.Refl.refl s, fun _ _ => Std.Refl.refl s⟩

end Refl

section Trans

variable [IsTrans σ R]

/-- After a move, another one. -/
theorem after {m : EStateM ε σ α} {t : σ} (hR : R s t) (hm : wp m (fun _ u => R t u) (R t) t) :
    wp m (fun _ u => R s u) (R s) t :=
  wp_mono hm (fun _ _ h => IsTrans.trans _ _ _ hR h) fun _ h => IsTrans.trans _ _ _ hR h

theorem bind {m : EStateM ε σ α} {f : α → EStateM ε σ β} (hm : Moves R m) (hf : ∀ a, Moves R (f a)) :
    Moves R (m >>= f) :=
  fun s => wp_bind.2 (wp_mono (hm s) (fun a t ht => after ht (hf a t)) fun _ h => h)

end Trans

/-- The second part of a program moves on from where the first part ended. -/
theorem final_bind [Std.Refl R] {m : EStateM ε σ α} {f : α → EStateM ε σ β} (hf : ∀ a, Moves R (f a)) (s : σ) :
    R (Prog.final (m s)) (Prog.final ((m >>= f) s)) := by
  cases hm : m s with
  | ok a t =>
    rw [bind_apply_ok hm]
    exact (hf a).final t
  | error e t =>
    rw [bind_apply_error hm]
    exact Std.Refl.refl t

end Moves

end Prog
