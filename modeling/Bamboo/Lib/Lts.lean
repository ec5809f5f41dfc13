import Mathlib

/-!
# Labelled transition systems

Systems given by the moves they can make in a state and the state each move leads to.

* `Lts`, `Lts.Step`: one move out of a set of moves;
* `Lts.Path`: any number of such moves;
* `Lts.Path.keeps`: invariants;
* `Lts.ofStep`: systems given by a step function;
* `Lts.Run`: runs that need not end;
* `Lts.exec`: a list of moves made one after the other, for concrete runs.
-/

/-- A transition system with states `S` and moves `L`. -/
structure Lts (S L : Type) where
  can : S → L → Prop
  act : S → L → S

namespace Lts

variable {S L : Type} {A : Lts S L} {P : L → Prop} {s t u : S}

/-- One move out of `P`. -/
def Step (A : Lts S L) (P : L → Prop) (s t : S) : Prop := ∃ l, P l ∧ A.can s l ∧ A.act s l = t

/-- Any number of moves out of `P`. -/
def Path (A : Lts S L) (P : L → Prop) : S → S → Prop := Relation.ReflTransGen (A.Step P)

namespace Path

theorem refl (s : S) : A.Path P s s := Relation.ReflTransGen.refl

theorem trans (h : A.Path P s t) (h' : A.Path P t u) : A.Path P s u := Relation.ReflTransGen.trans h h'

theorem move {l : L} (hP : P l) (hc : A.can s l) (h : A.Path P (A.act s l) t) : A.Path P s t :=
  Relation.ReflTransGen.head ⟨l, hP, hc, rfl⟩ h

/-- **Invariant rule.** -/
theorem keeps {I : S → Prop} (hstep : ∀ s l, P l → I s → A.can s l → I (A.act s l)) (h : A.Path P s t)
    (hs : I s) : I t := by
  induction h with
  | refl => exact hs
  | tail _ ht ih =>
    obtain ⟨l, hP, hc, rfl⟩ := ht
    exact hstep _ l hP ih hc

end Path

/-! ### Step functions -/

variable {f : S → L → Option S}

/-- The system of a step function, which is `none` where a move cannot be made. -/
def ofStep (f : S → L → Option S) : Lts S L := ⟨fun s l => (f s l).isSome = true, fun s l => (f s l).getD s⟩

instance decidableOfStep (f : S → L → Option S) (s : S) : DecidablePred ((ofStep f).can s) := fun l =>
  inferInstanceAs (Decidable ((f s l).isSome = true))

theorem ofStep_step : (ofStep f).Step P s t ↔ ∃ l, P l ∧ f s l = some t := by
  constructor
  · rintro ⟨l, hP, hc, rfl⟩
    obtain ⟨t, ht⟩ := Option.isSome_iff_exists.1 hc
    exact ⟨l, hP, ht.trans (by rw [show (ofStep f).act s l = (f s l).getD s from rfl, ht]; rfl)⟩
  · rintro ⟨l, hP, ht⟩
    refine ⟨l, hP, ?_, ?_⟩
    · show (f s l).isSome = true
      rw [ht]
      rfl
    · show (f s l).getD s = t
      rw [ht]
      rfl

theorem Path.next {l : L} (hP : P l) (ht : f s l = some t) (h : (ofStep f).Path P t u) : (ofStep f).Path P s u :=
  Relation.ReflTransGen.head (ofStep_step.2 ⟨l, hP, ht⟩) h

/-- **Invariant rule** for a step function. -/
theorem Path.keepsStep {I : S → Prop} (hstep : ∀ s l t, P l → I s → f s l = some t → I t)
    (h : (ofStep f).Path P s t) (hs : I s) : I t := by
  induction h with
  | refl => exact hs
  | tail _ ht ih =>
    obtain ⟨l, hP, ht⟩ := ofStep_step.1 ht
    exact hstep _ l _ hP ih ht

/-! ### Runs that need not end -/

/-- An infinite sequence of states, each of which is the one before or comes from it by a move. -/
def Run (A : Lts S L) (ρ : ℕ → S) : Prop := ∀ n, ρ (n + 1) = ρ n ∨ A.Step (fun _ => True) (ρ n) (ρ (n + 1))

/-- **Invariant rule** for the rest of a run. -/
theorem Run.keepsStep {ρ : ℕ → S} (h : (ofStep f).Run ρ) {I : S → Prop} (hstep : ∀ s l t, I s → f s l = some t → I t)
    {n : ℕ} (hn : I (ρ n)) {k : ℕ} (hk : n ≤ k) : I (ρ k) := by
  induction k, hk using Nat.le_induction with
  | base => exact hn
  | succ k _ ih =>
    rcases h k with hsame | hmove
    · rwa [hsame]
    · obtain ⟨l, -, ht⟩ := ofStep_step.1 hmove
      exact hstep _ l _ ih ht

/-! ### Concrete runs -/

/-- Make the moves of a list; `none` when one of them cannot be made. -/
def exec (A : Lts S L) (P : L → Prop) [DecidablePred P] [∀ s, DecidablePred (A.can s)] : List L → S → Option S
  | [], s => some s
  | l :: ls, s => if P l ∧ A.can s l then exec A P ls (A.act s l) else none

variable [DecidablePred P] [∀ s, DecidablePred (A.can s)]

theorem Path.of_exec {s t : S} {ls : List L} (h : A.exec P ls s = some t) : A.Path P s t := by
  induction ls generalizing s with
  | nil =>
    cases h
    exact Path.refl _
  | cons l ls ih =>
    unfold exec at h
    split_ifs at h with hc
    exact Path.move hc.1 hc.2 (ih h)

/-- A list of moves whose last state passes a test. -/
theorem exists_path (ls : List L) (test : S → Bool) (h : (A.exec P ls s).any test = true) :
    ∃ t, A.Path P s t ∧ test t = true := by
  cases he : A.exec P ls s with
  | none => simp [he] at h
  | some t =>
    refine ⟨t, .of_exec he, ?_⟩
    simpa [he] using h

end Lts
