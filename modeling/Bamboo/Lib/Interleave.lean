import Mathlib

/-!
# Interleavings of independent programs

Instructions that answer and change a state, of which only what the setoid keeps can be observed.

* `Stepper`: the instructions, whose effect depends on what can be observed only;
* `Independent`: two instructions whose order does not matter;
* `interleave`: two programs that are independent of each other, run in any interleaving, do and answer what they do
  one after the other.
-/

/-- Instructions `α` with answers `β` on states `σ`, up to what can be observed. -/
structure Stepper (σ α β : Type) where
  step : α → σ → β × σ
  same : Setoid σ
  congr : ∀ a {s t}, same s t → (step a s).1 = (step a t).1 ∧ same (step a s).2 (step a t).2

namespace Stepper

variable {σ α β : Type} (m : Stepper σ α β)

/-- A program: its answers and the state it leaves. -/
def run : List α → σ → List β × σ
  | [], s => ([], s)
  | a :: as, s =>
    let r := m.step a s
    let rs := run as r.2
    (r.1 :: rs.1, rs.2)

/-- Two programs by turns; each answer is for the program that gave the instruction. -/
def runBoth : List (α ⊕ α) → σ → List (β ⊕ β) × σ
  | [], s => ([], s)
  | .inl a :: w, s =>
    let r := m.step a s
    let rs := runBoth w r.2
    (.inl r.1 :: rs.1, rs.2)
  | .inr a :: w, s =>
    let r := m.step a s
    let rs := runBoth w r.2
    (.inr r.1 :: rs.1, rs.2)

/-- The first program. -/
def lefts {γ : Type} (w : List (γ ⊕ γ)) : List γ := w.filterMap Sum.getLeft?

/-- The second program. -/
def rights {γ : Type} (w : List (γ ⊕ γ)) : List γ := w.filterMap Sum.getRight?

/-- The order of the two instructions does not matter. -/
def Independent (a b : α) : Prop :=
  ∀ s, (m.step a (m.step b s).2).1 = (m.step a s).1 ∧ (m.step b (m.step a s).2).1 = (m.step b s).1 ∧
    m.same (m.step a (m.step b s).2).2 (m.step b (m.step a s).2).2

variable {m} {s t : σ} {as bs : List α}

/-- Programs depend on what can be observed. -/
theorem run_congr (h : m.same s t) (as : List α) :
    (m.run as s).1 = (m.run as t).1 ∧ m.same (m.run as s).2 (m.run as t).2 := by
  induction as generalizing s t with
  | nil => exact ⟨rfl, h⟩
  | cons a as ih =>
    obtain ⟨hans, hsame⟩ := m.congr a h
    obtain ⟨hanss, hsames⟩ := ih hsame
    exact ⟨congrArg₂ List.cons hans hanss, hsames⟩

/-- An instruction moves past a program that is independent of it. -/
theorem run_after_step {b : α} (h : ∀ a ∈ as, m.Independent a b) (s : σ) :
    (m.run as (m.step b s).2).1 = (m.run as s).1 ∧ (m.step b (m.run as s).2).1 = (m.step b s).1 ∧
      m.same (m.run as (m.step b s).2).2 (m.step b (m.run as s).2).2 := by
  induction as generalizing s with
  | nil => exact ⟨rfl, rfl, m.same.refl _⟩
  | cons a as ih =>
    obtain ⟨ha, hb, hsame⟩ := h a List.mem_cons_self s
    obtain ⟨has, hb', hsame'⟩ := ih (fun a' ha' => h a' (List.mem_cons_of_mem _ ha')) (m.step a s).2
    -- first past the head, and then past the rest
    obtain ⟨hcongr, hsames⟩ := run_congr hsame as
    exact ⟨congrArg₂ List.cons ha (hcongr.trans has), hb'.trans hb, m.same.trans hsames hsame'⟩

/-- **Independent programs may be interleaved.** -/
theorem interleave {w : List (α ⊕ α)} (h : ∀ a ∈ lefts w, ∀ b ∈ rights w, m.Independent a b) (s : σ) :
    lefts (m.runBoth w s).1 = (m.run (lefts w) s).1 ∧
    rights (m.runBoth w s).1 = (m.run (rights w) (m.run (lefts w) s).2).1 ∧
    m.same (m.runBoth w s).2 (m.run (rights w) (m.run (lefts w) s).2).2 := by
  induction w generalizing s with
  | nil => exact ⟨rfl, rfl, m.same.refl _⟩
  | cons c w ih =>
    cases c with
    | inl a =>
      obtain ⟨hl, hr, hsame⟩ := ih (fun a' ha' b hb => h a' (List.mem_cons_of_mem _ ha') b hb) (m.step a s).2
      exact ⟨congrArg (List.cons _) hl, hr, hsame⟩
    | inr b =>
      have hb : ∀ a ∈ lefts w, m.Independent a b := fun a ha => h a ha b List.mem_cons_self
      obtain ⟨hl, hr, hsame⟩ := ih (fun a ha b' hb' => h a ha b' (List.mem_cons_of_mem _ hb')) (m.step b s).2
      obtain ⟨hpast, hans, hstate⟩ := run_after_step hb s
      obtain ⟨hcongr, hsames⟩ := run_congr hstate (rights w)
      refine ⟨hl.trans hpast, ?_, m.same.trans hsame hsames⟩
      exact congrArg₂ List.cons hans.symm (hr.trans hcongr)

end Stepper
