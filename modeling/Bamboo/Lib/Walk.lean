import Mathlib

/-!
# Walks that end

A loop that goes from one place to the next, until there is no next one or it faults.  With fuel for as many
rounds as there are places to go on from, the loop returns exactly if no place that it comes to faults and
none of them leads back to itself.

* `step a`: a fault, the end, or the next place;
* `walks step n a`: the loop from `a` returns within `n` rounds;
* `walks_iff`: when it does.
-/

namespace Walk

variable {α ε : Type} {step : α → Except ε (Option α)} {a b : α}

/-- The loop goes from `a` to `b`. -/
def Leads (step : α → Except ε (Option α)) (a b : α) : Prop := step a = .ok (some b)

/-- The loop from `a` returns within `n` rounds. -/
def walks (step : α → Except ε (Option α)) : ℕ → α → Prop
  | 0, _ => False
  | n + 1, a =>
    match step a with
    | .error _ => False
    | .ok none => True
    | .ok (some b) => walks step n b

/-- The place is no fault, and does not lead back to itself. -/
def Safe (step : α → Except ε (Option α)) (a : α) : Prop :=
  (∀ e, step a ≠ .error e) ∧ ¬ Relation.TransGen (Leads step) a a

/-- A stricter filter that drops an element of the list leaves fewer. -/
theorem length_filter_lt {L : List α} {p q : α → Bool} (hpq : ∀ x, p x = true → q x = true)
    {m : α} (hm : m ∈ L) (hq : q m = true) (hp : ¬ p m = true) :
    (L.filter p).length < (L.filter q).length := by
  have hsub : L.filter p = (L.filter q).filter p := by
    rw [List.filter_filter]
    refine List.filter_congr fun x _ => ?_
    cases hx : p x with
    | false => simp
    | true => simp [hpq x hx]
  rw [hsub]
  exact List.length_filter_lt_length_iff_exists.2 ⟨m, List.mem_filter.2 ⟨hm, hq⟩, hp⟩

theorem walks_succ {n : ℕ} (h : Leads step a b) : walks step (n + 1) a ↔ walks step n b := by
  have hs : step a = .ok (some b) := h
  rw [walks, hs]

/-- A loop that returns comes to safe places only. -/
theorem safe_of_walks {n : ℕ} (h : walks step n a) (hb : Relation.ReflTransGen (Leads step) a b) :
    Safe step b := by
  induction n generalizing a b with
  | zero => exact h.elim
  | succ n ih =>
    unfold walks at h
    cases hs : step a with
    | error e =>
      rw [hs] at h
      exact h.elim
    | ok o =>
      cases o with
      | none =>
        have hend : ∀ c, ¬ Leads step a c := fun c hc => by
          rw [Leads, hs] at hc
          cases hc
        rcases Relation.ReflTransGen.cases_head hb with rfl | ⟨c, hc, -⟩
        · refine ⟨fun e he => ?_, fun hloop => ?_⟩
          · rw [hs] at he
            cases he
          · obtain ⟨c, hc, -⟩ := Relation.TransGen.head'_iff.1 hloop
            exact hend c hc
        · exact absurd hc (hend c)
      | some c =>
        rw [hs] at h
        have hstep : ∀ d, Leads step a d → d = c := fun d hd => by
          rw [Leads, hs] at hd
          cases hd
          rfl
        rcases Relation.ReflTransGen.cases_head hb with rfl | ⟨d, hd, hdb⟩
        · refine ⟨fun e he => ?_, fun hloop => ?_⟩
          · rw [hs] at he
            cases he
          · -- a way back to `a` is a way back to `c`
            obtain ⟨d, hd, hda⟩ := Relation.TransGen.head'_iff.1 hloop
            obtain rfl := hstep d hd
            exact (ih h .refl).2 (Relation.TransGen.tail' hda hd)
        · obtain rfl := hstep d hd
          exact ih h hdb

/-- A loop that comes to safe places only returns, as each round leaves a place that does not come again. -/
theorem walks_of_safe {n : ℕ} (h : ∀ b, Relation.ReflTransGen (Leads step) a b → Safe step b)
    {L : List α} (hL : ∀ b c, Relation.ReflTransGen (Leads step) a b → Leads step b c → b ∈ L)
    (hn : L.length < n) : walks step n a := by
  classical
  suffices hgen : ∀ n a, (∀ b, Relation.ReflTransGen (Leads step) a b → Safe step b) →
      (∀ b c, Relation.ReflTransGen (Leads step) a b → Leads step b c → b ∈ L) →
      (L.filter fun b => decide (Relation.ReflTransGen (Leads step) a b)).length < n → walks step n a from
    hgen n a h hL (Nat.lt_of_le_of_lt (List.length_filter_le _ _) hn)
  clear h hL hn
  intro n
  induction n with
  | zero => exact fun a _ _ hn => absurd hn (Nat.not_lt_zero _)
  | succ n ih =>
    intro a h hL hn
    cases hs : step a with
    | error e => exact absurd hs ((h a .refl).1 e)
    | ok o =>
      cases o with
      | none =>
        unfold walks
        rw [hs]
        trivial
      | some c =>
        have hac : Leads step a c := hs
        rw [walks_succ hac]
        refine ih c (fun b hb => h b (.head hac hb)) (fun b d hb => hL b d (.head hac hb)) ?_
        -- `a` itself does not come again
        have hlt := length_filter_lt (L := L)
          (p := fun b => decide (Relation.ReflTransGen (Leads step) c b))
          (q := fun b => decide (Relation.ReflTransGen (Leads step) a b))
          (fun b hb => decide_eq_true (.head hac (of_decide_eq_true hb))) (hL a c .refl hac)
          (decide_eq_true .refl)
          (fun hca => (h a .refl).2 (Relation.TransGen.head' hac (of_decide_eq_true hca)))
        omega

/-- **A loop returns** exactly if it comes to safe places only. -/
theorem walks_iff {n : ℕ} {L : List α}
    (hL : ∀ b c, Relation.ReflTransGen (Leads step) a b → Leads step b c → b ∈ L) (hn : L.length < n) :
    walks step n a ↔ ∀ b, Relation.ReflTransGen (Leads step) a b → Safe step b :=
  ⟨fun h _ hb => safe_of_walks h hb, fun h => walks_of_safe h hL hn⟩

/-- A place from which everything goes down is safe. -/
theorem safe_of_lt (rank : α → ℕ) (hf : ∀ e, step a ≠ .error e)
    (hlt : ∀ b c, Relation.ReflTransGen (Leads step) a b → Leads step b c → rank c < rank b) : Safe step a := by
  refine ⟨hf, fun hloop => ?_⟩
  have hdown : ∀ b, Relation.TransGen (Leads step) a b → rank b < rank a := by
    intro b hb
    induction hb with
    | single hab => exact hlt a _ .refl hab
    | tail hab hbc ih => exact Nat.lt_trans (hlt _ _ hab.to_reflTransGen hbc) ih
  exact Nat.lt_irrefl _ (hdown a hloop)

end Walk
