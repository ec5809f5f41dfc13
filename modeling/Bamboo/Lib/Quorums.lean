import Mathlib

/-!
# Two-thirds quorums

Lists without repetition that hold more than two thirds of `n` members: any two of them share a
member, and so do any three with `n` members in all.
-/

namespace Quorums

variable {α : Type} [DecidableEq α]

/-- More than two thirds of `n`, pairwise distinct, all among `members`. -/
structure IsQuorum (members : List α) (n : ℕ) (q : List α) : Prop where
  nodup : q.Nodup
  large : 2 * n < 3 * q.length
  subset : q ⊆ members

variable {members : List α} {n : ℕ} {q r t : List α}

theorem IsQuorum.card_toFinset (h : IsQuorum members n q) :
    q.toFinset.card = q.length ∧ q.toFinset ⊆ members.toFinset :=
  ⟨List.toFinset_card_of_nodup h.nodup, fun _ hx =>
    List.mem_toFinset.2 (h.subset (List.mem_toFinset.1 hx))⟩

/-- **Two quorums share a member.** -/
theorem IsQuorum.inter (hn : members.length = n) (hq : IsQuorum members n q)
    (hr : IsQuorum members n r) : ∃ x, x ∈ q ∧ x ∈ r := by
  obtain ⟨hqc, hqs⟩ := hq.card_toFinset
  obtain ⟨hrc, hrs⟩ := hr.card_toFinset
  have hm : members.toFinset.card ≤ n := hn ▸ List.toFinset_card_le members
  have hlt : members.toFinset.card < q.toFinset.card + r.toFinset.card := by
    have := hq.large
    have := hr.large
    omega
  obtain ⟨x, hx⟩ := Finset.inter_nonempty_of_card_lt_card_add_card hqs hrs hlt
  rw [Finset.mem_inter, List.mem_toFinset, List.mem_toFinset] at hx
  exact ⟨x, hx⟩

/-- **Three quorums share a member.** -/
theorem IsQuorum.inter_inter (hn : members.length = n) (hq : IsQuorum members n q)
    (hr : IsQuorum members n r) (ht : IsQuorum members n t) : ∃ x, x ∈ q ∧ x ∈ r ∧ x ∈ t := by
  obtain ⟨hqc, hqs⟩ := hq.card_toFinset
  obtain ⟨hrc, hrs⟩ := hr.card_toFinset
  obtain ⟨htc, hts⟩ := ht.card_toFinset
  have hm : members.toFinset.card ≤ n := hn ▸ List.toFinset_card_le members
  have hunion : (q.toFinset ∪ r.toFinset).card ≤ members.toFinset.card :=
    Finset.card_le_card (Finset.union_subset hqs hrs)
  have hsum := Finset.card_union_add_card_inter q.toFinset r.toFinset
  have hlt : members.toFinset.card < (q.toFinset ∩ r.toFinset).card + t.toFinset.card := by
    have := hq.large
    have := hr.large
    have := ht.large
    omega
  obtain ⟨x, hx⟩ := Finset.inter_nonempty_of_card_lt_card_add_card
    (Finset.inter_subset_left.trans hqs) hts hlt
  simp only [Finset.mem_inter, List.mem_toFinset] at hx
  exact ⟨x, hx.1.1, hx.1.2, hx.2⟩

end Quorums
