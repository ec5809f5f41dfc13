import Mathlib

/-!
# Chains of certified blocks

Blocks linked by a parent relation, in which a block has one parent at most.  `parent p c` reads: `p`
is the parent of `c`.

* `Ancestor`: the reflexive transitive closure of the relation;
* `acyclic`: where ancestors come to an end there is no cycle;
* `ancestor_of_certified`: if the chain down from any certified block cannot step over `g`, then every
  certified block that is not below `g` extends it;
* `comparable_of_heads`: if that is so for every committed block, the ancestors of all committed blocks
  lie on one chain.
-/

namespace Chain

variable {α : Type} {parent : α → α → Prop} {g x y : α}

/-- `x` is `b` or one of its ancestors. -/
def Ancestor (parent : α → α → Prop) (x b : α) : Prop :=
  Relation.ReflTransGen (fun c p => parent p c) b x

theorem Ancestor.refl (b : α) : Ancestor parent b b := Relation.ReflTransGen.refl

theorem Ancestor.step {p c : α} (hx : Ancestor parent x p) (h : parent p c) : Ancestor parent x c :=
  Relation.ReflTransGen.head h hx

theorem Ancestor.trans {b : α} (hx : Ancestor parent x y) (hy : Ancestor parent y b) :
    Ancestor parent x b :=
  Relation.ReflTransGen.trans hy hx

theorem Ancestor.mono {parent' : α → α → Prop} (h : ∀ p c, parent p c → parent' p c) {b : α}
    (hx : Ancestor parent x b) : Ancestor parent' x b :=
  Relation.ReflTransGen.mono (fun c p => h p c) _ _ hx

/-- What holds of `b` and passes to parents holds of all ancestors. -/
theorem Ancestor.closed {P : α → Prop} {b : α} (hx : Ancestor parent x b) (hb : P b)
    (hp : ∀ p c, P c → parent p c → P p) : P x := by
  induction hx with
  | refl => exact hb
  | tail _ h ih => exact hp _ _ ih h

/-- The ancestors of one block lie on one chain. -/
theorem Ancestor.total (hu : ∀ p p' c, parent p c → parent p' c → p = p') {b : α}
    (hx : Ancestor parent x b) (hy : Ancestor parent y b) :
    Ancestor parent x y ∨ Ancestor parent y x :=
  (Relation.ReflTransGen.total_of_right_unique (fun c p p' h h' => hu p p' c h h') hx hy).symm

/-- A block whose ancestors come to an end is none of its own. -/
theorem acyclic {b : α} (hb : Acc parent b) : ¬ Relation.TransGen parent b b := by
  induction hb with
  | intro b _ ih =>
    intro hcyc
    obtain ⟨c, hbc, hcb⟩ := Relation.TransGen.tail'_iff.1 hcyc
    exact ih c hcb (Relation.TransGen.head' hcb hbc)

variable {β : Type} [LinearOrder β] (view : α → β) {C : α → Prop}

/-- A block `g` that no certified chain steps over is an ancestor of every certified block whose view
is not lower. -/
theorem ancestor_of_certified (hacc : ∀ c, C c → Acc parent c)
    (hstep : ∀ c, C c → view g ≤ view c →
      Ancestor parent g c ∨ ∃ a, parent a c ∧ C a ∧ view g ≤ view a)
    {c : α} (hc : C c) (hv : view g ≤ view c) : Ancestor parent g c := by
  induction hacc c hc with
  | intro c _ ih =>
    rcases hstep c hc hv with h | ⟨a, ha, hca, hva⟩
    · exact h
    · exact (ih a ha hca hva).step ha

/-- **Agreement.**  If each committed head is certified and is an ancestor of every certified block
whose view is not lower, then all ancestors of committed heads lie on one chain. -/
theorem comparable_of_heads (hu : ∀ p p' c, parent p c → parent p' c → p = p') {H : α → Prop}
    (hH : ∀ g, H g → C g)
    (hext : ∀ g, H g → ∀ c, C c → view g ≤ view c → Ancestor parent g c) {g' : α} (hg : H g)
    (hg' : H g') (hx : Ancestor parent x g) (hy : Ancestor parent y g') :
    Ancestor parent x y ∨ Ancestor parent y x := by
  rcases le_total (view g) (view g') with hle | hle
  · exact (hx.trans (hext g hg g' (hH g' hg') hle)).total hu hy
  · exact hx.total hu (hy.trans (hext g' hg' g (hH g hg) hle))

end Chain
