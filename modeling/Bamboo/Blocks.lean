import Bamboo.BlockChain
import Bamboo.Lib.Chain

/-!
# The blocks of a network

Statements about a set `P` of blocks, those that the replicas of a network have proposed: their ids,
their parents and their ancestors through `PrevID`.
-/

namespace Bamboo

/-- Block ids are free of collisions: two blocks never share one, and none has the id that stands for
no block at all. -/
structure CollisionFree (P : Block → Prop) : Prop where
  inj : ∀ {b b' : Block}, P b → P b' → b.id = b'.id → b = b'
  ne_zero : ∀ {b : Block}, P b → b.id ≠ zeroID

/-- The parent of a block, through `PrevID`. -/
structure ParentOf (P : Block → Prop) (p b : Block) : Prop where
  parent : P p
  child : P b
  link : p.id = b.prevID

/-- `x` is `b` or one of its ancestors. -/
def Ancestor (P : Block → Prop) : Block → Block → Prop := Chain.Ancestor (ParentOf P)

/-- The block's ancestors lead down to one that has no parent. -/
inductive Rooted (P : Block → Prop) : Block → Prop
  | root {b : Block} (h : b.prevID = zeroID) : Rooted P b
  | child {a b : Block} (h : ParentOf P a b) (ha : Rooted P a) : Rooted P b

variable {P P' : Block → Prop} {a b x : Block}

theorem CollisionFree.anti (h : CollisionFree P') (hP : ∀ b, P b → P' b) : CollisionFree P :=
  ⟨fun hb hb' => h.inj (hP _ hb) (hP _ hb'), fun hb => h.ne_zero (hP _ hb)⟩

theorem ParentOf.mono (h : ParentOf P a b) (hP : ∀ b, P b → P' b) : ParentOf P' a b :=
  ⟨hP _ h.parent, hP _ h.child, h.link⟩

theorem Ancestor.mono (h : Ancestor P x b) (hP : ∀ b, P b → P' b) : Ancestor P' x b :=
  Chain.Ancestor.mono (fun _ _ hp => hp.mono hP) h

theorem Rooted.mono (h : Rooted P b) (hP : ∀ b, P b → P' b) : Rooted P' b := by
  induction h with
  | root h => exact .root h
  | child h _ ih => exact .child (h.mono hP) ih

/-- Distinct ids, none of them zero, in a list that holds all blocks. -/
theorem collisionFree_of_list {bs : List Block} (hP : ∀ b, P b → b ∈ bs)
    (hbs : (bs.map Block.id).Nodup ∧ ∀ b ∈ bs, b.id ≠ zeroID) : CollisionFree P :=
  ⟨fun hb hb' h => List.inj_on_of_nodup_map hbs.1 (hP _ hb) (hP _ hb') h, fun hb => hbs.2 _ (hP _ hb)⟩

/-- Without collisions a block has one parent at most. -/
theorem ParentOf.unique (hid : CollisionFree P) {a' : Block} (h : ParentOf P a b)
    (h' : ParentOf P a' b) : a = a' :=
  hid.inj h.parent h'.parent (h.link.trans h'.link.symm)

/-- A set of ids that contains the parents of its blocks contains the ancestors. -/
theorem not_ancestor_of_ids {bs : List Block} (hP : ∀ b, P b → b ∈ bs) (S : List ℕ)
    (hS : ∀ c ∈ bs, c.id ∈ S → ∀ p ∈ bs, p.id = c.prevID → p.id ∈ S) (hb : b.id ∈ S)
    (hx : x.id ∉ S) : ¬ Ancestor P x b := by
  intro h
  refine hx (Chain.Ancestor.closed (P := fun b : Block => b.id ∈ S) h hb fun p c hc hp => ?_)
  exact hS c (hP c hp.child) hc p (hP p hp.parent) hp.link

/-- The blocks that a commit delivers are ancestors of the committed block. -/
theorem BlockChain.Above.ancestor {f : LevelledForest} {low : ℕ} {l : List Block}
    (hst : ∀ x b, f.getVertex x = some b → b.id = x ∧ P b) (hl : BlockChain.Above f low b l) (hb : P b) :
    ∀ x ∈ l, Ancestor P x b := by
  induction hl with
  | stop => simp
  | last =>
    intro x hx
    rw [List.mem_singleton.1 hx]
    exact Chain.Ancestor.refl _
  | @next b p l hlow hp ht ih =>
    obtain ⟨hpid, hpp⟩ := hst _ _ hp
    intro x hx
    rcases List.mem_cons.1 hx with rfl | hx
    · exact Chain.Ancestor.refl _
    · exact Chain.Ancestor.step (ih hpp x hx) ⟨hpp, hb, hpid⟩

theorem Rooted.acc (hid : CollisionFree P) (h : Rooted P b) : Acc (ParentOf P) b := by
  induction h with
  | root h => exact .intro _ fun a ha => absurd (ha.link.trans h) (hid.ne_zero ha.parent)
  | child h _ ih => exact .intro _ fun a ha => ha.unique hid h ▸ ih

end Bamboo
