import Bamboo.Commits
import Bamboo.Lib.BinaryFloat

/-!
# Forests of well-certified blocks

A universe of blocks whose ids determine them and whose certificates tell the truth about the parents; a view
may have several blocks.  A forest that stores blocks of a universe only files them at their own level, in
whatever order they come, so commits are exact.

* `Universe`, `Stocked`: such blocks, and a forest that stores some of them;
* `Above.mem_iff`: what a commit returns;
* `Recorded`: what is left of the commits made so far;
* `commits_exact`: commits are exact, ordered and never repeated;
* `float64`, `chain_growth_le_one`: no more blocks are committed than pruned, but one, and the quotient rounds to
  one at most.
-/

namespace Bamboo

/-- The id determines the block, and the certificate of a block is for its parent, in a view before its own,
the parent's if the parent is one of the blocks. -/
structure Universe (U : Set Block) : Prop where
  id : ∀ b ∈ U, ∀ b' ∈ U, b.id = b'.id → b = b'
  qc : ∀ b ∈ U, ∃ qc, b.qc = some qc ∧ qc.blockID = b.prevID ∧ 0 ≤ qc.view ∧ qc.view < b.view ∧
    ∀ p ∈ U, p.id = b.prevID → qc.view = p.view

/-- `l` is the level of the block with the given id, if there is one. -/
def LevelOf (U : Set Block) (id l : ℕ) : Prop := ∀ b ∈ U, b.id = id → b.level = l

variable {U : Set Block}

namespace Universe

variable (h : Universe U) {b b' p : Block}
include h

theorem one_le_view (hb : b ∈ U) : 1 ≤ b.view := by
  obtain ⟨qc, -, -, h0, hlt, -⟩ := h.qc b hb
  omega

theorem level_eq (hb : b ∈ U) : (b.level : ℤ) = b.view :=
  uint64_of_nonneg (by have := h.one_le_view hb; omega)

theorem levelOf_self (hb : b ∈ U) : LevelOf U b.id b.level := by
  intro b' hb' hid
  rw [h.id b' hb' b hb hid]

theorem levelOf_parent (hb : b ∈ U) {q l : ℕ} (hp : b.parent = some (q, l)) : LevelOf U q l := by
  obtain ⟨qc, hqc, -, -, -, hview⟩ := h.qc b hb
  rw [Block.parent, hqc] at hp
  cases hp
  intro p hp hid
  show uint64 p.view = uint64 qc.view
  rw [hview p hp hid]

theorem level_parent (hb : b ∈ U) (hp : p ∈ U) (hid : p.id = b.prevID) :
    1 ≤ p.level ∧ p.level < b.level := by
  obtain ⟨qc, -, -, -, hlt, hview⟩ := h.qc b hb
  have h1 := h.one_le_view hp
  have h2 := h.level_eq hb
  have h3 := h.level_eq hp
  rw [hview p hp hid] at hlt
  omega

/-- The level a block declares for its parent is below its own. -/
theorem level_declared (hb : b ∈ U) {q l : ℕ} (hp : b.parent = some (q, l)) : l < b.level := by
  obtain ⟨qc, hqc, -, h0, hlt, -⟩ := h.qc b hb
  have h1 := h.level_eq hb
  have h2 := uint64_of_nonneg h0
  rw [Block.parent, hqc] at hp
  cases hp
  omega

theorem cert (hb : b ∈ U) : b.qc ≠ none := by
  obtain ⟨qc, hqc, -⟩ := h.qc b hb
  rw [hqc]
  exact Option.some_ne_none qc

end Universe

/-- `Universe` as a test of a list of blocks. -/
def isUniverse (bs : List Block) : Bool :=
  bs.all fun b => (bs.all fun b' => decide (b.id = b'.id → b = b')) &&
    b.qc.any fun qc => decide (qc.blockID = b.prevID ∧ 0 ≤ qc.view ∧ qc.view < b.view) &&
      bs.all fun p => decide (p.id = b.prevID → qc.view = p.view)

theorem universe_of_test {bs : List Block} (h : isUniverse bs = true) : Universe {b | b ∈ bs} := by
  simp only [isUniverse, List.all_eq_true, Bool.and_eq_true, Option.any_eq_true, decide_eq_true_eq] at h
  refine ⟨fun b hb => (h b hb).1, fun b hb => ?_⟩
  obtain ⟨qc, hqc, ⟨hid, h0, hlt⟩, hview⟩ := (h b hb).2
  exact ⟨qc, hqc, hid, h0, hlt, hview⟩

namespace LevelledForest

variable {f t : LevelledForest} {b c p : Block} {x : ℕ}

/-- The forest stores blocks of the universe, in containers of their level. -/
structure Stocked (U : Set Block) (f : LevelledForest) : Prop where
  orderly : f.Orderly
  indexed : f.Indexed (LevelOf U)
  stored : ∀ x b, f.getVertex x = some b → b ∈ U

theorem stocked_new (U : Set Block) : new.Stocked U where
  orderly := orderly_new
  indexed := indexed_new
  stored := fun x b hb => by simp [new, getVertex] at hb

theorem Stocked.addVertex (h : f.Stocked U) (hU : Universe U) (hb : b ∈ U)
    (hr : LevelledForest.addVertex b f = .ok () t) : t.Stocked U := by
  have hadd := Prog.wp_ok (addVertex_spec h.indexed.wf b) hr
  refine ⟨h.orderly.addVertex hr, hadd.indexed _ (hU.levelOf_self hb)
    (fun q l hq => hU.levelOf_parent hb hq) h.indexed, fun x b' hx => ?_⟩
  rw [hadd.stored] at hx
  split_ifs at hx
  · cases hx
    exact hb
  · exact h.stored x b' hx

theorem Stocked.pruneUpToLevel (h : f.Stocked U) {l : ℕ} {r : Option (List Block × ℕ)}
    (hr : LevelledForest.pruneUpToLevel l f = .ok r t) : t.Stocked U := by
  have hpruned := Prog.wp_ok (pruneUpToLevel_spec h.indexed.wf l) hr
  exact ⟨(h.orderly.pruneUpToLevel hr).1, hpruned.indexed _ h.indexed,
    fun x b hx => h.stored x b (hpruned.stored x b hx)⟩

/-- A stored block has the id it is stored under, and is filed at its level. -/
theorem Stocked.filedAt (h : f.Stocked U) (hb : f.getVertex x = some b) :
    b.id = x ∧ f.FiledAt x b.level ∧ f.lowestLevel ≤ b.level := by
  have hid := h.orderly.named x b hb
  have hx := hb
  simp only [getVertex, Option.bind_eq_bind, Option.bind_eq_some_iff] at hx
  obtain ⟨p, hp, -⟩ := hx
  obtain ⟨c, hc, -, hlv, -, hlow⟩ := h.indexed x p hp
  rw [hlv b (h.stored x b hb) hid]
  exact ⟨hid, ⟨p, c, hp, hc, rfl⟩, hlow⟩

theorem Stocked.levelled (h : f.Stocked U) : f.Levelled := by
  intro l p hp
  obtain ⟨c, hc, hl, hlk⟩ := h.orderly.shelved l p hp
  refine ⟨c, hc, hl, hlk, fun b hb => ?_⟩
  have hst : f.getVertex c.id = some b := by
    rw [getVertex, hlk]
    simp [hc, hb]
  obtain ⟨hid, hfiled, -⟩ := h.filedAt hst
  exact ⟨hid, (hfiled.unique ⟨p, c, hlk, hc, rfl⟩).trans hl⟩

theorem Stocked.parent_lt (h : f.Stocked U) (hU : Universe U) (hb : f.getVertex x = some b)
    (hp : f.ParentOf b p) : 1 ≤ p.level ∧ p.level < b.level :=
  hU.level_parent (h.stored x b hb) (h.stored _ p hp) (h.filedAt hp).1

/-- Pruning keeps the blocks that are not below the level. -/
theorem Stocked.stored_pruned (h : f.Stocked U) {l : ℕ} (hp : f.PrunedTo l t) :
    t.getVertex x = some b ↔ f.getVertex x = some b ∧ l ≤ b.level := by
  rw [hp.stored_iff]
  refine and_congr_right fun hb => ⟨fun ⟨l', hl', hle⟩ => ?_, fun hle => ⟨_, (h.filedAt hb).2.1, hle⟩⟩
  rw [(h.filedAt hb).2.1.unique hl']
  exact hle

/-- Stored ancestors are stored under their id. -/
theorem Stocked.stored_reach (h : f.Stocked U) (hc : f.getVertex x = some c)
    (hb : Relation.ReflTransGen f.ParentOf c b) : f.getVertex b.id = some b := by
  induction hb with
  | refl =>
    rw [(h.filedAt hc).1]
    exact hc
  | tail _ hp _ =>
    rw [(h.filedAt hp).1]
    exact hp

theorem Stocked.level_le (h : f.Stocked U) (hU : Universe U) (hc : f.getVertex x = some c)
    (hb : Relation.ReflTransGen f.ParentOf c b) : b.level ≤ c.level := by
  induction hb with
  | refl => exact Nat.le_refl _
  | tail hcb hp ih => exact Nat.le_trans (Nat.le_of_lt (h.parent_lt hU (h.stored_reach hc hcb) hp).2) ih

end LevelledForest

namespace BlockChain

open LevelledForest

variable {cf : Config} {cs : List Call} {as : List Answer} {bc t : BlockChain} {c b : Block} {l : List Block}

/-! ### The committed chain -/

section Chain

variable {f : LevelledForest} {low x : ℕ}

/-- **What a commit returns**: the stored ancestors of the block, and itself, above the lowest level. -/
theorem Above.mem_iff (hl : Above f low c l) (h : f.Stocked U) (hU : Universe U)
    (hc : f.getVertex x = some c) :
    b ∈ l ↔ Relation.ReflTransGen f.ParentOf c b ∧ low < b.level := by
  induction hl generalizing x with
  | @stop c hlow =>
    simp only [List.not_mem_nil, false_iff, not_and, Nat.not_lt]
    exact fun hb => Nat.le_trans (h.level_le hU hc hb) hlow
  | @last c hlow hn =>
    rw [List.mem_singleton]
    constructor
    · rintro rfl
      exact ⟨.refl, hlow⟩
    · rintro ⟨hb, -⟩
      rcases Relation.ReflTransGen.cases_head hb with rfl | ⟨p, hp, -⟩
      · rfl
      · rw [LevelledForest.ParentOf, hn] at hp
        cases hp
  | @next c p l hlow hp _ ih =>
    rw [List.mem_cons, ih hp]
    constructor
    · rintro (rfl | ⟨hb, hlb⟩)
      · exact ⟨.refl, hlow⟩
      · exact ⟨.head hp hb, hlb⟩
    · rintro ⟨hb, hlb⟩
      rcases Relation.ReflTransGen.cases_head hb with rfl | ⟨q, hq, hqb⟩
      · exact Or.inl rfl
      · rw [LevelledForest.ParentOf, hp] at hq
        cases hq
        exact Or.inr ⟨hqb, hlb⟩

/-- Newest first. -/
theorem Above.pairwise (hl : Above f low c l) (h : f.Stocked U) (hU : Universe U)
    (hc : f.getVertex x = some c) : l.Pairwise fun b b' => b'.level < b.level := by
  induction hl generalizing x with
  | stop => exact .nil
  | last => exact List.pairwise_singleton _ _
  | @next c p l hlow hp htail ih =>
    refine List.pairwise_cons.2 ⟨fun b hb => ?_, ih hp⟩
    have hle := h.level_le hU hp ((htail.mem_iff h hU hp).1 hb).1
    exact Nat.lt_of_le_of_lt hle (h.parent_lt hU hc hp).2

/-- Each block is followed by its stored parent. -/
theorem Above.isChain (hl : Above f low c l) : l.IsChain f.ParentOf := by
  induction hl with
  | stop => exact .nil
  | last => exact .singleton _
  | next _ hp htail ih =>
    cases htail with
    | stop => exact .singleton _
    | last => exact .cons_cons hp ih
    | next => exact .cons_cons hp ih

/-- The committed blocks but the first one are in different containers below it, and so is a block at the
lowest level. -/
theorem Above.length_le (hl : Above f low c l) (h : f.Stocked U) (hU : Universe U)
    (hc : f.getVertex x = some c) :
    l.length ≤ f.containersBelow c.level + 1 ∧ (low < c.level →
      ∀ y g, f.getVertex y = some g → g.level = low → l.length ≤ f.containersBelow c.level) := by
  have hmem := fun b => hl.mem_iff h hU hc (b := b)
  have hpw := hl.pairwise h hU hc
  have hid : ∀ b ∈ l, f.getVertex b.id = some b := fun b hb => h.stored_reach hc ((hmem b).1 hb).1
  cases l with
  | nil => exact ⟨Nat.zero_le _, fun _ _ _ _ _ => Nat.zero_le _⟩
  | cons a rest =>
    obtain ⟨hfirst, hpw⟩ := List.pairwise_cons.1 hpw
    have hac : a.level ≤ c.level := h.level_le hU hc ((hmem a).1 List.mem_cons_self).1
    have hnd : (rest.map Block.id).Nodup := by
      refine List.pairwise_map.2 (hpw.imp_of_mem fun {b b'} hb hb' hlt heq => ?_)
      have hst := hid b (List.mem_cons_of_mem _ hb)
      rw [heq, hid b' (List.mem_cons_of_mem _ hb')] at hst
      cases hst
      exact Nat.lt_irrefl _ hlt
    have hbelow : ∀ b ∈ rest, b.level < c.level := fun b hb => Nat.lt_of_lt_of_le (hfirst b hb) hac
    have hfiled : ∀ y ∈ rest.map Block.id, ∃ m < c.level, f.FiledAt y m := by
      intro y hy
      obtain ⟨b, hb, rfl⟩ := List.mem_map.1 hy
      exact ⟨b.level, hbelow b hb, (h.filedAt (hid b (List.mem_cons_of_mem _ hb))).2.1⟩
    constructor
    · have := length_le_containersBelow hnd hfiled
      rw [List.length_map] at this
      rw [List.length_cons]
      omega
    · intro hlow y g hg hgl
      have hgid := (h.filedAt hg).1
      have hnd' : (y :: rest.map Block.id).Nodup := by
        refine List.nodup_cons.2 ⟨fun hy => ?_, hnd⟩
        obtain ⟨b, hb, hby⟩ := List.mem_map.1 hy
        have hst := hid b (List.mem_cons_of_mem _ hb)
        rw [hby, hg] at hst
        cases hst
        have := ((hmem g).1 (List.mem_cons_of_mem _ hb)).2
        omega
      have hfiled' : ∀ z ∈ y :: rest.map Block.id, ∃ m < c.level, f.FiledAt z m := by
        intro z hz
        rcases List.mem_cons.1 hz with rfl | hz
        · exact ⟨g.level, hgl ▸ hlow, (h.filedAt hg).2.1⟩
        · exact hfiled z hz
      have := length_le_containersBelow hnd' hfiled'
      rw [List.length_cons, List.length_map] at this
      exact this

end Chain

/-! ### Sequences of calls -/

/-- After calls with the given answers: the committed blocks are different blocks of the universe and not
above the lowest level, and they have been pruned and counted, except one that is stored at this level. -/
structure Recorded (U : Set Block) (as : List Answer) (bc : BlockChain) : Prop where
  stocked : bc.forrest.Stocked U
  committed : ∀ b ∈ Answer.committedBlocks as, b ∈ U ∧ b.level ≤ bc.forrest.lowestLevel
  nodup : (Answer.committedBlocks as).Nodup
  pruned : 0 ≤ bc.prunedBlockNo
  growth : bc.committedBlockNo ≤ bc.prunedBlockNo + 1
  head : 0 < bc.committedBlockNo → ∃ x g, bc.forrest.getVertex x = some g ∧ g.level = bc.forrest.lowestLevel

theorem Recorded.new (U : Set Block) (n : ℕ) : Recorded U [] (new n) where
  stocked := stocked_new U
  committed := fun b hb => by cases hb
  nodup := List.nodup_nil
  pruned := Int.le_refl 0
  growth := Int.le_of_lt Int.one_pos
  head := fun h => absurd h (Int.lt_irrefl 0)

/-- A call that commits nothing. -/
theorem Recorded.keep (h : Recorded U as bc) {a : Answer} (ha : Answer.committedBlocks [a] = [])
    (hst : t.forrest.Stocked U)
    (hkeep : ∀ x b, bc.forrest.getVertex x = some b → t.forrest.getVertex x = some b)
    (hlow : t.forrest.lowestLevel = bc.forrest.lowestLevel)
    (hc : t.committedBlockNo = bc.committedBlockNo) (hp : t.prunedBlockNo = bc.prunedBlockNo) :
    Recorded U (as ++ [a]) t := by
  have has : Answer.committedBlocks (as ++ [a]) = Answer.committedBlocks as := by
    rw [Answer.committedBlocks_append, ha, List.append_nil]
  constructor
  · exact hst
  · rw [has, hlow]
    exact h.committed
  · rw [has]
    exact h.nodup
  · rw [hp]
    exact h.pruned
  · rw [hp, hc]
    exact h.growth
  · rw [hc, hlow]
    intro hpos
    obtain ⟨x, g, hg, hgl⟩ := h.head hpos
    exact ⟨x, g, hkeep x g hg, hgl⟩

theorem Recorded.addBlock (h : Recorded U as bc) (hU : Universe U) (hb : b ∈ U)
    (hr : BlockChain.addBlock b bc = .ok () t) : Recorded U (as ++ [.block]) t := by
  obtain ⟨f, hf, rfl⟩ := Prog.zoom_eq_ok hr
  have hadd := Prog.wp_ok (addVertex_spec h.stocked.indexed.wf b) hf
  refine h.keep rfl (h.stocked.addVertex hU hb hf) (fun x b' hx => ?_) hadd.lowest rfl rfl
  show f.getVertex x = some b'
  rw [hadd.stored, if_neg fun hn => ?_]
  · exact hx
  · rw [hx] at hn
    cases hn.2.2

/-- What a successful commit has to do with the state before and the commits before. -/
structure ExactCommit (as : List Answer) (s : BlockChain) (c : Block) (l : List Block) (t : BlockChain) :
    Prop where
  mem_iff : ∀ b, b ∈ l ↔ Relation.ReflTransGen s.forrest.ParentOf c b ∧
    (s.forrest.lowestLevel : ℤ) < b.view
  linked : l.IsChain s.forrest.ParentOf
  decreasing : l.Pairwise fun b b' => b'.view < b.view
  later : ∀ b ∈ Answer.committedBlocks as, ∀ b' ∈ l, b.view < b'.view
  once : (Answer.committedBlocks as ++ l).Nodup
  kept : ∀ x b, t.forrest.getVertex x = some b ↔ s.forrest.getVertex x = some b ∧ c.view ≤ b.view

/-- **One commit** is exact. -/
theorem Recorded.exactCommit (h : Recorded U as bc) (hU : Universe U) {x : ℕ}
    (hc : bc.forrest.getVertex x = some c) (hl : Above bc.forrest bc.forrest.lowestLevel c l)
    {r : Option (List Block × ℕ)} (hp : LevelledForest.pruneUpToLevel c.level bc.forrest = .ok r t.forrest) :
    ExactCommit as bc c l t := by
  have hmem := fun b => hl.mem_iff h.stocked hU hc (b := b)
  have hst : ∀ b, Relation.ReflTransGen bc.forrest.ParentOf c b → b ∈ U := fun b hb =>
    h.stocked.stored _ _ (h.stocked.stored_reach hc hb)
  have hlater : ∀ b ∈ Answer.committedBlocks as, ∀ b' ∈ l, b.view < b'.view := by
    intro b hb b' hb'
    obtain ⟨hbU, hlow⟩ := h.committed b hb
    obtain ⟨hreach, hlt⟩ := (hmem b').1 hb'
    have h₁ := hU.level_eq hbU
    have h₂ := hU.level_eq (hst b' hreach)
    omega
  have hdec : l.Pairwise fun b b' => b'.view < b.view := by
    refine (hl.pairwise h.stocked hU hc).imp_of_mem fun {b b'} hb hb' hlt => ?_
    have h₁ := hU.level_eq (hst b ((hmem b).1 hb).1)
    have h₂ := hU.level_eq (hst b' ((hmem b').1 hb').1)
    omega
  constructor
  · intro b
    rw [hmem]
    refine and_congr_right fun hb => ?_
    have := hU.level_eq (hst b hb)
    omega
  · exact hl.isChain
  · exact hdec
  · exact hlater
  · refine List.nodup_append.2 ⟨h.nodup, hdec.imp fun {b b'} hlt => ?_, fun b hb b' hb' => ?_⟩
    · rintro rfl
      exact Int.lt_irrefl _ hlt
    · rintro rfl
      exact Int.lt_irrefl _ (hlater b hb b hb')
  · intro x b
    rw [h.stocked.stored_pruned (h.stocked.orderly.toSound.pruneUpToLevel hp)]
    refine and_congr_right fun hb => ?_
    have h₁ := hU.level_eq (h.stocked.stored _ _ hb)
    have h₂ := hU.level_eq (h.stocked.stored _ _ hc)
    omega

theorem Recorded.commitBlock (h : Recorded U as bc) (hU : Universe U) {id : ℕ} {view : ℤ}
    {r : Option (List Block × List Block)} (hr : BlockChain.commitBlock id view bc = .ok r t) :
    Recorded U (as ++ [.commit r]) t ∧ (r = none ↔ bc.forrest.getVertex id = none) ∧
      ∀ l forked, r = some (l, forked) → ∃ c, bc.forrest.getVertex id = some c ∧ ExactCommit as bc c l t := by
  cases commitBlock_eq_ok hr with
  | missing hn =>
    refine ⟨h.keep rfl h.stocked (fun _ _ hx => hx) rfl rfl rfl, ⟨fun _ => hn, fun _ => rfl⟩, ?_⟩
    intro l forked he
    cases he
  | refused hc hlow => exact absurd (h.stocked.filedAt hc).2.2 (Nat.not_le.2 hlow)
  | @done c l forked k f hc hl hp =>
    have hexact : ExactCommit as bc c l { settled view { bc with highestComitted := c.view } l with
        forrest := f
        prunedBlockNo := bc.prunedBlockNo + k } := h.exactCommit hU hc hl hp
    have hlow := (h.stocked.filedAt hc).2.2
    have hlowest : f.lowestLevel = c.level := by
      rw [(h.stocked.orderly.toSound.pruneUpToLevel hp).lowest]
      exact max_eq_right hlow
    have has : Answer.committedBlocks (as ++ [.commit (some (l, forked))]) =
        Answer.committedBlocks as ++ l := by
      rw [Answer.committedBlocks_append]
      exact congrArg (Answer.committedBlocks as ++ ·) (List.append_nil l)
    have hk := h.stocked.orderly.pruned_eq hp
    obtain ⟨hlen, hlen'⟩ := hl.length_le h.stocked hU hc
    refine ⟨⟨h.stocked.pruneUpToLevel hp, ?_, ?_, ?_, ?_, ?_⟩, ?_, ?_⟩
    · rw [has]
      intro b hb
      show b ∈ U ∧ b.level ≤ f.lowestLevel
      rw [hlowest]
      rcases List.mem_append.1 hb with hb | hb
      · obtain ⟨hbU, hle⟩ := h.committed b hb
        exact ⟨hbU, Nat.le_trans hle hlow⟩
      · have hreach := ((hl.mem_iff h.stocked hU hc).1 hb).1
        exact ⟨h.stocked.stored _ _ (h.stocked.stored_reach hc hreach), h.stocked.level_le hU hc hreach⟩
    · rw [has]
      exact hexact.once
    · have := h.pruned
      show 0 ≤ bc.prunedBlockNo + k
      omega
    · show (settled view { bc with highestComitted := c.view } l).committedBlockNo ≤ bc.prunedBlockNo + k + 1
      rw [committedBlockNo_settled]
      show bc.committedBlockNo + l.length ≤ bc.prunedBlockNo + k + 1
      have hpruned := h.pruned
      have hgrowth := h.growth
      rcases Nat.lt_or_eq_of_le hlow with hlt | heq
      · by_cases hpos : 0 < bc.committedBlockNo
        · obtain ⟨y, g, hg, hgl⟩ := h.head hpos
          have := hlen' hlt y g hg hgl
          omega
        · omega
      · -- nothing is above the lowest level
        have hnil : l = [] := by
          cases hl with
          | stop => rfl
          | last hlt => exact absurd hlt (Nat.not_lt.2 (Nat.le_of_eq heq.symm))
          | next hlt => exact absurd hlt (Nat.not_lt.2 (Nat.le_of_eq heq.symm))
        rw [hnil, List.length_nil]
        omega
    · intro _
      refine ⟨id, c, (h.stocked.stored_pruned (h.stocked.orderly.toSound.pruneUpToLevel hp)).2 ⟨hc, Nat.le_refl _⟩,
        hlowest.symm⟩
    · rw [hc]
      exact ⟨fun he => (by cases he), fun hn => (by cases hn)⟩
    · intro l' forked' he
      cases he
      exact ⟨c, hc, hexact⟩

theorem recorded_calls (hU : Universe U) {n : ℕ} (hrun : calls cf cs (new n) = .ok as t)
    (hcs : ∀ b ∈ Call.blocks cs, b ∈ U) : Recorded U as t := by
  revert hcs
  refine calls_induction (I := fun cs as t => (∀ b ∈ Call.blocks cs, b ∈ U) → Recorded U as t)
    ?_ (fun _ => .new U n) hrun
  intro cs as s c a t _ ih hc hcs
  rw [Call.blocks_append] at hcs
  have hI := ih fun b hb => hcs b (List.mem_append_left _ hb)
  rcases call_cases hc with ⟨v, rfl, rfl, rfl⟩ | ⟨b, rfl, rfl, hb⟩ | ⟨id, view, r, rfl, rfl, hr⟩
  · exact hI.keep rfl hI.stocked (fun _ _ hx => hx) rfl rfl rfl
  · exact hI.addBlock hU (hcs b (by simp [Call.blocks])) hb
  · exact (hI.commitBlock hU hr).1

/-- **Commits are exact, ordered and never repeated.**  A commit errs exactly if the block is not stored; else
it returns the stored chain from the block down to above the lowest level, newest first, all in later views
than anything committed before, and keeps what is not before the block's view. -/
theorem commits_exact (U : Set Block) (hU : Universe U) (cf : Config) (n : ℕ) (cs : List Call)
    (as : List Answer) (s : BlockChain) (hrun : calls cf cs (new n) = .ok as s)
    (hcs : ∀ b ∈ Call.blocks cs, b ∈ U) (id : ℕ) (view : ℤ) (r : Option (List Block × List Block))
    (t : BlockChain) (hr : commitBlock id view s = .ok r t) :
    (r = none ↔ s.forrest.getVertex id = none) ∧
      ∀ l forked, r = some (l, forked) → ∃ c, s.forrest.getVertex id = some c ∧ ExactCommit as s c l t :=
  ((recorded_calls hU hrun hcs).commitBlock hU hr).2

/-- Two blocks of view 2 on the block of view 1; one of them is committed, and then a child of it. -/
def twoOfAView : List Call :=
  [.addBlock (bareBlock 3 2 1 1), .addBlock (bareBlock 2 2 1 1), .addBlock (bareBlock 1 1 0 0),
    .commitBlock 2 3, .addBlock (bareBlock 4 3 2 2)]

/-- The second commit returns the child alone. -/
theorem commits_exact_twoOfAView :
    ∃ as s l forked t, calls (FourNodes.config fun _ => "1") twoOfAView (new 4) = .ok as s ∧
      (Answer.committedBlocks as).map Block.id = [2, 1] ∧ commitBlock 4 4 s = .ok (some (l, forked)) t ∧
      l = [bareBlock 4 3 2 2] ∧ ExactCommit as s (bareBlock 4 3 2 2) l t := by
  have hrun : Prog.passes (calls (FourNodes.config fun _ => "1") twoOfAView)
      (fun as s => decide ((Answer.committedBlocks as).map Block.id = [2, 1]) &&
        decide (s.forrest.getVertex 4 = some (bareBlock 4 3 2 2)) && Prog.passes (commitBlock 4 4)
          (fun r _ => decide (r.map Prod.fst = some [bareBlock 4 3 2 2])) s) (new 4) = true := by
    decide_cbv
  obtain ⟨as, s, hs, htest⟩ := Prog.exists_ok_of_passes hrun
  simp only [Bool.and_eq_true, decide_eq_true_eq] at htest
  obtain ⟨⟨hids, hst⟩, htest⟩ := htest
  obtain ⟨r, t, ht, hres⟩ := Prog.exists_ok_of_passes htest
  obtain ⟨⟨l, forked⟩, rfl, rfl⟩ := Option.map_eq_some_iff.1 (of_decide_eq_true hres)
  obtain ⟨c, hc, hexact⟩ := (commits_exact {b | b ∈ Call.blocks twoOfAView}
    (universe_of_test (by decide_cbv)) _ 4 twoOfAView as s hs (fun _ hb => hb) 4 4 _ t ht).2 _ _ rfl
  rw [hst] at hc
  cases hc
  exact ⟨as, s, _, forked, t, hs, hids, ht, rfl, hexact⟩

/-! ### Chain growth -/

/-- Rounding to `float64`: it keeps the order, and 1 is a `float64`. -/
structure Rounding where
  round : ℚ → ℚ
  mono : Monotone round
  one : round 1 = 1

/-- The rounding of Go: to the nearest number with 53 bits, ties to even. -/
def float64 : Rounding := ⟨BinaryFloat.nearest 52, BinaryFloat.nearest_mono 52, BinaryFloat.nearest_one 52⟩

/-- `GetChainGrowth`: the conversions and the division round. -/
def getChainGrowth (rd : Rounding) (bc : BlockChain) : ℚ :=
  rd.round (rd.round bc.committedBlockNo / rd.round (bc.prunedBlockNo + 1 : ℤ))

theorem getChainGrowth_le_one (rd : Rounding) (hp : 0 ≤ bc.prunedBlockNo)
    (h : bc.committedBlockNo ≤ bc.prunedBlockNo + 1) : bc.getChainGrowth rd ≤ 1 := by
  have hle : rd.round bc.committedBlockNo ≤ rd.round (bc.prunedBlockNo + 1 : ℤ) := rd.mono (by exact_mod_cast h)
  have hpos : 1 ≤ rd.round (bc.prunedBlockNo + 1 : ℤ) := by
    calc (1 : ℚ) = rd.round 1 := rd.one.symm
      _ ≤ rd.round (bc.prunedBlockNo + 1 : ℤ) := rd.mono (by exact_mod_cast (by omega))
  calc rd.round (rd.round bc.committedBlockNo / rd.round (bc.prunedBlockNo + 1 : ℤ))
      ≤ rd.round 1 := rd.mono (div_le_one_of_le₀ hle (zero_le_one.trans hpos))
    _ = 1 := rd.one

/-- **Chain growth is at most one**: all committed blocks but one have been pruned and counted. -/
theorem chain_growth_le_one (cf : Config) (n : ℕ) (cs : List Call) (as : List Answer) (t : BlockChain)
    (hrun : calls cf cs (new n) = .ok as t) (hU : Universe {b | b ∈ Call.blocks cs}) :
    t.committedBlockNo ≤ t.prunedBlockNo + 1 ∧ ∀ rd : Rounding, t.getChainGrowth rd ≤ 1 := by
  have h := recorded_calls hU hrun fun _ hb => hb
  exact ⟨h.growth, fun rd => getChainGrowth_le_one rd h.pruned h.growth⟩

/-- Two blocks are committed; the first of them and the placeholder of its parent are pruned. -/
theorem chain_growth_le_one_twoOfAView :
    ∃ as t, calls (FourNodes.config fun _ => "1") twoOfAView (new 4) = .ok as t ∧
      t.committedBlockNo = 2 ∧ t.prunedBlockNo = 2 ∧ ∀ rd : Rounding, t.getChainGrowth rd ≤ 1 := by
  have hrun : Prog.passes (calls (FourNodes.config fun _ => "1") twoOfAView)
      (fun _ t => decide (t.committedBlockNo = 2 ∧ t.prunedBlockNo = 2)) (new 4) = true := by decide_cbv
  obtain ⟨as, t, ht, htest⟩ := Prog.exists_ok_of_passes hrun
  obtain ⟨hc, hp⟩ := of_decide_eq_true htest
  exact ⟨as, t, ht, hc, hp, (chain_growth_le_one _ 4 _ as t ht (universe_of_test (by decide_cbv))).2⟩

end BlockChain

end Bamboo
