import Bamboo.Tidy
import Bamboo.Universe

/-!
# Committed and forked blocks

`CommitBlock` finds the committed blocks by walking `PrevID`, and `PruneUpToLevel` the forked ones by
walking the levels.  The block committed last stays stored, and the next pruning classifies it again: as
forked, unless the block committed then has it as a stored ancestor.

* `Lineage`: a universe with one block for each view;
* `ExtendsCommitted`: the block to be committed has a stored ancestor at the lowest level;
* `committed_not_forked_iff`, and `head_reported_forked`, a run in which a committed block is reported
  as forked;
* `pruning_classifies`: with one container for each level, one commit classifies the blocks that it prunes
  above the lowest level.
-/

namespace Bamboo

/-- The blocks that are ever added are a universe in which a view has one block at most. -/
structure Lineage (bs : List Block) : Prop extends Universe {b | b ∈ bs} where
  view : ∀ b ∈ bs, ∀ b' ∈ bs, b.view = b'.view → b = b'

/-- When the block with the given id is above the lowest level, and this is the level of a committed
block other than the first one, the block has a stored ancestor there. -/
def LevelledForest.ExtendsCommitted (f : LevelledForest) (id : ℕ) : Prop :=
  ∀ c, f.getVertex id = some c → 1 < f.lowestLevel → f.lowestLevel < c.level →
    ∃ a, Relation.TransGen f.ParentOf c a ∧ a.level = f.lowestLevel

variable {bs : List Block}

namespace Lineage

variable (h : Lineage bs) {b b' : Block}
include h

theorem eq_of_level (hb : b ∈ bs) (hb' : b' ∈ bs) (hl : b.level = b'.level) : b = b' := by
  refine h.view b hb b' hb' ?_
  rw [← h.toUniverse.level_eq hb, ← h.toUniverse.level_eq hb', hl]

/-- A forest that stores blocks of a lineage only. -/
theorem planted {f : LevelledForest} (hl : f.Levelled)
    (hix : f.Indexed (LevelOf {b | b ∈ bs})) (hst : ∀ x b, f.getVertex x = some b → b ∈ bs) :
    f.Planted (LevelOf {b | b ∈ bs}) where
  levelled := hl
  indexed := hix
  one := fun x y b b' hb hb' hlev => h.eq_of_level (hst x b hb) (hst y b' hb') hlev
  above := fun x b p hb hp => h.toUniverse.level_parent (hst x b hb) (hst _ p hp) (hl.listedAt hix hp).1
  cert := fun x b hb => h.toUniverse.cert (hst x b hb)

end Lineage

/-! ### One container for each level -/

namespace LevelledForest

variable {f : LevelledForest} {U : Set Block}

/-- No level has more than one container. -/
def Single (f : LevelledForest) : Prop := ∀ l, (f.atLevel l).length ≤ 1

theorem Single.pointer_eq (h : f.Single) {l p q : ℕ} (hp : p ∈ f.atLevel l) (hq : q ∈ f.atLevel l) :
    p = q := by
  have hlen := h l
  rcases hat : f.atLevel l with _ | ⟨a, _ | ⟨a', rest⟩⟩
  · rw [hat] at hp
    cases hp
  · rw [hat, List.mem_singleton] at hp hq
    rw [hp, hq]
  · rw [hat] at hlen
    simp at hlen

/-- `Single` as a test. -/
def single (f : LevelledForest) : Bool := f.verticesAtLevel.entries.all fun e => decide (e.2.length ≤ 1)

theorem single_of_test (h : f.single = true) : f.Single := by
  intro l
  unfold atLevel
  cases hl : f.verticesAtLevel.lookup l with
  | none => exact Nat.zero_le 1
  | some ps => exact of_decide_eq_true (List.all_eq_true.1 h ⟨l, ps⟩ (AList.mem_lookup_iff.1 hl))

/-- With one container for each level the forest is as commits need it. -/
theorem Stocked.planted (h : f.Stocked U) (hU : Universe U) (h₁ : f.Single) : f.Planted (LevelOf U) where
  levelled := h.levelled
  indexed := h.indexed
  one := fun x y b b' hb hb' hl => by
    obtain ⟨-, ⟨p, hp, c, hc, hcb⟩, -⟩ := h.levelled.listedAt h.indexed hb
    obtain ⟨-, ⟨q, hq, d, hd, hdb⟩, -⟩ := h.levelled.listedAt h.indexed hb'
    obtain rfl := h₁.pointer_eq hp (hl ▸ hq)
    rw [hc] at hd
    cases hd
    rw [hcb] at hdb
    exact Option.some.inj hdb
  above := fun x b p hb hp => h.parent_lt hU hb hp
  cert := fun x b hb => hU.cert (h.stored x b hb)

theorem Stocked.tidy (h : f.Stocked U) (hU : Universe U) (h₁ : f.Single) : f.Tidy where
  levelled := h.levelled
  indexed := h.indexed.mono fun _ _ _ => trivial
  fronted := fun l p ps hat q hq _ => by
    have hlen := h₁ l
    rw [hat, List.length_cons] at hlen
    rw [List.length_eq_zero_iff.1 (by omega : ps.length = 0)] at hq
    cases hq
  above := fun x c a hc ha => (h.parent_lt hU hc ha).2
  cert := fun x c hc => hU.cert (h.stored x c hc)

/-- No block is reported as forked twice. -/
theorem Single.nodup_forked (h₁ : f.Single) (hl : f.Levelled) {committed ls : List ℕ} (hls : ls.Nodup) :
    (pruneLevels committed ls f).1.1.Nodup := by
  induction ls generalizing f with
  | nil => exact List.nodup_nil
  | cons l ls ih =>
    obtain ⟨hnot, hls⟩ := List.nodup_cons.1 hls
    have h₁' : (f.pruneLevel committed l).2.Single := by
      intro m
      rcases (pruneLevel_shrinks (f := f) committed l).atLevel m with hm | hm
      · rw [hm]
        exact Nat.zero_le _
      · rw [hm]
        exact h₁ m
    have hlen : (f.pruneLevel committed l).1.1.length ≤ 1 := by
      simp only [LevelledForest.pruneLevel]
      split_ifs
      · exact (List.length_filterMap_le _ _).trans ((List.length_filterMap_le _ _).trans (h₁ l))
      · exact Nat.zero_le _
    have hhead : (f.pruneLevel committed l).1.1.Nodup := by
      rcases hf : (f.pruneLevel committed l).1.1 with _ | ⟨a, _ | ⟨a', rest⟩⟩
      · exact List.nodup_nil
      · exact List.nodup_singleton a
      · rw [hf] at hlen
        simp at hlen
    show ((f.pruneLevel committed l).1.1 ++ (pruneLevels committed ls (f.pruneLevel committed l).2).1.1).Nodup
    refine List.nodup_append.2 ⟨hhead, ih h₁' (hl.pruneLevel committed l) hls, fun b hb b' hb' heq => ?_⟩
    subst heq
    -- a block is listed at its level only
    obtain ⟨m, hm, -, -, hlisted⟩ := (mem_forked hls).1 hb'
    have hbm := (hlisted.stored (hl.pruneLevel committed l)).2
    have hb₁ : b ∈ (pruneLevels committed [l] f).1.1 := by simpa [pruneLevels] using hb
    obtain ⟨m', hm', -, -, hlisted'⟩ := (mem_forked (List.nodup_singleton l)).1 hb₁
    have hbl := (hlisted'.stored hl).2
    rw [List.mem_singleton.1 hm'] at hbl
    exact hnot (hbl.symm.trans hbm ▸ hm)

end LevelledForest

namespace BlockChain

variable {cf : Config} {cs : List Call} {as : List Answer} {bc t : BlockChain}

/-! ### Sequences of calls -/

/-- After calls with the given answers: the committed blocks are not above the lowest level, the forked
ones are below it, and the block at it is the one committed last. -/
structure Classified (bs : List Block) (as : List Answer) (bc : BlockChain) : Prop where
  planted : bc.forrest.Planted (LevelOf {b | b ∈ bs})
  stored : ∀ x b, bc.forrest.getVertex x = some b → b ∈ bs
  committed : ∀ b ∈ Answer.committedBlocks as, b.level ≤ bc.forrest.lowestLevel
  forked : ∀ b ∈ Answer.forkedBlocks as, b.level < bc.forrest.lowestLevel
  head : 0 < bc.forrest.lowestLevel → ∃ h, bc.forrest.getVertex h.id = some h ∧
    h.level = bc.forrest.lowestLevel ∧ h ∈ Answer.committedBlocks as

/-- No block is returned both as committed and as forked. -/
def Apart (as : List Answer) : Prop := ∀ b ∈ Answer.committedBlocks as, b ∉ Answer.forkedBlocks as

theorem Classified.new (h : Lineage bs) (n : ℕ) : Classified bs [] (new n) where
  planted := h.planted LevelledForest.levelled_new LevelledForest.indexed_new fun x b hb => by
    simp [BlockChain.new, LevelledForest.new, LevelledForest.getVertex] at hb
  stored := fun x b hb => by
    simp [BlockChain.new, LevelledForest.new, LevelledForest.getVertex] at hb
  committed := fun b hb => by cases hb
  forked := fun b hb => by cases hb
  head := fun h => absurd h (Nat.lt_irrefl 0)

/-- A call that returns no blocks and stores blocks of the lineage. -/
theorem Classified.keep (h : Classified bs as bc) {a : Answer} (hc : Answer.committedBlocks [a] = [])
    (hf : Answer.forkedBlocks [a] = []) (hp : t.forrest.Planted (LevelOf {b | b ∈ bs}))
    (hst : ∀ x b, t.forrest.getVertex x = some b → b ∈ bs)
    (hkeep : ∀ x b, bc.forrest.getVertex x = some b → t.forrest.getVertex x = some b)
    (hlow : t.forrest.lowestLevel = bc.forrest.lowestLevel) :
    Classified bs (as ++ [a]) t ∧ (Apart (as ++ [a]) ↔ Apart as) := by
  have hc' : Answer.committedBlocks (as ++ [a]) = Answer.committedBlocks as := by
    rw [Answer.committedBlocks_append, hc, List.append_nil]
  have hf' : Answer.forkedBlocks (as ++ [a]) = Answer.forkedBlocks as := by
    rw [Answer.forkedBlocks_append, hf, List.append_nil]
  refine ⟨⟨hp, hst, ?_, ?_, ?_⟩, ?_⟩
  · rw [hc', hlow]
    exact h.committed
  · rw [hf', hlow]
    exact h.forked
  · rw [hc', hlow]
    intro hpos
    obtain ⟨g, hg, hrest⟩ := h.head hpos
    exact ⟨g, hkeep _ _ hg, hrest⟩
  · unfold Apart
    rw [hc', hf']

theorem Classified.addBlock (h : Classified bs as bc) (hl : Lineage bs) {b : Block} (hb : b ∈ bs)
    (hr : BlockChain.addBlock b bc = .ok () t) :
    Classified bs (as ++ [.block]) t ∧ (Apart (as ++ [.block]) ↔ Apart as) := by
  have hadd : Prog.wp (BlockChain.addBlock b)
      (fun _ t => bc.forrest.Added b t.forrest ∧ t.forrest.Levelled) (fun _ => True) bc := by
    unfold BlockChain.addBlock
    rw [Prog.wp_zoom]
    refine Prog.wp_mono (Prog.wp_and (LevelledForest.addVertex_spec h.planted.indexed.wf b)
      (LevelledForest.addVertex_levelled h.planted.levelled h.planted.indexed (hl.toUniverse.levelOf_self hb)
        fun l hlv => (hlv b hb rfl).symm)) (fun _ _ h => h) fun _ _ => trivial
  obtain ⟨hA, hlev⟩ := Prog.wp_ok hadd hr
  have hix := hA.indexed (LevelOf {b | b ∈ bs}) (hl.toUniverse.levelOf_self hb)
    (fun q l hp => hl.toUniverse.levelOf_parent hb hp) h.planted.indexed
  have hst : ∀ x b', t.forrest.getVertex x = some b' → b' ∈ bs := by
    intro x b' hx
    rw [hA.stored] at hx
    split_ifs at hx
    · cases hx
      exact hb
    · exact h.stored x b' hx
  refine h.keep rfl rfl (hl.planted hlev hix hst) hst (fun x b' hx => ?_) hA.lowest
  rw [hA.stored, if_neg fun hn => ?_]
  · exact hx
  · rw [hx] at hn
    cases hn.2.2

/-- **One commit**: the blocks it returns go together with the earlier ones when it extends the block
committed last. -/
theorem Classified.commitBlock (h : Classified bs as bc) {id : ℕ} {view : ℤ}
    {r : Option (List Block × List Block)} (hr : BlockChain.commitBlock id view bc = .ok r t) :
    Classified bs (as ++ [.commit r]) t ∧
      (Apart (as ++ [.commit r]) ↔ Apart as ∧ bc.forrest.ExtendsCommitted id) := by
  rcases commitBlock_cases h.planted hr with ⟨rfl, hnone, rfl⟩ | ⟨c, l, forked, rfl, hc, habove, hcut⟩
  · obtain ⟨hk, hiff⟩ := h.keep (a := .commit none) rfl rfl h.planted h.stored (fun _ _ h => h) rfl
    refine ⟨hk, hiff.trans ⟨fun ha => ⟨ha, fun c hc => ?_⟩, And.left⟩⟩
    rw [hnone] at hc
    cases hc
  have hc' : Answer.committedBlocks (as ++ [.commit (some (l, forked))]) =
      Answer.committedBlocks as ++ l := by
    rw [Answer.committedBlocks_append]
    exact congrArg (Answer.committedBlocks as ++ ·) (List.append_nil l)
  have hf' : Answer.forkedBlocks (as ++ [.commit (some (l, forked))]) =
      Answer.forkedBlocks as ++ forked := by
    rw [Answer.forkedBlocks_append]
    exact congrArg (Answer.forkedBlocks as ++ ·) (List.append_nil forked)
  have hlow := (h.planted.levelled.listedAt h.planted.indexed hc).2.2
  have hcid : bc.forrest.getVertex c.id = some c := by
    rw [(h.planted.levelled.listedAt h.planted.indexed hc).1]
    exact hc
  have hlevel : ∀ b ∈ l, b.level ≤ c.level := fun b hb => by
    rcases (habove.mem hb).1 with rfl | ha
    · exact Nat.le_refl _
    · exact Nat.le_of_lt (h.planted.level_lt hc ha)
  have htst : ∀ x b, t.forrest.getVertex x = some b → b ∈ bs := fun x b hb => by
    obtain ⟨rfl, -⟩ := hcut.planted.levelled.listedAt hcut.planted.indexed hb
    exact h.stored _ _ ((hcut.stored_iff b).1 hb).1
  refine ⟨⟨hcut.planted, htst, ?_, ?_, ?_⟩, ?_⟩
  · rw [hc', hcut.lowest]
    intro b hb
    rcases List.mem_append.1 hb with hb | hb
    · exact Nat.le_trans (h.committed b hb) hlow
    · exact hlevel b hb
  · rw [hf', hcut.lowest]
    intro b hb
    rcases List.mem_append.1 hb with hb | hb
    · exact Nat.lt_of_lt_of_le (h.forked b hb) hlow
    · exact ((hcut.forked_iff b).1 hb).2.1
  · rw [hc', hcut.lowest]
    intro hpos
    rcases Nat.lt_or_eq_of_le hlow with hlt | heq
    · exact ⟨c, (hcut.stored_iff c).2 ⟨hcid, Nat.le_refl _⟩, rfl,
        List.mem_append_right _ (habove.head_mem hlt)⟩
    · -- a commit at the lowest level changes nothing
      obtain ⟨g, hg, hgl, hmem⟩ := h.head (heq ▸ hpos)
      exact ⟨g, (hcut.stored_iff g).2 ⟨hg, by omega⟩, by omega, List.mem_append_left _ hmem⟩
  · unfold Apart
    rw [hc', hf']
    constructor
    · intro ha
      refine ⟨fun b hb hbf => ha b (List.mem_append_left _ hb) (List.mem_append_left _ hbf), ?_⟩
      intro c₁ hc₁ h1 hlt
      rw [hc] at hc₁
      cases hc₁
      obtain ⟨g, hg, hgl, hmem⟩ := h.head (by omega)
      refine ⟨g, Classical.byContradiction fun hnot => ?_, hgl⟩
      exact ha g (List.mem_append_left _ hmem) (List.mem_append_right _
        ((hcut.forked_iff g).2 ⟨hg, by omega, by omega, hnot⟩))
    · rintro ⟨ha, hext⟩ b hb hbf
      rcases List.mem_append.1 hb with hb | hb <;> rcases List.mem_append.1 hbf with hbf | hbf
      · exact ha b hb hbf
      · -- the block is at the lowest level, where the committed block has its ancestor
        obtain ⟨hst, hlt, h1, hnot⟩ := (hcut.forked_iff b).1 hbf
        have hle := h.committed b hb
        have hge := (h.planted.levelled.listedAt h.planted.indexed hst).2.2
        obtain ⟨a, htr, hal⟩ := hext c hc (by omega) (by omega)
        have hast := LevelledForest.stored_of_transGen h.planted.levelled h.planted.indexed htr
        obtain rfl := h.planted.one _ _ _ _ hast hst (by omega)
        exact hnot htr
      · have := h.forked b hbf
        have := (habove.mem hb).2
        omega
      · obtain ⟨-, hlt, -, hnot⟩ := (hcut.forked_iff b).1 hbf
        rcases (habove.mem hb).1 with rfl | htr
        · exact Nat.lt_irrefl _ hlt
        · exact hnot htr

/-- Every commit of a sequence of calls extends the block committed last, in the state it is called in. -/
def ExtendingCommits (cf : Config) (n : ℕ) (cs : List Call) : Prop :=
  ∀ before id view after as s, cs = before ++ .commitBlock id view :: after →
    calls cf before (new n) = .ok as s → s.forrest.ExtendsCommitted id

theorem extendingCommits_append {n : ℕ} {c : Call} {s : BlockChain}
    (h : calls cf cs (new n) = .ok as s) :
    ExtendingCommits cf n (cs ++ [c]) ↔ ExtendingCommits cf n cs ∧
      ∀ id view, c = .commitBlock id view → s.forrest.ExtendsCommitted id := by
  constructor
  · intro hx
    refine ⟨fun before id view after as' s' hcs hb => ?_, ?_⟩
    · exact hx before id view (after ++ [c]) as' s' (by simp [hcs]) hb
    · rintro id view rfl
      exact hx cs id view [] as s rfl h
  · rintro ⟨hx, hc⟩ before id view after as' s' hcs hb
    rcases List.eq_nil_or_concat after with rfl | ⟨after', d, rfl⟩
    · obtain ⟨rfl, hcd⟩ := List.append_inj' hcs rfl
      rw [h] at hb
      cases hb
      exact hc id view (List.cons.inj hcd).1
    · have hcs' : cs ++ [c] = (before ++ .commitBlock id view :: after') ++ [d] := by simpa using hcs
      obtain ⟨rfl, -⟩ := List.append_inj' hcs' rfl
      exact hx before id view after' as' s' rfl hb

/-- **A block is not returned both as committed and as forked** exactly when every commit extends the
block committed last. -/
theorem committed_not_forked_iff (cf : Config) (n : ℕ) (cs : List Call) (as : List Answer)
    (t : BlockChain) (hrun : calls cf cs (new n) = .ok as t) (hl : Lineage (Call.blocks cs)) :
    (∀ b ∈ Answer.committedBlocks as, b ∉ Answer.forkedBlocks as) ↔ ExtendingCommits cf n cs := by
  -- the lineage is that of all calls, also of those still to come
  have hgen : ∀ bs, Lineage bs → (∀ b ∈ Call.blocks cs, b ∈ bs) →
      Classified bs as t ∧ (Apart as ↔ ExtendingCommits cf n cs) := by
    intro bs hl
    refine calls_induction (I := fun cs as t => (∀ b ∈ Call.blocks cs, b ∈ bs) →
      Classified bs as t ∧ (Apart as ↔ ExtendingCommits cf n cs)) ?_ (fun _ => ⟨.new hl n, ?_⟩) hrun
    · intro cs as s c a t hcs ih hc hbs
      rw [Call.blocks_append] at hbs
      obtain ⟨hI, hiff⟩ := ih fun b hb => hbs b (List.mem_append_left _ hb)
      rw [extendingCommits_append hcs, ← hiff]
      rcases call_cases hc with ⟨v, rfl, rfl, rfl⟩ | ⟨b, rfl, rfl, hb⟩ | ⟨id, view, r, rfl, rfl, hr⟩
      · obtain ⟨hk, hsame⟩ := hI.keep (t := (s.addVote cf v).2) (a := .vote (s.addVote cf v).1) rfl rfl
          hI.planted hI.stored (fun _ _ h => h) rfl
        exact ⟨hk, hsame.trans ⟨fun h => ⟨h, fun _ _ he => by cases he⟩, And.left⟩⟩
      · obtain ⟨hk, hsame⟩ := hI.addBlock hl (hbs b (by simp [Call.blocks])) hb
        exact ⟨hk, hsame.trans ⟨fun h => ⟨h, fun _ _ he => by cases he⟩, And.left⟩⟩
      · obtain ⟨hk, hsame⟩ := hI.commitBlock hr
        refine ⟨hk, hsame.trans (and_congr_right fun _ => ⟨fun h id' view' he => ?_, fun h => h id view rfl⟩)⟩
        cases he
        exact h
    · refine ⟨fun _ before id view after as s h => ?_, fun _ b hb => by cases hb⟩
      simp at h
  exact (hgen _ hl fun _ hb => hb).2

/-- Three blocks in a row, of which the second is committed, and then the third. -/
def inARow : List Call :=
  [.addBlock (FourNodes.block 1 .initial), .addBlock (FourNodes.block 2 (FourNodes.certificate 1)),
    .commitBlock 2 3, .addBlock (FourNodes.block 3 (FourNodes.certificate 2)), .commitBlock 3 4]

/-- Nothing is reported as forked, so the second commit extends the first. -/
theorem committed_not_forked_iff_inARow :
    ∃ as t, calls (FourNodes.config fun _ => "1") inARow (new 4) = .ok as t ∧
      (Answer.committedBlocks as).map Block.id = [2, 1, 3] ∧
      ExtendingCommits (FourNodes.config fun _ => "1") 4 inARow := by
  have hsome : (answers (FourNodes.config fun _ => "1") 4 inARow).map (fun as =>
      ((Answer.committedBlocks as).map Block.id, Answer.forkedBlocks as)) = some ([2, 1, 3], []) := by
    decide_cbv
  obtain ⟨as, has, hres⟩ := Option.map_eq_some_iff.1 hsome
  obtain ⟨hcommitted, hforked⟩ := Prod.mk.inj hres
  obtain ⟨t, hrun⟩ := exists_of_answers has
  refine ⟨as, t, hrun, hcommitted, (committed_not_forked_iff _ 4 inARow as t hrun
    ⟨universe_of_test (by decide_cbv), by decide⟩).1 ?_⟩
  rw [hforked]
  exact fun _ _ h => by cases h

/-- The block of view 2 is committed; then the block of view 4, whose parent was never added. -/
def lostParent : List Call :=
  [.addBlock (FourNodes.block 1 .initial), .addBlock (FourNodes.block 2 (FourNodes.certificate 1)),
    .commitBlock 2 3, .addBlock (FourNodes.block 4 (FourNodes.certificate 3)), .commitBlock 4 5]

/-- **A committed block is reported as forked.** -/
theorem head_reported_forked :
    ∃ as t, calls (FourNodes.config fun _ => "1") lostParent (new 4) = .ok as t ∧
      Lineage (Call.blocks lostParent) ∧
      FourNodes.block 2 (FourNodes.certificate 1) ∈ Answer.committedBlocks as ∧
      FourNodes.block 2 (FourNodes.certificate 1) ∈ Answer.forkedBlocks as := by
  have hsome : (answers (FourNodes.config fun _ => "1") 4 lostParent).map (fun as =>
      decide (FourNodes.block 2 (FourNodes.certificate 1) ∈ Answer.committedBlocks as ∧
        FourNodes.block 2 (FourNodes.certificate 1) ∈ Answer.forkedBlocks as)) = some true := by
    decide_cbv
  obtain ⟨as, has, hmem⟩ := Option.map_eq_some_iff.1 hsome
  obtain ⟨t, hrun⟩ := exists_of_answers has
  exact ⟨as, t, hrun, ⟨universe_of_test (by decide_cbv), by decide⟩, of_decide_eq_true hmem⟩

/-- What a commit of `c` returns and counts, for the blocks between the lowest level and `c`. -/
structure Classifies (s : BlockChain) (c : Block) (l forked : List Block) (t : BlockChain) : Prop where
  between : ∀ b, s.forrest.getVertex b.id = some b → max (s.forrest.lowestLevel : ℤ) 1 < b.view →
    b.view < c.view → Xor (b ∈ l) (b ∈ forked) ∧ (b ∈ l ↔ Relation.TransGen s.forrest.ParentOf c b)
  nodup : forked.Nodup
  apart : ∀ b ∈ l, b ∉ forked
  pruned : t.prunedBlockNo = s.prunedBlockNo + s.forrest.containersBelow c.level

/-- **Pruning classifies every block once.**  If no level has more than one container, the commit of a stored
block returns; a stored block between the lowest level and the committed block is returned as committed if it
is an ancestor, else as forked, and all containers below the block are counted as pruned. -/
theorem pruning_classifies (cf : Config) (n : ℕ) (cs : List Call) (as : List Answer) (s : BlockChain)
    (hrun : calls cf cs (new n) = .ok as s) (hU : Universe {b | b ∈ Call.blocks cs})
    (h₁ : s.forrest.Single) (id : ℕ) (view : ℤ) (c : Block) (hc : s.forrest.getVertex id = some c) :
    ∃ l forked t, commitBlock id view s = .ok (some (l, forked)) t ∧ Classifies s c l forked t := by
  have h := (recorded_calls hU hrun fun _ hb => hb).stocked
  obtain ⟨r, t, hr, -⟩ := Prog.exists_ok_of_wp (commitBlock_tidy (h.tidy hU h₁) id view)
  cases commitBlock_eq_ok hr with
  | missing hn =>
    rw [hc] at hn
    cases hn
  | refused hc' hlow => exact absurd (h.filedAt hc').2.2 (Nat.not_le.2 hlow)
  | @done c' l forked k f hc' hl hp =>
    rw [hc] at hc'
    cases hc'
    obtain ⟨forked', k', hres, hcut⟩ := (h.planted hU h₁).pruneUpToLevel hc hp
    cases hres
    have hmem := fun b => hl.mem_iff h hU hc (b := b)
    have hview : ∀ {x b}, s.forrest.getVertex x = some b → (b.level : ℤ) = b.view := fun hb =>
      hU.level_eq (h.stored _ _ hb)
    have hcv := hview hc
    -- an ancestor is below the block, and committed if it is above the lowest level
    have hanc : ∀ b, s.forrest.getVertex b.id = some b → b.level < c.level → s.forrest.lowestLevel < b.level →
        (b ∈ l ↔ Relation.TransGen s.forrest.ParentOf c b) := by
      intro b hb hlt hlow
      rw [hmem, Relation.reflTransGen_iff_eq_or_transGen]
      constructor
      · rintro ⟨rfl | htr, -⟩
        · exact absurd hlt (Nat.lt_irrefl _)
        · exact htr
      · exact fun htr => ⟨Or.inr htr, hlow⟩
    refine ⟨l, forked, _, hr, fun b hb hlow hlt => ?_, ?_, fun b hb hbf => ?_, ?_⟩
    · have hbv := hview hb
      have hiff := hanc b hb (by omega) (by omega)
      refine ⟨?_, hiff⟩
      rw [hiff, hcut.forked_iff]
      by_cases htr : Relation.TransGen s.forrest.ParentOf c b
      · exact Or.inl ⟨htr, fun hf => hf.2.2.2 htr⟩
      · exact Or.inr ⟨⟨hb, by omega, by omega, htr⟩, htr⟩
    · rcases LevelledForest.pruneUpToLevel_cases hp with ⟨-, hres, -⟩ | ⟨committed, -, -, hres, -⟩
      · cases hres
      · rw [show forked = _ from congrArg Prod.fst (Option.some.inj hres)]
        exact h₁.nodup_forked h.levelled List.nodup_range'
    · obtain ⟨hst, hlt, -, hnot⟩ := (hcut.forked_iff b).1 hbf
      exact hnot ((hanc b hst hlt ((hmem b).1 hb).2).1 hb)
    · show s.prunedBlockNo + (k : ℤ) = _
      rw [h.orderly.pruned_eq hp]

/-- The block of view 4 extends that of view 2, and the block of view 3 does not. -/
def sideBlock : List Call :=
  [.addBlock (LevelledForest.bareBlock 1 1 0 0), .addBlock (LevelledForest.bareBlock 2 2 1 1),
    .addBlock (LevelledForest.bareBlock 3 3 1 1), .addBlock (LevelledForest.bareBlock 4 4 2 2)]

/-- The commit of the block of view 4 classifies the blocks before it. -/
theorem pruning_classifies_sideBlock :
    ∃ as s l forked t, calls (FourNodes.config fun _ => "1") sideBlock (new 4) = .ok as s ∧
      commitBlock 4 5 s = .ok (some (l, forked)) t ∧
      Classifies s (LevelledForest.bareBlock 4 4 2 2) l forked t := by
  have hrun : Prog.passes (calls (FourNodes.config fun _ => "1") sideBlock) (fun _ s => s.forrest.single &&
      decide (s.forrest.getVertex 4 = some (LevelledForest.bareBlock 4 4 2 2))) (new 4) = true := by
    decide_cbv
  obtain ⟨as, s, hs, htest⟩ := Prog.exists_ok_of_passes hrun
  obtain ⟨hsingle, hst⟩ := Bool.and_eq_true_iff.1 htest
  obtain ⟨l, forked, t, ht, hclass⟩ := pruning_classifies _ 4 sideBlock as s hs
    (universe_of_test (by decide_cbv)) (LevelledForest.single_of_test hsingle) 4 5 _ (of_decide_eq_true hst)
  exact ⟨as, s, l, forked, t, hs, ht, hclass⟩

end BlockChain

end Bamboo
