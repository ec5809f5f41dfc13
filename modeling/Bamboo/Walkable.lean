import Bamboo.Commits
import Bamboo.Tidy
import Bamboo.Truthful

/-!
# Commits that return

After additions to a new block chain, the commit of a stored block may panic or never return, although every
block passed `VerifyVertex`: a placeholder may be the first container of a level, a level list may be empty
because its block is filed elsewhere, and blocks may be ancestors of each other.

* `Ascends`, `Descends`: what the two loops of a commit follow;
* `Walkable`: they come to no placeholder and do not go round;
* `commit_returns_iff`, and `placeholder_stops_commit`, where a commit panics.
-/

namespace Bamboo

namespace LevelledForest

variable {f t : LevelledForest} {b c : Block} {l m : ℕ}

/-- From a block above the lowest level to its stored parent. -/
def Ascends (f : LevelledForest) (b p : Block) : Prop := f.lowestLevel < b.level ∧ f.ParentOf b p

/-- The block is in the first container of the level. -/
def First (f : LevelledForest) (l : ℕ) (v : Block) : Prop :=
  ∃ p ps c, f.atLevel l = p :: ps ∧ f.heap[p]? = some c ∧ c.vertex = some v

/-- From a level above 1 to that of the stored parent of its first block. -/
def Descends (f : LevelledForest) (l m : ℕ) : Prop :=
  1 < l ∧ ∃ v w, f.First l v ∧ f.ParentOf v w ∧ w.level = m

/-- The block is no ancestor of itself, nor is an ancestor of it; and the levels that lead down from its level
start with a FULL container, and do not lead back to themselves. -/
structure Walkable (f : LevelledForest) (c : Block) : Prop where
  ancestors : ∀ b, Relation.ReflTransGen f.Ascends c b → ¬ Relation.TransGen f.Ascends b b
  full : ∀ l, Relation.ReflTransGen f.Descends c.level l → 1 < l → ∃ v, f.First l v
  levels : ∀ l, Relation.ReflTransGen f.Descends c.level l → ¬ Relation.TransGen f.Descends l l

/-! ### Additions -/

/-- Blocks in containers above the lowest level have a certificate. -/
def Certified (f : LevelledForest) : Prop :=
  ∀ (p : ℕ) (c : VertexContainer) (v : Block), f.heap[p]? = some c → c.vertex = some v →
    f.lowestLevel < c.level → v.parent ≠ none

theorem Certified.getOrCreate (h : f.Certified) (x l : ℕ) :
    (f.getOrCreateVertexContainer x l).2.Certified := by
  intro p c v hc hv
  rw [lowestLevel_getOrCreate]
  rcases heap_getOrCreate_cases hc with hc | rfl
  · exact h p c v hc hv
  · cases hv

theorem Certified.stow (h : f.Certified) {c : VertexContainer} (hc : (f.stow b).heap[f.place b]? = some c)
    (hb : f.lowestLevel < c.level → b.parent ≠ none) : (f.stow b).Certified := by
  intro p d v hd hv
  rw [lowestLevel_stow]
  rcases heap_stow_cases hd with ⟨rfl, hvb, -⟩ | ⟨-, hd⟩
  · rw [hc] at hd
    cases hd
    rw [hvb] at hv
    cases hv
    exact hb
  · have := h.getOrCreate b.id b.level p d v hd hv
    rw [lowestLevel_getOrCreate] at this
    exact this

theorem Certified.adopt (h : f.Certified) (p x l : ℕ) : (f.adopt p x l).Certified := by
  intro q d v hd hv
  obtain ⟨c, hc, -, hlev, hvert, -⟩ := heap_adopt_cases hd
  rw [lowestLevel_adopt, hlev, ← lowestLevel_getOrCreate x l]
  exact h.getOrCreate x l q c v hc (hvert ▸ hv)

theorem Certified.addVertex (h : f.Certified) (hf : f.WF) (hr : LevelledForest.addVertex b f = .ok () t) :
    t.Certified := by
  cases addVertex_cases hf hr with
  | ignored => exact h
  | root _ _ hc hcase =>
    refine h.stow hc fun hlow => ?_
    rcases hcase with hle | ⟨y, m, hp, -⟩
    · exact absurd hlow (Nat.not_lt.2 hle)
    · rw [hp]
      exact Option.some_ne_none _
  | child _ _ hc _ hp =>
    refine (h.stow hc fun _ => ?_).adopt _ _ _
    rw [hp]
    exact Option.some_ne_none _

/-! ### The walks -/

theorem leads_ancestorStep_iff {p : Block} : Walk.Leads f.ancestorStep b p ↔ f.Ascends b p := by
  refine ⟨ancestorStep_parent, fun h => ?_⟩
  have hlow : f.lowestLevel < uint64 b.view := h.1
  rw [Walk.Leads, ancestorStep, if_pos hlow, show f.getVertex b.prevID = some p from h.2]

/-- One round of the walk over the levels, in a forest in which nothing was pruned. -/
theorem Unpruned.levelStep_cases (h : f.Unpruned) (hq : f.Certified) (l : ℕ) :
    (¬ 1 < l ∧ f.levelStep l = .ok none) ∨
      (1 < l ∧ (∀ v, ¬ f.First l v) ∧ ∃ e, f.levelStep l = .error e) ∨
      ∃ v, 1 < l ∧ f.First l v ∧ f.levelStep l = .ok ((f.getVertex v.prevID).map Block.level) := by
  unfold levelStep
  rw [h.lowest]
  by_cases hl : 1 < l
  · right
    rw [if_pos ⟨Nat.zero_le l, hl⟩]
    cases hat : f.atLevel l with
    | nil =>
      refine Or.inl ⟨hl, ?_, _, rfl⟩
      rintro v ⟨p, ps, c, hat', -⟩
      rw [hat] at hat'
      cases hat'
    | cons p ps =>
      obtain ⟨c, hc, hlev, -⟩ := h.shelved l p (by rw [hat]; exact List.mem_cons_self)
      cases hv : c.vertex with
      | none =>
        refine Or.inl ⟨hl, ?_, .nilDereference, ?_⟩
        · rintro v ⟨p', ps', c', hat', hc', hv'⟩
          rw [hat] at hat'
          cases hat'
          rw [hc] at hc'
          cases hc'
          rw [hv] at hv'
          cases hv'
        · simp only [hc, Option.bind_some, hv]
      | some v =>
        refine Or.inr ⟨v, hl, ⟨p, ps, c, hat, hc, hv⟩, ?_⟩
        have hpar := hq p c v hc hv (by rw [h.lowest]; omega)
        obtain ⟨⟨q, k⟩, hpar⟩ := Option.ne_none_iff_exists'.1 hpar
        obtain rfl := prevID_of_parent hpar
        simp only [hc, Option.bind_some, hv, hpar]
        cases f.getVertex v.prevID with
        | none => rfl
        | some w => simp
  · exact Or.inl ⟨hl, by rw [if_neg fun hc => hl hc.2]⟩

theorem First.unique {v w : Block} (hv : f.First l v) (hw : f.First l w) : v = w := by
  obtain ⟨p, ps, c, hat, hc, hcv⟩ := hv
  obtain ⟨p', ps', c', hat', hc', hcw⟩ := hw
  rw [hat] at hat'
  cases hat'
  rw [hc] at hc'
  cases hc'
  rw [hcv] at hcw
  exact Option.some.inj hcw

theorem Unpruned.leads_levelStep_iff (h : f.Unpruned) (hq : f.Certified) :
    Walk.Leads f.levelStep l m ↔ f.Descends l m := by
  rcases h.levelStep_cases hq l with ⟨hl, hs⟩ | ⟨-, hno, e, hs⟩ | ⟨v, hl, hv, hs⟩
  · rw [Walk.Leads, hs]
    exact ⟨fun he => (by cases he), fun hd => absurd hd.1 hl⟩
  · rw [Walk.Leads, hs]
    refine ⟨fun he => (by cases he), ?_⟩
    rintro ⟨-, v, w, hv, -⟩
    exact absurd hv (hno v)
  · rw [Walk.Leads, hs, Except.ok.injEq, Option.map_eq_some_iff]
    constructor
    · rintro ⟨w, hw, rfl⟩
      exact ⟨hl, v, w, hv, hw, rfl⟩
    · rintro ⟨-, v', w, hv', hw, rfl⟩
      obtain rfl := hv.unique hv'
      exact ⟨w, hw, rfl⟩

theorem Unpruned.levelStep_ne_error_iff (h : f.Unpruned) (hq : f.Certified) :
    (∀ e, f.levelStep l ≠ .error e) ↔ (1 < l → ∃ v, f.First l v) := by
  rcases h.levelStep_cases hq l with ⟨hl, hs⟩ | ⟨hl, hno, e, hs⟩ | ⟨v, hl, hv, hs⟩
  · rw [hs]
    exact ⟨fun _ h1 => absurd h1 hl, fun _ e he => by cases he⟩
  · rw [hs]
    refine ⟨fun he => absurd rfl (he e), fun h1 => ?_⟩
    obtain ⟨v, hv⟩ := h1 hl
    exact absurd hv (hno v)
  · rw [hs]
    exact ⟨fun _ _ => ⟨v, hv⟩, fun _ e he => by cases he⟩

/-- The walk over the levels from a block returns. -/
theorem Unpruned.committedLevels_returns_iff (h : f.Unpruned) (hq : f.Certified) :
    (∃ ls, f.committedLevels (f.verticesAtLevel.entries.length + 2) l [] = .ok ls) ↔
      ∀ m, Relation.ReflTransGen f.Descends l m → (1 < m → ∃ v, f.First m v) ∧
        ¬ Relation.TransGen f.Descends m m := by
  have hleads : Walk.Leads f.levelStep = f.Descends := by
    funext l m
    exact propext (h.leads_levelStep_iff hq)
  have hlen : f.verticesAtLevel.keys.length < f.verticesAtLevel.entries.length + 2 := by
    rw [AList.keys, List.keys, List.length_map]
    omega
  rw [LevelledForest.committedLevels_returns_iff,
    Walk.walks_iff (fun l m _ hlm => mem_keys_of_levelStep hlm) hlen, hleads]
  refine forall₂_congr fun m _ => ?_
  rw [Walk.Safe, hleads, h.levelStep_ne_error_iff hq]

/-- `PruneUpToLevel` returns if its first loop does. -/
theorem Unpruned.pruneUpToLevel_returns_iff (h : f.Unpruned) :
    (∃ r t, LevelledForest.pruneUpToLevel l f = .ok r t) ↔
      ∃ ls, f.committedLevels (f.verticesAtLevel.entries.length + 2) l [] = .ok ls := by
  constructor
  · rintro ⟨r, t, hr⟩
    rcases pruneUpToLevel_cases hr with ⟨hlt, -⟩ | ⟨ls, -, hls, -⟩
    · rw [h.lowest] at hlt
      exact absurd hlt (Nat.not_lt_zero l)
    · exact ⟨ls, hls⟩
  · rintro ⟨ls, hls⟩
    exact ⟨_, _, pruneUpToLevel_of_ok (h.lowest ▸ Nat.zero_le l) hls⟩

end LevelledForest

namespace BlockChain

open LevelledForest

variable {bc : BlockChain} {id : ℕ} {view : ℤ} {c : Block}

/-- The loop of `CommitBlock` from a stored block returns. -/
theorem commitLoop_walkable_iff (bc : BlockChain) (hc : bc.forrest.getVertex id = some c) :
    (∃ l t, commitLoop view (bc.forrest.vertices.entries.length + 1) c [] bc = .ok l t) ↔
      ∀ b, Relation.ReflTransGen bc.forrest.Ascends c b → ¬ Relation.TransGen bc.forrest.Ascends b b := by
  have hleads : Walk.Leads bc.forrest.ancestorStep = bc.forrest.Ascends := by
    funext b p
    exact propext leads_ancestorStep_iff
  have hstored : ∀ b p, Relation.ReflTransGen (Walk.Leads bc.forrest.ancestorStep) c b →
      Walk.Leads bc.forrest.ancestorStep b p → b ∈ bc.forrest.storedBlocks := by
    intro b p hb _
    obtain ⟨y, hy⟩ := stored_of_ancestorStep hc hb
    exact mem_storedBlocks hy
  rw [commitLoop_returns_iff,
    Walk.walks_iff hstored (Nat.lt_succ_of_le (length_storedBlocks bc.forrest)), hleads]
  refine forall₂_congr fun b _ => ?_
  rw [Walk.Safe, hleads]
  exact ⟨And.right, fun h => ⟨fun e he => (by cases he), h⟩⟩

/-- A commit of a stored block returns if its loop does and the pruning does. -/
theorem commitBlock_returns_iff (hc : bc.forrest.getVertex id = some c) :
    (∃ r t, commitBlock id view bc = .ok r t) ↔
      (∃ l t, commitLoop view (bc.forrest.vertices.entries.length + 1) c []
        { bc with highestComitted := c.view } = .ok l t) ∧
      ∃ r f, LevelledForest.pruneUpToLevel c.level bc.forrest = .ok r f := by
  unfold commitBlock
  rw [Prog.get_bind_apply]
  simp only [hc]
  rw [Prog.set_bind_apply]
  constructor
  · rintro ⟨r, t, h⟩
    obtain ⟨l, s, hloop, h⟩ := Prog.bind_eq_ok h
    obtain ⟨l', -, -, rfl⟩ := commitLoop_eq_ok hloop
    obtain ⟨pruned, s', hprune, -⟩ := Prog.bind_eq_ok h
    obtain ⟨f, hp, -⟩ := Prog.zoom_eq_ok hprune
    rw [forrest_settled] at hp
    exact ⟨⟨l, _, hloop⟩, pruned, f, hp⟩
  · rintro ⟨⟨l, s, hloop⟩, pruned, f, hp⟩
    obtain ⟨l', -, -, rfl⟩ := commitLoop_eq_ok hloop
    rw [Prog.bind_apply_ok hloop]
    have hzoom : (Prog.zoom forrest (fun f bc => { bc with forrest := f })
        (LevelledForest.pruneUpToLevel (uint64 c.view)) : Go BlockChain _)
          (settled view { bc with highestComitted := c.view } l') =
        .ok pruned { settled view { bc with highestComitted := c.view } l' with forrest := f } := by
      refine Prog.zoom_apply_ok ?_
      rw [forrest_settled]
      exact hp
    rw [Prog.bind_apply_ok hzoom]
    cases pruned with
    | none => exact ⟨_, _, rfl⟩
    | some res => exact ⟨_, _, rfl⟩

/-- **The commit of a stored block returns**, after any additions to a new block chain, exactly if its walks
come to no placeholder and do not go round. -/
theorem commit_returns_iff (cf : Config) (n : ℕ) (bs : List Block) (as : List Answer) (s : BlockChain)
    (hrun : calls cf (bs.map .addBlock) (new n) = .ok as s) (id : ℕ) (view : ℤ) (c : Block)
    (hc : s.forrest.getVertex id = some c) :
    (∃ r t, commitBlock id view s = .ok r t) ↔ s.forrest.Walkable c := by
  have hinv : s.forrest.Unpruned ∧ s.forrest.Certified := by
    refine forrest_induction (P := fun f => f.Unpruned ∧ f.Certified) ?_ hrun ⟨unpruned_new, ?_⟩
    · rintro f b t ⟨hu, hq⟩ hb
      exact ⟨hu.addVertex hb, hq.addVertex hu.indexed.wf hb⟩
    · intro p c v hp
      simp [new, LevelledForest.new] at hp
  obtain ⟨hu, hq⟩ := hinv
  rw [commitBlock_returns_iff hc, commitLoop_walkable_iff { s with highestComitted := c.view } hc,
    hu.pruneUpToLevel_returns_iff, hu.committedLevels_returns_iff hq]
  constructor
  · rintro ⟨hanc, hlev⟩
    exact ⟨hanc, fun l hl => (hlev l hl).1, fun l hl => (hlev l hl).2⟩
  · rintro ⟨hanc, hfull, hlev⟩
    exact ⟨hanc, fun l hl => ⟨hfull l hl, hlev l hl⟩⟩

/-- Two blocks in a row. -/
theorem commit_returns_iff_twoBlocks :
    ∃ as s, calls (FourNodes.config fun _ => "1") ([bareBlock 2 2 1 1, bareBlock 1 1 0 0].map .addBlock) (new 4) =
        .ok as s ∧ s.forrest.Walkable (bareBlock 2 2 1 1) := by
  have hrun : Prog.passes (calls (FourNodes.config fun _ => "1")
      ([bareBlock 2 2 1 1, bareBlock 1 1 0 0].map .addBlock))
      (fun _ s => decide (s.forrest.getVertex 2 = some (bareBlock 2 2 1 1)) &&
        Prog.passes (commitBlock 2 3) (fun _ _ => true) s) (new 4) = true := by
    decide_cbv
  obtain ⟨as, s, hs, htest⟩ := Prog.exists_ok_of_passes hrun
  obtain ⟨hst, hret⟩ := Bool.and_eq_true_iff.1 htest
  obtain ⟨r, t, ht, -⟩ := Prog.exists_ok_of_passes hret
  exact ⟨as, s, hs, (commit_returns_iff _ 4 _ as s hs 2 3 _ (of_decide_eq_true hst)).1 ⟨r, t, ht⟩⟩

/-- The block of view 3 names a parent of view 2 that never comes; then the block of view 2 comes. -/
def placeholderFirst : List Block := [bareBlock 1 1 0 0, bareBlock 3 3 99 2, bareBlock 2 2 1 1]

/-- **A placeholder stops a commit**: level 2 starts with it, and `PruneUpToLevel` dereferences its block. -/
theorem placeholder_stops_commit :
    ∃ as s t, Verified placeholderFirst LevelledForest.new ∧
      calls (FourNodes.config fun _ => "1") (placeholderFirst.map .addBlock) (new 4) = .ok as s ∧
      s.forrest.getVertex 2 = some (bareBlock 2 2 1 1) ∧ commitBlock 2 3 s = .error .nilDereference t := by
  have hrun : Prog.passes (calls (FourNodes.config fun _ => "1") (placeholderFirst.map .addBlock))
      (fun _ s => decide (s.forrest.getVertex 2 = some (bareBlock 2 2 1 1)) &&
        match commitBlock 2 3 s with
        | .ok _ _ => false
        | .error e _ => decide (e = .nilDereference)) (new 4) = true := by
    decide_cbv
  obtain ⟨as, s, hs, htest⟩ := Prog.exists_ok_of_passes hrun
  obtain ⟨hst, herr⟩ := Bool.and_eq_true_iff.1 htest
  have hv : Verified placeholderFirst LevelledForest.new :=
    atEach_of_test (p := fun f b => decide (f.verifyVertex b = .ok none)) (fun _ _ => of_decide_eq_true)
      (by decide_cbv)
  cases hr : commitBlock 2 3 s with
  | ok r t =>
    rw [hr] at herr
    cases herr
  | error e t =>
    rw [hr] at herr
    obtain rfl := of_decide_eq_true herr
    exact ⟨as, s, t, hv, hs, of_decide_eq_true hst, hr⟩

end BlockChain

end Bamboo
