import Bamboo.Representation
import Bamboo.Calls

/-!
# What a commit does

`CommitBlock` moves its counters along the chain that it commits, and only then prunes the forest, which
may fail.

* `settled`: the block chain after the loop over the committed blocks;
* `CommitCases`, `commitBlock_eq_ok`: a commit that returns has found no block, was refused by
  `PruneUpToLevel`, or is done;
* `failed_commit_harmless_iff`: when a failed commit leaves everything as it was.
-/

namespace Bamboo

namespace BlockChain

variable {bc t : BlockChain} {id : ℕ} {view : ℤ}

/-- The votes are deleted and the counters moved for each of the blocks. -/
def settled (view : ℤ) (bc : BlockChain) (l : List Block) : BlockChain :=
  l.foldl (fun bc block => { bc with
    quorum := bc.quorum.delete block.id
    committedBlockNo := bc.committedBlockNo + 1
    totalBlockIntervals := bc.totalBlockIntervals + (view - block.view) }) bc

theorem forrest_settled (l : List Block) : (settled view bc l).forrest = bc.forrest := by
  induction l generalizing bc with
  | nil => rfl
  | cons b l ih => exact ih

theorem prunedBlockNo_settled (l : List Block) : (settled view bc l).prunedBlockNo = bc.prunedBlockNo := by
  induction l generalizing bc with
  | nil => rfl
  | cons b l ih => exact ih

theorem committedBlockNo_settled (l : List Block) :
    (settled view bc l).committedBlockNo = bc.committedBlockNo + l.length := by
  induction l generalizing bc with
  | nil => simp [settled]
  | cons b l ih =>
    show (settled view _ l).committedBlockNo = _
    rw [ih, List.length_cons]
    push_cast
    omega

theorem commitLoop_eq_ok {fuel : ℕ} {block : Block} {acc l : List Block}
    (h : commitLoop view fuel block acc bc = .ok l t) :
    ∃ l', l = acc ++ l' ∧ Above bc.forrest bc.forrest.lowestLevel block l' ∧ t = settled view bc l' := by
  induction fuel generalizing bc block acc with
  | zero => cases h
  | succ fuel ih =>
    unfold commitLoop at h
    rw [Prog.get_bind_apply] at h
    by_cases hlow : bc.forrest.lowestLevel < uint64 block.view
    · rw [if_pos hlow, Prog.set_bind_apply] at h
      cases hp : bc.forrest.getVertex block.prevID with
      | none =>
        simp only [hp] at h
        cases h
        exact ⟨[block], rfl, .last hlow hp, rfl⟩
      | some parent =>
        simp only [hp] at h
        obtain ⟨l', rfl, hl', rfl⟩ := ih h
        exact ⟨block :: l', by simp, .next hlow hp hl', rfl⟩
    · rw [if_neg hlow] at h
      cases h
      exact ⟨[], by simp, .stop (Nat.not_lt.1 hlow), rfl⟩

/-- What a commit that returns has done. -/
inductive CommitCases (bc : BlockChain) (id : ℕ) (view : ℤ) :
    Option (List Block × List Block) → BlockChain → Prop
  /-- the block is not stored -/
  | missing (hn : bc.forrest.getVertex id = none) : CommitCases bc id view none bc
  /-- the block is below the lowest level -/
  | refused {c : Block} (hc : bc.forrest.getVertex id = some c) (hlow : c.level < bc.forrest.lowestLevel) :
      CommitCases bc id view none { bc with highestComitted := c.view }
  /-- the stored chain down to the lowest level is committed, and the forest is pruned -/
  | done {c : Block} {l forked : List Block} {k : ℕ} {f : LevelledForest}
      (hc : bc.forrest.getVertex id = some c) (hl : Above bc.forrest bc.forrest.lowestLevel c l)
      (hp : LevelledForest.pruneUpToLevel c.level bc.forrest = .ok (some (forked, k)) f) :
      CommitCases bc id view (some (l, forked))
        { settled view { bc with highestComitted := c.view } l with
          forrest := f
          prunedBlockNo := bc.prunedBlockNo + k }

/-- **The cases of a commit.** -/
theorem commitBlock_eq_ok {r : Option (List Block × List Block)} (h : commitBlock id view bc = .ok r t) :
    CommitCases bc id view r t := by
  unfold commitBlock at h
  rw [Prog.get_bind_apply] at h
  cases hc : bc.forrest.getVertex id with
  | none =>
    simp only [hc] at h
    cases h
    exact .missing hc
  | some c =>
    simp only [hc] at h
    rw [Prog.set_bind_apply] at h
    obtain ⟨l, s, hloop, h⟩ := Prog.bind_eq_ok h
    obtain ⟨l, rfl, habove, rfl⟩ := commitLoop_eq_ok hloop
    obtain ⟨pruned, s', hprune, h⟩ := Prog.bind_eq_ok h
    obtain ⟨f, hp, rfl⟩ := Prog.zoom_eq_ok hprune
    rw [forrest_settled] at hp
    cases pruned with
    | none =>
      cases h
      rcases LevelledForest.pruneUpToLevel_cases hp with ⟨hlow, -, rfl⟩ | ⟨_, _, _, hr, _⟩
      · -- the loop has not run
        cases habove with
        | stop => exact .refused hc hlow
        | last hlt => exact absurd hlt (Nat.lt_asymm hlow)
        | next hlt => exact absurd hlt (Nat.lt_asymm hlow)
      · cases hr
    | some res =>
      obtain ⟨forked, k⟩ := res
      cases h
      dsimp only
      rw [prunedBlockNo_settled]
      exact .done hc habove hp

/-- A commit only forgets blocks. -/
theorem getBlockByID_of_commitBlock {r : Option (List Block × List Block)} {x : ℕ} {b : Block}
    (h : commitBlock id view bc = .ok r t) (hx : t.getBlockByID x = some b) : bc.getBlockByID x = some b := by
  cases commitBlock_eq_ok h with
  | missing => exact hx
  | refused => exact hx
  | done _ _ hp =>
    rcases LevelledForest.pruneUpToLevel_cases hp with ⟨-, hr, -⟩ | ⟨committed, -, -, -, rfl⟩
    · cases hr
    · exact LevelledForest.getVertex_of_pruneLevels hx

/-! ### The committed chain -/

/-- The blocks of a walk are the first one and stored ancestors of it, above the lowest level. -/
theorem Above.mem {f : LevelledForest} {low : ℕ} {c b : Block} {l : List Block} (h : Above f low c l)
    (hb : b ∈ l) : (b = c ∨ Relation.TransGen f.ParentOf c b) ∧ low < b.level := by
  induction h with
  | stop => cases hb
  | last hlow =>
    rw [List.mem_singleton.1 hb]
    exact ⟨Or.inl rfl, hlow⟩
  | next hlow hp _ ih =>
    rcases List.mem_cons.1 hb with rfl | hb
    · exact ⟨Or.inl rfl, hlow⟩
    · obtain ⟨h, hl⟩ := ih hb
      refine ⟨Or.inr ?_, hl⟩
      rcases h with rfl | h
      · exact .single hp
      · exact .head hp h

/-- A walk from above the lowest level starts with its first block. -/
theorem Above.head_mem {f : LevelledForest} {low : ℕ} {c : Block} {l : List Block} (h : Above f low c l)
    (hc : low < c.level) : c ∈ l := by
  cases h with
  | stop h => exact absurd hc (Nat.not_lt.2 h)
  | last => exact List.mem_singleton_self _
  | next => exact List.mem_cons_self

/-! ### Failed commits -/

/-- A stored block below the lowest level is not committed, but it is recorded as the highest one. -/
theorem commitBlock_refused {c : Block} (hc : bc.forrest.getVertex id = some c)
    (hlow : c.level < bc.forrest.lowestLevel) :
    commitBlock id view bc = .ok none { bc with highestComitted := c.view } := by
  have hlow : uint64 c.view < bc.forrest.lowestLevel := hlow
  have hloop : commitLoop view (bc.forrest.vertices.entries.length + 1) c []
      { bc with highestComitted := c.view } = .ok [] { bc with highestComitted := c.view } := by
    unfold commitLoop
    rw [Prog.get_bind_apply, if_neg (Nat.lt_asymm hlow)]
    rfl
  have hprune : LevelledForest.pruneUpToLevel (uint64 c.view) bc.forrest = .ok none bc.forrest := by
    unfold LevelledForest.pruneUpToLevel
    rw [Prog.get_bind_apply, if_pos hlow]
    rfl
  have hzoom : (Prog.zoom forrest (fun f bc => { bc with forrest := f })
      (LevelledForest.pruneUpToLevel (uint64 c.view)) : Go BlockChain _) { bc with highestComitted := c.view } =
      .ok none { bc with highestComitted := c.view } := Prog.zoom_apply_ok hprune
  unfold commitBlock
  rw [Prog.get_bind_apply]
  simp only [hc]
  rw [Prog.set_bind_apply, Prog.bind_apply_ok hloop, Prog.bind_apply_ok hzoom]
  rfl

/-- **A failed commit changes nothing** exactly if the id has no stored block below the lowest level, or the
view of this block is recorded as the highest committed one already. -/
theorem failed_commit_harmless_iff (bc : BlockChain) (id : ℕ) (view : ℤ) :
    (∀ t, commitBlock id view bc = .ok none t → t = bc) ↔
      ∀ c, bc.forrest.getVertex id = some c → c.level < bc.forrest.lowestLevel →
        bc.highestComitted = c.view := by
  constructor
  · intro h c hc hlow
    exact congrArg highestComitted (h _ (commitBlock_refused hc hlow)).symm
  · intro h t hr
    cases commitBlock_eq_ok hr with
    | missing => rfl
    | refused hc hlow =>
      rw [← h _ hc hlow]

/-- Each block that is added passes `VerifyVertex` when its turn comes. -/
def verifies (cf : Config) : List Call → BlockChain → Bool
  | [], _ => true
  | c :: cs, bc =>
    (match c with
      | .addBlock block => decide (bc.forrest.verifyVertex block = .ok none)
      | _ => true) &&
    match call cf c bc with
    | .ok _ t => verifies cf cs t
    | .error _ _ => true

/-- A block of view 2 that its child declares to be of view 5, and a commit of view 4. -/
def misfiled : List Call :=
  [.addBlock (LevelledForest.bareBlock 9 6 5 5), .addBlock (LevelledForest.bareBlock 5 2 0 1),
    .addBlock (LevelledForest.bareBlock 4 4 0 0), .commitBlock 4 5]

/-- **A failed commit lowers the highest committed view.** -/
theorem failed_commit_recorded :
    ∃ as s t, verifies (FourNodes.config fun _ => "1") misfiled (new 4) = true ∧
      calls (FourNodes.config fun _ => "1") misfiled (new 4) = .ok as s ∧
      commitBlock 5 6 s = .ok none t ∧ s.highestComitted = 4 ∧ t.highestComitted = 2 := by
  have hrun : Prog.passes (calls (FourNodes.config fun _ => "1") misfiled)
      (fun _ s => decide (s.highestComitted = 4) && Prog.passes (commitBlock 5 6)
        (fun r t => decide (r = none ∧ t.highestComitted = 2)) s) (new 4) = true := by
    decide_cbv
  obtain ⟨as, s, hs, htest⟩ := Prog.exists_ok_of_passes hrun
  obtain ⟨hhigh, hfail⟩ := Bool.and_eq_true_iff.1 htest
  obtain ⟨r, t, ht, hres⟩ := Prog.exists_ok_of_passes hfail
  obtain ⟨rfl, hlow⟩ := of_decide_eq_true hres
  exact ⟨as, s, t, by decide_cbv, hs, ht, of_decide_eq_true hhigh, hlow⟩

end BlockChain

end Bamboo
