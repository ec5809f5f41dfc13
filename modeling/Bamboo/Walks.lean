import Bamboo.Lib.Walk
import Bamboo.Levels

/-!
# The two walks of a commit

`CommitBlock` walks from a block to its stored ancestors, and `PruneUpToLevel` from the level of a block to the
level of the parent of the first block listed there, and so on.  Both are loops without a bound, and the
second one takes for granted that a level that it comes to starts with a FULL container.

* `ancestorStep`, `levelStep`: one round of each loop;
* `commitLoop_returns_iff`, `committedLevels_returns_iff`: the loops return exactly if the walks do;
* `Sinking`: the second one goes down, and so it returns.
-/

namespace Bamboo

namespace LevelledForest

variable (f : LevelledForest)

/-- One round of the first loop of `PruneUpToLevel`. -/
def levelStep (l : ℕ) : Except Fault (Option ℕ) :=
  if f.lowestLevel ≤ l ∧ 1 < l then
    match f.atLevel l with
    | [] => .error .indexOutOfRange
    | p :: _ =>
      match f.heap[p]?.bind VertexContainer.vertex with
      | none => .error .nilDereference
      | some vertex =>
        match vertex.parent with
        | none => .error .nilDereference
        | some (parentID, _) =>
          match f.getVertex parentID with
          | none => .ok none
          | some parentVertex =>
            if parentVertex.level < f.lowestLevel then .ok none else .ok (some parentVertex.level)
  else .ok none

/-- One round of the loop of `CommitBlock`. -/
def ancestorStep (block : Block) : Except Fault (Option Block) :=
  .ok (if f.lowestLevel < uint64 block.view then f.getVertex block.prevID else none)

variable {f}

theorem committedLevels_succ (f : LevelledForest) (fuel l : ℕ) (acc : List ℕ) :
    f.committedLevels (fuel + 1) l acc = match f.levelStep l with
      | .error e => .error e
      | .ok none => .ok acc
      | .ok (some m) => f.committedLevels fuel m (m :: acc) := by
  conv_lhs => unfold committedLevels
  unfold levelStep
  split_ifs
  · cases f.atLevel l with
    | nil => rfl
    | cons p ps =>
      dsimp only
      cases f.heap[p]?.bind VertexContainer.vertex with
      | none => rfl
      | some vertex =>
        dsimp only
        cases vertex.parent with
        | none => rfl
        | some pr =>
          dsimp only
          cases f.getVertex pr.1 with
          | none => rfl
          | some parentVertex =>
            dsimp only
            split_ifs <;> rfl
  · rfl

theorem committedLevels_returns_iff {fuel l : ℕ} {acc : List ℕ} :
    (∃ ls, f.committedLevels fuel l acc = .ok ls) ↔ Walk.walks f.levelStep fuel l := by
  induction fuel generalizing l acc with
  | zero => simp [committedLevels, Walk.walks]
  | succ fuel ih =>
    rw [committedLevels_succ, Walk.walks]
    cases f.levelStep l with
    | error e => simp
    | ok o =>
      cases o with
      | none => simp
      | some m => exact ih

/-- A level that the walk goes on from has containers. -/
theorem mem_keys_of_levelStep {l m : ℕ} (h : Walk.Leads f.levelStep l m) : l ∈ f.verticesAtLevel.keys := by
  unfold Walk.Leads levelStep at h
  split_ifs at h with hl
  · cases hat : f.verticesAtLevel.lookup l with
    | none =>
      rw [atLevel, hat] at h
      cases h
    | some ps => exact GoMap.mem_keys hat
  · cases h

/-- From the level of a stored block the walk ends, or goes down to the level of another one. -/
def Sinking (f : LevelledForest) : Prop :=
  ∀ x b, f.getVertex x = some b → f.levelStep b.level = .ok none ∨
    ∃ y a, f.getVertex y = some a ∧ a.level < b.level ∧ f.levelStep b.level = .ok (some a.level)

/-- Where it is so, the walk of `PruneUpToLevel` from a stored block ends. -/
theorem Sinking.committedLevels (h : f.Sinking) {x : ℕ} {b : Block} (hb : f.getVertex x = some b) :
    ∃ ls, f.committedLevels (f.verticesAtLevel.entries.length + 2) b.level [] = .ok ls := by
  -- it comes to levels of stored blocks only, each below the one before
  have hstored : ∀ l, Relation.ReflTransGen (Walk.Leads f.levelStep) b.level l →
      ∃ y a, f.getVertex y = some a ∧ a.level = l := by
    intro l hl
    induction hl with
    | refl => exact ⟨x, b, hb, rfl⟩
    | tail _ hstep ih =>
      obtain ⟨y, a, ha, rfl⟩ := ih
      rcases h y a ha with he | ⟨z, d, hd, -, he⟩
      · rw [Walk.Leads, he] at hstep
        cases hstep
      · rw [Walk.Leads, he] at hstep
        cases hstep
        exact ⟨z, d, hd, rfl⟩
  rw [committedLevels_returns_iff]
  have hlen : f.verticesAtLevel.keys.length < f.verticesAtLevel.entries.length + 2 := by
    rw [AList.keys, List.keys, List.length_map]
    omega
  refine Walk.walks_of_safe (fun l hl => Walk.safe_of_lt id (fun e he => ?_) ?_)
    (fun l m _ hlm => mem_keys_of_levelStep hlm) hlen
  · obtain ⟨y, a, ha, rfl⟩ := hstored l hl
    rcases h y a ha with hs | ⟨_, _, _, _, hs⟩
    · rw [hs] at he
      cases he
    · rw [hs] at he
      cases he
  · intro m n hm hstep
    obtain ⟨y, a, ha, rfl⟩ := hstored m (hl.trans hm)
    rcases h y a ha with hs | ⟨_, _, _, hlt, hs⟩
    · rw [Walk.Leads, hs] at hstep
      cases hstep
    · rw [Walk.Leads, hs] at hstep
      cases hstep
      exact hlt

/-- The stored blocks. -/
def storedBlocks (f : LevelledForest) : List Block := f.vertices.keys.filterMap f.getVertex

theorem mem_storedBlocks {x : ℕ} {b : Block} (h : f.getVertex x = some b) : b ∈ f.storedBlocks := by
  refine List.mem_filterMap.2 ⟨x, ?_, h⟩
  simp only [getVertex, Option.bind_eq_bind, Option.bind_eq_some_iff] at h
  obtain ⟨p, hp, -⟩ := h
  exact GoMap.mem_keys hp

theorem length_storedBlocks (f : LevelledForest) : f.storedBlocks.length ≤ f.vertices.entries.length := by
  refine (List.length_filterMap_le _ _).trans ?_
  rw [AList.keys, List.keys, List.length_map]

theorem ancestorStep_parent {b p : Block} (h : Walk.Leads f.ancestorStep b p) :
    f.lowestLevel < b.level ∧ f.ParentOf b p := by
  unfold Walk.Leads ancestorStep at h
  split_ifs at h with hlow
  · exact ⟨hlow, Except.ok.inj h⟩
  · cases h

/-- The walk along the ancestors of a stored block comes to stored blocks. -/
theorem stored_of_ancestorStep {x : ℕ} {b c : Block} (hc : f.getVertex x = some c)
    (h : Relation.ReflTransGen (Walk.Leads f.ancestorStep) c b) : ∃ y, f.getVertex y = some b := by
  cases h with
  | refl => exact ⟨x, hc⟩
  | tail _ hp => exact ⟨_, (ancestorStep_parent hp).2⟩

end LevelledForest

namespace BlockChain

variable {bc : BlockChain}

theorem commitLoop_returns_iff {view : ℤ} {fuel : ℕ} {block : Block} {acc : List Block} :
    (∃ l t, commitLoop view fuel block acc bc = .ok l t) ↔
      Walk.walks bc.forrest.ancestorStep fuel block := by
  induction fuel generalizing bc block acc with
  | zero =>
    refine ⟨?_, fun h => h.elim⟩
    rintro ⟨l, t, h⟩
    cases h
  | succ fuel ih =>
    unfold commitLoop Walk.walks LevelledForest.ancestorStep
    rw [Prog.get_bind_apply]
    by_cases hlow : bc.forrest.lowestLevel < uint64 block.view
    · rw [if_pos hlow, if_pos hlow, Prog.set_bind_apply]
      cases hp : bc.forrest.getVertex block.prevID with
      | none => exact ⟨fun _ => trivial, fun _ => ⟨_, _, rfl⟩⟩
      | some parent => exact ih
    · rw [if_neg hlow, if_neg hlow]
      exact ⟨fun _ => trivial, fun _ => ⟨_, _, rfl⟩⟩

end BlockChain

end Bamboo
