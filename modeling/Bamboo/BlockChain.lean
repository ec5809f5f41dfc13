import Bamboo.Forest
import Bamboo.Quorum

/-!
# The block chain of a replica

`blockchain/blockchain.go`: the forest, the votes and the counters, and the operation that commits a
block together with its stored ancestors.
-/

namespace Bamboo

/-- `blockchain.BlockChain`; `longestTailBlock` is never used. -/
structure BlockChain where
  forrest : LevelledForest
  quorum : Quorum
  highestComitted : ℤ
  committedBlockNo : ℤ
  totalBlockIntervals : ℤ
  prunedBlockNo : ℤ

namespace BlockChain

/-- `NewBlockchain`. -/
def new (n : ℕ) : BlockChain := ⟨.new, .new n, 0, 0, 0, 0⟩

variable (bc : BlockChain)

/-- `Exists`. -/
def exists_ (id : ℕ) : Bool := bc.forrest.hasVertex id

/-- `GetBlockByID`; `none` is its error. -/
def getBlockByID (id : ℕ) : Option Block := bc.forrest.getVertex id

/-- `GetParentBlock`; `none` is its error.  The parent id is the stored block's `PrevID`. -/
def getParentBlock (id : ℕ) : Option Block := do
  let vertex ← bc.forrest.getVertex id
  bc.forrest.getVertex vertex.prevID

/-- `votingRule` of HotStuff and of its two-chain variants; `none` is its error. -/
def votingRule (lastVotedView preferredView : ℤ) (block : Block) : Option Bool :=
  if block.view ≤ 2 then some true
  else
    match bc.getParentBlock block.id with
    | none => none
    | some parentBlock =>
      if block.view ≤ lastVotedView ∨ parentBlock.view < preferredView then some false
      else some true

/-- `AddBlock`. -/
def addBlock (block : Block) : Go BlockChain Unit :=
  Prog.zoom forrest (fun f bc => { bc with forrest := f }) (LevelledForest.addVertex block)

/-- `AddVote`. -/
def addVote (cf : Config) (vote : Vote) : Option QC × BlockChain :=
  let (qc, q) := bc.quorum.add cf vote
  (qc, { bc with quorum := q })

/-- The loop of `CommitBlock`: from `block` down along `PrevID` while the block is above the lowest
level.  It either runs into a missing parent, ends at the lowest level, or goes round a cycle. -/
def commitLoop (view : ℤ) : ℕ → Block → List Block → Go BlockChain (List Block)
  | 0, _, _ => throw .diverge
  | fuel + 1, block, committedBlocks => do
    let bc ← get
    if bc.forrest.lowestLevel < uint64 block.view then
      set { bc with
        quorum := bc.quorum.delete block.id
        committedBlockNo := bc.committedBlockNo + 1
        totalBlockIntervals := bc.totalBlockIntervals + (view - block.view) }
      match bc.forrest.getVertex block.prevID with
      | none => return committedBlocks ++ [block]
      | some parent => commitLoop view fuel parent (committedBlocks ++ [block])
    else return committedBlocks

/-- `CommitBlock`: the committed blocks, newest first, and the forked blocks, or `none` for its
error. -/
def commitBlock (id : ℕ) (view : ℤ) :
    Go BlockChain (Option (List Block × List Block)) := do
  let bc ← get
  match bc.forrest.getVertex id with
  | none => return none
  | some block =>
    set { bc with highestComitted := block.view }
    let committedBlocks ← commitLoop view (bc.forrest.vertices.entries.length + 1) block []
    let pruned ← Prog.zoom forrest (fun f bc => { bc with forrest := f })
      (LevelledForest.pruneUpToLevel (uint64 block.view))
    match pruned with
    | none => return none
    | some (forkedBlocks, prunedNo) =>
      modify fun bc => { bc with prunedBlockNo := bc.prunedBlockNo + prunedNo }
      return some (committedBlocks, forkedBlocks)

/-! ### What a commit returns -/

variable {bc}

/-- The chain of stored blocks from `b` down along `PrevID`, as long as it stays above `low`. -/
inductive Above (f : LevelledForest) (low : ℕ) : Block → List Block → Prop
  | stop {b : Block} (h : uint64 b.view ≤ low) : Above f low b []
  | last {b : Block} (h : low < uint64 b.view) (hn : f.getVertex b.prevID = none) :
      Above f low b [b]
  | next {b p : Block} {l : List Block} (h : low < uint64 b.view)
      (hp : f.getVertex b.prevID = some p) (ht : Above f low p l) : Above f low b (b :: l)

/-- The forest and the certificates' raw material: recorded votes only disappear. -/
structure Deleted (bc t : BlockChain) : Prop where
  forrest : t.forrest = bc.forrest
  wf : bc.quorum.WF → t.quorum.WF
  has : ∀ v, t.quorum.Has v → bc.quorum.Has v
  total : t.quorum.total = bc.quorum.total

theorem Deleted.refl (bc : BlockChain) : Deleted bc bc := ⟨rfl, id, fun _ h => h, rfl⟩

theorem commitLoop_spec (view : ℤ) (fuel : ℕ) (block : Block) (acc : List Block) :
    Prog.wp (commitLoop view fuel block acc)
      (fun l t => Deleted bc t ∧
        ∃ l', l = acc ++ l' ∧ Above bc.forrest bc.forrest.lowestLevel block l')
      (fun t => Deleted bc t) bc := by
  induction fuel generalizing bc block acc with
  | zero => exact Deleted.refl bc
  | succ fuel ih =>
    unfold commitLoop
    simp only [Prog.wp_bind, Prog.wp_get, Prog.wp_ite, Prog.wp_set]
    refine ⟨fun hlow => ?_, fun hlow => ⟨Deleted.refl bc, [], by simp, .stop (by omega)⟩⟩
    have hdel : Deleted bc { bc with
        quorum := bc.quorum.delete block.id
        committedBlockNo := bc.committedBlockNo + 1
        totalBlockIntervals := bc.totalBlockIntervals + (view - block.view) } :=
      ⟨rfl, fun h => Quorum.wf_delete h _, fun _ h => Quorum.has_delete h, rfl⟩
    cases hp : bc.forrest.getVertex block.prevID with
    | none => exact ⟨hdel, [block], rfl, .last hlow hp⟩
    | some parent =>
      refine Prog.wp_mono (ih parent (acc ++ [block])) ?_ ?_
      · rintro l t ⟨⟨h₁, h₂, h₃, h₄⟩, l', rfl, hl'⟩
        exact ⟨⟨h₁, fun h => h₂ (hdel.wf h), fun v h => hdel.has v (h₃ v h), h₄⟩,
          block :: l', by simp, .next hlow hp hl'⟩
      · rintro t ⟨h₁, h₂, h₃, h₄⟩
        exact ⟨h₁, fun h => h₂ (hdel.wf h), fun v h => hdel.has v (h₃ v h), h₄⟩

/-- What `CommitBlock` does: nothing is stored or recorded anew, and a successful call commits the
stored chain above the lowest level, which becomes the committed block's level. -/
structure Committed (bc : BlockChain) (id : ℕ) (r : Option (List Block × List Block))
    (t : BlockChain) : Prop where
  forrest : t.forrest.WF
  stored : ∀ x b, t.forrest.getVertex x = some b → bc.forrest.getVertex x = some b
  wf : bc.quorum.WF → t.quorum.WF
  has : ∀ v, t.quorum.Has v → bc.quorum.Has v
  total : t.quorum.total = bc.quorum.total
  done : ∀ l fl, r = some (l, fl) → ∃ b, bc.forrest.getVertex id = some b ∧
    Above bc.forrest bc.forrest.lowestLevel b l ∧ bc.forrest.lowestLevel ≤ uint64 b.view ∧
    t.forrest.lowestLevel = uint64 b.view
  failed : r = none → t.forrest = bc.forrest
  indexed : ∀ lv : ℕ → ℕ → Prop, bc.forrest.Indexed lv → t.forrest.Indexed lv

theorem commitBlock_spec (hf : bc.forrest.WF) (id : ℕ) (view : ℤ) :
    Prog.wp (commitBlock id view) (fun r t => Committed bc id r t) (fun t => Deleted bc t) bc := by
  unfold commitBlock
  simp only [Prog.wp_bind, Prog.wp_get]
  cases hv : bc.forrest.getVertex id with
  | none =>
    exact ⟨hf, fun _ _ h => h, fun h => h, fun _ h => h, rfl, fun l fl h => by simp at h,
      fun _ => rfl, fun _ h => h⟩
  | some block =>
    simp only [Prog.wp_bind, Prog.wp_set]
    refine Prog.wp_mono (commitLoop_spec view _ block []) ?_
      fun t h => ⟨h.forrest, h.wf, h.has, h.total⟩
    rintro l t ⟨⟨h₁, h₂, h₃, h₄⟩, l', rfl, hl'⟩
    simp only [Prog.wp_zoom]
    refine Prog.wp_mono (LevelledForest.pruneUpToLevel_spec (h₁ ▸ hf) _) ?_ ?_
    · rintro r t' ⟨hwf, hst, hfail, hlow, hix⟩
      cases r with
      | none =>
        exact ⟨hwf, fun x b h => h₁ ▸ hst x b h, h₂, h₃, h₄, fun l fl h => by simp at h,
          fun _ => (hfail rfl).trans h₁, fun lv h => hix lv (h₁ ▸ h)⟩
      | some res =>
        obtain ⟨fl, k⟩ := res
        obtain ⟨hle, ht'⟩ := hlow rfl
        refine ⟨hwf, fun x b h => h₁ ▸ hst x b h, h₂, h₃, h₄, ?_, fun h => by simp at h,
          fun lv h => hix lv (h₁ ▸ h)⟩
        intro l fl' h
        simp only [Option.some.injEq, Prod.mk.injEq] at h
        obtain ⟨rfl, rfl⟩ := h
        exact ⟨block, hv, hl', h₁ ▸ hle, ht'⟩
    · rintro t' rfl
      exact ⟨h₁, h₂, h₃, h₄⟩

/-- A vote above view 2 that `votingRule` allows is for a stored block with a stored parent, which is not
below the lock. -/
theorem votingRule_cases {lastVotedView preferredView : ℤ} {c : Block}
    (hr : bc.votingRule lastVotedView preferredView c = some true) (h2 : 2 < c.view) :
    ∃ c' a, bc.forrest.getVertex c.id = some c' ∧ bc.forrest.getVertex c'.prevID = some a ∧
      preferredView ≤ a.view := by
  unfold votingRule at hr
  rw [if_neg (by omega)] at hr
  cases hp : bc.getParentBlock c.id with
  | none => simp [hp] at hr
  | some a =>
    simp only [hp] at hr
    split_ifs at hr with hlow
    · cases hr
    simp only [getParentBlock, Option.bind_eq_bind, Option.bind_eq_some_iff] at hp
    obtain ⟨c', hc', ha⟩ := hp
    rw [not_or] at hlow
    exact ⟨c', a, hc', ha, by omega⟩

theorem addVote_cases (cf : Config) (hq : bc.quorum.WF) (v : Vote) :
    bc.addVote cf v = (none, bc) ∨
      bc.addVote cf v = (none, { bc with quorum := bc.quorum.record v }) ∨
      ∃ qc, bc.addVote cf v = (some qc, { bc with quorum := bc.quorum.record v }) ∧
        Quorum.Certifies cf (bc.quorum.record v) v qc := by
  unfold addVote
  rcases Quorum.add_cases cf hq v with h | h | ⟨qc, h, hc⟩
  · exact Or.inl (by rw [h])
  · exact Or.inr (Or.inl (by rw [h]))
  · exact Or.inr (Or.inr ⟨qc, by rw [h], hc⟩)

end BlockChain

end Bamboo
