import Bamboo.HotStuff.Handlers
import Bamboo.FourNodes

/-!
# The order in which a HotStuff replica delivers committed blocks

`CommitBlock` collects the committed block and its stored ancestors from the top down, and
`processCertificate` forwards the list as it is.  A commit that covers several blocks so delivers a block
before its parent.

* `SingleCommits`: every commit of the run covers one block at most;
* `Delivered`: what then holds of the delivered blocks, step by step;
* `delivered_in_order`, and `batch_reverses_order`, a run with a commit of three blocks.
-/

namespace Bamboo

namespace HotStuff

/-- The block was inserted into the forest. -/
def Inserted (trace : List Entry) (b : Block) : Prop :=
  ∃ lock parent, .accepted b lock parent ∈ trace

/-- The blocks that were inserted, in the order of time. -/
def insertedBlocks (trace : List Entry) : List Block :=
  trace.filterMap fun e => match e with
    | .accepted b _ _ => some b
    | _ => none

theorem mem_insertedBlocks {trace : List Entry} {b : Block} (h : Inserted trace b) :
    b ∈ insertedBlocks trace := by
  obtain ⟨lock, parent, hm⟩ := h
  exact List.mem_filterMap.2 ⟨_, hm, rfl⟩

/-- A well-parented set of blocks: certificates name the parent and carry its view, which is lower. -/
def WellParented (P : Block → Prop) : Prop :=
  ∀ b, P b → ∃ qc, b.qc = some qc ∧ qc.blockID = b.prevID ∧
    ∀ p, P p → p.id = b.prevID → qc.view = p.view ∧ p.view < b.view

/-- Whenever a block was committed, its parent was not stored above the lowest level of the forest. -/
def SingleCommits (trace : List Entry) : Prop :=
  ∀ qc g f batch, .committed qc g f batch ∈ trace →
    ∀ p, f.getVertex g.prevID = some p → uint64 p.view ≤ f.lowestLevel

variable {nd : Node} {In : Msg → Prop} {s t : HotStuff}

theorem Inserted.mono {trace trace' : List Entry} {b : Block} (h : Inserted trace b)
    (hs : trace ⊆ trace') : Inserted trace' b := by
  obtain ⟨lock, parent, hm⟩ := h
  exact ⟨lock, parent, hs hm⟩

/-- What is stored and what is delivered, as long as commits cover one block. -/
structure Delivered (s : HotStuff) : Prop where
  cur : 0 ≤ s.pm.curView
  stored : ∀ x b, s.bc.forrest.getVertex x = some b → Inserted s.trace b ∧ 0 ≤ b.view
  committed : ∀ b ∈ s.committedBlocks,
    Inserted s.trace b ∧ 0 ≤ b.view ∧ uint64 b.view ≤ s.bc.forrest.lowestLevel
  sorted : s.committedBlocks.Pairwise fun x y => x.view < y.view

theorem delivered_new (n : ℕ) : Delivered (HotStuff.new n) where
  cur := by simp [HotStuff.new, Pacemaker.new]
  stored := fun _ _ h => by
    simp [HotStuff.new, BlockChain.new, LevelledForest.new, LevelledForest.getVertex] at h
  committed := fun _ h => by simp [HotStuff.new] at h
  sorted := by simp [HotStuff.new]

/-- A commit whose block has no stored parent above the lowest level delivers that block only. -/
theorem batch_of_above {f : LevelledForest} {low : ℕ} {g : Block} {batch : List Block}
    (h : BlockChain.Above f low g batch)
    (hp : ∀ p, f.getVertex g.prevID = some p → uint64 p.view ≤ low) :
    batch = [] ∨ batch = [g] ∧ low < uint64 g.view := by
  cases h with
  | stop _ => exact Or.inl rfl
  | last hlow _ => exact Or.inr ⟨rfl, hlow⟩
  | @next _ p l hlow hpar ht =>
    have hle := hp p hpar
    cases ht with
    | stop _ => exact Or.inr ⟨rfl, hlow⟩
    | last h _ => omega
    | next h _ _ => omega

/-- A step that delivers nothing. -/
theorem Delivered.keep (h : Delivered s) (hcur : s.pm.curView ≤ t.pm.curView)
    (htr : s.trace ⊆ t.trace) (hc : t.committedBlocks = s.committedBlocks)
    (hl : t.bc.forrest.lowestLevel = s.bc.forrest.lowestLevel)
    (hst : ∀ x b, t.bc.forrest.getVertex x = some b → Inserted t.trace b ∧ 0 ≤ b.view) :
    Delivered t where
  cur := Int.le_trans h.cur hcur
  stored := hst
  committed := fun b hb => by
    obtain ⟨h₁, h₂, h₃⟩ := h.committed b (hc ▸ hb)
    exact ⟨h₁.mono htr, h₂, hl.symm ▸ h₃⟩
  sorted := hc.symm ▸ h.sorted

/-- The block that `commitRule` gives is the one stored under its own id. -/
theorem stored_of_commitRule (hok : Ok nd In s) {qc : QC} {g : Block}
    (hg : s.commitRule qc = some g) : s.bc.forrest.getVertex g.id = some g := by
  obtain ⟨-, -, p', -, -, -, hgs, -, -⟩ := commitRule_cases hg
  rw [(hok.stored _ _ hgs).1]
  exact hgs

theorem Delivered.act (h : Delivered s) (hok : Ok nd In s) (ha : Act nd In s t)
    (hs : SingleCommits t.trace) : Delivered t := by
  have hcur := ha.curView_le
  have htr := ha.subset.2
  have hstored : ∀ x b, s.bc.forrest.getVertex x = some b → Inserted t.trace b ∧ 0 ≤ b.view :=
    fun x b hx => ⟨(h.stored x b hx).1.mono htr, (h.stored x b hx).2⟩
  cases ha with
  | certify hk hv hp ht =>
    obtain ⟨v, rfl, -⟩ := updatePreferredView_cases ht
    exact h.keep hcur htr (by simp) (by simp) (by simpa using hstored)
  | offer hb hqc => exact h.keep hcur htr (by simp) (by simp) (by simpa using hstored)
  | @accept b f hb hf =>
    refine h.keep hcur htr rfl hf.lowest fun x b' hx => ?_
    dsimp only at hx
    rw [hf.stored] at hx
    split_ifs at hx with hnew
    · -- the new block is within the window, so its view is not negative
      cases hx
      have hlow := hb.lower
      have h0 := h.cur
      exact ⟨⟨_, _, List.mem_append_right _ (List.mem_singleton.2 rfl)⟩, by omega⟩
    · exact hstored x b' hx
  | commitFailed hd =>
    refine h.keep hcur htr rfl (by rw [hd.forrest]) fun x b hx => ?_
    exact hstored x b (hd.forrest ▸ hx)
  | @commit qc g batch forked bc hk hp h3 hg hc =>
    obtain ⟨g', hg', habove, hle, hlow⟩ := hc.done batch forked rfl
    have hgg : g' = g := by
      rw [stored_of_commitRule hok hg] at hg'
      cases hg'
      rfl
    subst hgg
    obtain ⟨hins, hnn⟩ := hstored _ g' hg'
    have hsingle := batch_of_above habove
      (hs qc g' _ batch (List.mem_append_right _ (List.mem_singleton.2 rfl)))
    have hold : ∀ b ∈ s.committedBlocks, uint64 b.view ≤ bc.forrest.lowestLevel := by
      intro b hb
      have := (h.committed b hb).2.2
      omega
    refine ⟨h.cur, fun x b hx => hstored x b (hc.stored x b hx), ?_, ?_⟩
    · intro b hb
      rcases List.mem_append.1 hb with hb | hb
      · exact ⟨(h.committed b hb).1.mono htr, (h.committed b hb).2.1, hold b hb⟩
      · rcases hsingle with rfl | ⟨rfl, -⟩
        · cases hb
        · rw [List.mem_singleton.1 hb]
          exact ⟨hins, hnn, Nat.le_of_eq hlow.symm⟩
    · show (s.committedBlocks ++ batch).Pairwise _
      rcases hsingle with rfl | ⟨rfl, hlt⟩
      · simpa using h.sorted
      · -- everything delivered so far is at or below the old lowest level
        rw [List.pairwise_append]
        refine ⟨h.sorted, List.pairwise_singleton _ _, fun x hx y hy => ?_⟩
        rw [List.mem_singleton.1 hy]
        obtain ⟨-, hx0, hxl⟩ := h.committed x hx
        have hx' := uint64_of_nonneg hx0
        have hg'' := uint64_of_nonneg hnn
        omega
  | vote hp hr hv => exact h.keep hcur htr rfl rfl hstored
  | build hv hc => exact h.keep hcur htr rfl rfl hstored
  | _ => exact h.keep hcur htr rfl rfl hstored

/-- In a run whose commits all cover one block, the delivered blocks have increasing views. -/
theorem delivered_of_run (hb : nd.isByz = false) (inputs : List Safety.Input)
    (hs : SingleCommits (runOn nd inputs).trace) : Delivered (runOn nd inputs) := by
  refine runOn_invariant hb inputs (P := fun s => SingleCommits s.trace → Delivered s)
    (fun _ => delivered_new nd.n) (fun s t hok ih ha hs => ?_) hs
  refine (ih fun qc g f batch hm => ?_).act hok ha hs
  exact hs qc g f batch (ha.subset.2 hm)

/-- **Delivery order.**  In a run on well-parented blocks in which no commit covers more than one block, a
block is delivered after its parent; and two replicas with such runs that deliver the same blocks
deliver them in the same order. -/
theorem delivered_in_order (hb : nd.isByz = false) {inputs : List Safety.Input}
    (hs : SingleCommits (runOn nd inputs).trace)
    (hw : WellParented (Inserted (runOn nd inputs).trace)) :
    (∀ (i j : ℕ) (x p : Block), (runOn nd inputs).committedBlocks[i]? = some x →
      (runOn nd inputs).committedBlocks[j]? = some p → p.id = x.prevID → j < i) ∧
    ∀ (nd' : Node) (inputs' : List Safety.Input), nd'.isByz = false →
      SingleCommits (runOn nd' inputs').trace →
      (∀ x, x ∈ (runOn nd inputs).committedBlocks ↔ x ∈ (runOn nd' inputs').committedBlocks) →
      (runOn nd inputs).committedBlocks = (runOn nd' inputs').committedBlocks := by
  have hd := delivered_of_run hb inputs hs
  constructor
  · intro i j x p hx hp hpar
    -- the parent's view is lower, and views increase along the list
    obtain ⟨qc, -, -, hparent⟩ := hw x (hd.committed x (List.mem_of_getElem? hx)).1
    have hlt := (hparent p (hd.committed p (List.mem_of_getElem? hp)).1 hpar).2
    obtain ⟨hi, rfl⟩ := List.getElem?_eq_some_iff.1 hx
    obtain ⟨hj, rfl⟩ := List.getElem?_eq_some_iff.1 hp
    by_contra hle
    rcases Nat.lt_or_eq_of_le (Nat.le_of_not_lt hle) with h | h
    · have := List.pairwise_iff_getElem.1 hd.sorted i j hi hj h
      omega
    · subst h
      omega
  · intro nd' inputs' hb' hs' hiff
    have hd' := delivered_of_run hb' inputs' hs'
    have hnd : ∀ {l : List Block}, (l.Pairwise fun x y => x.view < y.view) → l.Nodup :=
      fun h => h.imp fun hlt heq => by rw [heq] at hlt; omega
    refine List.Perm.eq_of_pairwise (fun a b _ _ h₁ h₂ => ?_) hd.sorted hd'.sorted
      ((List.perm_ext_iff_of_nodup (hnd hd.sorted) (hnd hd'.sorted)).2 hiff)
    omega

/-- `WellParented` for a list of blocks. -/
def wellParented (bs : List Block) : Bool :=
  bs.all fun b => match b.qc with
    | none => false
    | some qc => decide (qc.blockID = b.prevID ∧
        ∀ p ∈ bs, p.id = b.prevID → qc.view = p.view ∧ p.view < b.view)

theorem wellParented_of_list {P : Block → Prop} {bs : List Block} (hP : ∀ b, P b → b ∈ bs)
    (h : wellParented bs = true) : WellParented P := by
  intro b hb
  have hall := List.all_eq_true.1 h b (hP b hb)
  cases hq : b.qc with
  | none => simp [hq] at hall
  | some qc =>
    simp only [hq] at hall
    obtain ⟨hid, hp⟩ := of_decide_eq_true hall
    exact ⟨qc, rfl, hid, fun p hPp => hp p (hP p hPp)⟩

/-- `SingleCommits`, computed. -/
def singleCommits (trace : List Entry) : Bool :=
  trace.all fun e => match e with
    | .committed _ g f _ => decide (∀ p ∈ f.getVertex g.prevID, uint64 p.view ≤ f.lowestLevel)
    | _ => true

theorem singleCommits_of_list {trace : List Entry} (h : singleCommits trace = true) :
    SingleCommits trace := by
  intro qc g f batch hm p hp
  exact of_decide_eq_true (List.all_eq_true.1 h _ hm) p hp

/-- What happens at a node that gets the blocks of views 1 and 2, times out twice, and gets the blocks
of views 4 to 7. -/
def skipsView : List Safety.Input :=
  [.msg (.block (FourNodes.block 1 .initial)),
    .msg (.block (FourNodes.block 2 (FourNodes.certificate 1))),
    .event .timer,
    .event .timer,
    .msg (.block (FourNodes.block 4 (FourNodes.certificate 2))),
    .msg (.block (FourNodes.block 5 (FourNodes.certificate 4))),
    .msg (.block (FourNodes.block 6 (FourNodes.certificate 5))),
    .msg (.block (FourNodes.block 7 (FourNodes.certificate 6)))]

/-- **A commit of several blocks delivers a block before its parent.**  The received blocks, all of
them inserted, are well-parented, and the block of view 4 is committed with those of views 2 and 1. -/
theorem batch_reverses_order :
    WellParented (fun b => Safety.Received skipsView (.block b) ∨
      Inserted (runOn FourNodes.second skipsView).trace b) ∧
    ∃ (i j : ℕ) (x p : Block), (runOn FourNodes.second skipsView).committedBlocks[i]? = some x ∧
      (runOn FourNodes.second skipsView).committedBlocks[j]? = some p ∧ p.id = x.prevID ∧ ¬ j < i := by
  have hrun : wellParented (insertedBlocks (runOn FourNodes.second skipsView).trace) = true ∧
      insertedBlocks (runOn FourNodes.second skipsView).trace =
        [FourNodes.block 1 .initial, FourNodes.block 2 (FourNodes.certificate 1),
          FourNodes.block 4 (FourNodes.certificate 2), FourNodes.block 5 (FourNodes.certificate 4),
          FourNodes.block 6 (FourNodes.certificate 5), FourNodes.block 7 (FourNodes.certificate 6)] ∧
      (runOn FourNodes.second skipsView).committedBlocks =
        [FourNodes.block 4 (FourNodes.certificate 2), FourNodes.block 2 (FourNodes.certificate 1),
          FourNodes.block 1 .initial] := by
    decide_cbv
  obtain ⟨hwp, hins, hcb⟩ := hrun
  refine ⟨wellParented_of_list ?_ hwp, 0, 1, FourNodes.block 4 (FourNodes.certificate 2),
    FourNodes.block 2 (FourNodes.certificate 1), ?_⟩
  · rintro b (hb | hb)
    · rw [hins]
      simpa [Safety.Received, skipsView] using hb
    · exact mem_insertedBlocks hb
  · rw [hcb]
    exact ⟨rfl, rfl, rfl, by omega⟩

/-- The same chain without a skipped view. -/
def skipsNoView : List Safety.Input :=
  [.msg (.block (FourNodes.block 1 .initial)),
    .msg (.block (FourNodes.block 2 (FourNodes.certificate 1))),
    .msg (.block (FourNodes.block 3 (FourNodes.certificate 2))),
    .msg (.block (FourNodes.block 4 (FourNodes.certificate 3))),
    .msg (.block (FourNodes.block 5 (FourNodes.certificate 4)))]

/-- The blocks of views 1 and 2 are delivered one by one, the older one first. -/
theorem delivered_in_order_skipsNoView :
    ((runOn FourNodes.second skipsNoView).committedBlocks =
      [FourNodes.block 1 .initial, FourNodes.block 2 (FourNodes.certificate 1)]) ∧
    ∀ (i j : ℕ) (x p : Block), (runOn FourNodes.second skipsNoView).committedBlocks[i]? = some x →
      (runOn FourNodes.second skipsNoView).committedBlocks[j]? = some p → p.id = x.prevID → j < i := by
  have hrun : wellParented (insertedBlocks (runOn FourNodes.second skipsNoView).trace) = true ∧
      singleCommits (runOn FourNodes.second skipsNoView).trace = true ∧
      (runOn FourNodes.second skipsNoView).committedBlocks =
        [FourNodes.block 1 .initial, FourNodes.block 2 (FourNodes.certificate 1)] := by
    decide_cbv
  obtain ⟨hwp, hsc, hcb⟩ := hrun
  exact ⟨hcb, (delivered_in_order rfl (singleCommits_of_list hsc)
    (wellParented_of_list (fun b hb => mem_insertedBlocks hb) hwp)).1⟩

end HotStuff

end Bamboo
