import Bamboo.Lib.Pair
import Bamboo.HotStuff.Locks

/-!
# What the outside sees of a replica

Two replicas are alike when they are in the same view, with the same lock, forest and buffered blocks, with
certificates for the same block and view, and have written and sent the same.  The votes on record, the
certificates that wait for their block and the trace do not matter, except for the votes cast.  A
certificate, the checks of a block and its insertion take alike replicas to alike replicas.
-/

namespace Bamboo

/-- The block of a vote. -/
def votedBlock : Entry → Option Block
  | .voted b => some b
  | _ => none

/-- The blocks a replica voted for, in the order of its votes. -/
def votedBlocks (trace : List Entry) : List Block := trace.filterMap votedBlock

theorem votedBlocks_append (trace : List Entry) (e : Entry) :
    votedBlocks (trace ++ [e]) = votedBlocks trace ++ (votedBlock e).toList := by
  unfold votedBlocks
  rw [List.filterMap_append]
  cases h : votedBlock e with
  | none => simp [h]
  | some b => simp [h]

/-! ### Commits -/

namespace BlockChain

open Prog

variable {bc bc' : BlockChain}

theorem commitLoop_pair (view : ℤ) (fuel : ℕ) (block : Block) (acc : List Block)
    (h : bc.forrest = bc'.forrest) :
    Pair (commitLoop view fuel block acc) (commitLoop view fuel block acc)
      (fun l l' t t' => l = l' ∧ t.forrest = t'.forrest) bc bc' := by
  induction fuel generalizing bc bc' block acc with
  | zero => exact pair_of_error rfl rfl
  | succ fuel ih =>
    unfold commitLoop
    refine pair_get_bind (pair_ite (by rw [h]) (fun _ => pair_set_bind ?_) fun _ => pair_pure ⟨rfl, h⟩)
    rw [h]
    cases bc'.forrest.getVertex block.prevID with
    | none => exact pair_pure ⟨rfl, rfl⟩
    | some parent => exact ih parent (acc ++ [block]) rfl

theorem commitBlock_pair (id : ℕ) (view : ℤ) (h : bc.forrest = bc'.forrest) :
    Pair (commitBlock id view) (commitBlock id view)
      (fun r r' t t' => r = r' ∧ t.forrest = t'.forrest) bc bc' := by
  unfold commitBlock
  refine pair_get_bind ?_
  rw [h]
  cases bc'.forrest.getVertex id with
  | none => exact pair_pure ⟨rfl, h⟩
  | some block =>
    refine pair_set_bind (Pair.bind (commitLoop_pair view _ block [] rfl) ?_)
    rintro l _ t t' ⟨rfl, ht⟩
    -- both forests are pruned in the same way
    have hprune : Pair
        (zoom forrest (fun f bc => { bc with forrest := f }) (LevelledForest.pruneUpToLevel (uint64 block.view)))
        (zoom forrest (fun f bc => { bc with forrest := f }) (LevelledForest.pruneUpToLevel (uint64 block.view)))
        (fun r r' u u' => r = r' ∧ u.forrest = u'.forrest) t t' := by
      refine pair_zoom ?_
      rw [ht]
      unfold Pair
      cases LevelledForest.pruneUpToLevel (uint64 block.view) t'.forrest with
      | ok r f => exact ⟨rfl, rfl⟩
      | error e f => trivial
    refine Pair.bind hprune ?_
    rintro r _ u u' ⟨rfl, hu⟩
    cases r with
    | none => exact pair_pure ⟨rfl, hu⟩
    | some res => exact pair_modify_bind (pair_pure ⟨rfl, hu⟩)

end BlockChain

namespace HotStuff

open Prog

variable {nd : Node} {s t u : HotStuff} {b : Block} {qc qc' : QC}

/-- The two states agree on everything that certificates and blocks are judged by. -/
structure SameCore (s t : HotStuff) : Prop where
  pm : s.pm = t.pm
  lastVotedView : s.lastVotedView = t.lastVotedView
  preferredView : s.preferredView = t.preferredView
  highView : s.highQC.view = t.highQC.view
  highID : s.highQC.blockID = t.highQC.blockID
  forrest : s.bc.forrest = t.bc.forrest
  committedBlocks : s.committedBlocks = t.committedBlocks
  forkedBlocks : s.forkedBlocks = t.forkedBlocks
  bufferedBlocks : s.bufferedBlocks = t.bufferedBlocks

namespace SameCore

theorem refl (s : HotStuff) : SameCore s s := ⟨rfl, rfl, rfl, rfl, rfl, rfl, rfl, rfl, rfl⟩

theorem symm (h : SameCore s t) : SameCore t s :=
  ⟨h.pm.symm, h.lastVotedView.symm, h.preferredView.symm, h.highView.symm, h.highID.symm, h.forrest.symm,
    h.committedBlocks.symm, h.forkedBlocks.symm, h.bufferedBlocks.symm⟩

theorem trans (h : SameCore s t) (h' : SameCore t u) : SameCore s u :=
  ⟨h.pm.trans h'.pm, h.lastVotedView.trans h'.lastVotedView, h.preferredView.trans h'.preferredView,
    h.highView.trans h'.highView, h.highID.trans h'.highID, h.forrest.trans h'.forrest,
    h.committedBlocks.trans h'.committedBlocks, h.forkedBlocks.trans h'.forkedBlocks,
    h.bufferedBlocks.trans h'.bufferedBlocks⟩

theorem getParentBlock (h : SameCore s t) (id : ℕ) :
    s.bc.getParentBlock id = t.bc.getParentBlock id := by
  unfold BlockChain.getParentBlock
  rw [h.forrest]

theorem votingRule (h : SameCore s t) (b : Block) : s.votingRule b = t.votingRule b := by
  unfold HotStuff.votingRule BlockChain.votingRule
  rw [h.getParentBlock, h.lastVotedView, h.preferredView]

theorem commitRule (h : SameCore s t) (hv : qc.view = qc'.view) (hid : qc.blockID = qc'.blockID) :
    s.commitRule qc = t.commitRule qc' := by
  unfold HotStuff.commitRule
  simp only [h.getParentBlock, hv, hid]

/-- The certificates for one block and view have the same effect on the lock. -/
theorem updatePreferredView (h : SameCore s t) (hv : qc.view = qc'.view) (hid : qc.blockID = qc'.blockID) :
    s.updatePreferredView qc = none ∧ t.updatePreferredView qc' = none ∨
      ∃ v, s.updatePreferredView qc = some { s with preferredView := v } ∧
        t.updatePreferredView qc' = some { t with preferredView := v } := by
  unfold HotStuff.updatePreferredView
  rw [hv, hid, h.getParentBlock]
  simp only [BlockChain.getBlockByID, h.forrest]
  by_cases h2 : qc'.view ≤ 2
  · rw [if_pos h2, if_pos h2]
    exact Or.inr ⟨t.preferredView, by rw [← h.preferredView], rfl⟩
  rw [if_neg h2, if_neg h2]
  cases t.bc.forrest.getVertex qc'.blockID with
  | none => exact Or.inl ⟨rfl, rfl⟩
  | some x =>
    cases t.bc.getParentBlock qc'.blockID with
    | none => exact Or.inl ⟨rfl, rfl⟩
    | some g =>
      simp only [Option.bind_eq_bind, Option.bind_some, h.preferredView]
      split_ifs
      · exact Or.inr ⟨g.view, rfl, rfl⟩
      · exact Or.inr ⟨t.preferredView, by rw [← h.preferredView], rfl⟩

theorem updateHighQC (h : SameCore s t) (hv : qc.view = qc'.view) (hid : qc.blockID = qc'.blockID) :
    SameCore (s.updateHighQC qc) (t.updateHighQC qc') := by
  unfold HotStuff.updateHighQC
  rw [h.highView, hv]
  split_ifs
  · exact { h with highView := hv, highID := hid }
  · exact h

/-- A certified view is entered, with a new lock. -/
theorem enter (h : SameCore s t) (view v : ℤ) :
    SameCore { s with preferredView := v, pm := s.pm.advanceView view }
      { t with preferredView := v, pm := t.pm.advanceView view } :=
  { h with pm := by rw [h.pm], preferredView := rfl }

end SameCore

/-- The two states look the same from outside. -/
structure Alike (s t : HotStuff) : Prop extends SameCore s t where
  sent : s.sent = t.sent
  votes : votedBlocks s.trace = votedBlocks t.trace

namespace Alike

theorem refl (s : HotStuff) : Alike s s := ⟨.refl s, rfl, rfl⟩

theorem symm (h : Alike s t) : Alike t s := ⟨h.toSameCore.symm, h.sent.symm, h.votes.symm⟩

theorem trans (h : Alike s t) (h' : Alike t u) : Alike s u :=
  ⟨h.toSameCore.trans h'.toSameCore, h.sent.trans h'.sent, h.votes.trans h'.votes⟩

/-- An entry other than a vote makes no difference. -/
theorem note (h : Alike s t) {e : Entry} (he : votedBlock e = none) :
    Alike s { t with trace := t.trace ++ [e] } :=
  { h with votes := by rw [h.votes, votedBlocks_append, he, Option.toList_none, List.append_nil] }

end Alike

/-! ### Handlers -/

theorem tryCommit_core (h : SameCore s t) (hv : qc.view = qc'.view) (hid : qc.blockID = qc'.blockID) :
    Pair (tryCommit qc) (tryCommit qc') (fun _ _ => SameCore) s t := by
  unfold tryCommit
  refine pair_get_bind ?_
  rw [h.commitRule hv hid, h.pm]
  cases t.commitRule qc' with
  | none => exact pair_pure h
  | some g =>
    refine Pair.bind (pair_zoom (Q := fun r r' s' t' => r = r' ∧ SameCore s' t')
      ((BlockChain.commitBlock_pair g.id t.pm.curView h.forrest).mono ?_)) ?_
    · rintro r r' bc bc' ⟨hr, hf⟩
      exact ⟨hr, { h with forrest := hf }⟩
    rintro r _ s' t' ⟨rfl, h'⟩
    cases r with
    | none => exact pair_pure h'
    | some res =>
      refine pair_modify_bind (pair_of_ok rfl rfl ?_)
      exact { h' with
        committedBlocks := congrArg (· ++ res.1) h'.committedBlocks
        forkedBlocks := congrArg (· ++ res.2) h'.forkedBlocks }

theorem processCertificate_core (nd : Node) (h : SameCore s t) (hv : qc.view = qc'.view)
    (hid : qc.blockID = qc'.blockID) (hc : checkQC nd qc = checkQC nd qc') :
    Pair (processCertificate nd qc) (processCertificate nd qc') (fun _ _ => SameCore) s t := by
  unfold processCertificate
  refine pair_get_bind (pair_ite (by rw [hv, h.pm]) (fun _ => pair_pure h) fun _ => ?_)
  refine pair_ofExcept_bind hc fun ok _ => pair_ite Iff.rfl (fun _ => pair_pure h) fun _ => ?_
  rw [hv]
  refine pair_ite Iff.rfl (fun _ => pair_set_bind (pair_pure { h with pm := by rw [h.pm] })) fun _ => ?_
  rcases h.updatePreferredView hv hid with ⟨hs, ht⟩ | ⟨v, hs, ht⟩
  · simp only [hs, ht]
    exact pair_of_ok rfl rfl { h with }
  · simp only [hs, ht]
    have h' : SameCore ({ s with preferredView := v, pm := s.pm.advanceView qc'.view }.updateHighQC qc)
        ({ t with preferredView := v, pm := t.pm.advanceView qc'.view }.updateHighQC qc') :=
      (h.enter qc'.view v).updateHighQC hv hid
    exact pair_set_bind (pair_ite Iff.rfl (fun _ => pair_pure h') fun _ => tryCommit_core h' hv hid)

/-- Nothing is sent, no vote is cast and no block is put aside, as while a certificate is processed. -/
structure Mute (s t : HotStuff) : Prop where
  sent : t.sent = s.sent
  votes : votedBlocks t.trace = votedBlocks s.trace
  blocks : t.bufferedBlocks = s.bufferedBlocks

theorem tryCommit_mute (qc : QC) : wp (tryCommit qc) (fun _ t => Mute s t) (fun _ => True) s := by
  unfold tryCommit
  simp only [wp_bind, wp_get]
  cases s.commitRule qc with
  | none => exact ⟨rfl, rfl, rfl⟩
  | some g =>
    simp only [wp_bind, wp_zoom]
    refine wp_mono (wp_self (m := BlockChain.commitBlock g.id s.pm.curView)) (fun r bc _ => ?_)
      fun _ _ => trivial
    cases r with
    | none => exact ⟨rfl, rfl, rfl⟩
    | some res =>
      refine wp_bind.2 (wp_modify.2 (wp_modify.2 ⟨rfl, ?_, rfl⟩))
      exact (votedBlocks_append _ _).trans (List.append_nil _)

theorem processCertificate_mute (qc : QC) :
    wp (processCertificate nd qc) (fun _ t => Mute s t) (fun _ => True) s := by
  unfold processCertificate
  simp only [wp_bind, wp_get, wp_ite, wp_pure, wp_ofExcept, wp_set]
  refine ⟨fun _ => ⟨rfl, rfl, rfl⟩, fun _ => ⟨fun ok _ => ⟨fun _ => ⟨rfl, rfl, rfl⟩,
    fun _ => ⟨fun _ => ⟨rfl, rfl, rfl⟩, fun _ => ?_⟩⟩, fun _ _ => trivial⟩⟩
  cases ht : s.updatePreferredView qc with
  | none => exact ⟨rfl, rfl, rfl⟩
  | some t =>
    obtain ⟨v, rfl, -⟩ := updatePreferredView_cases ht
    simp only [wp_bind, wp_set, wp_ite, wp_pure]
    refine ⟨fun _ => ⟨by simp, by simp, by simp⟩,
      fun _ => wp_mono (tryCommit_mute qc) (fun _ u hu => ?_) fun _ h => h⟩
    obtain ⟨h₁, h₂, h₃⟩ := hu
    simp only [updateHighQC_sent, updateHighQC_trace, updateHighQC_bufferedBlocks] at h₁ h₂ h₃
    exact ⟨h₁, h₂, h₃⟩

/-- **A certificate** takes alike replicas to alike replicas. -/
theorem processCertificate_pair (nd : Node) (h : Alike s t) (hv : qc.view = qc'.view)
    (hid : qc.blockID = qc'.blockID) (hc : checkQC nd qc = checkQC nd qc') :
    Pair (processCertificate nd qc) (processCertificate nd qc') (fun _ _ => Alike) s t := by
  refine (((processCertificate_core nd h.toSameCore hv hid hc).and_left (processCertificate_mute qc)).and_right
    (processCertificate_mute qc')).mono ?_
  rintro _ _ s' t' ⟨⟨hcore, hs⟩, ht⟩
  exact ⟨hcore, by rw [hs.sent, ht.sent, h.sent], by rw [hs.votes, ht.votes, h.votes]⟩

theorem vetBlock_pair (h : Alike s t) (b : Block) :
    Pair (vetBlock nd b) (vetBlock nd b) (fun r r' s' t' => r = r' ∧ Alike s' t') s t := by
  unfold vetBlock
  refine pair_get_bind (pair_ofExcept_bind rfl fun ok _ => pair_ite (by rw [h.pm]) (fun _ => ?_) fun _ => ?_)
  · exact pair_set_bind (pair_pure ⟨rfl, { h with bufferedBlocks := by rw [h.bufferedBlocks] }⟩)
  cases b.qc with
  | none => exact pair_pure ⟨rfl, h⟩
  | some qc =>
    have h₁ : Alike (offeredState s b qc) (offeredState t b qc) := by
      have hn := (h.symm.note (e := .offered b s.highQC.view) rfl).symm.note (e := .offered b t.highQC.view) rfl
      exact ⟨hn.toSameCore.updateHighQC rfl rfl, by simpa [offeredState] using hn.sent,
        by simpa [offeredState] using hn.votes⟩
    have hproc : Pair (if b.proposer ≠ nd.id then processCertificate nd qc else pure ())
        (if b.proposer ≠ nd.id then processCertificate nd qc else pure ()) (fun _ _ => Alike)
        (offeredState s b qc) (offeredState t b qc) :=
      pair_ite Iff.rfl (fun _ => processCertificate_pair nd h₁ rfl rfl rfl) fun _ => pair_pure h₁
    refine pair_modify_bind (pair_modify_bind (Pair.bind hproc ?_))
    intro _ _ s' t' h'
    refine pair_get_bind (pair_ite (by rw [h'.pm]) (fun _ => pair_pure ⟨rfl, h'⟩) fun _ => ?_)
    exact pair_ite Iff.rfl (fun _ => pair_pure ⟨rfl, h'⟩) fun _ => pair_pure ⟨rfl, h'⟩

end HotStuff

end Bamboo
