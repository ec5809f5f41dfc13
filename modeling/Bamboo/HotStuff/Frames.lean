import Bamboo.Calls
import Bamboo.HotStuff.Handlers

/-!
# Votes and trace under the handlers

The votes on record and the trace are written in few places.  A property of these two that survives the
deletion of votes and the entries other than votes and certificates is kept by every handler that does not
count a vote; what a counted vote does is a hypothesis of the others.  All nodes are meant here, also
Byzantine ones.

* `Stable`, `Counting`: such properties, and votes that may be counted;
* `Stable.processCertificate`, `Stable.processVote`, …: the handlers keep them;
* `VoteStable.runOn`: a property that also survives the replica's own votes holds in every run.
-/

namespace Bamboo

namespace HotStuff

open Prog

variable {nd : Node} {s t : HotStuff} {b : Block} {I : HotStuff → Prop}

/-- What `ProcessBlock` does between its checks and the vote: the first part of `insertAndVote`. -/
def insertBlock (nd : Node) (block : Block) : Go HotStuff Unit := do
  let hs ← get
  note (.accepted block hs.preferredView (hs.bc.getBlockByID block.prevID))
  Prog.zoom bc (fun bc hs => { hs with bc := bc }) (BlockChain.addBlock block)
  processBufferedQC nd block.id

theorem insertAndVote_eq (nd : Node) (b : Block) :
    insertAndVote nd b = insertBlock nd b >>= fun _ => castVote nd b := by
  simp [insertAndVote, insertBlock, bind_assoc]

/-- An entry that records neither a vote nor a certificate. -/
def Silent : Entry → Prop
  | .voted _ => False
  | .built _ => False
  | _ => True

/-- A property of the votes on record and of the trace, kept by deletions and silent entries. -/
structure Stable (I : HotStuff → Prop) : Prop where
  wf : ∀ {s}, I s → s.bc.quorum.WF
  congr : ∀ {s t}, I s → t.bc.quorum = s.bc.quorum → t.trace = s.trace → I t
  deletes : ∀ {s bc}, I s → BlockChain.Deletes s.bc.quorum bc.quorum → I { s with bc := bc }
  note : ∀ {s e}, I s → Silent e → I { s with trace := s.trace ++ [e] }

/-- The vote may be counted. -/
structure Counting (nd : Node) (I : HotStuff → Prop) (v : Vote) : Prop where
  count : ∀ {s}, I s → I { s with bc := { s.bc with quorum := s.bc.quorum.record v } }
  build : ∀ {s qc}, I s → Quorum.Certifies nd.toConfig (s.bc.quorum.record v) v qc →
    I { s with
      bc := { s.bc with quorum := s.bc.quorum.record v }
      trace := s.trace ++ [.built { qc with leader := nd.id }] }

namespace Stable

variable (hI : Stable I)
include hI

theorem tryCommit (h : I s) (qc : QC) : wp (tryCommit qc) (fun _ t => I t) I s := by
  unfold HotStuff.tryCommit
  simp only [wp_bind, wp_get]
  cases s.commitRule qc with
  | none => exact h
  | some g =>
    simp only [wp_bind, wp_zoom]
    refine wp_mono (BlockChain.commitBlock_deletes g.id s.pm.curView) ?_ fun bc hd => hI.deletes h hd
    intro r bc hd
    have hbc : I { s with bc := bc } := hI.deletes h hd
    cases r with
    | none => exact hbc
    | some res => exact hI.congr (hI.note (e := .committed qc g s.bc.forrest res.1) hbc trivial) rfl rfl

theorem processCertificate (h : I s) (qc : QC) :
    wp (processCertificate nd qc) (fun _ t => I t) I s := by
  unfold HotStuff.processCertificate
  simp only [wp_bind, wp_get, wp_ite, wp_pure, wp_ofExcept, wp_set]
  refine ⟨fun _ => h, fun _ => ⟨fun ok _ => ⟨fun _ => h, fun _ => ⟨fun _ => ?_, fun _ => ?_⟩⟩, fun _ _ => h⟩⟩
  · exact hI.congr h rfl rfl
  · cases ht : s.updatePreferredView qc with
    | none => exact hI.congr h rfl rfl
    | some t =>
      obtain ⟨v, rfl, -⟩ := updatePreferredView_cases ht
      have h' : I ({ s with preferredView := v, pm := s.pm.advanceView qc.view }.updateHighQC qc) :=
        hI.congr h (by simp) (by simp)
      simp only [wp_bind, wp_set, wp_ite, wp_pure]
      exact ⟨fun _ => h', fun _ => hI.tryCommit h' qc⟩

theorem processVote (h : I s) {v : Vote} (hv : checkVote nd v = .ok true → Counting nd I v) :
    wp (processVote nd v) (fun _ t => I t) I s := by
  unfold HotStuff.processVote
  simp only [wp_bind, wp_get, wp_ite, wp_pure, wp_ofExcept]
  refine ⟨fun ok hok => ⟨fun _ => h, fun htrue => ?_⟩, fun _ _ => h⟩
  have hc := hv (by simpa [htrue] using hok)
  rcases BlockChain.addVote_cases nd.toConfig (hI.wf h) v with he | he | ⟨qc, he, hcert⟩
  · rw [he]
    exact h
  · rw [he]
    exact hc.count h
  · rw [he]
    have hbuilt := hc.build h hcert
    simp only [wp_bind, wp_set]
    refine wp_modify.2 ?_
    split
    · exact hI.congr hbuilt rfl rfl
    · exact hI.processCertificate hbuilt _

theorem vetBlock (h : I s) (b : Block) : wp (vetBlock nd b) (fun _ t => I t) I s := by
  unfold HotStuff.vetBlock
  simp only [wp_bind, wp_get, wp_ofExcept, wp_ite, wp_set, wp_pure]
  refine ⟨fun _ _ => ⟨fun _ => hI.congr h rfl rfl, fun _ => ?_⟩, fun _ _ => h⟩
  cases b.qc with
  | none => exact h
  | some qc =>
    have h' : I ({ s with trace := s.trace ++ [Entry.offered b s.highQC.view] }.updateHighQC qc) :=
      hI.congr (hI.note (e := .offered b s.highQC.view) h trivial) (by simp) (by simp)
    have hqc : wp (if b.proposer ≠ nd.id then HotStuff.processCertificate nd qc else pure ())
        (fun _ t => I t) I
        ({ s with trace := s.trace ++ [Entry.offered b s.highQC.view] }.updateHighQC qc) :=
      wp_ite.2 ⟨fun _ => hI.processCertificate h' qc, fun _ => h'⟩
    refine wp_bind.2 (wp_modify.2 (wp_bind.2 (wp_modify.2 (wp_bind.2 (wp_mono hqc ?_ fun _ h => h)))))
    intro _ u hu
    simp only [wp_bind, wp_get, wp_ite, wp_pure]
    exact ⟨fun _ => hu, fun _ => ⟨fun _ => hu, fun _ => hu⟩⟩

theorem insertBlock (h : I s) (b : Block) : wp (insertBlock nd b) (fun _ t => I t) I s := by
  unfold HotStuff.insertBlock
  refine wp_bind.2 (wp_get.2 (wp_bind.2 (wp_modify.2 (wp_bind.2 ?_))))
  have h' : I { s with trace := s.trace ++ [.accepted b s.preferredView (s.bc.getBlockByID b.prevID)] } :=
    hI.note h trivial
  -- storing the block leaves the votes alone
  refine wp_zoom.2 (wp_zoom.2 (wp_mono (wp_final (P := fun _ => True).2 trivial) (fun _ f _ => ?_)
    fun f _ => hI.congr h' rfl rfl))
  have hst : I { s with
      bc := { s.bc with forrest := f }
      trace := s.trace ++ [.accepted b s.preferredView (s.bc.getBlockByID b.prevID)] } :=
    hI.congr h' rfl rfl
  unfold processBufferedQC
  refine wp_bind.2 (wp_get.2 ?_)
  dsimp only
  cases s.bufferedQCs.lookup b.id with
  | none => exact hst
  | some qc =>
    refine wp_bind.2 (wp_mono (hI.processCertificate hst qc) (fun _ t ht => ?_) fun _ h => h)
    exact wp_modify.2 (hI.congr ht rfl rfl)

/-- The block is voted for, and the vote counted if the replica collects the votes itself. -/
theorem castVote (h : I s)
    (hvote : ∀ v, s.votingRule b = some true → makeVote nd.toConfig b.view nd.id b.id = .ok v →
      I { s with trace := s.trace ++ [.voted b] } ∧ Counting nd I v) :
    wp (castVote nd b) (fun _ t => I t) I s := by
  unfold HotStuff.castVote
  simp only [wp_bind, wp_get]
  cases hr : s.votingRule b with
  | none => exact h
  | some vote =>
    cases vote with
    | false => exact h
    | true =>
      simp only [wp_bind, wp_ofExcept]
      refine ⟨fun v hv => wp_modify.2 ?_, fun _ _ => h⟩
      obtain ⟨h', hown⟩ := hvote v hr hv
      simp only [wp_ite]
      exact ⟨fun _ => hI.processVote h' fun _ => hown, fun _ => wp_modify.2 (hI.congr h' rfl rfl)⟩

theorem processRemoteTmo (h : I s) (m : TMO) : wp (processRemoteTmo nd m) (fun _ t => I t) I s := by
  unfold HotStuff.processRemoteTmo
  refine wp_bind.2 ?_
  cases m.highQC with
  | none => exact h
  | some qc =>
    refine wp_mono (hI.processCertificate h qc) (fun _ t ht => ?_) fun _ h => h
    simp only [wp_bind, wp_get, wp_set]
    have ht' : I { t with pm := (t.pm.processRemoteTmo m).2 } := hI.congr ht rfl rfl
    cases (t.pm.processRemoteTmo m).1 with
    | none => exact ht'
    | some tc =>
      unfold processTC
      simp only [wp_bind, wp_get, wp_ite, wp_pure, wp_set]
      exact ⟨fun _ => ht', fun _ => hI.congr ht rfl rfl⟩

theorem processLocalTmo (h : I s) (view : ℤ) : wp (processLocalTmo nd view) (fun _ t => I t) I s := by
  unfold HotStuff.processLocalTmo
  refine wp_bind.2 (wp_modify.2 (wp_bind.2 (wp_get.2 (wp_bind.2 (wp_modify.2 ?_)))))
  refine hI.processRemoteTmo ?_ _
  exact hI.congr h rfl rfl

theorem forkChoice (h : I s) : wp (forkChoice nd) (fun _ t => I t) I s := by
  unfold HotStuff.forkChoice
  simp only [wp_bind, wp_get, wp_ite, wp_pure]
  refine ⟨fun _ => h, fun _ => ?_⟩
  cases s.bc.getBlockByID s.highQC.blockID with
  | none => exact h
  | some parBlock =>
    dsimp only
    cases parBlock.qc with
    | none => exact h
    | some parQC =>
      simp only [wp_bind, wp_ite, wp_set, wp_pure]
      refine ⟨fun _ => hI.congr h rfl rfl, fun _ => ?_⟩
      cases s.bc.forrest.vertices.lookup s.highQC.blockID with
      | none => exact h
      | some p => exact wp_bind.2 (wp_set.2 (hI.congr h rfl rfl))

/-- The proposal for a view. -/
theorem makeProposals (h : I s) (view : ℤ) (payload : List Transaction) (pBatch : PBatch) :
    wp (if 1 < view then makePProposal nd view pBatch else makeProposal nd view payload)
      (fun _ t => I t) I s := by
  refine wp_ite.2 ⟨fun _ => ?_, fun _ => ?_⟩
  · exact wp_bind.2 (wp_mono (hI.forkChoice h)
      (fun _ _ ht => wp_ofExcept.2 ⟨fun _ _ => ht, fun _ _ => ht⟩) fun _ h => h)
  · exact wp_bind.2 (wp_mono (hI.forkChoice h)
      (fun _ _ ht => wp_ofExcept.2 ⟨fun _ _ => ht, fun _ _ => ht⟩) fun _ h => h)

theorem handleTxn (h : I s) : wp ((safety nd).handleTxn nd) (fun _ t => I t) I s := by
  unfold Safety.handleTxn
  simp only [wp_bind, wp_get, wp_ite, wp_set, wp_pure]
  exact ⟨fun _ => hI.congr h rfl rfl, fun _ => h⟩

end Stable

/-- A stable property that the replica's own votes keep. -/
structure VoteStable (nd : Node) (I : HotStuff → Prop) : Prop extends Stable I where
  vote : ∀ {s b}, I s → I { s with trace := s.trace ++ [.voted b] }
  own : ∀ {view id v}, makeVote nd.toConfig view nd.id id = .ok v → Counting nd I v

namespace VoteStable

variable (hI : VoteStable nd I)
include hI

theorem insertAndVote (h : I s) (b : Block) : wp (insertAndVote nd b) (fun _ t => I t) I s := by
  rw [insertAndVote_eq]
  refine wp_bind.2 (wp_mono (hI.insertBlock h b) (fun _ t ht => ?_) fun _ h => h)
  exact hI.castVote ht fun v _ hv => ⟨hI.vote ht, hI.own hv⟩

theorem processBlockN (fuel : ℕ) (h : I s) (b : Block) :
    wp (processBlockN nd fuel b) (fun _ t => I t) I s := by
  induction fuel generalizing s b with
  | zero => exact h
  | succ fuel ih =>
    unfold HotStuff.processBlockN
    refine wp_bind.2 (wp_mono (hI.vetBlock h b) (fun r t ht => ?_) fun _ h => h)
    cases r with
    | some err => exact ht
    | none =>
      refine wp_bind.2 (wp_mono (hI.insertAndVote ht b) (fun r u hu => ?_) fun _ h => h)
      cases r with
      | some err => exact hu
      | none =>
        refine wp_bind.2 (wp_get.2 ?_)
        cases u.bufferedBlocks.lookup b.view with
        | none => exact hu
        | some b' =>
          refine wp_bind.2 (wp_mono (ih hu b') (fun _ x hx => ?_) fun _ h => h)
          exact wp_bind.2 (wp_modify.2 (hI.congr hx rfl rfl))

theorem processBlock (h : I s) (b : Block) :
    wp ((safety nd).processBlock b) (fun _ t => I t) I s :=
  wp_bind.2 (wp_mono (wp_bind.2 (wp_get.2 (hI.processBlockN _ h b))) (fun _ _ h => h) fun _ h => h)

theorem proposeBlock (h : I s) (view : ℤ) (payload : List Transaction) (pBatch : PBatch) :
    wp ((safety nd).proposeBlock view payload pBatch) (fun _ t => I t) I s := by
  unfold Safety.proposeBlock
  refine wp_bind.2 (wp_mono (hI.makeProposals h view payload pBatch) (fun b t ht => ?_) fun _ h => h)
  refine wp_bind.2 (wp_modify.2 (hI.processBlock ?_ b))
  exact hI.congr ht rfl rfl

theorem handleEvent (h : I s) (e : Event) :
    wp ((safety nd).handleEvent nd e) (fun _ t => I t) I s := by
  cases e with
  | txn => exact hI.handleTxn h
  | newView payload pBatch =>
    show wp ((safety nd).processNewView nd payload pBatch) _ _ s
    unfold Safety.processNewView
    refine wp_bind.2 (wp_get.2 ?_)
    cases ((safety nd).pm s).newViewChan with
    | nil => exact h
    | cons v rest =>
      have h' : I ((safety nd).setPm { (safety nd).pm s with newViewChan := rest } s) :=
        hI.congr h rfl rfl
      exact wp_bind.2 (wp_set.2 (wp_ite.2 ⟨fun _ => h', fun _ => hI.proposeBlock h' v payload pBatch⟩))
  | timer => exact wp_bind.2 (wp_get.2 (hI.processLocalTmo h _))

theorem handleMsg (h : I s) {m : Msg}
    (hm : ∀ v, m = .vote v → checkVote nd v = .ok true → Counting nd I v) :
    wp ((safety nd).handleMsg m) (fun _ t => I t) I s := by
  cases m with
  | block b => exact hI.processBlock h b
  | vote v => exact hI.processVote h (hm v rfl)
  | tmo t => exact hI.processRemoteTmo h t

/-- **Run lemma**: what handlers and countable votes keep holds in every run. -/
theorem runOn (h0 : I (HotStuff.new nd.n)) {inputs : List Safety.Input}
    (hv : ∀ v, Safety.Received inputs (.vote v) → checkVote nd v = .ok true → Counting nd I v) :
    I (runOn nd inputs) := by
  refine (safety nd).run_keeps nd h0 (fun m s hm hs => wp_final.1 (hI.handleMsg hs fun v hv' => hv v ?_))
    fun e s hs => wp_final.1 (hI.handleEvent hs e)
  rw [← hv']
  exact hm

end VoteStable

end HotStuff

end Bamboo
