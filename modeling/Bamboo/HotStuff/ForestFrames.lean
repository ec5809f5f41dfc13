import Bamboo.Shelves
import Bamboo.HotStuff.Frames

/-!
# The forest under the handlers

The forest is written in two places, where a block is stored and where one is committed.  A property of the
forest and of the current view that these two keep, and that survives any step to a later view, is kept by
every handler of an honest replica.

* `ForestStable`: such properties;
* `ForestStable.runOn`: they hold in every run;
* `SoundState`, `sound_runOn`: one of them, the indices of the forest agree.
-/

namespace Bamboo

namespace HotStuff

open Prog

variable {nd : Node} {s t : HotStuff} {J : HotStuff → Prop}

/-- A property of forest and view that later views, blocks and commits keep. -/
structure ForestStable (J : HotStuff → Prop) : Prop where
  congr : ∀ {s t}, J s → t.bc.forrest = s.bc.forrest → s.pm.curView ≤ t.pm.curView → J t
  store : ∀ {s}, J s → ∀ b, wp (LevelledForest.addVertex b)
    (fun _ f => J { s with bc := { s.bc with forrest := f } })
    (fun f => J { s with bc := { s.bc with forrest := f } }) s.bc.forrest
  commit : ∀ {s qc z}, J s → 3 ≤ qc.view → qc.view ≤ s.pm.curView → s.commitRule qc = some z →
    wp (BlockChain.commitBlock z.id s.pm.curView) (fun _ bc => J { s with bc := bc })
      (fun bc => J { s with bc := bc }) s.bc

namespace ForestStable

variable (hJ : ForestStable J)
include hJ

theorem tryCommit (h : J s) {qc : QC} (h3 : 3 ≤ qc.view) (hcur : qc.view ≤ s.pm.curView) :
    wp (tryCommit qc) (fun _ t => J t) J s := by
  unfold HotStuff.tryCommit
  simp only [wp_bind, wp_get]
  cases hz : s.commitRule qc with
  | none => exact h
  | some z =>
    simp only [wp_bind, wp_zoom]
    refine wp_mono (hJ.commit h h3 hcur hz) (fun r bc hbc => ?_) fun _ h => h
    cases r with
    | none => exact hbc
    | some res => exact hJ.congr hbc rfl (Int.le_refl _)

theorem processCertificate (h : J s) (qc : QC) : wp (processCertificate nd qc) (fun _ t => J t) J s := by
  unfold HotStuff.processCertificate
  simp only [wp_bind, wp_get, wp_ite, wp_pure, wp_ofExcept, wp_set]
  refine ⟨fun _ => h, fun hcur => ⟨fun ok _ => ⟨fun _ => h, fun _ => ⟨fun _ => ?_, fun _ => ?_⟩⟩, fun _ _ => h⟩⟩
  · exact hJ.congr h rfl (s.pm.curView_le_advanceView _)
  · cases ht : s.updatePreferredView qc with
    | none => exact hJ.congr h rfl (Int.le_refl _)
    | some t =>
      obtain ⟨v, rfl, -⟩ := updatePreferredView_cases ht
      have h' : J ({ s with preferredView := v, pm := s.pm.advanceView qc.view }.updateHighQC qc) :=
        hJ.congr h (by simp) (by simpa using s.pm.curView_le_advanceView _)
      simp only [wp_bind, wp_set, wp_ite, wp_pure]
      refine ⟨fun _ => h', fun h3 => hJ.tryCommit h' (by omega) ?_⟩
      rw [updateHighQC_pm, Pacemaker.advanceView_of_le (by omega)]
      show qc.view ≤ qc.view + 1
      omega

theorem processVote (h : J s) (v : Vote) : wp (processVote nd v) (fun _ t => J t) J s := by
  unfold HotStuff.processVote
  simp only [wp_bind, wp_get, wp_ite, wp_pure, wp_ofExcept, wp_set]
  refine ⟨fun ok _ => ⟨fun _ => h, fun _ => ?_⟩, fun _ _ => h⟩
  have hcount : J { s with bc := (s.bc.addVote nd.toConfig v).2 } := hJ.congr h rfl (Int.le_refl _)
  cases (s.bc.addVote nd.toConfig v).1 with
  | none => exact hcount
  | some qc =>
    refine wp_bind.2 (wp_modify.2 ?_)
    split
    · exact wp_modify.2 (hJ.congr hcount rfl (Int.le_refl _))
    · refine hJ.processCertificate ?_ _
      exact hJ.congr hcount rfl (Int.le_refl _)

theorem vetBlock (h : J s) (b : Block) : wp (vetBlock nd b) (fun _ t => J t) J s := by
  unfold HotStuff.vetBlock
  simp only [wp_bind, wp_get, wp_ofExcept, wp_ite, wp_set, wp_pure]
  refine ⟨fun _ _ => ⟨fun _ => hJ.congr h rfl (Int.le_refl _), fun _ => ?_⟩, fun _ _ => h⟩
  cases b.qc with
  | none => exact h
  | some qc =>
    have h' : J ({ s with trace := s.trace ++ [Entry.offered b s.highQC.view] }.updateHighQC qc) :=
      hJ.congr h (by simp) (by simp)
    have hqc : wp (if b.proposer ≠ nd.id then HotStuff.processCertificate nd qc else pure ()) (fun _ t => J t) J
        ({ s with trace := s.trace ++ [Entry.offered b s.highQC.view] }.updateHighQC qc) :=
      wp_ite.2 ⟨fun _ => hJ.processCertificate h' qc, fun _ => h'⟩
    refine wp_bind.2 (wp_modify.2 (wp_bind.2 (wp_modify.2 (wp_bind.2 (wp_mono hqc ?_ fun _ h => h)))))
    intro _ u hu
    simp only [wp_bind, wp_get, wp_ite, wp_pure]
    exact ⟨fun _ => hu, fun _ => ⟨fun _ => hu, fun _ => hu⟩⟩

theorem insertBlock (h : J s) (b : Block) : wp (insertBlock nd b) (fun _ t => J t) J s := by
  unfold HotStuff.insertBlock
  refine wp_bind.2 (wp_get.2 (wp_bind.2 (wp_modify.2 (wp_bind.2 ?_))))
  refine wp_zoom.2 (wp_zoom.2 (wp_mono (hJ.store h b) (fun _ f hf => ?_)
    fun f hf => hJ.congr hf rfl (Int.le_refl _)))
  have hst : J { s with
      bc := { s.bc with forrest := f }
      trace := s.trace ++ [.accepted b s.preferredView (s.bc.getBlockByID b.prevID)] } :=
    hJ.congr hf rfl (Int.le_refl _)
  unfold processBufferedQC
  refine wp_bind.2 (wp_get.2 ?_)
  dsimp only
  cases s.bufferedQCs.lookup b.id with
  | none => exact hst
  | some qc =>
    refine wp_bind.2 (wp_mono (hJ.processCertificate hst qc) (fun _ t ht => ?_) fun _ h => h)
    exact wp_modify.2 (hJ.congr ht rfl (Int.le_refl _))

theorem castVote (h : J s) (b : Block) : wp (castVote nd b) (fun _ t => J t) J s := by
  unfold HotStuff.castVote
  simp only [wp_bind, wp_get]
  cases s.votingRule b with
  | none => exact h
  | some vote =>
    cases vote with
    | false => exact h
    | true =>
      simp only [wp_bind, wp_ofExcept]
      refine ⟨fun v _ => wp_modify.2 (wp_ite.2 ⟨fun _ => ?_, fun _ => ?_⟩), fun _ _ => h⟩
      · refine hJ.processVote ?_ v
        exact hJ.congr h rfl (Int.le_refl _)
      · exact wp_modify.2 (hJ.congr h rfl (Int.le_refl _))

theorem processBlockN (fuel : ℕ) (h : J s) (b : Block) :
    wp (processBlockN nd fuel b) (fun _ t => J t) J s := by
  induction fuel generalizing s b with
  | zero => exact h
  | succ fuel ih =>
    unfold HotStuff.processBlockN
    refine wp_bind.2 (wp_mono (hJ.vetBlock h b) (fun r t ht => ?_) fun _ h => h)
    cases r with
    | some err => exact ht
    | none =>
      rw [insertAndVote_eq]
      refine wp_bind.2 (wp_bind.2 (wp_mono (hJ.insertBlock ht b) (fun _ u hu => ?_) fun _ h => h))
      refine wp_mono (hJ.castVote hu b) (fun r x hx => ?_) fun _ h => h
      cases r with
      | some err => exact hx
      | none =>
        refine wp_bind.2 (wp_get.2 ?_)
        cases x.bufferedBlocks.lookup b.view with
        | none => exact hx
        | some b' =>
          refine wp_bind.2 (wp_mono (ih hx b') (fun _ y hy => ?_) fun _ h => h)
          exact wp_bind.2 (wp_modify.2 (hJ.congr hy rfl (Int.le_refl _)))

theorem processBlock (h : J s) (b : Block) : wp ((safety nd).processBlock b) (fun _ t => J t) J s :=
  wp_bind.2 (wp_mono (wp_bind.2 (wp_get.2 (hJ.processBlockN _ h b))) (fun _ _ h => h) fun _ h => h)

theorem processRemoteTmo (h : J s) (m : TMO) : wp (processRemoteTmo nd m) (fun _ t => J t) J s := by
  unfold HotStuff.processRemoteTmo
  refine wp_bind.2 ?_
  cases m.highQC with
  | none => exact h
  | some qc =>
    refine wp_mono (hJ.processCertificate h qc) (fun _ t ht => ?_) fun _ h => h
    simp only [wp_bind, wp_get, wp_set]
    obtain ⟨tcl, hpm, -⟩ := t.pm.processRemoteTmo_cases m
    have ht' : J { t with pm := (t.pm.processRemoteTmo m).2 } := hJ.congr ht rfl (by rw [hpm])
    cases (t.pm.processRemoteTmo m).1 with
    | none => exact ht'
    | some tc =>
      unfold processTC
      simp only [wp_bind, wp_get, wp_ite, wp_pure, wp_set]
      exact ⟨fun _ => ht', fun _ => hJ.congr ht' rfl (Pacemaker.curView_le_advanceView _ _)⟩

theorem handleEvent (hb : nd.isByz = false) (h : J s) (e : Event) :
    wp ((safety nd).handleEvent nd e) (fun _ t => J t) J s := by
  cases e with
  | txn =>
    show wp ((safety nd).handleTxn nd) _ _ s
    unfold Safety.handleTxn
    simp only [wp_bind, wp_get, wp_ite, wp_set, wp_pure]
    exact ⟨fun _ => hJ.congr h rfl (s.pm.curView_le_advanceView 0), fun _ => h⟩
  | timer =>
    refine wp_bind.2 (wp_get.2 ?_)
    show wp (processLocalTmo nd s.pm.curView) _ _ s
    unfold processLocalTmo
    refine wp_bind.2 (wp_modify.2 (wp_bind.2 (wp_get.2 (wp_bind.2 (wp_modify.2 (hJ.processRemoteTmo ?_ _))))))
    exact hJ.congr h rfl (s.pm.curView_le_advanceView _)
  | newView payload pBatch =>
    show wp ((safety nd).processNewView nd payload pBatch) _ _ s
    unfold Safety.processNewView
    refine wp_bind.2 (wp_get.2 ?_)
    cases ((safety nd).pm s).newViewChan with
    | nil => exact h
    | cons v rest =>
      have h' : J ((safety nd).setPm { (safety nd).pm s with newViewChan := rest } s) :=
        hJ.congr h rfl (Int.le_refl _)
      refine wp_bind.2 (wp_set.2 (wp_ite.2 ⟨fun _ => h', fun _ => ?_⟩))
      -- an honest proposal leaves the state as it is
      have hprop : wp (if 1 < v then makePProposal nd v pBatch else makeProposal nd v payload)
          (fun _ t => J t) J ((safety nd).setPm { (safety nd).pm s with newViewChan := rest } s) :=
        wp_ite.2 ⟨fun _ => wp_mono (makePProposal_wp hb v pBatch) (fun _ t ht => ht.1 ▸ h') fun t ht => ht ▸ h',
          fun _ => wp_mono (makeProposal_wp hb v payload) (fun _ t ht => ht.1 ▸ h') fun t ht => ht ▸ h'⟩
      unfold Safety.proposeBlock
      refine wp_bind.2 (wp_mono hprop (fun b t ht => ?_) fun _ h => h)
      refine wp_bind.2 (wp_modify.2 (hJ.processBlock ?_ b))
      exact hJ.congr ht rfl (Int.le_refl _)

theorem handleMsg (h : J s) (m : Msg) : wp ((safety nd).handleMsg m) (fun _ t => J t) J s := by
  cases m with
  | block b => exact hJ.processBlock h b
  | vote v => exact hJ.processVote h v
  | tmo m => exact hJ.processRemoteTmo h m

/-- **Run lemma**: such a property holds in every run of an honest replica. -/
theorem runOn (hb : nd.isByz = false) (h0 : J (HotStuff.new nd.n)) (inputs : List Safety.Input) :
    J (runOn nd inputs) := by
  exact (safety nd).run_keeps nd h0 (fun m s _ hs => wp_final.1 (hJ.handleMsg hs m))
    fun e s hs => wp_final.1 (hJ.handleEvent hb hs e)

end ForestStable

/-- The indices of the forest agree, and its lowest level is not ahead of the replica. -/
structure SoundState (s : HotStuff) : Prop where
  forrest : s.bc.forrest.Sound
  lowest : (s.bc.forrest.lowestLevel : ℤ) ≤ s.pm.curView

/-- The committed block is stored under its id, two views before the certificate. -/
theorem commitRule_eq_some (hs : s.bc.forrest.Sound) {qc : QC} {z : Block} (h : s.commitRule qc = some z) :
    s.bc.forrest.getVertex z.id = some z ∧ z.view + 2 = qc.view := by
  simp only [commitRule, BlockChain.getParentBlock, Option.bind_eq_bind, Option.bind_eq_some_iff] at h
  obtain ⟨y, -, z', ⟨w, -, hz⟩, hif⟩ := h
  split_ifs at hif with hviews
  cases hif
  exact ⟨(hs.named _ _ hz).symm ▸ hz, by omega⟩

theorem forestStable_soundState : ForestStable SoundState where
  congr h hf hcur := ⟨hf ▸ h.forrest, by rw [hf]; exact h.lowest.trans hcur⟩
  store h b := by
    refine wp_mono (wp_and (h.forrest.addVertex b) (LevelledForest.addVertex_spec h.forrest.indexed.wf b))
      (fun _ f hf => ⟨hf.1.1, ?_⟩) fun f hf => ⟨hf.1, ?_⟩
    · exact hf.2.lowest ▸ h.lowest
    · exact hf.2.lowest ▸ h.lowest
  commit {s qc z} h h3 hcur hz := by
    obtain ⟨hst, hview⟩ := commitRule_eq_some h.forrest hz
    refine wp_mono (wp_and wp_self (BlockChain.commitBlock_spec h.forrest.indexed.wf z.id s.pm.curView))
      (fun r bc ⟨hr, _⟩ => ?_) fun bc hd => ?_
    · have hp := BlockChain.commitBlock_prunedTo h.forrest hr hst
      have hz : (z.level : ℤ) = z.view := uint64_of_nonneg (by omega)
      have hlow := h.lowest
      refine ⟨hp.sound, ?_⟩
      show (bc.forrest.lowestLevel : ℤ) ≤ s.pm.curView
      rw [hp.lowest]
      omega
    · have hf : bc.forrest = s.bc.forrest := hd.2.forrest
      exact ⟨hf ▸ h.forrest, by dsimp only; rw [hf]; exact h.lowest⟩

/-- **Every run** of an honest replica is through sound states. -/
theorem sound_runOn (hb : nd.isByz = false) (inputs : List Safety.Input) : SoundState (runOn nd inputs) :=
  forestStable_soundState.runOn hb ⟨LevelledForest.sound_new, (by decide : ((0 : ℕ) : ℤ) ≤ 0)⟩ inputs

end HotStuff

end Bamboo
