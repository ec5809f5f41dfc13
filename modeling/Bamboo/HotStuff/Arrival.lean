import Bamboo.HotStuff.Stowing

/-!
# Votes before the block, or the block before its votes

A replica accepts a block and is given votes for it, in one order or the other.  When the votes come first
and suffice for a certificate, the certificate waits for the block and is processed right after the block
is stored, before the voting rule is asked.

* `blockThenVotes`, `votesThenBlock`: the two orders;
* `Overwritten`, `Hidden`: the block's own certificate takes the place of the waiting one; the commit that the
  waiting certificate causes removes the block or its parent before the voting rule looks for them;
* `same_outcome_iff`: otherwise, and only then, the two orders have the same outcome;
* `sound_runOn`: the states it is about include those of all runs.
-/

namespace Bamboo

namespace HotStuff

open Prog

variable {nd : Node} {s t u : HotStuff} {b : Block} {vs : List Vote}

/-! ### The two orders -/

/-- The block, then the votes. -/
def blockThenVotes (nd : Node) (b : Block) (vs : List Vote) : Go HotStuff Unit := do
  let _ ← processBlock nd b
  processVotes nd vs

/-- The votes, then the block. -/
def votesThenBlock (nd : Node) (b : Block) (vs : List Vote) : Go HotStuff Unit := do
  processVotes nd vs
  let _ ← processBlock nd b

/-- What the two orders are compared by. -/
structure SameOutcome (t u : HotStuff) : Prop where
  curView : t.pm.curView = u.pm.curView
  preferredView : t.preferredView = u.preferredView
  forrest : t.bc.forrest = u.bc.forrest
  highQC : t.highQC.view = u.highQC.view ∧ t.highQC.blockID = u.highQC.blockID
  committedBlocks : t.committedBlocks = u.committedBlocks
  forkedBlocks : t.forkedBlocks = u.forkedBlocks
  sent : t.sent = u.sent
  votes : votedBlocks t.trace = votedBlocks u.trace

theorem Alike.sameOutcome (h : Alike t u) : SameOutcome t u :=
  ⟨by rw [h.pm], h.preferredView, h.forrest, ⟨h.highView, h.highID⟩, h.committedBlocks, h.forkedBlocks,
    h.sent, h.votes⟩

theorem vetBlock_blocks (h : vetBlock nd b s = .ok none t) : t.bufferedBlocks = s.bufferedBlocks := by
  obtain ⟨qc, -, hcase⟩ := vetBlock_cases h
  have hoff : (offeredState s b qc).bufferedBlocks = s.bufferedBlocks := by simp [offeredState]
  rcases hcase with ⟨-, rfl⟩ | ⟨-, hproc⟩
  · exact hoff
  · have hmute := wp_ok (processCertificate_mute qc) hproc
    exact hmute.blocks.trans hoff

theorem processVote_blocks (v : Vote) :
    wp (processVote nd v) (fun _ t => t.bufferedBlocks = s.bufferedBlocks) (fun _ => True) s := by
  unfold processVote
  simp only [wp_bind, wp_ofExcept, wp_ite, wp_pure, wp_get, wp_set]
  refine ⟨fun ok _ => ⟨fun _ => trivial, fun _ => ?_⟩, fun _ _ => trivial⟩
  cases (s.bc.addVote nd.toConfig v).1 with
  | none => exact rfl
  | some qc =>
    refine wp_bind.2 (wp_modify.2 ?_)
    dsimp only
    cases (s.bc.addVote nd.toConfig v).2.getBlockByID qc.blockID with
    | none => exact wp_modify.2 rfl
    | some x => exact wp_mono (processCertificate_mute _) (fun _ t h => h.blocks) fun _ h => h

theorem insertAndVote_blocks (nd : Node) (b : Block) (s : HotStuff) :
    wp (insertAndVote nd b) (fun _ t => t.bufferedBlocks = s.bufferedBlocks) (fun _ => True) s := by
  unfold insertAndVote note
  simp only [wp_bind, wp_get, wp_modify, wp_zoom]
  refine wp_mono (wp_self (m := BlockChain.addBlock b)) (fun _ bc _ => ?_) fun _ _ => trivial
  -- the certificate that waited
  have hqc : ∀ s : HotStuff, wp (processBufferedQC nd b.id) (fun _ t => t.bufferedBlocks = s.bufferedBlocks)
      (fun _ => True) s := by
    intro s
    unfold processBufferedQC
    simp only [wp_bind, wp_get]
    cases s.bufferedQCs.lookup b.id with
    | none => exact rfl
    | some qc => exact wp_bind.2 (wp_mono (processCertificate_mute qc) (fun _ t h => h.blocks) fun _ h => h)
  refine wp_mono (hqc _) (fun _ t ht => ?_) fun _ h => h
  unfold castVote
  simp only [wp_bind, wp_get]
  cases t.votingRule b with
  | none => exact ht
  | some vote =>
    cases vote with
    | false => exact ht
    | true =>
      simp only [wp_bind, wp_ofExcept]
      refine ⟨fun v _ => ?_, fun _ _ => trivial⟩
      unfold note
      simp only [wp_modify, wp_ite, wp_pure]
      exact ⟨fun _ => wp_mono (processVote_blocks v) (fun _ u hu => hu.trans ht) fun _ h => h, fun _ => ht⟩

/-- `ProcessBlock` on a block that it accepts while no block waits for it. -/
theorem processBlock_accepted {c : HotStuff} (hno : s.bufferedBlocks.lookup b.view = none)
    (hv : vetBlock nd b s = .ok none c) (k : Go HotStuff Unit) :
    (processBlock nd b >>= fun _ => k) s = (insertAndVote nd b >>= fun _ => k) c := by
  have hblocks := insertAndVote_blocks nd b c
  unfold processBlock
  rw [bind_assoc, get_bind_apply, processBlockN, bind_assoc, bind_apply_ok hv, bind_assoc]
  cases hi : insertAndVote nd b c with
  | error e t => rw [bind_apply_error hi, bind_apply_error hi]
  | ok r t =>
    rw [bind_apply_ok hi, bind_apply_ok hi]
    cases r with
    | some err => rfl
    | none =>
      have ht : t.bufferedBlocks = s.bufferedBlocks := (wp_ok hblocks hi).trans (vetBlock_blocks hv)
      rw [bind_assoc, get_bind_apply, ht, hno]
      rfl

/-- What is left of the two orders when the block is stored. -/
def finish (nd : Node) (b : Block) (vs : List Vote) : Go HotStuff Unit := do
  processBufferedQC nd b.id
  let _ ← castVote nd b
  processVotes nd vs

theorem insertAndVote_processVotes (nd : Node) (b : Block) (vs : List Vote) :
    (insertAndVote nd b >>= fun _ => processVotes nd vs) = storeBlock b >>= fun _ => finish nd b vs := by
  rw [insertAndVote_eq, insertBlock_eq]
  simp only [finish, bind_assoc]

theorem blockThenVotes_eq {c : HotStuff} (hno : s.bufferedBlocks.lookup b.view = none)
    (hv : vetBlock nd b s = .ok none c) :
    blockThenVotes nd b vs s = (storeBlock b >>= fun _ => finish nd b vs) c := by
  unfold blockThenVotes
  rw [processBlock_accepted hno hv, insertAndVote_processVotes]

theorem votesThenBlock_eq {s' c : HotStuff} (hvotes : processVotes nd vs s = .ok () s')
    (hno : s'.bufferedBlocks.lookup b.view = none) (hv : vetBlock nd b s' = .ok none c) :
    votesThenBlock nd b vs s = (storeBlock b >>= fun _ => finish nd b []) c := by
  unfold votesThenBlock
  rw [bind_apply_ok hvotes, processBlock_accepted hno hv]
  exact congrFun (insertAndVote_processVotes nd b []) c

/-- The buffer without the certificate that waited for the block. -/
def dropQC (b : Block) (s : HotStuff) : HotStuff := { s with bufferedQCs := s.bufferedQCs.erase b.id }

theorem dropQC_alike (b : Block) (s : HotStuff) : Alike s (dropQC b s) := { Alike.refl s with }

section Finish

variable {v : Vote} (hv : makeVote nd.toConfig b.view nd.id b.id = .ok v)
include hv

theorem castVote_processVotes :
    (castVote nd b >>= fun _ => processVotes nd vs) s =
      processVotes nd (ownVotes nd b v s ++ vs) (castState nd b v s) := by
  rw [castVote_eq hv, processVotes_append]

/-- No certificate waits. -/
theorem finish_none (h : s.bufferedQCs.lookup b.id = none) :
    finish nd b vs s = processVotes nd (ownVotes nd b v s ++ vs) (castState nd b v s) := by
  unfold finish processBufferedQC
  rw [bind_assoc, get_bind_apply, h]
  exact castVote_processVotes hv

/-- A certificate waits. -/
theorem finish_some {qc : QC} (h : s.bufferedQCs.lookup b.id = some qc) :
    finish nd b vs s = (processCertificate nd qc >>= fun _ t =>
      processVotes nd (ownVotes nd b v (dropQC b t) ++ vs) (castState nd b v (dropQC b t))) s := by
  unfold finish processBufferedQC
  rw [bind_assoc, get_bind_apply, h]
  dsimp only
  rw [bind_assoc]
  refine congrFun (congrArg _ (funext fun _ => funext fun t => ?_)) s
  rw [modify_bind_apply]
  exact castVote_processVotes hv

end Finish

/-! ### When the orders differ -/

/-- The block's own certificate names the block itself, and takes the place of the certificate of the
votes, which is for a later view. -/
def Overwritten (nd : Node) (s : HotStuff) (b : Block) (qc : QC) (vs : List Vote) : Prop :=
  s.bc.quorum.total * 2 / 3 < (votersOf vs).card ∧ Overrides nd s b qc ∧ qc.view < b.view

/-- The replica would vote for the block, but the certificate of the votes, processed first, commits a
block whose level is above that of the block or its parent. -/
def Hidden (nd : Node) (s : HotStuff) (b : Block) (qc : QC) (p : Block) (vs : List Vote) : Prop :=
  s.bc.quorum.total * 2 / 3 < (votersOf vs).card ∧ 2 < b.view ∧
    ((∀ l, s.bc.forrest.FiledAt b.prevID l → Survives nd s b qc l) ∧ s.lastVotedView < b.view ∧
      LockUpTo nd s b qc p.view) ∧ Hides nd s b qc p

section Votes

variable {v : Vote}

theorem castState_votes (s : HotStuff) :
    votedBlocks (castState nd b v s).trace =
      votedBlocks s.trace ++ if s.votingRule b = some true then [b] else [] := by
  unfold castState
  by_cases h : s.votingRule b = some true
  · rw [if_pos h, if_pos h]
    exact votedBlocks_append _ _
  · rw [if_neg h, if_neg h, List.append_nil]

theorem castState_sent (hsent : s.sent = t.sent)
    (h : s.votingRule b = some true ↔ t.votingRule b = some true) :
    (castState nd b v s).sent = (castState nd b v t).sent := by
  unfold castState
  by_cases hr : s.votingRule b = some true
  · rw [if_pos hr, if_pos (h.1 hr)]
    dsimp only
    rw [hsent]
  · rw [if_neg hr, if_neg fun ht => hr (h.2 ht)]
    exact hsent

end Votes

section Orders

variable {v : Vote} {qc : QC} {p : Block} {c c' : HotStuff} (hb : nd.isByz = false)
  (hv : makeVote nd.toConfig b.view nd.id b.id = .ok v) (hvs : ∀ w ∈ vs, ValidVote nd b w)
  (hc : Alike c c') (hp : c.bc.quorum.Polled b.id ∅)
include hb hv hvs hc hp

/-- No certificate waits in either order. -/
theorem finish_plain (hp' : c'.bc.quorum.Polled b.id (votersOf vs))
    (ht : c'.bc.quorum.total = c.bc.quorum.total) (hno : ¬ c.bc.quorum.total * 2 / 3 < (votersOf vs).card)
    (h : c.bufferedQCs.lookup b.id = none) (h' : c'.bufferedQCs.lookup b.id = none) :
    Pair (finish nd b vs) (finish nd b []) (fun _ _ => Alike) c c' := by
  have hpair := finish_noQuorum hb hv hvs hc hp hp' ht hno
  rw [← List.append_nil (ownVotes nd b v c')] at hpair
  exact ((hpair.congr_left (finish_none hv h)).symm.congr_left (finish_none hv h')).symm

/-- The certificate of the votes waits for the block. -/
theorem finish_late (ha : Acceptable nd s b qc p) (hi : Stowed nd s b qc c)
    (hfull : c.bc.quorum.total * 2 / 3 < (votersOf vs).card)
    (htot : c.bc.quorum.total = s.bc.quorum.total) {qcv : QC} (hqcv : CertifiedBy nd b qcv)
    (h : c.bufferedQCs.lookup b.id = none) (h' : c'.bufferedQCs.lookup b.id = some qcv) :
    Pair (finish nd b vs) (finish nd b []) (fun _ _ t u => SameOutcome t u ↔ ¬ Hidden nd s b qc p vs)
      c c' := by
  have hst : c.bc.forrest.getVertex b.id ≠ none := by
    rw [hi.own]
    exact fun h => (by cases h)
  have hw := (finish_waiting hb hv hvs hc hst hp hfull hqcv).and_right
    (wp_self (m := processCertificate nd qcv))
  refine Pair.congr_left ?_ (finish_none hv h)
  refine (Pair.congr_left (Pair.bind_left hw.symm ?_) (finish_some hv h')).symm
  rintro _ _ e x ⟨⟨hcore, hsent, hvotes, hinert, hmute⟩, he⟩
  -- the votes of the replica itself change nothing any more
  have hdrop : SameCore e (castState nd b v (dropQC b e)) :=
    (dropQC_alike b e).toSameCore.trans (castState_core nd b v _)
  have hown : ∀ w ∈ ownVotes nd b v (dropQC b e) ++ [], ValidVote nd b w := by
    rw [List.append_nil]
    exact ownVotes_valid hv
  obtain ⟨y, hy, hey⟩ := processVotes_inert hb ((Inert.congr hdrop).1 hinert) hown
  refine ⟨(), y, hy, ?_⟩
  have hxy : SameCore x y := hcore.trans (hdrop.trans hey.toSameCore)
  have hrule : (dropQC b e).votingRule b = e.votingRule b := rfl
  have hold : votedBlocks c.trace = votedBlocks (dropQC b e).trace := hc.votes.trans hmute.votes.symm
  -- the orders agree when the voting rule answers the same before and after the certificate
  have hsame : SameOutcome x y ↔ (c.votingRule b = some true ↔ e.votingRule b = some true) := by
    constructor
    · intro hout
      have hlen := congrArg List.length (hvotes.symm.trans (hout.votes.trans hey.votes.symm))
      rw [castState_votes, castState_votes, List.length_append, List.length_append, hold, hrule] at hlen
      by_cases h₁ : c.votingRule b = some true <;> by_cases h₂ : e.votingRule b = some true <;>
        simp [h₁, h₂] at hlen ⊢
    · intro hiff
      have hiff' : c.votingRule b = some true ↔ (dropQC b e).votingRule b = some true := hiff
      have hs : x.sent = y.sent := by
        rw [hsent, ← hey.sent]
        exact castState_sent (hc.sent.trans hmute.sent.symm) hiff'
      have hvy : votedBlocks x.trace = votedBlocks y.trace := by
        rw [hvotes, ← hey.votes, castState_votes, castState_votes, hold]
        simp only [hiff']
      exact Alike.sameOutcome ⟨hxy, hs, hvy⟩
  rw [hsame]
  have hi' := hi.congr hc.toSameCore
  have hback := votingRule_of_after hb hi'.sound hqcv he
  rw [← hc.votingRule] at hback
  by_cases hr : c.votingRule b = some true
  · have hafter := hi'.votingRule_after hb ha hqcv he (hc.votingRule b ▸ hr)
    simp only [hr, true_iff, hafter]
    refine not_congr ⟨fun ⟨h2, hh⟩ => ?_, fun hh => ⟨hh.2.1, hh.2.2.2⟩⟩
    exact ⟨htot ▸ hfull, h2, (hi.votingRule_iff ha h2).1 hr, hh⟩
  · refine ⟨fun _ hh => hr ((hi.votingRule_iff ha hh.2.1).2 hh.2.2.1), fun _ => ⟨fun h => absurd h hr, ?_⟩⟩
    exact fun h => absurd (hback h) hr

omit hv hvs hc hp in
/-- The block's own certificate, in the place of the one of the votes, is accepted and commits nothing. -/
theorem Stowed.certificate_of_itself (hi : Stowed nd s b qc c) (ha : Acceptable nd s b qc p)
    (ho : Overrides nd s b qc) (hpm : c.pm = s.pm) {d : HotStuff}
    (hd : processCertificate nd qc c = .ok () d) :
    d.pm.curView = qc.view + 1 ∧ d.bc = c.bc ∧ c.bc.getParentBlock b.id = some p := by
  obtain ⟨-, ⟨hcur, hpass⟩, h2, hid⟩ := ho
  -- in the first place it did not find the block
  have hno : ¬ Certifying nd s b qc := by
    rintro ⟨-, -, hf | h2' | ⟨hx, -⟩⟩
    · simp [hf.1] at hb
    · omega
    · rw [hid, BlockChain.getBlockByID, ha.fresh] at hx
      cases hx
  have hpc : c.bc.forrest.getVertex b.prevID = some p :=
    (hi.stored _ _ ha.prevID_ne).2 ⟨ha.parent, fun l _ z hz => absurd hz hno⟩
  have hpar : c.bc.getParentBlock b.id = some p := by
    simp [BlockChain.getParentBlock, hi.own, hpc]
  have hacc : Accepts nd c qc := by
    refine ⟨⟨hpm ▸ hcur, hpass⟩, Or.inr (Or.inr ⟨?_, ?_⟩)⟩
    · rw [hid, BlockChain.getBlockByID, hi.own]
      rfl
    · rw [hid, hpar]
      rfl
  have hview := processCertificate_accepts hacc
  rw [hd, final] at hview
  refine ⟨hview, (processCertificate_effect hb hi.sound hacc hd).same fun z _ hz => ?_, hpar⟩
  -- the parent has the view of the certificate
  simp only [commitRule, hid, hpar, Option.bind_eq_bind, Option.bind_some, Option.bind_eq_some_iff] at hz
  obtain ⟨g, -, hif⟩ := hz
  split_ifs at hif with hviews
  have := ha.parentView
  omega

/-- The block's own certificate waits for the block. -/
theorem finish_overriding (ha : Acceptable nd s b qc p) (hi : Stowed nd s b qc c)
    (hp' : c'.bc.quorum.Polled b.id (votersOf vs)) (ht : c'.bc.quorum.total = c.bc.quorum.total)
    (htot : c.bc.quorum.total = s.bc.quorum.total) (ho : Overrides nd s b qc) (hpm : c.pm = s.pm)
    (h : c.bufferedQCs.lookup b.id = some qc) (h' : c'.bufferedQCs.lookup b.id = some qc) :
    (¬ Overwritten nd s b qc vs → Pair (finish nd b vs) (finish nd b []) (fun _ _ => Alike) c c') ∧
      (Overwritten nd s b qc vs → ∀ t u, finish nd b vs c = .ok () t → finish nd b [] c' = .ok () u →
        t.pm.curView ≠ u.pm.curView) := by
  have hi' := hi.congr hc.toSameCore
  have hpair := ((processCertificate_pair nd hc rfl rfl rfl).and_left
    (wp_self (m := processCertificate nd qc))).and_right (wp_self (m := processCertificate nd qc))
  -- the states in which the votes go on
  have hstep : ∀ d d', Alike d d' → processCertificate nd qc c = .ok () d →
      processCertificate nd qc c' = .ok () d' →
      Alike (dropQC b d) (dropQC b d') ∧ (dropQC b d).bc = c.bc ∧ (dropQC b d').bc = c'.bc ∧
        (dropQC b d).pm.curView = qc.view + 1 ∧ (Inert (dropQC b d) b ↔ ¬ qc.view < b.view) := by
    intro d d' hdd hd hd'
    obtain ⟨hview, hbc, hpar⟩ := hi.certificate_of_itself hb ha ho hpm hd
    obtain ⟨-, hbc', -⟩ := hi'.certificate_of_itself hb ha ho (hc.pm ▸ hpm) hd'
    have hinert : Inert (dropQC b d) b ↔ ¬ qc.view < b.view := by
      unfold Inert dropQC
      rw [hview, hbc, hi.own, hpar]
      simp only [reduceCtorEq, and_false, or_false]
      omega
    exact ⟨(dropQC_alike b d).symm.trans (hdd.trans (dropQC_alike b d')), hbc, hbc', hview, hinert⟩
  have hpd : ∀ d, (dropQC b d).bc = c.bc → (dropQC b d).bc.quorum.Polled b.id ∅ := fun d h => h ▸ hp
  have hpd' : ∀ d, (dropQC b d).bc = c'.bc → (dropQC b d).bc.quorum.Polled b.id (votersOf vs) :=
    fun d h => h ▸ hp'
  by_cases hfull : c.bc.quorum.total * 2 / 3 < (votersOf vs).card
  · have hlate : Overwritten nd s b qc vs ↔ qc.view < b.view :=
      ⟨fun h => h.2.2, fun h => ⟨htot ▸ hfull, ho, h⟩⟩
    rw [hlate]
    refine ⟨fun hle => ?_, fun hlt t u htr hur => ?_⟩
    · refine (((Pair.bind hpair ?_).congr_left (finish_some hv h)).symm.congr_left (finish_some hv h')).symm
      rintro _ _ d d' ⟨⟨hdd, hd⟩, hd'⟩
      obtain ⟨hdrop, hbc, hbc', -, hinert⟩ := hstep d d' hdd hd hd'
      obtain ⟨⟨y, hy, hey⟩, hx, -⟩ := finish_overwritten hb hv hvs (hpd d hbc) (hpd' d' hbc')
        (by rw [hbc, hbc', ht]) (by rw [hbc]; exact hfull)
      obtain ⟨x, hx, hdx⟩ := hx (hinert.2 hle)
      rw [← List.append_nil (ownVotes nd b v (dropQC b d'))] at hy
      exact pair_of_ok hx hy (hdx.symm.trans ((castState_alike nd b v hdrop).trans hey))
    · rw [finish_some hv h] at htr
      rw [finish_some hv h'] at hur
      obtain ⟨_, d, hd, htr⟩ := bind_eq_ok htr
      obtain ⟨_, d', hd', hur⟩ := bind_eq_ok hur
      obtain ⟨_, d'', hd'', ⟨hdd, -⟩, -⟩ := hpair.ok hd
      rw [hd'] at hd''
      cases hd''
      obtain ⟨hdrop, hbc, hbc', hview, hinert⟩ := hstep d d' hdd hd hd'
      obtain ⟨⟨y, hy, hey⟩, -, hx⟩ := finish_overwritten hb hv hvs (hpd d hbc) (hpd' d' hbc')
        (by rw [hbc, hbc', ht]) (by rw [hbc]; exact hfull)
      rw [List.append_nil, hy] at hur
      cases hur
      rw [hx (fun hn => hinert.1 hn hlt) t htr, ← hey.pm, ← (castState_core nd b v (dropQC b d')).pm,
        ← hdrop.pm, hview]
      omega
  · refine ⟨fun _ => ?_, fun ho => absurd (htot ▸ ho.1) hfull⟩
    refine (((Pair.bind hpair ?_).congr_left (finish_some hv h)).symm.congr_left (finish_some hv h')).symm
    rintro _ _ d d' ⟨⟨hdd, hd⟩, hd'⟩
    obtain ⟨hdrop, hbc, hbc', -, -⟩ := hstep d d' hdd hd hd'
    have hno := finish_noQuorum hb hv hvs hdrop (hpd d hbc) (hpd' d' hbc')
      (by rw [hbc, hbc', ht]) (by rw [hbc]; exact hfull)
    rw [← List.append_nil (ownVotes nd b v (dropQC b d'))] at hno
    exact hno

end Orders

/-- **The two orders** after the checks of the block. -/
theorem orders_compared (hb : nd.isByz = false) {v : Vote}
    (hv : makeVote nd.toConfig b.view nd.id b.id = .ok v) {qc : QC} {p : Block} (hs : SoundState s)
    (ha : Acceptable nd s b qc p) (hvs : ∀ w ∈ vs, ValidVote nd b w) :
    (¬ Overwritten nd s b qc vs → Pair (blockThenVotes nd b vs) (votesThenBlock nd b vs)
      (fun _ _ t u => SameOutcome t u ↔ ¬ Hidden nd s b qc p vs) s s) ∧
      (Overwritten nd s b qc vs → ∀ t u, blockThenVotes nd b vs s = .ok () t →
        votesThenBlock nd b vs s = .ok () u → t.pm.curView ≠ u.pm.curView) := by
  obtain ⟨s₁, hs₁⟩ := ha.accepted
  have hv₁ := vetBlock_vetted hb hs ha.cert ha.fresh hs₁
  obtain ⟨s', hvotes, hss', htot', hpolled', hlook⟩ :=
    processVotes_unstored ha.fresh (Quorum.polled_empty ha.noVotes) hvs
  rw [Finset.empty_union] at hpolled' hlook
  obtain ⟨_, s₁', hs₁', rfl, h₁⟩ := (vetBlock_pair hss' b).ok hs₁
  have hs' : SoundState s' := ⟨hss'.forrest ▸ hs.forrest, hss'.forrest ▸ hss'.pm ▸ hs.lowest⟩
  have hv₁' := vetBlock_vetted hb hs' ha.cert (hss'.forrest ▸ ha.fresh) hs₁'
  have hover : Overrides nd s' b qc ↔ Overrides nd s b qc := by
    unfold Overrides Passed
    rw [hss'.pm]
  have hA : blockThenVotes nd b vs s = (storeBlock b >>= fun _ => finish nd b vs) s₁ :=
    blockThenVotes_eq ha.noBlock hs₁
  have hB := votesThenBlock_eq hvotes (hss'.bufferedBlocks ▸ ha.noBlock) hs₁'
  have hstore := storeBlock_pair h₁ b
  -- what holds of any two states in which the block is stored
  have hboth : ∀ c c', Alike c c' → storeBlock b s₁ = .ok () c → storeBlock b s₁' = .ok () c' →
      (¬ Overwritten nd s b qc vs → Pair (finish nd b vs) (finish nd b [])
        (fun _ _ t u => SameOutcome t u ↔ ¬ Hidden nd s b qc p vs) c c') ∧
      (Overwritten nd s b qc vs → ∀ t u, finish nd b vs c = .ok () t → finish nd b [] c' = .ok () u →
        t.pm.curView ≠ u.pm.curView) := by
    intro c c' hcc hc hc'
    have hi := hv₁.storeBlock ha.fresh hc
    obtain ⟨f, -, rfl⟩ := storeBlock_eq_ok hc
    obtain ⟨f', -, rfl⟩ := storeBlock_eq_ok hc'
    have hp := (Quorum.polled_empty ha.noVotes).congr hv₁.votes hv₁.total
    have hp' := hpolled'.congr hv₁'.votes hv₁'.total
    have ht : s₁'.bc.quorum.total = s₁.bc.quorum.total := by rw [hv₁'.total, htot', hv₁.total]
    by_cases ho : Overrides nd s b qc
    · obtain ⟨hq, hpm⟩ := hv₁.overridden ho
      obtain ⟨hq', -⟩ := hv₁'.overridden (hover.2 ho)
      obtain ⟨hsame, hdiff⟩ := finish_overriding hb hv hvs hcc hp ha hi hp' ht hv₁.total ho hpm hq hq'
      refine ⟨fun hno => (hsame hno).mono fun _ _ t u halike => ⟨fun _ hh => ?_, fun _ => halike.sameOutcome⟩,
        hdiff⟩
      -- the parent of the block would have the view before it
      obtain ⟨g, -, -, hview, -⟩ := hh.2.2.2
      have := ha.parentView
      exact hno ⟨hh.1, ho, by omega⟩
    · have hq := (hv₁.waiting ho).trans ha.noQC
      have hq' := hv₁'.waiting fun h => ho (hover.1 h)
      refine ⟨fun _ => ?_, fun h => absurd h.2.1 ho⟩
      by_cases hfull : s.bc.quorum.total * 2 / 3 < (votersOf vs).card
      · rw [if_pos ⟨by simp, hfull⟩] at hlook
        obtain ⟨qcv, hqcv, hl⟩ := hlook
        exact finish_late hb hv hvs hcc hp ha hi (by rw [← hv₁.total] at hfull; exact hfull) hv₁.total hqcv hq
          (hq'.trans hl)
      · rw [if_neg fun h => hfull h.2] at hlook
        refine (finish_plain hb hv hvs hcc hp hp' ht (by rw [← hv₁.total] at hfull; exact hfull) hq
          (hq'.trans (hlook.trans ha.noQC))).mono fun _ _ t u halike => ?_
        exact ⟨fun _ hh => hfull hh.1, fun _ => halike.sameOutcome⟩
  constructor
  · intro hno
    refine (((Pair.bind ((hstore.and_left wp_self).and_right wp_self) ?_).congr_left hA).symm.congr_left hB).symm
    rintro _ _ c c' ⟨⟨hcc, hc⟩, hc'⟩
    exact (hboth c c' hcc hc hc').1 hno
  · intro ho t u htr hur
    rw [hA] at htr
    rw [hB] at hur
    obtain ⟨_, c, hc, htr⟩ := bind_eq_ok htr
    obtain ⟨_, c', hc', hur⟩ := bind_eq_ok hur
    obtain ⟨_, c'', hc'', hcc⟩ := hstore.ok hc
    rw [hc'] at hc''
    cases hc''
    exact (hboth c c' hcc hc hc').2 ho t u htr hur

/-- **Votes before the block, or the block before its votes.**  An honest replica with a key, in a sound
state, gets a block that it accepts and valid votes for it.  In whichever order they come, the outcome is
the same exactly when the certificate of the votes is neither overwritten nor hides the block from the
voting rule; and unless it is overwritten, the replica survives both orders or none. -/
theorem same_outcome_iff (nd : Node) (hb : nd.isByz = false) (hkey : ∃ k, keyIndex nd.toConfig nd.id = .ok k)
    (s : HotStuff) (hs : SoundState s) (b : Block) (qc : QC) (p : Block) (ha : Acceptable nd s b qc p)
    (vs : List Vote) (hvs : ∀ v ∈ vs, ValidVote nd b v) :
    (¬ Overwritten nd s b qc vs →
      ((∃ t, blockThenVotes nd b vs s = .ok () t) ↔ ∃ u, votesThenBlock nd b vs s = .ok () u)) ∧
    ∀ t u, blockThenVotes nd b vs s = .ok () t → votesThenBlock nd b vs s = .ok () u →
      (SameOutcome t u ↔ ¬ Overwritten nd s b qc vs ∧ ¬ Hidden nd s b qc p vs) := by
  obtain ⟨k, hk⟩ := hkey
  have hv : ∃ v, makeVote nd.toConfig b.view nd.id b.id = .ok v := by
    simp [makeVote, privSign, hk, bind, Except.bind, pure, Except.pure]
  obtain ⟨v, hv⟩ := hv
  obtain ⟨hpair, hdiff⟩ := orders_compared hb hv hs ha hvs
  constructor
  · intro hno
    constructor
    · rintro ⟨t, ht⟩
      obtain ⟨_, u, hu, -⟩ := (hpair hno).ok ht
      exact ⟨u, hu⟩
    · rintro ⟨u, hu⟩
      obtain ⟨_, t, ht, -⟩ := (hpair hno).symm.ok hu
      exact ⟨t, ht⟩
  · intro t u ht hu
    by_cases ho : Overwritten nd s b qc vs
    · exact ⟨fun h => absurd h.curView (hdiff ho t u ht hu), fun h => absurd ho h.1⟩
    · obtain ⟨_, u', hu', hiff⟩ := (hpair ho).ok ht
      rw [hu] at hu'
      cases hu'
      rw [hiff]
      exact ⟨fun h => ⟨ho, h⟩, fun h => h.2⟩

/-- Node 2 of four has got the blocks of views 1 to 3. -/
def threeBlocksIn : HotStuff :=
  runOn FourNodes.second ((fourBlocks.take 3).map fun b => .msg (.block b))

/-- The votes of the other nodes for the block of view 4. -/
def otherVotes : List Vote :=
  [⟨4, "1", 4, FourNodes.signature 0 4⟩, ⟨4, "3", 4, FourNodes.signature 2 4⟩,
    ⟨4, "4", 4, FourNodes.signature 3 4⟩]

/-- `Acceptable` as a test. -/
def acceptable (nd : Node) (s : HotStuff) (b : Block) (qc : QC) (p : Block) : Bool :=
  decide (b.qc = some qc) && (match vetBlock nd b s with | .ok none _ => true | _ => false) &&
    (s.bc.forrest.getVertex b.id).isNone && decide (s.bc.forrest.getVertex b.prevID = some p) &&
    decide (p.view = qc.view) && (s.bufferedBlocks.lookup b.view).isNone &&
    (s.bufferedQCs.lookup b.id).isNone && decide (s.bc.quorum.votesFor b.id = ∅)

theorem acceptable_of_test {qc : QC} {p : Block} (h : acceptable nd s b qc p = true) :
    Acceptable nd s b qc p := by
  simp only [acceptable, Bool.and_eq_true, decide_eq_true_eq, Option.isNone_iff_eq_none] at h
  obtain ⟨⟨⟨⟨⟨⟨⟨h₁, h₂⟩, h₃⟩, h₄⟩, h₅⟩, h₆⟩, h₇⟩, h₈⟩ := h
  refine ⟨h₁, ?_, h₃, h₄, h₅, h₆, h₇, h₈⟩
  split at h₂
  · exact ⟨_, ‹_›⟩
  · cases h₂

theorem otherVotes_valid {b : Block} (hid : b.id = 4) (hview : b.view = 4) :
    ∀ v ∈ otherVotes, ValidVote FourNodes.second b v := by
  have hall : ∀ v ∈ otherVotes, v.blockID = 4 ∧ v.view = 4 ∧ checkVote FourNodes.second v = .ok true := by
    decide_cbv
  intro v hv
  obtain ⟨h₁, h₂, hok⟩ := hall v hv
  exact ⟨h₁.trans hid.symm, h₂.trans hview.symm, hok⟩

theorem same_outcome_iff_otherVotes :
    ∃ t u, blockThenVotes FourNodes.second (FourNodes.block 4 (FourNodes.certificate 3)) otherVotes
        threeBlocksIn = .ok () t ∧
      votesThenBlock FourNodes.second (FourNodes.block 4 (FourNodes.certificate 3)) otherVotes
        threeBlocksIn = .ok () u ∧
      t.pm.curView = 5 ∧ SameOutcome t u := by
  have hsame := same_outcome_iff FourNodes.second rfl ⟨1, by decide_cbv⟩ threeBlocksIn
    (sound_runOn rfl _) (FourNodes.block 4 (FourNodes.certificate 3)) (FourNodes.certificate 3)
    (FourNodes.block 3 (FourNodes.certificate 2)) (acceptable_of_test (by decide_cbv)) otherVotes
    (otherVotes_valid rfl rfl)
  have hno : ¬ Overwritten FourNodes.second threeBlocksIn (FourNodes.block 4 (FourNodes.certificate 3))
      (FourNodes.certificate 3) otherVotes := fun h => absurd h.2.1.2.2.2 (by decide)
  have hvisible : ¬ Hidden FourNodes.second threeBlocksIn (FourNodes.block 4 (FourNodes.certificate 3))
      (FourNodes.certificate 3) (FourNodes.block 3 (FourNodes.certificate 2)) otherVotes := by
    rintro ⟨-, -, -, g, hg, -, -, -, hlow⟩
    have hg' : threeBlocksIn.bc.forrest.getVertex 2 = some (FourNodes.block 2 (FourNodes.certificate 1)) := by
      decide_cbv
    have hge : g = FourNodes.block 2 (FourNodes.certificate 1) := Option.some.inj (hg.symm.trans hg')
    subst hge
    -- block 3 is filed above block 2, and block 4 not at all
    rcases hlow with ⟨l, hl, hlt⟩ | ⟨l, ⟨q, -, hq, -⟩, -⟩
    · have h3 : threeBlocksIn.bc.forrest.FiledAt 3 3 := by decide_cbv
      rw [hl.unique h3] at hlt
      exact absurd hlt (by decide)
    · have h4 : threeBlocksIn.bc.forrest.vertices.lookup 4 = none := by decide_cbv
      exact absurd (h4.symm.trans hq) (by simp)
  have hrun : passes (blockThenVotes FourNodes.second (FourNodes.block 4 (FourNodes.certificate 3)) otherVotes)
      (fun _ t => decide (t.pm.curView = 5)) threeBlocksIn = true := by
    decide_cbv
  obtain ⟨_, t, ht, htest⟩ := exists_ok_of_passes hrun
  obtain ⟨u, hu⟩ := (hsame.1 hno).1 ⟨t, ht⟩
  exact ⟨t, u, ht, hu, of_decide_eq_true htest, (hsame.2 t u ht hu).2 ⟨hno, hvisible⟩⟩

/-- A certificate of view 3 that names the block of view 4. -/
def namesakeQC : QC := ⟨"1", 3, 4, [], [], []⟩

/-- The block of view 4 on that of view 3, with this certificate. -/
def namesakeBlock : Block := ⟨4, some namesakeQC, "1", [], 3, FourNodes.signature 0 4, 4, none⟩

/-- **The outcome depends on the order**: the certificate of the votes is lost when they come before the
block. -/
theorem certificate_overwritten :
    SoundState threeBlocksIn ∧
      Acceptable FourNodes.second threeBlocksIn namesakeBlock namesakeQC
        (FourNodes.block 3 (FourNodes.certificate 2)) ∧
      (∀ v ∈ otherVotes, ValidVote FourNodes.second namesakeBlock v) ∧
      ∃ t u, blockThenVotes FourNodes.second namesakeBlock otherVotes threeBlocksIn = .ok () t ∧
        votesThenBlock FourNodes.second namesakeBlock otherVotes threeBlocksIn = .ok () u ∧
        t.pm.curView = 5 ∧ u.pm.curView = 4 := by
  refine ⟨sound_runOn rfl _, acceptable_of_test (by decide_cbv), otherVotes_valid rfl rfl, ?_⟩
  have hblock : passes (blockThenVotes FourNodes.second namesakeBlock otherVotes)
      (fun _ t => decide (t.pm.curView = 5)) threeBlocksIn = true := by
    decide_cbv
  have hvotes : passes (votesThenBlock FourNodes.second namesakeBlock otherVotes)
      (fun _ u => decide (u.pm.curView = 4)) threeBlocksIn = true := by
    decide_cbv
  obtain ⟨_, t, hrt, ht⟩ := exists_ok_of_passes hblock
  obtain ⟨_, u, hru, hu⟩ := exists_ok_of_passes hvotes
  exact ⟨t, u, hrt, hru, of_decide_eq_true ht, of_decide_eq_true hu⟩

end HotStuff

end Bamboo
