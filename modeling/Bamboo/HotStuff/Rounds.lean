import Bamboo.HotStuff.Polls
import Bamboo.Rows

/-!
# HotStuff on blocks in a row

What one replica does with the blocks of a row: a certificate for the last block inserted takes it into the
next view, where it is locked on the block before and commits the one before that; the next block is inserted
and voted for.

* `Tallied`: the votes on record are for blocks that are inserted, and genuine;
* `InStep`: what the replica has done so far, as two numbers, the blocks it has inserted and the view it is in;
* `processCertificate_row`: a certificate;
* `insertAndVote_row`: a block, and the replica's own vote.
-/

namespace Bamboo

namespace HotStuff

open Prog

variable {nd : Node} {cf : Config} {b b' : ℕ → Block} {v w : ℕ} {s t u : HotStuff} {q q' : Quorum} {qc : QC}

/-! ### The votes on record -/

/-- The votes on record verify, and are for blocks up to view `v`. -/
structure Tallied (cf : Config) (b : ℕ → Block) (v : ℕ) (q : Quorum) : Prop where
  wf : q.WF
  total : q.total = cf.n
  genuine : ∀ vote, q.Has vote → pubVerify cf vote.signature vote.blockID vote.voter = .ok true
  unpolled : ∀ x, (∀ w, 1 ≤ w → w ≤ v → x ≠ (b w).id) → q.votesFor x = ∅

theorem tallied_new (cf : Config) (b : ℕ → Block) : Tallied cf b 0 (.new cf.n) where
  wf := Quorum.wf_new cf.n
  total := rfl
  genuine := fun vote h => by simp [Quorum.Has, Quorum.votesFor, Quorum.new] at h
  unpolled := fun x _ => by simp [Quorum.votesFor, Quorum.new]

theorem Tallied.mono (h : Tallied cf b v q) (hw : v ≤ w) : Tallied cf b w q :=
  { h with unpolled := fun x hx => h.unpolled x fun u h1 hu => hx u h1 (by omega) }

theorem Tallied.congr (h : Tallied cf b v q) (hb : ∀ w, 1 ≤ w → w ≤ v → b' w = b w) : Tallied cf b' v q :=
  { h with unpolled := fun x hx => h.unpolled x fun u h1 hu => hb u h1 hu ▸ hx u h1 hu }

theorem Tallied.delete (h : Tallied cf b v q) (id : ℕ) : Tallied cf b v (q.delete id) where
  wf := Quorum.wf_delete h.wf id
  total := h.total
  genuine := fun vote hv => h.genuine vote (Quorum.has_delete hv)
  unpolled := fun x hx => by
    rw [Quorum.votesFor_delete]
    split_ifs
    · rfl
    · exact h.unpolled x hx

/-- One more vote for a block that is inserted. -/
theorem Tallied.add (h : Tallied cf b v q) {vote : Vote} (h1 : 1 ≤ w) (hw : w ≤ v) (hid : vote.blockID = (b w).id)
    (hv : pubVerify cf vote.signature vote.blockID vote.voter = .ok true) :
    Tallied cf b v (q.add cf vote).2 := by
  have hrec : Tallied cf b v (q.record vote) := by
    refine ⟨Quorum.wf_record h.wf vote, h.total, fun x hx => ?_, fun x hx => ?_⟩
    · rcases Quorum.has_record hx with rfl | hx
      · exact hv
      · exact h.genuine x hx
    · rw [Quorum.votesFor_record, if_neg (hid ▸ hx w h1 hw)]
      exact h.unpolled x hx
  rcases Quorum.add_cases cf h.wf vote with he | he | ⟨qc, he, -⟩
  · rw [he]
    exact h
  · rw [he]
    exact hrec
  · rw [he]
    exact hrec

/-- **A certificate built from the votes on record** is one for its block. -/
theorem Tallied.certOf (h : Tallied cf b v q) {vote : Vote} (h1 : 1 ≤ w) (hw : w ≤ v)
    (hid : vote.blockID = (b w).id) (hview : vote.view = w)
    (hv : pubVerify cf vote.signature vote.blockID vote.voter = .ok true) (hqc : (q.add cf vote).1 = some qc)
    (leader : NodeID) : CertOf cf b w { qc with leader := leader } := by
  have hadd := h.add h1 hw hid hv
  rcases Quorum.add_cases cf h.wf vote with he | he | ⟨qc', he, hc⟩
  · rw [he] at hqc
    cases hqc
  · rw [he] at hqc
    cases hqc
  · rw [he] at hqc hadd
    cases hqc
    refine ⟨hc.view.trans hview, hc.blockID.trans (hid.trans (idAt_of_pos h1).symm), ?_⟩
    refine verifyQuorumSignature_of_pubVerify (hc.signed.imp fun sig i hsig => ?_)
    obtain ⟨x, hx, hxid, rfl, rfl⟩ := hsig
    rw [hc.blockID, ← hxid]
    exact hadd.genuine x hx

/-! ### What a replica has done -/

/-- The replica has inserted the blocks up to view `v` and is in view `r`; with the certificate that took it
there it has committed the blocks up to view `r - 3`. -/
structure InStep (cf : Config) (b : ℕ → Block) (v r : ℕ) (s : HotStuff) : Prop where
  spine : s.bc.forrest.Spine b v (r - 3)
  tallied : Tallied cf b v s.bc.quorum
  view : s.pm.curView = r
  high : ∃ q, r - 1 ≤ q ∧ q ≤ v ∧ CertOf cf b q s.highQC
  preferred : s.preferredView = if r ≤ 3 then 0 else (r : ℤ) - 2
  voted : s.lastVotedView = 0
  committed : s.committedBlocks = (List.range' 1 (r - 3)).map b
  forked : s.forkedBlocks = []
  qcs : s.bufferedQCs = ∅

theorem inStep_new (cf : Config) (b : ℕ → Block) : InStep cf b 0 0 (.new cf.n) where
  spine := LevelledForest.spine_new b
  tallied := tallied_new cf b
  view := rfl
  high := ⟨0, le_rfl, le_rfl, certOf_initial cf b⟩
  preferred := rfl
  voted := rfl
  committed := rfl
  forked := rfl
  qcs := rfl

theorem InStep.congr {r : ℕ} (h : InStep cf b v r s) (hr : r - 3 ≤ v) (hb : ∀ w, w ≤ v → b' w = b w) :
    InStep cf b' v r s where
  spine := h.spine.congr fun w _ hw => hb w hw
  tallied := h.tallied.congr fun w _ hw => hb w hw
  view := h.view
  high := by
    obtain ⟨q, hq, hqv, hc⟩ := h.high
    exact ⟨q, hq, hqv, hc.view, hc.blockID.trans (by rw [idAt, idAt, hb q hqv]), hc.verified⟩
  preferred := h.preferred
  voted := h.voted
  committed := by
    rw [h.committed]
    refine List.map_congr_left fun w hw => (hb w ?_).symm
    rw [List.mem_range'_1] at hw
    omega
  forked := h.forked
  qcs := h.qcs

/-- An honest replica with a key, and not the only one. -/
structure Able (nd : Node) : Prop where
  honest : nd.isByz = false
  others : 2 ≤ nd.n
  verify : nd.SignaturesVerify
  key : ∃ i, keyIndex nd.toConfig nd.id = .ok i

/-- What is left alone when a certificate takes the replica into view `r`. -/
structure Enters (r : ℕ) (id : ℕ) (s t : HotStuff) : Prop where
  sent : t.sent = s.sent
  blocks : t.bufferedBlocks = s.bufferedBlocks
  chan : t.pm.newViewChan = s.pm.newViewChan ++ [(r : ℤ)]
  votes : t.bc.quorum.votesFor id = s.bc.quorum.votesFor id

/-! ### A certificate -/

/-- The lock moves to the block before the certified one. -/
theorem InStep.updatePreferredView (h : InStep cf b v v s) (hr : Row cf b v) (hqc : CertOf cf b v qc) :
    s.updatePreferredView qc =
      some { s with preferredView := if v + 1 ≤ 3 then 0 else ((v + 1 : ℕ) : ℤ) - 2 } := by
  unfold HotStuff.updatePreferredView
  rw [hqc.view]
  have hpref := h.preferred
  by_cases h2 : v ≤ 2
  · rw [if_pos (by omega), if_pos (by omega)]
    rw [if_pos (by omega)] at hpref
    rw [← hpref]
  · have hst := h.spine.getVertex (w := v) (by omega) (by omega) le_rfl
    have hprev : (b v).prevID = (b (v - 1)).id := by
      have hp := hr.prevID (v - 1) (by omega)
      rwa [Nat.sub_add_cancel (by omega), idAt_of_pos (by omega)] at hp
    have hpar := h.spine.getVertex (w := v - 1) (by omega) (by omega) (by omega)
    have hlow : s.preferredView < (b (v - 1)).view := by
      rw [hr.view (v - 1) (by omega) (by omega), hpref]
      split_ifs <;> omega
    rw [if_neg (by omega), if_neg (by omega), hqc.blockID, idAt_of_pos (by omega)]
    simp only [BlockChain.getBlockByID, BlockChain.getParentBlock, hst, hprev, hpar, Option.bind_eq_bind,
      Option.bind_some, if_pos hlow]
    rw [hr.view (v - 1) (by omega) (by omega)]
    congr 2
    omega

/-- The newest certificate is kept. -/
theorem certOf_updateHighQC {k : ℕ} (hk : k ≤ v) (h : CertOf cf b k s.highQC) (hqc : CertOf cf b v qc) :
    CertOf cf b v (s.updateHighQC qc).highQC := by
  unfold HotStuff.updateHighQC
  rw [h.view, hqc.view]
  split_ifs with hlt
  · exact hqc
  · obtain rfl : k = v := by omega
    exact h

/-- **The commit in a row**: the block two views before the certified one. -/
theorem tryCommit_row (hr : Row cf b v) (hs : s.bc.forrest.Spine b v (v - 3)) (h3 : 3 ≤ v)
    (hqc : CertOf cf b v qc) :
    ∃ bc e, tryCommit qc s = .ok () { s with
        bc := bc
        trace := s.trace ++ [e]
        committedBlocks := s.committedBlocks ++ [b (v - 2)] } ∧
      bc.forrest.Spine b v (v - 2) ∧ bc.quorum = s.bc.quorum.delete (b (v - 2)).id := by
  have hst : ∀ w, v - 3 ≤ w → 1 ≤ w → w ≤ v → s.bc.forrest.getVertex (b w).id = some (b w) :=
    fun w hw h1 hv => hs.getVertex h1 hw hv
  have hprev : ∀ w, 1 ≤ w → w + 1 ≤ v → (b (w + 1)).prevID = (b w).id := fun w h1 hw => by
    rw [hr.prevID w hw, idAt_of_pos h1]
  obtain ⟨x, rfl⟩ : ∃ x, v = x + 3 := ⟨v - 3, by omega⟩
  have hrule : s.commitRule qc = some (b (x + 1)) := by
    have h₁ : s.bc.getParentBlock qc.blockID = some (b (x + 2)) := by
      rw [hqc.blockID, idAt_of_pos (by omega), BlockChain.getParentBlock, hst _ (by omega) (by omega) le_rfl]
      simp only [Option.bind_eq_bind, Option.bind_some]
      rw [hprev (x + 2) (by omega) le_rfl]
      exact hst _ (by omega) (by omega) (by omega)
    have h₂ : s.bc.getParentBlock (b (x + 2)).id = some (b (x + 1)) := by
      rw [BlockChain.getParentBlock, hst _ (by omega) (by omega) (by omega)]
      simp only [Option.bind_eq_bind, Option.bind_some]
      rw [hprev (x + 1) (by omega) (by omega)]
      exact hst _ (by omega) (by omega) (by omega)
    unfold HotStuff.commitRule
    rw [h₁]
    simp only [Option.bind_eq_bind, Option.bind_some, h₂]
    rw [hr.view (x + 1) (by omega) (by omega), hr.view (x + 2) (by omega) (by omega), hqc.view, if_pos]
    constructor <;> push_cast <;> omega
  obtain ⟨bc, hbc, hspine, hquorum⟩ := BlockChain.commitBlock_of_spine hs hr
    (by omega : x + 3 - 3 < x + 1) (by omega) s.pm.curView
  have hone : x + 1 - (x + 3 - 3) = 1 := by omega
  have hfrom : x + 3 - 3 + 1 = x + 1 := by omega
  rw [hone, hfrom] at hbc hquorum
  refine ⟨bc, .committed qc (b (x + 1)) s.bc.forrest [b (x + 1)], ?_, hspine, hquorum⟩
  unfold tryCommit
  rw [get_bind_apply]
  simp only [hrule]
  rw [bind_apply_ok (zoom_apply_ok hbc)]
  unfold note
  simp only [List.range'_one, List.map_cons, List.map_nil, List.reverse_cons, List.reverse_nil,
    List.nil_append]
  rw [modify_bind_apply]
  show EStateM.Result.ok () _ = _
  simp

/-- **A certificate for the last block inserted** takes the replica into the next view. -/
theorem processCertificate_row (hb : nd.isByz = false) (hr : Row nd.toConfig b v)
    (h : InStep nd.toConfig b v v s) (hqc : CertOf nd.toConfig b v qc) :
    ∃ t, processCertificate nd qc s = .ok () t ∧ InStep nd.toConfig b v (v + 1) t ∧
      Enters (v + 1) (b v).id s t := by
  have hview : ¬ qc.view < s.pm.curView := by rw [hqc.view, h.view]; omega
  have hadv : s.pm.advanceView qc.view =
      { s.pm with curView := ((v + 1 : ℕ) : ℤ), newViewChan := s.pm.newViewChan ++ [((v + 1 : ℕ) : ℤ)] } := by
    rw [Pacemaker.advanceView_of_le (by omega), hqc.view]
    rfl
  obtain ⟨k, -, hk, hhigh⟩ := h.high
  -- the state before the commit
  let s₁ : HotStuff := { s with
    preferredView := if v + 1 ≤ 3 then 0 else ((v + 1 : ℕ) : ℤ) - 2
    pm := s.pm.advanceView qc.view }
  have hrun : processCertificate nd qc s =
      (if qc.view < 3 then pure () else tryCommit qc) (s₁.updateHighQC qc) := by
    unfold processCertificate
    rw [get_bind_apply, if_neg hview, hqc.checkQC, ok_bind_apply, if_neg (by simp), if_neg (by simp [hb])]
    simp only [h.updatePreferredView hr hqc]
    rfl
  have hhigh' : CertOf nd.toConfig b v (s₁.updateHighQC qc).highQC :=
    certOf_updateHighQC (s := s₁) hk hhigh hqc
  have hsame : s₁.updateHighQC qc = { s₁ with highQC := (s₁.updateHighQC qc).highQC } := by
    unfold HotStuff.updateHighQC
    split_ifs <;> rfl
  rw [hrun, hsame]
  generalize (s₁.updateHighQC qc).highQC = high at hhigh'
  by_cases h3 : qc.view < 3
  · have hv2 : v ≤ 2 := by rw [hqc.view] at h3; omega
    have hlow : v - 3 = v + 1 - 3 := by omega
    rw [if_pos h3]
    exact ⟨_, rfl, ⟨hlow ▸ h.spine, h.tallied, by dsimp only [s₁]; rw [hadv], ⟨v, by omega, le_rfl, hhigh'⟩,
      rfl, h.voted, hlow ▸ h.committed, h.forked, h.qcs⟩, ⟨rfl, rfl, by dsimp only [s₁]; rw [hadv], rfl⟩⟩
  · have hv3 : 3 ≤ v := by rw [hqc.view] at h3; omega
    obtain ⟨bc, e, hcommit, hspine, hquorum⟩ := tryCommit_row (s := { s₁ with highQC := high }) hr h.spine
      hv3 hqc
    have hlow : v - 2 = v + 1 - 3 := by omega
    rw [if_neg h3]
    refine ⟨_, hcommit, ⟨hlow ▸ hspine, ?_, by dsimp only [s₁]; rw [hadv],
      ⟨v, by omega, le_rfl, hhigh'⟩, rfl, h.voted, ?_, h.forked, h.qcs⟩,
      ⟨rfl, rfl, by dsimp only [s₁]; rw [hadv], ?_⟩⟩
    · rw [hquorum]
      exact h.tallied.delete _
    · dsimp only [s₁]
      rw [h.committed, show v + 1 - 3 = v - 3 + 1 by omega, List.range'_concat, List.map_append]
      simp only [Nat.one_mul, List.map_cons, List.map_nil]
      rw [show 1 + (v - 3) = v - 2 by omega]
    · rw [hquorum, Quorum.votesFor_delete, if_neg]
      intro hid
      have := hr.id_inj (by omega) le_rfl (by omega : 1 ≤ v - 2) (by omega) hid
      omega

/-! ### A block -/

/-- The vote for a block, as it is sent; the leader of the next view keeps its own. -/
def voteSent (nd : Node) (c : Block) : List Envelope :=
  match makeVote nd.toConfig c.view nd.id c.id with
  | .ok vote =>
    if nd.elec.findLeaderFor (c.view + 1) = nd.id then []
    else [⟨some (nd.elec.findLeaderFor (c.view + 1)), .vote vote⟩]
  | .error _ => []

/-- Who has voted for a block at a replica that just has inserted it. -/
def selfVoter (nd : Node) (c : Block) : Finset NodeID :=
  if nd.elec.findLeaderFor (c.view + 1) = nd.id then {nd.id} else ∅

/-- What inserting the block `c` and voting for it adds. -/
structure Inserts (nd : Node) (c : Block) (s t : HotStuff) : Prop where
  sent : t.sent = s.sent ++ voteSent nd c
  blocks : t.bufferedBlocks = s.bufferedBlocks
  chan : t.pm.newViewChan = s.pm.newViewChan
  polled : t.bc.quorum.Polled c.id (selfVoter nd c)

/-- The voting rule grants the vote for the last block of the row. -/
theorem InStep.votingRule (h : InStep cf b v v s) (hr : Row cf b v) (h1 : 1 ≤ v) :
    s.votingRule (b v) = some true := by
  unfold HotStuff.votingRule BlockChain.votingRule
  rw [hr.view v h1 le_rfl]
  split_ifs with h2
  · rfl
  have hst := h.spine.getVertex (w := v) h1 (by omega) le_rfl
  have hprev : (b v).prevID = (b (v - 1)).id := by
    have hp := hr.prevID (v - 1) (by omega)
    rwa [Nat.sub_add_cancel (by omega), idAt_of_pos (by omega)] at hp
  have hpar := h.spine.getVertex (w := v - 1) (by omega) (by omega) (by omega)
  simp only [BlockChain.getParentBlock, hst, hprev, hpar, Option.bind_eq_bind, Option.bind_some]
  rw [hr.view (v - 1) (by omega) (by omega), h.voted, h.preferred, if_neg]
  split_ifs <;> omega

/-- The block is inserted. -/
theorem storeBlock_row (hr : Row cf b (v + 1)) (h : InStep cf b v (v + 1) s) :
    ∃ t, storeBlock (b (v + 1)) s = .ok () t ∧ InStep cf b (v + 1) (v + 1) t ∧ t.sent = s.sent ∧
      t.bufferedBlocks = s.bufferedBlocks ∧ t.pm = s.pm ∧ t.bc.quorum.votesFor (b (v + 1)).id = ∅ := by
  obtain ⟨f, hf, hspine⟩ := h.spine.addVertex hr (by omega)
  obtain ⟨q, hq, hqv, hhigh⟩ := h.high
  refine ⟨{ s with
    bc := { s.bc with forrest := f }
    trace := s.trace ++ [.accepted (b (v + 1)) s.preferredView (s.bc.getBlockByID (b (v + 1)).prevID)] },
    ?_, ⟨hspine, h.tallied.mono (by omega), h.view, ⟨q, hq, by omega, hhigh⟩, h.preferred, h.voted,
      h.committed, h.forked, h.qcs⟩, rfl, rfl, rfl, ?_⟩
  · unfold storeBlock note
    rw [get_bind_apply, modify_bind_apply]
    exact zoom_apply_ok (zoom_apply_ok hf)
  · refine h.tallied.unpolled _ fun w h1 hw hid => ?_
    have := hr.id_inj (by omega) le_rfl h1 (by omega) hid
    omega

/-- A vote of the replica to itself does not make a quorum. -/
theorem processVote_row_own (hn : 2 ≤ nd.n) (h : InStep nd.toConfig b v v s) {c : Block} {vote : Vote}
    (hv : ValidVote nd c vote) (hnone : s.bc.quorum.votesFor c.id = ∅) :
    processVote nd vote s = .ok () (counted nd s vote) ∧
      (counted nd s vote).bc.quorum.Polled c.id {vote.voter} := by
  obtain ⟨hp, -, hbuilt⟩ := polled_counted nd (Quorum.polled_empty hnone) hv.blockID
  rw [show insert vote.voter ∅ = ({vote.voter} : Finset NodeID) from rfl] at hp hbuilt
  refine ⟨processVote_counts hv.valid fun hex => ?_, hp⟩
  have hfull := (hbuilt.1 hex).2
  rw [h.tallied.total, Finset.card_singleton] at hfull
  omega

/-- The replica's own vote is sent, or counted. -/
theorem castVote_row (ha : Able nd) (hr : Row nd.toConfig b v) (h1 : 1 ≤ v) (h : InStep nd.toConfig b v v s)
    (hnone : s.bc.quorum.votesFor (b v).id = ∅) :
    ∃ t, castVote nd (b v) s = .ok none t ∧ InStep nd.toConfig b v v t ∧ Inserts nd (b v) s t := by
  obtain ⟨i, hi⟩ := ha.key
  obtain ⟨vote, hvote⟩ : ∃ vote, makeVote nd.toConfig (b v).view nd.id (b v).id = .ok vote := by
    unfold makeVote privSign
    rw [hi]
    exact ⟨_, rfl⟩
  have hvalid := validVote_of_makeVote hvote
  obtain ⟨-, hvoter, -, hsign⟩ := makeVote_eq_ok hvote
  unfold castVote
  rw [get_bind_apply, h.votingRule hr h1]
  dsimp only
  rw [hvote, ok_bind_apply]
  unfold note
  rw [modify_bind_apply]
  have hnoted : InStep nd.toConfig b v v { s with trace := s.trace ++ [.voted (b v)] } := { h with }
  by_cases hl : nd.elec.findLeaderFor ((b v).view + 1) = nd.id
  · obtain ⟨hcount, hpolled⟩ := processVote_row_own ha.others hnoted hvalid hnone
    rw [if_pos hl, bind_apply_ok hcount]
    refine ⟨_, rfl, { hnoted with tallied := ?_ }, ?_, rfl, rfl, ?_⟩
    · refine h.tallied.add h1 le_rfl hvalid.blockID ?_
      rw [hvalid.blockID, hvoter]
      exact pubVerify_privSign ha.verify hsign
    · simp [voteSent, hvote, hl, counted]
    · rwa [selfVoter, if_pos hl, ← hvoter]
  · rw [if_neg hl, modify_bind_apply]
    refine ⟨_, rfl, { hnoted with }, ?_, rfl, rfl, ?_⟩
    · simp [voteSent, hvote, hl, HotStuff.send]
    · rw [selfVoter, if_neg hl]
      exact Quorum.polled_empty hnone

/-- **The next block** is inserted, and the replica votes for it. -/
theorem insertAndVote_row (ha : Able nd) (hr : Row nd.toConfig b (v + 1))
    (h : InStep nd.toConfig b v (v + 1) s) :
    ∃ t, insertAndVote nd (b (v + 1)) s = .ok none t ∧ InStep nd.toConfig b (v + 1) (v + 1) t ∧
      Inserts nd (b (v + 1)) s t := by
  obtain ⟨s₁, hs₁, hin, hsent, hblocks, hpm, hnone⟩ := storeBlock_row hr h
  have hbuf : processBufferedQC nd (b (v + 1)).id s₁ = .ok () s₁ := by
    have hlk : s₁.bufferedQCs.lookup (b (v + 1)).id = none := by rw [hin.qcs]; simp
    unfold processBufferedQC
    rw [get_bind_apply, hlk]
    rfl
  obtain ⟨t, ht, hin', hins⟩ := castVote_row ha hr (by omega) hin hnone
  refine ⟨t, ?_, hin', hsent ▸ hins.sent, hblocks ▸ hins.blocks, hpm ▸ hins.chan, hins.polled⟩
  rw [insertAndVote_eq, insertBlock_eq]
  exact (bind_apply_ok ((bind_apply_ok hs₁).trans hbuf)).trans ht

/-! ### The votes of others -/

/-- A vote that completes a quorum for a block that is stored. -/
theorem processVote_of_built {c : Block} {vote : Vote} (hv : ValidVote nd c vote)
    (hst : s.bc.forrest.getVertex c.id ≠ none) (hqc : (s.bc.quorum.add nd.toConfig vote).1 = some qc) :
    processVote nd vote s = processCertificate nd { qc with leader := nd.id }
      { counted nd s vote with trace := s.trace ++ [.built { qc with leader := nd.id }] } := by
  obtain ⟨x, hx⟩ := Option.ne_none_iff_exists'.1 hst
  unfold processVote
  rw [hv.valid, ok_bind_apply, if_neg (by simp), get_bind_apply]
  unfold BlockChain.addVote
  simp only [hqc]
  rw [set_bind_apply]
  unfold note
  rw [modify_bind_apply]
  simp only [BlockChain.getBlockByID, (Quorum.add_eq_some hqc).2, hv.blockID, hx]
  rfl

/-- A vote counted for a block of the row. -/
theorem InStep.counted {r : ℕ} (h : InStep nd.toConfig b v r s) (h1 : 1 ≤ v) {vote : Vote}
    (hid : vote.blockID = (b v).id)
    (hsig : pubVerify nd.toConfig vote.signature vote.blockID vote.voter = .ok true) :
    InStep nd.toConfig b v r (counted nd s vote) :=
  { h with tallied := h.tallied.add h1 le_rfl hid hsig }

variable (nd) in
/-- **A vote for the last block inserted** counts; the one that completes the quorum takes the replica into the
next view. -/
theorem processVote_row (hb : nd.isByz = false) (hr : Row nd.toConfig b v) (h1 : 1 ≤ v)
    (h : InStep nd.toConfig b v v s) {vote : Vote} (hv : ValidVote nd (b v) vote)
    (hsig : pubVerify nd.toConfig vote.signature vote.blockID vote.voter = .ok true) {W : Finset NodeID}
    (hp : s.bc.quorum.Polled (b v).id W) (hW : ¬ nd.n * 2 / 3 < W.card) :
    ∃ t, processVote nd vote s = .ok () t ∧ t.bc.quorum.Polled (b v).id (insert vote.voter W) ∧
      t.sent = s.sent ∧ t.bufferedBlocks = s.bufferedBlocks ∧
      (if nd.n * 2 / 3 < (insert vote.voter W).card
        then InStep nd.toConfig b v (v + 1) t ∧ t.pm.newViewChan = s.pm.newViewChan ++ [((v + 1 : ℕ) : ℤ)]
        else InStep nd.toConfig b v v t ∧ t.pm.newViewChan = s.pm.newViewChan) := by
  obtain ⟨hp', -, hbuilt⟩ := polled_counted nd hp hv.blockID
  rw [h.tallied.total] at hbuilt
  have hcount := h.counted h1 hv.blockID hsig
  by_cases hfull : nd.n * 2 / 3 < (insert vote.voter W).card
  · obtain ⟨qc, hqc⟩ := hbuilt.2 ⟨hW, hfull⟩
    have hst : s.bc.forrest.getVertex (b v).id ≠ none := by
      rw [h.spine.getVertex h1 (by omega) le_rfl]
      exact Option.some_ne_none _
    have hcert : CertOf nd.toConfig b v { qc with leader := nd.id } :=
      h.tallied.certOf h1 le_rfl hv.blockID (hv.view.trans (hr.view v h1 le_rfl)) hsig hqc nd.id
    obtain ⟨t, ht, hin, hent⟩ := processCertificate_row hb hr
      (s := { HotStuff.counted nd s vote with trace := s.trace ++ [.built { qc with leader := nd.id }] })
      { hcount with } hcert
    refine ⟨t, (processVote_of_built hv hst hqc).trans ht, ?_, hent.sent, hent.blocks, ?_⟩
    · exact hp'.congr hent.votes (hin.tallied.total.trans hcount.tallied.total.symm)
    · rw [if_pos hfull]
      exact ⟨hin, hent.chan⟩
  · refine ⟨_, processVote_counts hv.valid fun hex => hfull (hbuilt.1 hex).2, hp', rfl, rfl, ?_⟩
    rw [if_neg hfull]
    exact ⟨hcount, rfl⟩

variable (nd) in
/-- A vote after the quorum changes nothing. -/
theorem processVote_row_late {r : ℕ} (h1 : 1 ≤ v) (h : InStep nd.toConfig b v r s) {vote : Vote}
    (hv : ValidVote nd (b v) vote)
    (hsig : pubVerify nd.toConfig vote.signature vote.blockID vote.voter = .ok true) {W : Finset NodeID}
    (hp : s.bc.quorum.Polled (b v).id W) (hW : nd.n * 2 / 3 < W.card) :
    processVote nd vote s = .ok () (counted nd s vote) ∧ InStep nd.toConfig b v r (counted nd s vote) ∧
      (counted nd s vote).bc.quorum.Polled (b v).id (insert vote.voter W) := by
  obtain ⟨hp', -, hbuilt⟩ := polled_counted nd hp hv.blockID
  rw [h.tallied.total] at hbuilt
  exact ⟨processVote_counts hv.valid fun hex => (hbuilt.1 hex).1 hW, h.counted h1 hv.blockID hsig, hp'⟩

/-! ### The checks before a block is inserted -/

theorem checkBlock_row (hr : Row nd.toConfig b v) (h1 : 1 ≤ v) : ∃ ok, checkBlock nd (b v) = .ok ok := by
  obtain ⟨r, hr⟩ := hr.signed v h1 le_rfl
  unfold checkBlock
  split_ifs
  · exact ⟨r, hr⟩
  · exact ⟨true, rfl⟩

/-- `ProcessBlock` takes the certificate of the block into account. -/
theorem InStep.offered {r : ℕ} (h : InStep cf b v r s) (hqc : CertOf cf b v qc) (c : Block) :
    InStep cf b v r (offeredState s c qc) := by
  obtain ⟨q, hq, hqv, hhigh⟩ := h.high
  have hhigh' : CertOf cf b v (offeredState s c qc).highQC := certOf_updateHighQC hqv hhigh hqc
  have hsame : offeredState s c qc = { s with
      trace := s.trace ++ [.offered c s.highQC.view]
      highQC := (offeredState s c qc).highQC } := by
    unfold offeredState HotStuff.updateHighQC
    split_ifs <;> rfl
  rw [hsame]
  exact { h with high := ⟨v, by omega, le_rfl, hhigh'⟩ }

variable (nd) in
/-- **The next block passes the checks of a replica that follows**: its certificate takes the replica into
the block's view. -/
theorem vetBlock_row (hb : nd.isByz = false) (hr : Row nd.toConfig b (v + 1)) (h : InStep nd.toConfig b v v s)
    (hprop : (b (v + 1)).proposer ≠ nd.id) :
    ∃ t, vetBlock nd (b (v + 1)) s = .ok none t ∧ InStep nd.toConfig b v (v + 1) t ∧
      Enters (v + 1) (b v).id s t := by
  obtain ⟨ok, hok⟩ := checkBlock_row hr (by omega)
  obtain ⟨qc, hqc, hcert⟩ := hr.cert v le_rfl
  have hview := hr.view (v + 1) (by omega) le_rfl
  obtain ⟨t, ht, hin, hent⟩ := processCertificate_row hb (hr.mono (by omega))
    (h.offered hcert (b (v + 1))) hcert
  refine ⟨t, ?_, hin, ?_⟩
  · unfold vetBlock
    rw [get_bind_apply, hok, ok_bind_apply, if_neg (by rw [h.view, hview]; push_cast; omega), hqc]
    unfold note
    dsimp only
    rw [modify_bind_apply, modify_bind_apply, if_pos hprop]
    refine (bind_apply_ok ht).trans ?_
    rw [get_bind_apply, if_neg (by rw [hin.view, hview]; omega), hview,
      if_neg (by rw [hr.leader (v + 1) (by omega) le_rfl]; simp)]
    rfl
  · refine ⟨hent.sent.trans ?_, hent.blocks.trans ?_, hent.chan.trans ?_, hent.votes.trans ?_⟩
    all_goals simp [offeredState]

variable (nd) in
/-- The leader's own block passes its checks: it has entered the view before. -/
theorem vetBlock_row_own (hr : Row nd.toConfig b (v + 1)) (h : InStep nd.toConfig b v (v + 1) s)
    (hprop : (b (v + 1)).proposer = nd.id) :
    ∃ t, vetBlock nd (b (v + 1)) s = .ok none t ∧ InStep nd.toConfig b v (v + 1) t ∧ t.sent = s.sent ∧
      t.bufferedBlocks = s.bufferedBlocks ∧ t.pm = s.pm := by
  obtain ⟨ok, hok⟩ := checkBlock_row hr (by omega)
  obtain ⟨qc, hqc, hcert⟩ := hr.cert v le_rfl
  have hview := hr.view (v + 1) (by omega) le_rfl
  have hoff := h.offered hcert (b (v + 1))
  refine ⟨offeredState s (b (v + 1)) qc, ?_, hoff, by simp [offeredState], by simp [offeredState],
    by simp [offeredState]⟩
  unfold vetBlock
  rw [get_bind_apply, hok, ok_bind_apply, if_neg (by rw [h.view, hview]; omega), hqc]
  unfold note
  dsimp only
  have hnow : ¬ (b (v + 1)).view < (offeredState s (b (v + 1)) qc).pm.curView := by
    rw [hoff.view, hview]
    omega
  unfold offeredState at hnow
  rw [modify_bind_apply, modify_bind_apply, if_neg (not_not.2 hprop), pure_bind, get_bind_apply, if_neg hnow,
    hview, if_neg (by rw [hr.leader (v + 1) (by omega) le_rfl]; simp)]
  rfl

/-- `ProcessBlock` at a replica without buffered blocks. -/
theorem processBlock_unbuffered {c : Block} (hv : vetBlock nd c s = .ok none t)
    (hi : insertAndVote nd c t = .ok none u) (hbuf : u.bufferedBlocks = ∅) : processBlock nd c s = .ok none u := by
  unfold processBlock
  rw [get_bind_apply]
  unfold processBlockN
  rw [bind_apply_ok hv]
  dsimp only
  rw [bind_apply_ok hi]
  dsimp only
  rw [get_bind_apply, hbuf, AList.lookup_empty]
  rfl

end HotStuff

end Bamboo
