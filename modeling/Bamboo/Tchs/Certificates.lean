import Bamboo.Blocks
import Bamboo.Lib.Quorums
import Bamboo.Tchs.Handlers

/-!
# What certificates say in a network of honest replicas of two-chain HotStuff

`forkChoice` overwrites the view of a certificate, so a certificate says nothing about views here.  What
remains true of it is that a quorum signed the block it names.

* `Proposed`, `Voted`: the blocks that were sent, and the votes for them;
* `Backed`, `Fine`: certificates that a quorum of votes for one block stands behind, under any view;
* `Sound`: the invariant of all runs, every certificate is fine, and a proposal carries one that is
  stamped with the view before the proposal's own or a later one.
-/

namespace Bamboo

namespace Tchs

/-! ### Blocks, votes and certificates of a network -/

/-- The block was sent by its proposer. -/
def Proposed (w : NodeID → Tchs) (b : Block) : Prop := Net.Sent Tchs.sent w (.block b)

/-- The replica voted for the block, under whatever view its certificate had in memory. -/
def Voted (w : NodeID → Tchs) (i : NodeID) (b : Block) : Prop :=
  ∃ c, .voted c ∈ (w i).trace ∧ Copy c b

/-- More than two thirds of the nodes, pairwise distinct, voted for `b` and signed the certificate. -/
structure Backed (cf : Config) (members : List NodeID) (w : NodeID → Tchs) (q : QC)
    (b : Block) : Prop where
  proposed : Proposed w b
  blockID : q.blockID = b.id
  nodup : q.signers.Nodup
  quorum : 2 * cf.n < 3 * q.signers.length
  voted : ∀ i ∈ q.signers, i ∈ members ∧ Voted w i b
  signed : List.Forall₂ (fun sig i => privSign cf q.blockID i = .ok sig) q.aggSig q.signers

/-- Some certificate backs the block. -/
def Certified (cf : Config) (members : List NodeID) (w : NodeID → Tchs) (b : Block) : Prop :=
  ∃ q, Backed cf members w q b

/-- The first certificate, under any view. -/
structure Blank (q : QC) : Prop where
  blockID : q.blockID = zeroID
  signers : q.signers = []
  aggSig : q.aggSig = []

/-- The first certificate, or one that is backed. -/
def Fine (cf : Config) (members : List NodeID) (w : NodeID → Tchs) (q : QC) : Prop :=
  Blank q ∨ ∃ b, Backed cf members w q b

/-- `w'` is later than `w`: outboxes and traces have grown. -/
def Later (w w' : NodeID → Tchs) : Prop :=
  ∀ i, (w i).sent ⊆ (w' i).sent ∧ (w i).trace ⊆ (w' i).trace

variable {cf : Config} {members : List NodeID} {w w' : NodeID → Tchs} {i : NodeID} {q : QC} {b : Block}

/-- The view of a certificate does not matter. -/
theorem Backed.stamp (h : Backed cf members w q b) (v : ℤ) :
    Backed cf members w { q with view := v } b :=
  ⟨h.proposed, h.blockID, h.nodup, h.quorum, h.voted, h.signed⟩

theorem Fine.stamp (h : Fine cf members w q) (v : ℤ) : Fine cf members w { q with view := v } :=
  h.imp (fun hb => ⟨hb.blockID, hb.signers, hb.aggSig⟩) fun ⟨b, hb⟩ => ⟨b, hb.stamp v⟩

theorem Later.sent (h : Later w w') {m : Msg} (hm : Net.Sent Tchs.sent w m) : Net.Sent Tchs.sent w' m := by
  obtain ⟨i, e, he, rfl⟩ := hm
  exact ⟨i, e, (h i).1 he, rfl⟩

theorem Later.proposed (h : Later w w') (b : Block) (hb : Proposed w b) : Proposed w' b := h.sent hb

theorem Later.voted (h : Later w w') (hv : Voted w i b) : Voted w' i b :=
  hv.imp fun _ hc => ⟨(h i).2 hc.1, hc.2⟩

theorem Later.backed (h : Later w w') (hq : Backed cf members w q b) : Backed cf members w' q b :=
  ⟨h.sent hq.proposed, hq.blockID, hq.nodup, hq.quorum,
    fun i hi => ⟨(hq.voted i hi).1, h.voted (hq.voted i hi).2⟩, hq.signed⟩

theorem Later.fine (h : Later w w') (hq : Fine cf members w q) : Fine cf members w' q :=
  hq.imp_right fun ⟨b, hb⟩ => ⟨b, h.backed hb⟩

theorem Later.collisionFree (h : Later w w') (hc : CollisionFree (Proposed w')) :
    CollisionFree (Proposed w) := hc.anti h.proposed

theorem Act.later {In : Msg → Prop} {t : Tchs} (h : Act (cf.honest i) In (w i) t) :
    Later w (Function.update w i t) :=
  Net.update_rel (r := fun s t : Tchs => s.sent ⊆ t.sent ∧ s.trace ⊆ t.trace)
    (fun _ => ⟨List.Subset.refl _, List.Subset.refl _⟩) h.subset

/-- With ideal signatures a fine certificate passes every replica's check. -/
theorem Fine.passes (h : Fine cf members w q) (hs : cf.SignaturesVerify) (i : NodeID) :
    Passes (cf.honest i) q := by
  refine Or.inr ?_
  show verifyQuorumSignature cf q.aggSig q.blockID q.signers = .ok true
  rcases h with hb | ⟨b, hb⟩
  · rw [hb.signers, hb.aggSig]
    rfl
  · exact verifyQuorumSignature_of_signed hs hb.signed

/-! ### One proposal for each view -/

theorem Act.ordered {nd : Node} {In : Msg → Prop} {s t : Tchs} (ha : Act nd In s t)
    (h : Ordered s.pm s.sent) : Ordered t.pm t.sent := by
  cases ha with
  | advance v => exact h.advance v
  | @offer p =>
    obtain ⟨x, heq, -⟩ := updateHighQC_cases s p
    rwa [heq]
  | @certify p q u hp hv hpass ht =>
    obtain ⟨v, x, heq, -⟩ := certify_cases (p := p) ht
    rw [heq]
    exact h.advance q.view
  | pop hq => exact h.pop hq
  | propose hq hl hb => exact h.propose hq hb.view
  | vote hp hg hr hv =>
    dsimp only
    split_ifs
    · exact h
    · exact h.send rfl
  | sendTmo => exact h.send rfl
  | timeouts tcl => exact h.congr rfl rfl
  | _ => exact h

/-! ### Every certificate is fine -/

/-- The vote is the one that `i` made for a block it voted for. -/
def VoteOk (cf : Config) (w : NodeID → Tchs) (i : NodeID) (v : Vote) : Prop :=
  ∃ c, .voted c ∈ (w i).trace ∧ makeVote cf c.view i c.id = .ok v

/-- What a message sent by `i` says is true, and blocks are broadcast by their proposers. -/
def MsgOk (cf : Config) (members : List NodeID) (w : NodeID → Tchs) (i : NodeID) (e : Envelope) : Prop :=
  match e.body with
  | .block b => e.dest = none ∧ cf.elec.isLeader i b.view = true ∧ b.proposer = i ∧
      ∃ q, b.qc = some q ∧ b.prevID = q.blockID ∧ Fine cf members w q ∧ b.view - 1 ≤ q.view
  | .vote v => VoteOk cf w i v
  | .tmo _ => True

/-- All that is said in the network is true. -/
structure Sound (cf : Config) (members : List NodeID) (w : NodeID → Tchs) : Prop where
  sent : ∀ i, ∀ e ∈ (w i).sent, i ∈ members ∧ MsgOk cf members w i e
  accepted : ∀ i c lock parent, .accepted c lock parent ∈ (w i).trace → ∃ b, Proposed w b ∧ Copy c b
  voted : ∀ i c, .voted c ∈ (w i).trace →
    i ∈ members ∧ ∃ lock parent, .accepted c lock parent ∈ (w i).trace
  built : ∀ i q, .built q ∈ (w i).trace → ∃ b, Backed cf members w q b ∧ q.view = b.view
  counted : ∀ i v, (w i).bc.quorum.Has v → ∃ j ∈ members, VoteOk cf w j v

theorem sound_new : Sound cf members fun _ => Tchs.new cf.n where
  sent := fun _ _ h => by simp [Tchs.new] at h
  accepted := fun _ _ _ _ h => by simp [Tchs.new] at h
  voted := fun _ _ h => by simp [Tchs.new] at h
  built := fun _ _ h => by simp [Tchs.new] at h
  counted := fun _ _ h => by
    simp [Tchs.new, BlockChain.new, Quorum.new, Quorum.Has, Quorum.votesFor] at h

theorem Later.voteOk (h : Later w w') {v : Vote} (hv : VoteOk cf w i v) : VoteOk cf w' i v :=
  hv.imp fun _ hc => ⟨(h i).2 hc.1, hc.2⟩

theorem Later.msgOk (h : Later w w') {e : Envelope} (hm : MsgOk cf members w i e) :
    MsgOk cf members w' i e := by
  obtain ⟨dest, body⟩ := e
  cases body with
  | block b =>
    obtain ⟨hd, hl, hp, q, hq, hprev, hf, hv⟩ := hm
    exact ⟨hd, hl, hp, q, hq, hprev, h.fine hf, hv⟩
  | vote v => exact h.voteOk hm
  | tmo t => trivial

/-- What a replica has seen was sent. -/
theorem Heard.sent {m : Msg} (h : Heard (Net.SentTo Tchs.sent w i) (w i) m) :
    Net.Sent Tchs.sent w m := by
  rcases h with h | ⟨e, he, rfl⟩
  · exact Net.SentTo.sent h
  · exact ⟨i, e, he, rfl⟩

namespace Sound

/-- What is known of a block that was sent. -/
theorem proposal (h : Sound cf members w) (hb : Proposed w b) :
    ∃ i ∈ members, cf.elec.isLeader i b.view = true ∧ b.proposer = i ∧
      ∃ q, b.qc = some q ∧ b.prevID = q.blockID ∧ Fine cf members w q ∧ b.view - 1 ≤ q.view := by
  obtain ⟨i, ⟨dest, body⟩, he, rfl⟩ := hb
  obtain ⟨hi, -, hl, hp, hq⟩ := h.sent i _ he
  exact ⟨i, hi, hl, hp, hq⟩

theorem fine_of_copy (h : Sound cf members w) {c : Block} (hb : Proposed w b) (hc : Copy c b)
    (hq : c.qc = some q) : Fine cf members w q := by
  obtain ⟨-, -, -, -, q₀, hq₀, -, hf, -⟩ := h.proposal hb
  obtain ⟨v, hv⟩ := hc.qc hq₀
  rw [hq] at hv
  cases hv
  exact hf.stamp v

/-- Every certificate in memory is fine. -/
theorem fine_of_holds (h : Sound cf members w)
    (hok : Ok (cf.honest i) (Net.SentTo Tchs.sent w i) (w i)) {p : ℕ} (hq : (w i).Holds p q) :
    Fine cf members w q := by
  obtain ⟨c, hc, hcert⟩ := hq
  cases c with
  | block c =>
    obtain ⟨b, hcopy, hsrc⟩ := hok.block p c hc
    exact h.fine_of_copy hsrc.heard.sent hcopy hcert
  | certificate q' =>
    cases hcert
    obtain ⟨q₀, v, rfl, rfl | hbuilt⟩ := hok.certificate p q hc
    · exact Or.inl ⟨rfl, rfl, rfl⟩
    · obtain ⟨b, hb, -⟩ := h.built i q₀ hbuilt
      exact Or.inr ⟨b, hb.stamp v⟩

theorem copy_of_voted (h : Sound cf members w) {c : Block} (hc : .voted c ∈ (w i).trace) :
    ∃ b, Proposed w b ∧ Copy c b := by
  obtain ⟨-, lock, parent, hm⟩ := h.voted i c hc
  exact h.accepted i c lock parent hm

theorem voteOk_of_counts (h : Sound cf members w) (hi : i ∈ members) {v : Vote}
    (hc : Counts (cf.honest i) (Net.SentTo Tchs.sent w i) (w i) v) :
    ∃ j ∈ members, VoteOk cf w j v := by
  rcases hc.1 with hv | ⟨c, hc, hv, -⟩
  · obtain ⟨j, ⟨dest, body⟩, he, rfl⟩ := Net.SentTo.sent hv
    obtain ⟨hj, hok⟩ := h.sent j _ he
    exact ⟨j, hj, hok⟩
  · exact ⟨i, hi, c, hc, hv⟩

/-- The certificate that a quorum of recorded votes gives rise to is backed, and has the block's view. -/
theorem backed_of_certifies (h : Sound cf members w) (hid : CollisionFree (Proposed w)) {r : Quorum}
    (hr : ∀ u, r.Has u → ∃ j ∈ members, VoteOk cf w j u) (hn : r.total = cf.n) {v : Vote}
    (hv : ∃ j ∈ members, VoteOk cf w j v) (hc : Quorum.Certifies cf r v q) (l : NodeID) :
    ∃ b, Backed cf members w { q with leader := l } b ∧ q.view = b.view := by
  obtain ⟨j, -, c, hvc, hmake⟩ := hv
  obtain ⟨hview, -, hid', -⟩ := makeVote_eq_ok hmake
  obtain ⟨b, hb, hcopy⟩ := h.copy_of_voted hvc
  have hbid : v.blockID = b.id := hid'.trans hcopy.id
  -- a vote on record for the certified id is one for `b`
  have hsigner : ∀ u, r.Has u → u.blockID = v.blockID →
      u.voter ∈ members ∧ Voted w u.voter b ∧ privSign cf v.blockID u.voter = .ok u.signature := by
    intro u hu hub
    obtain ⟨j', hj', c', hvc', hmake'⟩ := hr u hu
    obtain ⟨-, hvoter, hid'', hsig⟩ := makeVote_eq_ok hmake'
    obtain ⟨b', hb', hcopy'⟩ := h.copy_of_voted hvc'
    have hbb : b' = b := hid.inj hb' hb (by rw [← hcopy'.id, ← hid'', hub, hbid])
    subst hbb
    rw [hvoter, ← hub, hid'']
    exact ⟨hj', ⟨c', hvc', hcopy'⟩, hsig⟩
  refine ⟨b, ⟨hb, hc.blockID.trans hbid, hc.nodup, ?_, ?_, ?_⟩, ?_⟩
  · have := hc.quorum
    rw [hn] at this
    dsimp only
    omega
  · intro i hi
    have hmem : i ∈ q.signers := hi
    obtain ⟨k, hk, rfl⟩ := List.getElem_of_mem hmem
    have hlen := hc.signed.length_eq
    obtain ⟨u, hu, hub, huv, -⟩ := (List.forall₂_iff_get.1 hc.signed).2 k (by omega) hk
    have hs := hsigner u hu hub
    rw [huv] at hs
    exact ⟨hs.1, hs.2.1⟩
  · refine hc.signed.imp ?_
    rintro sig i ⟨u, hu, hub, rfl, rfl⟩
    rw [hc.blockID]
    exact (hsigner u hu hub).2.2
  · rw [hc.view, hview, hcopy.view]

theorem act (h : Sound cf members w) (hi : i ∈ members) {t : Tchs} (hord : Ordered (w i).pm (w i).sent)
    (hok : Ok (cf.honest i) (Net.SentTo Tchs.sent w i) (w i))
    (ha : Act (cf.honest i) (Net.SentTo Tchs.sent w i) (w i) t)
    (hid : CollisionFree (Proposed (Function.update w i t))) : Sound cf members (Function.update w i t) := by
  have hlater : Later w (Function.update w i t) := ha.later
  have hid' := hlater.collisionFree hid
  have hmono : ∀ {c : Block}, (∃ b, Proposed w b ∧ Copy c b) →
      ∃ b, Proposed (Function.update w i t) b ∧ Copy c b :=
    fun ⟨b, hb, hc⟩ => ⟨b, hlater.sent hb, hc⟩
  constructor
  · intro j e hnew
    rcases Net.update_cases (P := fun s : Tchs => e ∈ s.sent) hnew with ⟨rfl, he⟩ | he
    · rcases ha.mem_sent he with he | ⟨v, rest, b, hq, hl, hp, rfl⟩ | ⟨c, v, hc, hv, hbody⟩ | ⟨m, hbody⟩
      · exact ⟨(h.sent j e he).1, hlater.msgOk (h.sent j e he).2⟩
      · obtain ⟨q, hhigh⟩ := hok.high
        have hv : v ≤ (w j).pm.curView := (hord.bounds v (List.mem_append_right _ (by simp [hq]))).2
        have hstamp := hp.stamped
        rw [hhigh.qcAt] at hstamp
        refine ⟨hi, rfl, hp.view ▸ hl, hp.proposer, q, by rw [hp.qc, hhigh.qcAt],
          by rw [hp.prevID, hhigh.qcAt], hlater.fine (h.fine_of_holds hok hhigh), ?_⟩
        rw [hp.view, hstamp]
        omega
      · refine ⟨hi, ?_⟩
        rw [MsgOk, hbody]
        exact ⟨c, by rw [Function.update_self]; exact hc, hv⟩
      · refine ⟨hi, ?_⟩
        rw [MsgOk, hbody]
        trivial
    · exact ⟨(h.sent j e he).1, hlater.msgOk (h.sent j e he).2⟩
  · intro j c lock parent hnew
    rcases Net.update_cases (P := fun s : Tchs => Entry.accepted c lock parent ∈ s.trace) hnew
      with ⟨rfl, he⟩ | he
    · rcases ha.mem_trace he with he | ⟨⟨p, hadm⟩, -⟩
      · exact hmono (h.accepted j c lock parent he)
      · obtain ⟨b, hcopy, hsrc⟩ := hok.block p c hadm.cell
        exact ⟨b, hlater.sent hsrc.heard.sent, hcopy⟩
    · exact hmono (h.accepted j c lock parent he)
  · intro j c hnew
    have hinserted : j ∈ members ∧ ∃ lock parent, .accepted c lock parent ∈ (w j).trace := by
      rcases Net.update_cases (P := fun s : Tchs => Entry.voted c ∈ s.trace) hnew with ⟨rfl, he⟩ | he
      · rcases ha.mem_trace he with he | hn
        · exact h.voted j c he
        · exact ⟨hi, accepted_of_pending hn.1⟩
      · exact h.voted j c he
    obtain ⟨hj, lock, parent, hm⟩ := hinserted
    exact ⟨hj, lock, parent, (hlater j).2 hm⟩
  · intro j q hnew
    have hback : ∀ {q : QC}, (∃ b, Backed cf members w q b ∧ q.view = b.view) →
        ∃ b, Backed cf members (Function.update w i t) q b ∧ q.view = b.view :=
      fun ⟨b, hb, hv⟩ => ⟨b, hlater.backed hb, hv⟩
    rcases Net.update_cases (P := fun s : Tchs => Entry.built q ∈ s.trace) hnew with ⟨rfl, he⟩ | he
    · rcases ha.mem_trace he with he | ⟨v, q', hv, hc, rfl⟩
      · exact hback (h.built j q he)
      · have hvote := h.voteOk_of_counts hi hv
        refine hback (h.backed_of_certifies (r := (w j).bc.quorum.record v) hid' ?_ hok.total hvote hc _)
        intro u hu
        rcases Quorum.has_record hu with rfl | hu
        · exact hvote
        · exact h.counted j u hu
    · exact hback (h.built j q he)
  · intro j v hnew
    have hold : ∃ k ∈ members, VoteOk cf w k v := by
      rcases Net.update_cases (P := fun s : Tchs => s.bc.quorum.Has v) hnew with ⟨rfl, hv⟩ | hv
      · rcases ha.has hv with hv | hv
        · exact h.counted j v hv
        · exact h.voteOk_of_counts hi hv
      · exact h.counted j v hv
    obtain ⟨k, hk, hvote⟩ := hold
    exact ⟨k, hk, hlater.voteOk hvote⟩

end Sound

/-! ### The runs of the network -/

section Runs

variable (hw : (tchsSteps cf members).Reachable w)
include hw

theorem ordered_of_reachable (i : NodeID) : Ordered (w i).pm (w i).sent :=
  hw.keeps (J := fun _ s => Ordered s.pm s.sent) (fun _ => ordered_new cf.n) (fun ha h => Act.ordered ha h) i

/-- **In every run all that is said is true.** -/
theorem sound_of_reachable (hid : CollisionFree (Proposed w)) : Sound cf members w := by
  induction hw with
  | start => exact sound_new
  | @step w i t hr hi ha ih =>
    exact (ih ((Act.later ha).collisionFree hid)).act hi (ordered_of_reachable hr i) (hr.ok i) ha hid

theorem proposed_unique (he : cf.elec.Consistent members) (hid : CollisionFree (Proposed w)) {b b' : Block}
    (hb : Proposed w b) (hb' : Proposed w b') (hv : b.view = b'.view) : b = b' := by
  have hs := sound_of_reachable hw hid
  obtain ⟨i, ⟨d, m⟩, he₁, rfl⟩ := hb
  obtain ⟨j, ⟨d', m'⟩, he₂, rfl⟩ := hb'
  -- both were sent by the leader of their view
  have hl : cf.elec.isLeader i b.view = true := (hs.sent i _ he₁).2.2.1
  have hl' : cf.elec.isLeader j b'.view = true := (hs.sent j _ he₂).2.2.1
  have hij : i = j := by
    rw [← (he i (hs.sent i _ he₁).1 b.view).1 hl, hv, (he j (hs.sent j _ he₂).1 b'.view).1 hl']
  subst hij
  -- whose proposals have increasing views
  exact (ordered_of_reachable hw i).unique (mem_filterMap_blockOf he₁ rfl)
    (mem_filterMap_blockOf he₂ rfl) hv

theorem one_le_view_of_proposed (hb : Proposed w b) : 1 ≤ b.view := by
  obtain ⟨i, e, he, hbody⟩ := hb
  exact ((ordered_of_reachable hw i).view_bounds (mem_filterMap_blockOf he hbody)).1

theorem mem_blocksSent_of_proposed (b : Block) (hb : Proposed w b) :
    b ∈ blocksSent Tchs.sent members w := by
  refine mem_blocksSent (fun i hi => ?_) hb
  rw [hw.eq_init hi]
  rfl

end Runs

theorem rooted_of_reachable (hw : (tchsSteps cf members).Reachable w)
    (hid : CollisionFree (Proposed w)) (hb : Proposed w b) : Rooted (Proposed w) b := by
  induction hw generalizing b with
  | start =>
    obtain ⟨i, e, he, -⟩ := hb
    simp [tchsNet, network, Tchs.new] at he
  | @step w j t hr hj ha ih =>
    have hlater : Later w (Function.update w j t) := Act.later ha
    have hid' := hlater.collisionFree hid
    have hprop := hb
    obtain ⟨i, e, hnew, hbody⟩ := hb
    have hold : e ∈ (w i).sent → Rooted (Proposed (Function.update w j t)) b :=
      fun he => (ih hid' ⟨i, e, he, hbody⟩).mono hlater.proposed
    rcases Net.update_cases (P := fun s : Tchs => e ∈ s.sent) hnew with ⟨rfl, he⟩ | he
    · rcases Act.mem_sent ha he with he | ⟨v, rest, b', -, -, hp, rfl⟩ | ⟨_, _, -, -, hv⟩ | ⟨_, ht⟩
      · exact hold he
      · -- a new block stands on the block of a certificate
        cases hbody
        obtain ⟨q, hq⟩ := (hr.ok i).high
        have hprev : b.prevID = q.blockID := by rw [hp.prevID, hq.qcAt]
        rcases (sound_of_reachable hr hid').fine_of_holds (hr.ok i) hq with hblank | ⟨a, ha⟩
        · exact .root (hprev.trans hblank.blockID)
        · refine .child ⟨hlater.proposed a ha.proposed, hprop, ?_⟩
            ((ih hid' ha.proposed).mono hlater.proposed)
          rw [hprev, ha.blockID]
      · rw [hbody] at hv; cases hv
      · rw [hbody] at ht; cases ht
    · exact hold he

/-- The parent of a block is certified by the block's own certificate. -/
theorem Sound.certified_of_parentOf (h : Sound cf members w) (hid : CollisionFree (Proposed w))
    {p : Block} (hp : ParentOf (Proposed w) p b) :
    ∃ q, b.qc = some q ∧ Backed cf members w q p := by
  obtain ⟨-, -, -, -, q, hq, hprev, hf, -⟩ := h.proposal hp.child
  have hpid : q.blockID = p.id := by rw [← hprev, hp.link]
  rcases hf with hblank | ⟨p', hp'⟩
  · exact absurd (hpid.symm.trans hblank.blockID) (hid.ne_zero hp.parent)
  · have : p' = p := hid.inj hp'.proposed hp.parent (hp'.blockID.symm.trans hpid)
    exact ⟨q, hq, this ▸ hp'⟩

end Tchs

end Bamboo
