import Bamboo.Blocks
import Bamboo.FourNodes
import Bamboo.HotStuff.Handlers

/-!
# What certificates say in a network of honest HotStuff replicas

* `Proposed`, `Voted`, `Genuine`: the blocks that were sent, the votes that were cast, and the
  certificates that a quorum of votes for one block stands behind;
* `Sound`: the invariant of all runs, every certificate but the first one is genuine;
* `committed_threeChain`: a commit rests on three certified blocks of consecutive views.
-/

namespace Bamboo

namespace HotStuff

/-! ### Blocks, votes and certificates of a network -/

/-- The block was sent by its proposer. -/
def Proposed (w : NodeID → HotStuff) (b : Block) : Prop := Net.Sent HotStuff.sent w (.block b)

/-- The replica voted for the block. -/
def Voted (w : NodeID → HotStuff) (i : NodeID) (b : Block) : Prop := .voted b ∈ (w i).trace

/-- A certificate of view and block `b`, whose signers are more than two thirds of the nodes, pairwise
distinct, and each a replica that voted for `b`. -/
structure Genuine (cf : Config) (members : List NodeID) (w : NodeID → HotStuff) (qc : QC)
    (b : Block) : Prop where
  proposed : Proposed w b
  blockID : qc.blockID = b.id
  view : qc.view = b.view
  nodup : qc.signers.Nodup
  quorum : 2 * cf.n < 3 * qc.signers.length
  voted : ∀ i ∈ qc.signers, i ∈ members ∧ Voted w i b

/-- Some genuine certificate for the block exists. -/
def Certified (cf : Config) (members : List NodeID) (w : NodeID → HotStuff) (b : Block) : Prop :=
  ∃ qc, Genuine cf members w qc b

/-- The first certificate, or a genuine one. -/
def Fine (cf : Config) (members : List NodeID) (w : NodeID → HotStuff) (qc : QC) : Prop :=
  qc = .initial ∨ ∃ b, Genuine cf members w qc b

/-- `w'` is later than `w`: outboxes and traces have grown. -/
def Later (w w' : NodeID → HotStuff) : Prop :=
  ∀ i, (w i).sent ⊆ (w' i).sent ∧ (w i).trace ⊆ (w' i).trace

variable {cf : Config} {members : List NodeID} {w w' : NodeID → HotStuff}

theorem Later.sent (h : Later w w') {m : Msg} (hm : Net.Sent HotStuff.sent w m) :
    Net.Sent HotStuff.sent w' m := by
  obtain ⟨i, e, he, rfl⟩ := hm
  exact ⟨i, e, (h i).1 he, rfl⟩

theorem Later.genuine (h : Later w w') {qc : QC} {b : Block} (hq : Genuine cf members w qc b) :
    Genuine cf members w' qc b :=
  ⟨h.sent hq.proposed, hq.blockID, hq.view, hq.nodup, hq.quorum,
    fun i hi => ⟨(hq.voted i hi).1, (h i).2 (hq.voted i hi).2⟩⟩

theorem Later.fine (h : Later w w') {qc : QC} (hq : Fine cf members w qc) : Fine cf members w' qc :=
  hq.imp_right fun ⟨b, hb⟩ => ⟨b, h.genuine hb⟩

theorem Later.proposed (h : Later w w') (b : Block) (hb : Proposed w b) : Proposed w' b := h.sent hb

theorem Later.collisionFree (h : Later w w') (hc : CollisionFree (Proposed w')) :
    CollisionFree (Proposed w) := hc.anti h.proposed

theorem Act.later {In : Msg → Prop} {i : NodeID} {t : HotStuff}
    (h : Act (cf.honest i) In (w i) t) : Later w (Function.update w i t) :=
  Net.update_rel (r := fun s t : HotStuff => s.sent ⊆ t.sent ∧ s.trace ⊆ t.trace)
    (fun _ => ⟨List.Subset.refl _, List.Subset.refl _⟩) h.subset

/-! ### One proposal for each view -/

theorem Act.ordered {nd : Node} {In : Msg → Prop} {s t : HotStuff} (ha : Act nd In s t)
    (h : Ordered s.pm s.sent) : Ordered t.pm t.sent := by
  cases ha with
  | advance v => exact h.advance v
  | @certify qc u hk hv hp ht =>
    obtain ⟨v, rfl, -⟩ := updatePreferredView_cases ht
    simpa using h.advance qc.view
  | pop hq => exact h.pop hq
  | propose hq hl hb => exact h.propose hq hb.view
  | vote hp hr hv =>
    dsimp only
    split_ifs
    · exact h
    · exact h.send rfl
  | sendTmo => exact h.send rfl
  | timeouts tcl => exact h.congr rfl rfl
  | offer => simpa using h
  | _ => exact h

/-! ### Every certificate is genuine -/

/-- The vote is the one that `i` made for a block it voted for. -/
def VoteOk (cf : Config) (w : NodeID → HotStuff) (i : NodeID) (v : Vote) : Prop :=
  ∃ b, Voted w i b ∧ makeVote cf b.view i b.id = .ok v

/-- What a message sent by `i` says is true. -/
def MsgOk (cf : Config) (members : List NodeID) (w : NodeID → HotStuff) (i : NodeID) : Msg → Prop
  | .block b => cf.elec.isLeader i b.view = true ∧
      ∃ qc, b.qc = some qc ∧ b.prevID = qc.blockID ∧ Fine cf members w qc
  | .vote v => VoteOk cf w i v
  | .tmo t => ∃ qc, t.highQC = some qc ∧ Fine cf members w qc

/-- All that is said in the network is true. -/
structure Sound (cf : Config) (members : List NodeID) (w : NodeID → HotStuff) : Prop where
  sent : ∀ i, ∀ e ∈ (w i).sent, i ∈ members ∧ MsgOk cf members w i e.body
  accepted : ∀ i b lock parent, .accepted b lock parent ∈ (w i).trace → Proposed w b
  voted : ∀ i b, Voted w i b → i ∈ members ∧ Proposed w b
  built : ∀ i qc, .built qc ∈ (w i).trace → Fine cf members w qc
  counted : ∀ i v, (w i).bc.quorum.Has v → ∃ j ∈ members, VoteOk cf w j v

theorem sound_new : Sound cf members fun _ => HotStuff.new cf.n where
  sent := fun _ _ h => by simp [HotStuff.new] at h
  accepted := fun _ _ _ _ h => by simp [HotStuff.new] at h
  voted := fun _ _ h => by simp [Voted, HotStuff.new] at h
  built := fun _ _ h => by simp [HotStuff.new] at h
  counted := fun _ _ h => by
    simp [HotStuff.new, BlockChain.new, Quorum.new, Quorum.Has, Quorum.votesFor] at h

theorem Later.msgOk (h : Later w w') {i : NodeID} {m : Msg} (hm : MsgOk cf members w i m) :
    MsgOk cf members w' i m := by
  cases m with
  | block b =>
    obtain ⟨hl, qc, hq, hp, hf⟩ := hm
    exact ⟨hl, qc, hq, hp, h.fine hf⟩
  | vote v =>
    obtain ⟨b, hb, hv⟩ := hm
    exact ⟨b, (h i).2 hb, hv⟩
  | tmo t =>
    obtain ⟨qc, hq, hf⟩ := hm
    exact ⟨qc, hq, h.fine hf⟩

/-- What a replica has seen was sent. -/
theorem Heard.sent {i : NodeID} {m : Msg} (h : Heard (Net.SentTo HotStuff.sent w i) (w i) m) :
    Net.Sent HotStuff.sent w m := by
  rcases h with h | ⟨e, he, rfl⟩
  · exact Net.SentTo.sent h
  · exact ⟨i, e, he, rfl⟩

namespace Sound

/-- A message that was sent is true of some member. -/
theorem msgOk (h : Sound cf members w) {m : Msg} (hm : Net.Sent HotStuff.sent w m) :
    ∃ i ∈ members, MsgOk cf members w i m := by
  obtain ⟨i, e, he, rfl⟩ := hm
  exact ⟨i, h.sent i e he⟩

theorem fine_of_block (h : Sound cf members w) {b : Block} (hb : Proposed w b) {qc : QC}
    (hq : b.qc = some qc) : Fine cf members w qc := by
  obtain ⟨-, -, -, qc', hq', -, hf⟩ := h.msgOk hb
  rw [hq] at hq'
  cases hq'
  exact hf

theorem fine_of_tmo (h : Sound cf members w) {t : TMO} (ht : Net.Sent HotStuff.sent w (.tmo t))
    {qc : QC} (hq : t.highQC = some qc) : Fine cf members w qc := by
  obtain ⟨-, -, qc', hq', hf⟩ := h.msgOk ht
  rw [hq] at hq'
  cases hq'
  exact hf

/-- Every certificate a replica can have come across is fine. -/
theorem fine_of_known (h : Sound cf members w) {i : NodeID} {qc : QC}
    (hk : Known (Net.SentTo HotStuff.sent w i) (w i) qc) : Fine cf members w qc := by
  cases hk with
  | initial h => exact Or.inl h
  | block b hb hq => exact h.fine_of_block hb.sent hq
  | tmo t ht hq => exact h.fine_of_tmo ht.sent hq
  | built hb => exact h.built i qc hb

theorem voteOk_of_counts (h : Sound cf members w) {i : NodeID} (hi : i ∈ members) {v : Vote}
    (hc : Counts (cf.honest i) (Net.SentTo HotStuff.sent w i) (w i) v) :
    ∃ j ∈ members, VoteOk cf w j v := by
  rcases hc.1 with hv | ⟨b, hb, hv⟩
  · exact h.msgOk hv.sent
  · exact ⟨i, hi, b, hb, hv⟩

/-- The certificate that a quorum of recorded votes gives rise to is genuine. -/
theorem genuine_of_certifies (h : Sound cf members w) (hid : CollisionFree (Proposed w)) {q : Quorum}
    (hq : ∀ u, q.Has u → ∃ j ∈ members, VoteOk cf w j u) (hn : q.total = cf.n) {v : Vote}
    (hv : ∃ j ∈ members, VoteOk cf w j v) {qc : QC} (hc : Quorum.Certifies cf q v qc) (l : NodeID) :
    ∃ b, Genuine cf members w { qc with leader := l } b := by
  obtain ⟨j, -, b, hb, hvb⟩ := hv
  obtain ⟨hview, -, hid', -⟩ := makeVote_eq_ok hvb
  have hprop := (h.voted j b hb).2
  refine ⟨b, hprop, ?_, ?_, hc.nodup, ?_, ?_⟩
  · exact hc.blockID.trans hid'
  · exact hc.view.trans hview
  · have := hc.quorum
    rw [hn] at this
    dsimp only
    omega
  · intro i hi
    obtain ⟨k, hk, rfl⟩ := List.getElem_of_mem hi
    dsimp only at hk
    have hlen := hc.signed.length_eq
    obtain ⟨u, hu, hub, huv, -⟩ := (List.forall₂_iff_get.1 hc.signed).2 k (by omega) hk
    obtain ⟨j', hj', b', hb', hvb'⟩ := hq u hu
    obtain ⟨-, hvoter, hid'', -⟩ := makeVote_eq_ok hvb'
    -- the signer's block has the id of `b`, so it is `b`
    have : b' = b := hid.inj (h.voted j' b' hb').2 hprop (by rw [← hid'', hub, hid'])
    subst this
    have hj : qc.signers[k] = j' := by rw [← hvoter, huv]; rfl
    exact hj ▸ ⟨hj', hb'⟩

theorem act (h : Sound cf members w) {i : NodeID} (hi : i ∈ members) {t : HotStuff}
    (hok : Ok (cf.honest i) (Net.SentTo HotStuff.sent w i) (w i))
    (ha : Act (cf.honest i) (Net.SentTo HotStuff.sent w i) (w i) t)
    (hid : CollisionFree (Proposed (Function.update w i t))) : Sound cf members (Function.update w i t) := by
  have hlater : Later w (Function.update w i t) := ha.later
  have hid' := hlater.collisionFree hid
  have hpending : ∀ b, pending (w i).trace = some b → Proposed w b := by
    intro b hb
    obtain ⟨lock, parent, hm⟩ := accepted_of_pending hb
    exact h.accepted i b lock parent hm
  constructor
  · intro j e hnew
    rcases Net.update_cases (P := fun s : HotStuff => e ∈ s.sent) hnew with ⟨rfl, he⟩ | he
    · rcases ha.mem_sent he with he | ⟨v, b, hl, hp, hb⟩ | ⟨b, v, hb, hv, hbody⟩ | ⟨m, hm, hbody⟩
      · exact ⟨(h.sent j e he).1, hlater.msgOk (h.sent j e he).2⟩
      · rw [hb]
        exact ⟨hi, hp.view ▸ hl, _, hp.qc, hp.prevID, hlater.fine (h.fine_of_known hok.high)⟩
      · rw [hbody]
        exact ⟨hi, b, by rw [Voted, Function.update_self]; exact hb, hv⟩
      · rw [hbody]
        exact ⟨hi, _, hm, hlater.fine (h.fine_of_known hok.high)⟩
    · exact ⟨(h.sent j e he).1, hlater.msgOk (h.sent j e he).2⟩
  · intro j b lock parent hnew
    rcases Net.update_cases (P := fun s : HotStuff => Entry.accepted b lock parent ∈ s.trace) hnew with
      ⟨rfl, he⟩ | he
    · rcases ha.mem_trace he with he | hn
      · exact hlater.sent (h.accepted j b lock parent he)
      · exact hlater.sent hn.1.heard.sent
    · exact hlater.sent (h.accepted j b lock parent he)
  · intro j b hnew
    rcases Net.update_cases (P := fun s : HotStuff => Entry.voted b ∈ s.trace) hnew with ⟨rfl, he⟩ | he
    · rcases ha.mem_trace he with he | hn
      · exact ⟨(h.voted j b he).1, hlater.sent (h.voted j b he).2⟩
      · exact ⟨hi, hlater.sent (hpending b hn.1)⟩
    · exact ⟨(h.voted j b he).1, hlater.sent (h.voted j b he).2⟩
  · intro j qc hnew
    rcases Net.update_cases (P := fun s : HotStuff => Entry.built qc ∈ s.trace) hnew with ⟨rfl, he⟩ | he
    · rcases ha.mem_trace he with he | ⟨v, qc', hv, hc, rfl⟩
      · exact hlater.fine (h.built j qc he)
      · have hvote := h.voteOk_of_counts hi hv
        refine hlater.fine (Or.inr (h.genuine_of_certifies (q := (w j).bc.quorum.record v) hid' ?_
          hok.total hvote hc _))
        intro u hu
        rcases Quorum.has_record hu with rfl | hu
        · exact hvote
        · exact h.counted j u hu
    · exact hlater.fine (h.built j qc he)
  · intro j v hnew
    have : ∃ k ∈ members, VoteOk cf w k v := by
      rcases Net.update_cases (P := fun s : HotStuff => s.bc.quorum.Has v) hnew with ⟨rfl, hv⟩ | hv
      · rcases ha.has hv with hv | hv
        · exact h.counted j v hv
        · exact h.voteOk_of_counts hi hv
      · exact h.counted j v hv
    obtain ⟨k, hk, b, hb, hvb⟩ := this
    exact ⟨k, hk, b, (hlater k).2 hb, hvb⟩

end Sound

/-! ### The runs of the network -/

section Runs

variable (hw : (hotStuffSteps cf members).Reachable w)
include hw

theorem ordered_of_reachable (i : NodeID) : Ordered (w i).pm (w i).sent :=
  hw.keeps (J := fun _ s => Ordered s.pm s.sent) (fun _ => ordered_new cf.n) (fun ha h => Act.ordered ha h) i

/-- **In every run all that is said is true.** -/
theorem sound_of_reachable (hid : CollisionFree (Proposed w)) : Sound cf members w := by
  induction hw with
  | start => exact sound_new
  | @step w i t hr hi ha ih =>
    exact (ih ((Act.later ha).collisionFree hid)).act hi (hr.ok i) ha hid

theorem proposed_unique (he : cf.elec.Consistent members) (hid : CollisionFree (Proposed w)) {b b' : Block}
    (hb : Proposed w b) (hb' : Proposed w b') (hv : b.view = b'.view) : b = b' := by
  have hs := sound_of_reachable hw hid
  obtain ⟨i, e, he₁, hbody⟩ := hb
  obtain ⟨j, e', he₂, hbody'⟩ := hb'
  -- both were sent by the leader of their view
  have hl := hbody ▸ (hs.sent i e he₁).2
  have hl' := hbody' ▸ (hs.sent j e' he₂).2
  have hij : i = j := by
    rw [← (he i (hs.sent i e he₁).1 b.view).1 hl.1, hv, (he j (hs.sent j e' he₂).1 b'.view).1 hl'.1]
  subst hij
  -- whose proposals have increasing views
  exact (ordered_of_reachable hw i).unique (mem_filterMap_blockOf he₁ hbody)
    (mem_filterMap_blockOf he₂ hbody') hv

theorem mem_blocksSent_of_proposed (b : Block) (hb : Proposed w b) :
    b ∈ blocksSent HotStuff.sent members w := by
  refine mem_blocksSent (fun i hi => ?_) hb
  rw [hw.eq_init hi]
  rfl

theorem one_le_view_of_proposed {b : Block} (hb : Proposed w b) : 1 ≤ b.view := by
  obtain ⟨i, e, he, hbody⟩ := hb
  exact ((ordered_of_reachable hw i).view_bounds (mem_filterMap_blockOf he hbody)).1

end Runs

/-- The places a certificate can be found at. -/
inductive Occurs (w : NodeID → HotStuff) (qc : QC) : Prop
  | high (i : NodeID) (h : (w i).highQC = qc)
  | bufferedQC (i : NodeID) (id : ℕ) (h : (w i).bufferedQCs.lookup id = some qc)
  | bufferedBlock (i : NodeID) (v : ℤ) (b : Block) (h : (w i).bufferedBlocks.lookup v = some b)
      (hq : b.qc = some qc)
  | stored (i : NodeID) (x : ℕ) (b : Block) (h : (w i).bc.getBlockByID x = some b)
      (hq : b.qc = some qc)
  | block (b : Block) (h : Proposed w b) (hq : b.qc = some qc)
  | tmo (t : TMO) (h : Net.Sent HotStuff.sent w (.tmo t)) (hq : t.highQC = some qc)

theorem fine_of_occurs (hw : (hotStuffSteps cf members).Reachable w) (hid : CollisionFree (Proposed w)) {qc : QC}
    (h : Occurs w qc) : Fine cf members w qc := by
  have hs := sound_of_reachable hw hid
  cases h with
  | high i h => exact h ▸ hs.fine_of_known (hw.ok i).high
  | bufferedQC i id h => exact hs.fine_of_known ((hw.ok i).bufferedQC id qc h)
  | bufferedBlock i v b h hq =>
    exact hs.fine_of_known (.block b ((hw.ok i).bufferedBlock v b h) hq)
  | stored i x b h hq => exact hs.fine_of_known (.block b ((hw.ok i).stored x b h).2 hq)
  | block b h hq => exact hs.fine_of_block h hq
  | tmo t h hq => exact hs.fine_of_tmo h hq

/-! ### Parents and commits -/

/-- Three certified blocks of consecutive views, each the parent of the next. -/
structure ThreeChain (cf : Config) (members : List NodeID) (w : NodeID → HotStuff)
    (g p b : Block) : Prop where
  parent : ParentOf (Proposed w) g p
  child : ParentOf (Proposed w) p b
  view : g.view + 1 = p.view
  next : p.view + 1 = b.view
  certified : Certified cf members w g ∧ Certified cf members w p ∧ Certified cf members w b

theorem Later.certified (h : Later w w') {b : Block} (hb : Certified cf members w b) :
    Certified cf members w' b := hb.imp fun _ hq => h.genuine hq

theorem Later.threeChain (h : Later w w') {g p b : Block} (hc : ThreeChain cf members w g p b) :
    ThreeChain cf members w' g p b :=
  ⟨hc.parent.mono h.proposed, hc.child.mono h.proposed, hc.view, hc.next, h.certified hc.certified.1,
    h.certified hc.certified.2.1, h.certified hc.certified.2.2⟩

namespace Sound

variable {g p b : Block}

/-- The parent of a block is certified by the block's own certificate. -/
theorem certified_of_parentOf (h : Sound cf members w) (hid : CollisionFree (Proposed w))
    (hp : ParentOf (Proposed w) p b) : Certified cf members w p := by
  obtain ⟨-, -, -, qc, -, hprev, hf⟩ := h.msgOk hp.child
  have hqc : qc.blockID = p.id := by rw [← hprev, hp.link]
  rcases hf with rfl | ⟨p', hp'⟩
  · exact absurd hqc.symm (hid.ne_zero hp.parent)
  · have : p' = p := hid.inj hp'.proposed hp.parent (hp'.blockID.symm.trans hqc)
    exact ⟨qc, this ▸ hp'⟩

variable {i : NodeID}

/-- A stored block was proposed, and is stored under its id. -/
theorem stored (hok : Ok (cf.honest i) (Net.SentTo HotStuff.sent w i) (w i)) {x : ℕ}
    (hx : (w i).bc.forrest.getVertex x = some b) : b.id = x ∧ Proposed w b :=
  ⟨(hok.stored x b hx).1, (hok.stored x b hx).2.sent⟩

/-- What the commit rule accepts is the head of a three-chain whose last block the certificate is
for. -/
theorem threeChain_of_commitRule (h : Sound cf members w) (hid : CollisionFree (Proposed w))
    (hok : Ok (cf.honest i) (Net.SentTo HotStuff.sent w i) (w i)) {qc : QC}
    (hk : Known (Net.SentTo HotStuff.sent w i) (w i) qc) (h3 : 3 ≤ qc.view)
    (hg : (w i).commitRule qc = some g) :
    ∃ p b, ThreeChain cf members w g p b ∧ Genuine cf members w qc b := by
  obtain ⟨b, p, p', hb, hp, hp', hg', hv, hv'⟩ := commitRule_cases hg
  obtain ⟨hbid, hbp⟩ := stored hok hb
  obtain ⟨hpid, hpp⟩ := stored hok hp
  obtain ⟨hgid, hgp⟩ := stored hok hg'
  have hpp' : p' = p := by rw [hpid, hp] at hp'; cases hp'; rfl
  subst hpp'
  rcases h.fine_of_known hk with rfl | ⟨b', hq⟩
  · simp [QC.initial] at h3
  have hb' : b' = b := hid.inj hq.proposed hbp (hq.blockID.symm.trans hbid.symm)
  subst hb'
  have hpar : ParentOf (Proposed w) g p' := ⟨hgp, hpp, hgid⟩
  have hchild : ParentOf (Proposed w) p' b' := ⟨hpp, hbp, hpid⟩
  exact ⟨p', b', ⟨hpar, hchild, hv, hv'.trans hq.view, h.certified_of_parentOf hid hpar,
    h.certified_of_parentOf hid hchild, qc, hq⟩, hq⟩

/-- The blocks that a commit delivers are ancestors of the committed block. -/
theorem ancestor_of_above (hok : Ok (cf.honest i) (Net.SentTo HotStuff.sent w i) (w i)) {low : ℕ}
    {l : List Block} (hl : BlockChain.Above (w i).bc.forrest low b l) (hb : Proposed w b) :
    ∀ x ∈ l, Ancestor (Proposed w) x b := hl.ancestor (fun _ _ hx => stored hok hx) hb

end Sound

/-- Every block written to the channel was delivered by a commit. -/
theorem mem_committedBlocks (hw : (hotStuffSteps cf members).Reachable w) {i : NodeID} {x : Block}
    (hx : x ∈ (w i).committedBlocks) :
    ∃ qc g f batch, .committed qc g f batch ∈ (w i).trace ∧ x ∈ batch := by
  refine hw.keeps (J := fun _ s => ∀ x ∈ s.committedBlocks, ∃ qc g f batch,
    .committed qc g f batch ∈ s.trace ∧ x ∈ batch) ?_ ?_ i x hx
  · intro i x hx
    simp [hotStuffNet, network, HotStuff.new] at hx
  · intro i In s t ha ih x hx
    rcases Act.mem_committedBlocks ha hx with hx | hx
    · obtain ⟨qc, g, f, batch, hc, hb⟩ := ih x hx
      exact ⟨qc, g, f, batch, (Act.subset ha).2 hc, hb⟩
    · exact hx

/-- **What a commit rests on.**  The committed block is the head of a three-chain, and what is
delivered with it are its ancestors. -/
theorem committed_threeChain (hw : (hotStuffSteps cf members).Reachable w) (hid : CollisionFree (Proposed w))
    {i : NodeID} {qc : QC} {g : Block} {f : LevelledForest} {batch : List Block}
    (hmem : .committed qc g f batch ∈ (w i).trace) :
    (∃ p b, ThreeChain cf members w g p b ∧ Genuine cf members w qc b) ∧
      ∀ x ∈ batch, Ancestor (Proposed w) x g := by
  induction hw generalizing i with
  | start => simp [hotStuffNet, network, HotStuff.new] at hmem
  | @step w j t hr hj ha ih =>
    have hlater : Later w (Function.update w j t) := Act.later ha
    have hid' := hlater.collisionFree hid
    suffices h : (∃ p b, ThreeChain cf members w g p b ∧ Genuine cf members w qc b) ∧
        ∀ x ∈ batch, Ancestor (Proposed w) x g by
      obtain ⟨⟨p, b, ht, hq⟩, hx⟩ := h
      exact ⟨⟨p, b, hlater.threeChain ht, hlater.genuine hq⟩, fun x hb => (hx x hb).mono hlater.proposed⟩
    rcases Net.update_cases (P := fun s : HotStuff => Entry.committed qc g f batch ∈ s.trace)
      hmem with ⟨rfl, hc⟩ | hc
    · rcases Act.mem_trace ha hc with hc | ⟨hk, -, h3, hg, -, forked, bc, hd⟩
      · exact ih hid' hc
      have hs := sound_of_reachable hr hid'
      have hok := hr.ok i
      refine ⟨hs.threeChain_of_commitRule hid' hok hk h3 hg, ?_⟩
      obtain ⟨-, -, p', -, -, -, hgs, -, -⟩ := commitRule_cases hg
      obtain ⟨hgid, hgp⟩ := Sound.stored hok hgs
      obtain ⟨g', hg', habove, -, -⟩ := hd.done batch forked rfl
      have : g' = g := by rw [hgid, hgs] at hg'; cases hg'; rfl
      exact Sound.ancestor_of_above hok (this ▸ habove) hgp
    · exact ih hid' hc

/-- **Certificates mean what they say.**  In every run of honest replicas at most one block is proposed,
and so at most one certified, for each view; every certificate of a positive view, wherever it is, is
for a block of its own view that more than two thirds of the nodes voted for; and a block is committed
only as the head of a three-chain of certified blocks. -/
theorem certificates_valid {net : NodeID → Net.Proc HotStuff}
    (hr : (hotStuffNet cf members).Reachable net) (he : cf.elec.Consistent members)
    (hid : CollisionFree (Proposed (Net.states net))) :
    (∀ b b', Proposed (Net.states net) b → Proposed (Net.states net) b' → b.view = b'.view → b = b') ∧
    (∀ b b', Certified cf members (Net.states net) b → Certified cf members (Net.states net) b' →
      b.view = b'.view → b = b') ∧
    (∀ qc, Occurs (Net.states net) qc → 1 ≤ qc.view →
      ∃ b, Genuine cf members (Net.states net) qc b) ∧
    (∀ i qc g f batch, .committed qc g f batch ∈ (net i).st.trace →
      ∃ p b, ThreeChain cf members (Net.states net) g p b) := by
  have hw : (hotStuffSteps cf members).Reachable (Net.states net) := .of_reachable hr
  refine ⟨fun b b' hb hb' hv => proposed_unique hw he hid hb hb' hv, ?_, ?_, ?_⟩
  · rintro b b' ⟨qc, hq⟩ ⟨qc', hq'⟩ hv
    exact proposed_unique hw he hid hq.proposed hq'.proposed hv
  · intro qc ho h1
    rcases fine_of_occurs hw hid ho with rfl | hg
    · simp [QC.initial] at h1
    · exact hg
  · intro i qc g f batch hc
    obtain ⟨⟨p, b, h3, -⟩, -⟩ := committed_threeChain hw hid hc
    exact ⟨p, b, h3⟩

/-- Five views of one leader, without loss: the first two blocks get committed. -/
def steadyRun : List (Net.System.Sched NodeID Event) :=
  [.fire "1" .txn,
    FourNodes.newView "1", .pass "1" 0 "2", .pass "1" 0 "3", .pass "2" 0 "1", .pass "3" 0 "1",
    FourNodes.newView "1", .pass "1" 1 "2", .pass "1" 1 "3", .pass "2" 1 "1", .pass "3" 1 "1",
    FourNodes.newView "1", .pass "1" 2 "2", .pass "1" 2 "3", .pass "2" 2 "1", .pass "3" 2 "1",
    FourNodes.newView "1", .pass "1" 3 "2", .pass "1" 3 "3", .pass "2" 3 "1", .pass "3" 3 "1"]

theorem certificates_valid_steadyRun :
    ∃ net, (hotStuffNet (FourNodes.config fun _ => "1") FourNodes.members).Reachable net ∧
      CollisionFree (Proposed (Net.states net)) ∧
      ∃ g p b, (net "1").st.committedBlocks ≠ [] ∧
        ThreeChain (FourNodes.config fun _ => "1") FourNodes.members (Net.states net) g p b := by
  obtain ⟨net, hr, htest⟩ :=
    (hotStuffNet (FourNodes.config fun _ => "1") FourNodes.members).exists_reachable steadyRun
      (fun net => decide (
        ((blocksSent HotStuff.sent FourNodes.members (Net.states net)).map Block.id).Nodup ∧
        (∀ b ∈ blocksSent HotStuff.sent FourNodes.members (Net.states net), b.id ≠ zeroID) ∧
        (net "1").st.committedBlocks ≠ [])) (by decide_cbv)
  obtain ⟨hnd, hnz, hne⟩ := of_decide_eq_true htest
  have hw : (hotStuffSteps _ _).Reachable (Net.states net) := .of_reachable hr
  have hid := collisionFree_of_list (mem_blocksSent_of_proposed hw) ⟨hnd, hnz⟩
  obtain ⟨x, hx⟩ := List.exists_mem_of_ne_nil _ hne
  obtain ⟨qc, g, f, batch, hc, -⟩ := mem_committedBlocks hw hx
  obtain ⟨p, b, h3⟩ := (certificates_valid hr (FourNodes.consistent _ _) hid).2.2.2 _ _ _ _ _ hc
  exact ⟨net, hr, hid, g, p, b, hne, h3⟩

end HotStuff

end Bamboo
