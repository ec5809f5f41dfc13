import Bamboo.Blocks
import Bamboo.Lib.Quorums
import Bamboo.Streamlet.Shape

/-!
# What certificates say in a network of honest replicas of Streamlet

Replicas pass blocks and votes of others on, so a message does not come from its author.  But all that goes
round was made by a member, and a certificate stands for a quorum of votes.

* `Act.mem_trace`, `Act.mem_sent`, `Act.has`: what a small step notes, sends and counts;
* `Proposed`, `Voted`, `Genuine`, `Supported`: the blocks of a network, the votes for them, certificates that a
  quorum of votes stands behind, and the blocks that have one;
* `Sound`: the invariant of all runs, all that is said is true;
* `proposed_unique`: one block for each view;
* `climbing_of_reachable`: the notarized chain of every replica is in shape.
-/

namespace Bamboo

namespace Streamlet

/-! ### What a small step notes, sends and counts -/

section SmallSteps

variable {nd : Node} {In : Msg → Prop} {s t : Streamlet}

/-- What holds before a small step that leaves the entry in the trace. -/
def NewEntry (nd : Node) (In : Msg → Prop) (s : Streamlet) : Entry → Prop
  | .index _ _ => True
  | .accepted b _ => Admitted nd In s b
  | .proposed b => ∃ v rest, s.pm.newViewChan = v :: rest ∧ nd.elec.isLeader nd.id v = true ∧ Proposal nd s v b
  | .voted b view chain => Heard In s (.block b) ∧ view = s.pm.curView ∧ chain = s.notarizedChain ∧
      view ≤ b.view ∧ MayVote chain b
  | .built qc => ∃ v, Counts nd In s v ∧ Quorum.Certifies nd.toConfig (s.bc.quorum.record v) v qc
  | .notarizing _ _ => True
  | .committed g chain batch => ∃ before x l forked bc, chain = s.notarizedChain ∧
      chain = before ++ [[x], [g], [l]] ∧ x.view + 1 = g.view ∧ g.view + 1 = l.view ∧
      s.bc.Committed g.id (some (batch, forked)) bc

theorem newEntry_of_isIndex {e : Entry} (h : IsIndex e) : NewEntry nd In s e := by
  cases e with
  | index => trivial
  | _ => cases h

/-- The entries that a small step adds. -/
theorem Act.trace_cases (h : Act nd In s t) : ∃ es, t.trace = s.trace ++ es ∧ ∀ e ∈ es, NewEntry nd In s e := by
  have hone : ∀ {e : Entry}, NewEntry nd In s e → ∀ e' ∈ [e], NewEntry nd In s e' := by
    intro e he e' he'
    rw [List.mem_singleton.1 he']
    exact he
  cases h with
  | @propose v rest b es hq hl hb hes =>
    refine ⟨es ++ [.proposed b], rfl, fun e he => ?_⟩
    rcases List.mem_append.1 he with he | he
    · exact newEntry_of_isIndex (hes e he).1
    · exact hone (e := .proposed b) ⟨v, rest, hq, hl, hb⟩ e he
  | look hes => exact ⟨_, rfl, fun e he => newEntry_of_isIndex (hes e he).1⟩
  | lookLast => exact ⟨_, rfl, hone trivial⟩
  | lookBelow => exact ⟨_, rfl, hone trivial⟩
  | @accept b f hb hf => exact ⟨_, rfl, hone (e := .accepted b _) hb⟩
  | @vote b hb hcur hr => exact ⟨_, rfl, hone (e := .voted b _ _) ⟨hb, rfl, rfl, hcur, hr⟩⟩
  | @build v qc hv hc => exact ⟨_, rfl, hone (e := .built qc) ⟨v, hv, hc⟩⟩
  | found => exact ⟨_, rfl, hone trivial⟩
  | @commit before x g l batch forked bc echoed hch hx hg hc =>
    exact ⟨_, rfl, hone (e := .committed g _ batch) ⟨before, x, l, forked, bc, rfl, hch, hx, hg, hc⟩⟩
  | _ => exact ⟨[], (List.append_nil _).symm, by simp⟩

theorem Act.mem_trace (h : Act nd In s t) {e : Entry} (he : e ∈ t.trace) :
    e ∈ s.trace ∨ NewEntry nd In s e := by
  obtain ⟨es, ht, hes⟩ := h.trace_cases
  rw [ht] at he
  exact (List.mem_append.1 he).imp_right (hes e)

/-- What a small step sends: a proposal, a block or vote it has come across, a vote of its own, or a timeout
of its current view. -/
theorem Act.mem_sent (h : Act nd In s t) {e : Envelope} (he : e ∈ t.sent) :
    e ∈ s.sent ∨ (∃ b, .proposed b ∈ t.trace ∧ NewEntry nd In s (.proposed b) ∧ e.body = .block b) ∨
      (Heard In s e.body ∧ ∀ tmo, e.body ≠ .tmo tmo) ∨ (∃ v, OwnVote nd s v ∧ e.body = .vote v) ∨
      ∃ tmo : TMO, tmo.view = s.pm.curView ∧ tmo.nodeID = nd.id ∧ e.body = .tmo tmo := by
  have happend : ∀ {e' : Envelope}, e ∈ s.sent ++ [e'] → e ∈ s.sent ∨ e = e' := by
    intro e' he
    exact (List.mem_append.1 he).imp_right List.mem_singleton.1
  cases h with
  | @propose v rest b es hq hl hb hes =>
    rcases happend he with he | rfl
    · exact Or.inl he
    · exact Or.inr (Or.inl ⟨b, by simp, ⟨v, rest, hq, hl, hb⟩, rfl⟩)
  | @sendTmo tmo hv hi =>
    rcases happend he with he | rfl
    · exact Or.inl he
    · exact Or.inr (Or.inr (Or.inr (Or.inr ⟨tmo, hv, hi, rfl⟩)))
  | @echo m id hm ht =>
    rcases happend he with he | rfl
    · exact Or.inl he
    · rcases hm with hm | ⟨v, rfl, hv⟩
      · exact Or.inr (Or.inr (Or.inl ⟨hm, ht⟩))
      · exact Or.inr (Or.inr (Or.inr (Or.inl ⟨v, hv, rfl⟩)))
  | @sendVote v hv =>
    rcases happend he with he | rfl
    · exact Or.inl he
    · exact Or.inr (Or.inr (Or.inr (Or.inl ⟨v, hv, rfl⟩)))
  | timeout => exact Or.inl he
  | _ => exact Or.inl he

/-- A vote on record was there before, or is the one just counted. -/
theorem Act.has (h : Act nd In s t) {v : Vote} (hv : t.bc.quorum.Has v) :
    s.bc.quorum.Has v ∨ Counts nd In s v := by
  rcases h.bc_cases with hb | ⟨b, f, -, hf, hb⟩ | ⟨u, hu, hb⟩ | hd | ⟨id, l, fl, hc⟩
  · exact Or.inl (hb ▸ hv)
  · rw [hb] at hv
    exact Or.inl hv
  · rw [hb] at hv
    rcases Quorum.has_record hv with rfl | hv
    · exact Or.inr hu
    · exact Or.inl hv
  · exact Or.inl (hd.has v hv)
  · exact Or.inl (hc.has v hv)

/-- What is written to the channel of committed blocks was delivered by a commit. -/
theorem Act.mem_committedBlocks (h : Act nd In s t) {x : Block} (hx : x ∈ t.committedBlocks) :
    x ∈ s.committedBlocks ∨ ∃ g chain batch, .committed g chain batch ∈ t.trace ∧ x ∈ batch := by
  cases h with
  | commit hch hx' hg hc =>
    rcases List.mem_append.1 hx with hx | hx
    · exact Or.inl hx
    · exact Or.inr ⟨_, _, _, List.mem_append_right _ (List.mem_singleton.2 rfl), hx⟩
  | _ => exact Or.inl hx

end SmallSteps

/-! ### Blocks, votes and certificates of a network -/

/-- The block was sent, by its proposer or by one who passed it on. -/
def Proposed (w : NodeID → Streamlet) (b : Block) : Prop := Net.Sent Streamlet.sent w (.block b)

/-- The replica voted for the block. -/
def Voted (w : NodeID → Streamlet) (i : NodeID) (b : Block) : Prop :=
  ∃ view chain, .voted b view chain ∈ (w i).trace

/-- A certificate of view and block `b`, whose signers are more than two thirds of the nodes, pairwise
distinct, and each a replica that voted for `b`. -/
structure Genuine (cf : Config) (members : List NodeID) (w : NodeID → Streamlet) (qc : QC)
    (b : Block) : Prop where
  proposed : Proposed w b
  blockID : qc.blockID = b.id
  view : qc.view = b.view
  quorum : Quorums.IsQuorum members cf.n qc.signers
  voted : ∀ i ∈ qc.signers, Voted w i b

/-- Some genuine certificate for the block exists. -/
def Supported (cf : Config) (members : List NodeID) (w : NodeID → Streamlet) (b : Block) : Prop :=
  ∃ qc, Genuine cf members w qc b

/-- `w'` is later than `w`: outboxes, traces and notarized chains have grown, and no replica has gone back. -/
structure Later (w w' : NodeID → Streamlet) : Prop where
  outbox : ∀ i, (w i).sent ⊆ (w' i).sent
  trace : ∀ i, (w i).trace ⊆ (w' i).trace
  chain : ∀ i, (w i).notarizedChain <+: (w' i).notarizedChain
  curView : ∀ i, (w i).pm.curView ≤ (w' i).pm.curView

variable {cf : Config} {members : List NodeID} {w w' : NodeID → Streamlet} {i : NodeID} {qc : QC} {b : Block}

theorem Later.sent (h : Later w w') {m : Msg} (hm : Net.Sent Streamlet.sent w m) :
    Net.Sent Streamlet.sent w' m := by
  obtain ⟨i, e, he, rfl⟩ := hm
  exact ⟨i, e, h.outbox i he, rfl⟩

theorem Later.proposed (h : Later w w') (b : Block) (hb : Proposed w b) : Proposed w' b := h.sent hb

theorem Later.voted (h : Later w w') (hv : Voted w i b) : Voted w' i b := by
  obtain ⟨view, chain, hv⟩ := hv
  exact ⟨view, chain, h.trace i hv⟩

theorem Later.genuine (h : Later w w') (hq : Genuine cf members w qc b) : Genuine cf members w' qc b :=
  ⟨h.sent hq.proposed, hq.blockID, hq.view, hq.quorum, fun i hi => h.voted (hq.voted i hi)⟩

theorem Later.collisionFree (h : Later w w') (hc : CollisionFree (Proposed w')) : CollisionFree (Proposed w) :=
  hc.anti h.proposed

theorem Act.later {In : Msg → Prop} {t : Streamlet} (h : Act (cf.honest i) In (w i) t) :
    Later w (Function.update w i t) := by
  have hchain : (w i).notarizedChain <+: t.notarizedChain := by
    rcases h.chain_cases with hc | ⟨_, _, -, -, -, -, rfl⟩
    · rw [hc]
    · exact List.prefix_append _ _
  constructor
  · exact Net.update_rel (r := fun s t : Streamlet => s.sent ⊆ t.sent)
      (fun _ => List.Subset.refl _) h.subset.1
  · exact Net.update_rel (r := fun s t : Streamlet => s.trace ⊆ t.trace)
      (fun _ => List.Subset.refl _) h.subset.2
  · exact Net.update_rel (r := fun s t : Streamlet => s.notarizedChain <+: t.notarizedChain)
      (fun _ => List.prefix_refl _) hchain
  · exact Net.update_rel (r := fun s t : Streamlet => s.pm.curView ≤ t.pm.curView)
      (fun _ => le_refl _) h.curView_le

/-! ### All that is said is true -/

/-- The vote is the one that `i` made for a block it voted for. -/
def VoteOk (cf : Config) (w : NodeID → Streamlet) (i : NodeID) (v : Vote) : Prop :=
  OwnVote (cf.honest i) (w i) v

/-- What a message sent by `i` says is true: a member proposed the block, a member voted so, or `i` itself has
come to the view of the timeout. -/
def MsgOk (cf : Config) (members : List NodeID) (w : NodeID → Streamlet) (i : NodeID) : Msg → Prop
  | .block b => ∃ j, .proposed b ∈ (w j).trace
  | .vote v => ∃ j ∈ members, VoteOk cf w j v
  | .tmo t => t.nodeID = i ∧ t.view ≤ (w i).pm.curView

/-- All that is said in the network is true. -/
structure Sound (cf : Config) (members : List NodeID) (w : NodeID → Streamlet) : Prop where
  sent : ∀ i, ∀ e ∈ (w i).sent, i ∈ members ∧ MsgOk cf members w i e.body
  proposed : ∀ i b, .proposed b ∈ (w i).trace → cf.elec.isLeader i b.view = true
  accepted : ∀ i b chain, .accepted b chain ∈ (w i).trace → Proposed w b
  voted : ∀ i b view chain, .voted b view chain ∈ (w i).trace →
    i ∈ members ∧ Proposed w b ∧ view ≤ b.view ∧ MayVote chain b
  built : ∀ i qc, .built qc ∈ (w i).trace → ∃ b, Genuine cf members w qc b
  counted : ∀ i v, (w i).bc.quorum.Has v → ∃ j ∈ members, VoteOk cf w j v

theorem sound_new : Sound cf members fun _ => Streamlet.new cf.n where
  sent := fun _ _ h => by simp [Streamlet.new] at h
  proposed := fun _ _ h => by simp [Streamlet.new] at h
  accepted := fun _ _ _ h => by simp [Streamlet.new] at h
  voted := fun _ _ _ _ h => by simp [Streamlet.new] at h
  built := fun _ _ h => by simp [Streamlet.new] at h
  counted := fun _ _ h => by
    simp [Streamlet.new, BlockChain.new, Quorum.new, Quorum.Has, Quorum.votesFor] at h

theorem Later.voteOk (h : Later w w') {v : Vote} (hv : ∃ j ∈ members, VoteOk cf w j v) :
    ∃ j ∈ members, VoteOk cf w' j v := by
  obtain ⟨j, hj, hv⟩ := hv
  exact ⟨j, hj, hv.mono (h.trace j)⟩

theorem Later.msgOk (h : Later w w') {m : Msg} (hm : MsgOk cf members w i m) : MsgOk cf members w' i m := by
  cases m with
  | block b =>
    obtain ⟨j, hj⟩ := hm
    exact ⟨j, h.trace j hj⟩
  | vote v => exact h.voteOk hm
  | tmo t => exact ⟨hm.1, le_trans hm.2 (h.curView i)⟩

/-- What a replica has seen was sent. -/
theorem Heard.sent {m : Msg} (h : Heard (Net.SentTo Streamlet.sent w i) (w i) m) :
    Net.Sent Streamlet.sent w m := by
  rcases h with h | ⟨e, he, rfl⟩
  · exact Net.SentTo.sent h
  · exact ⟨i, e, he, rfl⟩

namespace Sound

theorem exists_proposer (h : Sound cf members w) (hb : Proposed w b) : ∃ j, .proposed b ∈ (w j).trace := by
  obtain ⟨i, ⟨dest, body⟩, he, rfl⟩ := hb
  exact (h.sent i _ he).2

theorem voteOk_of_sent (h : Sound cf members w) {v : Vote} (hv : Net.Sent Streamlet.sent w (.vote v)) :
    ∃ j ∈ members, VoteOk cf w j v := by
  obtain ⟨i, ⟨dest, body⟩, he, rfl⟩ := hv
  exact (h.sent i _ he).2

theorem voteOk_of_counts (h : Sound cf members w) (hi : i ∈ members) {v : Vote}
    (hc : Counts (cf.honest i) (Net.SentTo Streamlet.sent w i) (w i) v) :
    ∃ j ∈ members, VoteOk cf w j v := by
  rcases hc.1 with hv | hv
  · exact h.voteOk_of_sent hv.sent
  · exact ⟨i, hi, hv⟩

/-- The certificate that a quorum of recorded votes gives rise to is genuine. -/
theorem genuine_of_certifies (h : Sound cf members w) (hid : CollisionFree (Proposed w)) {r : Quorum}
    (hr : ∀ u, r.Has u → ∃ j ∈ members, VoteOk cf w j u) (hn : r.total = cf.n) {v : Vote}
    (hv : ∃ j ∈ members, VoteOk cf w j v) (hc : Quorum.Certifies cf r v qc) :
    ∃ b, Genuine cf members w qc b := by
  obtain ⟨j, -, b, view, chain, hvb, hmake⟩ := hv
  obtain ⟨hview, -, hbid, -⟩ := makeVote_eq_ok hmake
  have hb := (h.voted j b view chain hvb).2.1
  -- a vote on record for the certified id is one for `b`
  have hsigner : ∀ k ∈ qc.signers, k ∈ members ∧ Voted w k b := by
    intro k hk
    obtain ⟨p, hp, rfl⟩ := List.getElem_of_mem hk
    have hlen := hc.signed.length_eq
    obtain ⟨u, hu, hub, huv, -⟩ := (List.forall₂_iff_get.1 hc.signed).2 p (by omega) hp
    obtain ⟨j', hj', b', view', chain', hvb', hmake'⟩ := hr u hu
    obtain ⟨-, hvoter, hbid', -⟩ := makeVote_eq_ok hmake'
    have hbb : b' = b := hid.inj (h.voted j' b' view' chain' hvb').2.1 hb (by
      have h₁ : u.blockID = b'.id := hbid'
      have h₂ : v.blockID = b.id := hbid
      rw [← h₁, hub, h₂])
    subst hbb
    have hj : qc.signers.get ⟨p, hp⟩ = j' := huv.symm.trans hvoter
    rw [show qc.signers[p] = j' from hj]
    exact ⟨hj', view', chain', hvb'⟩
  refine ⟨b, hb, hc.blockID.trans hbid, hc.view.trans hview, ⟨hc.nodup, ?_, fun k hk => (hsigner k hk).1⟩,
    fun k hk => (hsigner k hk).2⟩
  have := hc.quorum
  rw [hn] at this
  omega

theorem act (h : Sound cf members w) (hi : i ∈ members) {t : Streamlet}
    (hok : Ok (cf.honest i) (Net.SentTo Streamlet.sent w i) (w i))
    (ha : Act (cf.honest i) (Net.SentTo Streamlet.sent w i) (w i) t)
    (hid : CollisionFree (Proposed (Function.update w i t))) : Sound cf members (Function.update w i t) := by
  have hlater : Later w (Function.update w i t) := ha.later
  -- an entry of the new state was there before, or is a new one of `i`
  have hentry : ∀ {j : NodeID} {e : Entry}, e ∈ (Function.update w i t j).trace →
      e ∈ (w j).trace ∨ j = i ∧ NewEntry (cf.honest i) (Net.SentTo Streamlet.sent w i) (w i) e := by
    intro j e hnew
    rcases Net.update_cases (P := fun s : Streamlet => e ∈ s.trace) hnew with ⟨rfl, he⟩ | he
    · exact (ha.mem_trace he).imp_right fun hn => ⟨rfl, hn⟩
    · exact Or.inl he
  constructor
  · intro j e hnew
    rcases Net.update_cases (P := fun s : Streamlet => e ∈ s.sent) hnew with ⟨rfl, he⟩ | he
    · rcases ha.mem_sent he with he | ⟨b, hb, -, hbody⟩ | ⟨hh, hnt⟩ | ⟨v, hv, hbody⟩ | ⟨tmo, hv, hi', hbody⟩
      · exact ⟨(h.sent j e he).1, hlater.msgOk (h.sent j e he).2⟩
      · refine ⟨hi, ?_⟩
        rw [hbody]
        exact ⟨j, by rw [Function.update_self]; exact hb⟩
      · -- what is passed on was sent before
        refine ⟨hi, ?_⟩
        cases hm : e.body with
        | block b =>
          rw [hm] at hh
          obtain ⟨k, hk⟩ := h.exists_proposer hh.sent
          exact ⟨k, hlater.trace k hk⟩
        | vote v =>
          rw [hm] at hh
          exact hlater.voteOk (h.voteOk_of_sent hh.sent)
        | tmo tmo => exact absurd hm (hnt tmo)
      · refine ⟨hi, ?_⟩
        rw [hbody]
        exact hlater.voteOk ⟨j, hi, hv⟩
      · refine ⟨hi, ?_⟩
        rw [hbody]
        exact ⟨hi', hv ▸ hlater.curView j⟩
    · exact ⟨(h.sent j e he).1, hlater.msgOk (h.sent j e he).2⟩
  · intro j b hnew
    rcases hentry hnew with he | ⟨rfl, v, rest, -, hl, hb⟩
    · exact h.proposed j b he
    · exact hb.view ▸ hl
  · intro j b chain hnew
    rcases hentry hnew with he | ⟨rfl, hadm⟩
    · exact hlater.proposed b (h.accepted j b chain he)
    · exact hlater.sent hadm.heard.sent
  · intro j b view chain hnew
    rcases hentry hnew with he | ⟨rfl, hb, -, -, hle, hmay⟩
    · obtain ⟨hj, hb, hrest⟩ := h.voted j b view chain he
      exact ⟨hj, hlater.proposed b hb, hrest⟩
    · exact ⟨hi, hlater.sent hb.sent, hle, hmay⟩
  · intro j qc hnew
    rcases hentry hnew with he | ⟨rfl, v, hv, hc⟩
    · obtain ⟨b, hb⟩ := h.built j qc he
      exact ⟨b, hlater.genuine hb⟩
    · have hvote := h.voteOk_of_counts hi hv
      have hrecord : ∀ u, ((w j).bc.quorum.record v).Has u → ∃ k ∈ members, VoteOk cf w k u := by
        intro u hu
        rcases Quorum.has_record hu with rfl | hu
        · exact hvote
        · exact h.counted j u hu
      obtain ⟨b, hb⟩ := h.genuine_of_certifies (hlater.collisionFree hid) hrecord hok.total hvote hc
      exact ⟨b, hlater.genuine hb⟩
  · intro j v hnew
    refine hlater.voteOk ?_
    rcases Net.update_cases (P := fun s : Streamlet => s.bc.quorum.Has v) hnew with ⟨rfl, hv⟩ | hv
    · rcases ha.has hv with hv | hv
      · exact h.counted j v hv
      · exact h.voteOk_of_counts hi hv
    · exact h.counted j v hv

end Sound

/-! ### The runs of the network -/

theorem proposals_append (trace es : List Entry) : proposals (trace ++ es) = proposals trace ++ proposals es := by
  simp [proposals]

theorem proposals_of_isIndex {es : List Entry} (h : ∀ e ∈ es, IsIndex e) : proposals es = [] := by
  refine List.filterMap_eq_nil_iff.2 fun e he => ?_
  have hindex := h e he
  cases e with
  | index => rfl
  | _ => cases hindex

theorem mem_proposals {trace : List Entry} (hb : .proposed b ∈ trace) :
    b ∈ (proposals trace).filterMap blockOf :=
  List.mem_filterMap.2 ⟨⟨none, .block b⟩, List.mem_filterMap.2 ⟨_, hb, rfl⟩, rfl⟩

/-- A replica proposes in each view at most once. -/
theorem Act.ordered {nd : Node} {In : Msg → Prop} {s t : Streamlet} (ha : Act nd In s t)
    (h : Ordered s.pm (proposals s.trace)) : Ordered t.pm (proposals t.trace) := by
  have hnote : ∀ {e : Entry}, (∀ b, e ≠ .proposed b) → Ordered s.pm (proposals (s.trace ++ [e])) := by
    intro e he
    rw [proposals_append]
    cases e with
    | proposed b => exact absurd rfl (he b)
    | _ => rwa [show proposals [_] = [] from rfl, List.append_nil]
  cases ha with
  | advance => exact h.advance _
  | kickOff => exact h.advance 0
  | notarize => exact h.advance _
  | @timeout tmo =>
    obtain ⟨tcl, hpm, -⟩ := s.pm.processRemoteTmo_cases tmo
    exact h.congr (by simp [tmoState, hpm]) (by simp [tmoState, hpm, proposalViews])
  | pop hq => exact h.pop hq
  | @propose v rest b es hq hl hb hes =>
    have he : proposals (s.trace ++ (es ++ [.proposed b])) = proposals s.trace ++ [⟨none, .block b⟩] := by
      rw [proposals_append, proposals_append, proposals_of_isIndex fun e he => (hes e he).1]
      rfl
    dsimp only
    rw [he]
    exact h.propose hq hb.view
  | @look es hes =>
    dsimp only
    rwa [proposals_append, proposals_of_isIndex fun e he => (hes e he).1, List.append_nil]
  | lookLast => exact hnote fun b => by simp
  | lookBelow => exact hnote fun b => by simp
  | accept => exact hnote fun b => by simp
  | vote => exact hnote fun b => by simp
  | build => exact hnote fun b => by simp
  | found => exact hnote fun b => by simp
  | commit => exact hnote fun b => by simp
  | _ => exact h

section Runs

variable {depth : ℕ} (hw : (streamletSteps cf members depth).Reachable w)
include hw

theorem ordered_of_reachable (i : NodeID) : Ordered (w i).pm (proposals (w i).trace) :=
  hw.keeps (J := fun _ s => Ordered s.pm (proposals s.trace)) (fun _ => (ordered_new cf.n).advance 0)
    (fun ha h => Act.ordered ha h) i

/-- **In every run all that is said is true.** -/
theorem sound_of_reachable (hid : CollisionFree (Proposed w)) : Sound cf members w := by
  induction hw with
  | start => exact sound_new
  | @step w i t hr hi ha ih =>
    exact (ih ((Act.later ha).collisionFree hid)).act hi (hr.ok i) ha hid

theorem one_le_view_of_proposed (hid : CollisionFree (Proposed w)) (hb : Proposed w b) : 1 ≤ b.view := by
  obtain ⟨i, hi⟩ := (sound_of_reachable hw hid).exists_proposer hb
  exact ((ordered_of_reachable hw i).view_bounds (mem_proposals hi)).1

/-- Only the members do anything. -/
theorem mem_of_trace {e : Entry} (h : e ∈ (w i).trace) : i ∈ members := by
  by_contra hi
  rw [hw.eq_init hi] at h
  cases h

/-- **One block for each view.** -/
theorem proposed_unique (he : cf.elec.Consistent members) (hid : CollisionFree (Proposed w)) {b' : Block}
    (hb : Proposed w b) (hb' : Proposed w b') (hv : b.view = b'.view) : b = b' := by
  have hs := sound_of_reachable hw hid
  obtain ⟨i, hi⟩ := hs.exists_proposer hb
  obtain ⟨j, hj⟩ := hs.exists_proposer hb'
  have hij : i = j := by
    rw [← (he i (mem_of_trace hw hi) b.view).1 (hs.proposed i b hi), hv,
      (he j (mem_of_trace hw hj) b'.view).1 (hs.proposed j b' hj)]
  subst hij
  exact (ordered_of_reachable hw i).unique (mem_proposals hi) (mem_proposals hj) hv

/-- Certificates have the views of their blocks. -/
theorem valid_of_reachable (hid : CollisionFree (Proposed w)) (i : NodeID) : Valid (w i) := by
  intro qc b chain hq hb hbid
  have hs := sound_of_reachable hw hid
  obtain ⟨b', hb'⟩ := hs.built i qc hq
  have : b' = b := hid.inj hb'.proposed (hs.accepted i b chain hb) (by rw [hbid, hb'.blockID])
  rw [hb'.view, this]

theorem climbing_of_reachable (hid : CollisionFree (Proposed w)) (i : NodeID) : Climbing (w i) := by
  refine hw.invariant (P := fun w => CollisionFree (Proposed w)) (J := fun _ _ s => Climbing s)
    (fun _ => climbing_new cf.n) (fun ha => (Act.later ha).collisionFree) ?_ (fun _ h => h) hid i
  intro w j t hr hj hid ha h
  have hv := valid_of_reachable (hr.step hj ha) hid j
  rw [Function.update_self] at hv
  exact Act.climbing ha (hr.ok j) hv h

/-- The blocks of the notarized chain have certificates. -/
theorem supported_of_chain (hid : CollisionFree (Proposed w)) {l : List Block} (hl : l ∈ (w i).notarizedChain)
    (hb : b ∈ l) : Supported cf members w b := by
  have hs := sound_of_reachable hw hid
  obtain ⟨⟨qc, hq, hqb⟩, chain, hacc⟩ := (climbing_of_reachable hw hid i).certified l hl b hb
  obtain ⟨b', hb'⟩ := hs.built i qc hq
  have : b' = b := hid.inj hb'.proposed (hs.accepted i b chain hacc) (by rw [← hqb, hb'.blockID])
  exact ⟨qc, this ▸ hb'⟩

end Runs

end Streamlet

end Bamboo
