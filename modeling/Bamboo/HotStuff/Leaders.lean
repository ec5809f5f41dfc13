import Bamboo.HotStuff.Certificates

/-!
# Whom a commit needs

Votes go to the leader of the next view, who alone makes the certificate out of them.  So a block is committed only
after the leaders of four views in a row took part: those who proposed the three blocks of its chain, and the one
who collected the votes for the last of them.

* `Act.mem_sent_vote`, `votesSent_of_reachable`: votes are sent to the leader of the next view only;
* `built_at_leader`: who makes a certificate;
* `Attributed`: every certificate was made by a replica;
* `commits_need_leaders`: four leaders in a row behind every committed block.
-/

namespace Bamboo

namespace HotStuff

variable {cf : Config} {members : List NodeID} {w w' : NodeID → HotStuff}

/-! ### Votes -/

/-- A vote that a small step sends is the replica's own, to the leader of the next view. -/
theorem Act.mem_sent_vote {nd : Node} {In : Msg → Prop} {s t : HotStuff} (h : Act nd In s t) {e : Envelope}
    (he : e ∈ t.sent) {v : Vote} (hv : e.body = .vote v) :
    e ∈ s.sent ∨ v.voter = nd.id ∧ e.dest = some (nd.elec.findLeaderFor (v.view + 1)) := by
  cases h with
  | certify hk hq hp ht =>
    obtain ⟨_, rfl, -⟩ := updatePreferredView_cases ht
    exact Or.inl (by simpa using he)
  | offer hb hqc => exact Or.inl (by simpa using he)
  | propose hq hl hb =>
    rcases List.mem_append.1 he with he | he
    · exact Or.inl he
    · rw [List.mem_singleton.1 he] at hv
      cases hv
  | @vote b u hp hr hu =>
    dsimp only at he
    split_ifs at he
    · exact Or.inl he
    · rcases List.mem_append.1 he with he | he
      · exact Or.inl he
      · rw [List.mem_singleton.1 he] at hv ⊢
        cases hv
        obtain ⟨hview, hvoter, -⟩ := makeVote_eq_ok hu
        exact Or.inr ⟨hvoter, by rw [hview]⟩
  | sendTmo hv' hi hq =>
    rcases List.mem_append.1 he with he | he
    · exact Or.inl he
    · rw [List.mem_singleton.1 he] at hv
      cases hv
  | _ => exact Or.inl he

/-- The votes a replica has sent are its own, each to the leader of the next view. -/
def VotesSent (cf : Config) (i : NodeID) (s : HotStuff) : Prop :=
  ∀ e ∈ s.sent, ∀ v, e.body = .vote v → v.voter = i ∧ e.dest = some (cf.elec.findLeaderFor (v.view + 1))

theorem votesSent_of_reachable (hw : (hotStuffSteps cf members).Reachable w) (i : NodeID) : VotesSent cf i (w i) := by
  refine hw.keeps (J := VotesSent cf) (fun i e he => ?_) (fun {i In s t} ha h e he v hv => ?_) i
  · simp [hotStuffNet, network, HotStuff.new] at he
  · rcases Act.mem_sent_vote ha he hv with he | hnew
    · exact h e he v hv
    · exact hnew

/-- A replica counts its own votes, and those of the view before one that it leads. -/
def Aggregates (cf : Config) (i : NodeID) (v : Vote) : Prop := v.voter = i ∨ cf.elec.findLeaderFor (v.view + 1) = i

theorem aggregates_of_counts (hw : (hotStuffSteps cf members).Reachable w) {i : NodeID} {v : Vote}
    (hc : Counts (cf.honest i) (Net.SentTo HotStuff.sent w i) (w i) v) : Aggregates cf i v := by
  rcases hc.1 with (⟨j, hfl⟩ | ⟨e, he, hv⟩) | ⟨b, -, hv⟩
  · rcases hfl with he | ⟨-, he⟩
    · exact Or.inr (Option.some.inj ((votesSent_of_reachable hw j) _ he v rfl).2).symm
    · cases ((votesSent_of_reachable hw j) _ he v rfl).2
  · exact Or.inl ((votesSent_of_reachable hw i) e he v hv).1
  · exact Or.inl (makeVote_eq_ok hv).2.1

theorem aggregates_of_has (hw : (hotStuffSteps cf members).Reachable w) (i : NodeID) {v : Vote}
    (hv : (w i).bc.quorum.Has v) : Aggregates cf i v := by
  refine hw.invariant (P := fun _ => True) (J := fun _ i (s : HotStuff) => ∀ v, s.bc.quorum.Has v → Aggregates cf i v)
    (fun _ v hv => ?_) (fun _ _ => trivial) (fun hr _ _ ha h v hv => ?_) (fun _ h => h) trivial i v hv
  · simp [hotStuffNet, network, HotStuff.new, BlockChain.new, Quorum.new, Quorum.Has, Quorum.votesFor] at hv
  · rcases Act.has ha hv with hv | hc
    · exact h v hv
    · exact aggregates_of_counts hr hc

/-! ### Certificates -/

/-- **Who makes a certificate**: the leader of the view after it. -/
theorem built_at_leader (hw : (hotStuffSteps cf members).Reachable w) (hid : CollisionFree (Proposed w))
    (hn : 2 ≤ cf.n) (i : NodeID) {qc : QC} (hqc : .built qc ∈ (w i).trace) :
    cf.elec.findLeaderFor (qc.view + 1) = i := by
  refine hw.invariant (P := fun w => CollisionFree (Proposed w))
    (J := fun _ i (s : HotStuff) => ∀ qc, Entry.built qc ∈ s.trace → cf.elec.findLeaderFor (qc.view + 1) = i)
    (fun _ qc h => ?_) (fun ha => (Act.later ha).collisionFree) ?_ (fun _ h => h) hid i qc hqc
  · simp [hotStuffNet, network, HotStuff.new] at h
  · intro w i t hr hi hid ha h qc hqc
    have hid' : CollisionFree (Proposed w) := (Act.later ha).collisionFree hid
    have hs := sound_of_reachable hr hid'
    rcases Act.mem_trace ha hqc with hqc | ⟨v, qc', hv, hc, rfl⟩
    · exact h qc hqc
    -- of two signers one is another replica, whose vote came from the network
    have htwo : 1 < qc'.signers.length := by
      have hquorum := hc.quorum
      have htotal : ((w i).bc.quorum.record v).total = cf.n := (hr.ok i).total
      rw [htotal] at hquorum
      omega
    obtain ⟨k, hk, hne⟩ : ∃ k, ∃ hk : k < qc'.signers.length, qc'.signers[k] ≠ i := by
      by_contra hno
      have hall : ∀ k (hk : k < qc'.signers.length), qc'.signers[k] = i :=
        fun k hk => by_contra fun hne => hno ⟨k, hk, hne⟩
      have h0 := hall 0 (by omega)
      have h1 := hall 1 htwo
      exact absurd ((List.Nodup.getElem_inj_iff hc.nodup).1 (h0.trans h1.symm)) (by omega)
    obtain ⟨u, hu, hub, huv, -⟩ := (List.forall₂_iff_get.1 hc.signed).2 k (hc.signed.length_eq ▸ hk) hk
    have huvoter : u.voter ≠ i := by
      rw [huv]
      exact hne
    have hagg : Aggregates cf i u ∧ ∃ j ∈ members, VoteOk cf w j u := by
      rcases Quorum.has_record hu with rfl | hu
      · exact ⟨aggregates_of_counts hr hv, hs.voteOk_of_counts hi hv⟩
      · exact ⟨aggregates_of_has hr i hu, hs.counted i u hu⟩
    obtain ⟨hagg, j, -, b, hb, hbu⟩ := hagg
    obtain ⟨j', -, b', hb', hbv⟩ := hs.voteOk_of_counts hi hv
    obtain ⟨hview, -, hblock, -⟩ := makeVote_eq_ok hbu
    obtain ⟨hview', -, hblock', -⟩ := makeVote_eq_ok hbv
    -- both votes are for one block
    obtain rfl : b = b' := hid'.inj (hs.voted j b hb).2 (hs.voted j' b' hb').2 (by rw [← hblock, hub, hblock'])
    show cf.elec.findLeaderFor (qc'.view + 1) = i
    rw [hc.view, hview', ← hview]
    exact hagg.resolve_left huvoter

/-- The first certificate, or one that a replica has made. -/
def Authored (w : NodeID → HotStuff) (qc : QC) : Prop := qc = .initial ∨ ∃ i, .built qc ∈ (w i).trace

theorem Later.authored (h : Later w w') {qc : QC} (hq : Authored w qc) : Authored w' qc :=
  hq.imp_right fun ⟨i, hb⟩ => ⟨i, (h i).2 hb⟩

/-- The certificate in a message was made by a replica. -/
def Backed (w : NodeID → HotStuff) : Msg → Prop
  | .block b => ∀ qc, b.qc = some qc → Authored w qc
  | .vote _ => True
  | .tmo t => ∀ qc, t.highQC = some qc → Authored w qc

theorem Later.backed (h : Later w w') {m : Msg} (hm : Backed w m) : Backed w' m := by
  cases m with
  | block b => exact fun qc hq => h.authored (hm qc hq)
  | vote v => trivial
  | tmo t => exact fun qc hq => h.authored (hm qc hq)

/-- Every certificate that was sent, or led to a commit, was made by a replica. -/
structure Attributed (w : NodeID → HotStuff) : Prop where
  sent : ∀ m, Net.Sent HotStuff.sent w m → Backed w m
  commits : ∀ i qc g f batch, .committed qc g f batch ∈ (w i).trace → Authored w qc

namespace Attributed

theorem authored_of_known (h : Attributed w) {i : NodeID} {qc : QC}
    (hk : Known (Net.SentTo HotStuff.sent w i) (w i) qc) : Authored w qc := by
  cases hk with
  | initial hq => exact Or.inl hq
  | block b hb hq => exact h.sent _ hb.sent qc hq
  | tmo t ht hq => exact h.sent _ ht.sent qc hq
  | built hb => exact Or.inr ⟨i, hb⟩

theorem act (h : Attributed w) {i : NodeID} {t : HotStuff}
    (hok : Ok (cf.honest i) (Net.SentTo HotStuff.sent w i) (w i))
    (ha : Act (cf.honest i) (Net.SentTo HotStuff.sent w i) (w i) t) : Attributed (Function.update w i t) := by
  have hlater : Later w (Function.update w i t) := ha.later
  have hhigh := hlater.authored (h.authored_of_known hok.high)
  constructor
  · rintro m ⟨j, e, hnew, rfl⟩
    rcases Net.update_cases (P := fun s : HotStuff => e ∈ s.sent) hnew with ⟨rfl, he⟩ | he
    · rcases ha.mem_sent he with he | ⟨v, b, -, hp, hb⟩ | ⟨b, v, -, -, hbody⟩ | ⟨m, hm, hbody⟩
      · exact hlater.backed (h.sent _ ⟨j, e, he, rfl⟩)
      · rw [hb]
        intro qc hq
        rw [hp.qc] at hq
        cases hq
        exact hhigh
      · rw [hbody]
        trivial
      · rw [hbody]
        intro qc hq
        rw [hm] at hq
        cases hq
        exact hhigh
    · exact hlater.backed (h.sent _ ⟨j, e, he, rfl⟩)
  · intro j qc g f batch hnew
    rcases Net.update_cases (P := fun s : HotStuff => Entry.committed qc g f batch ∈ s.trace) hnew with
      ⟨rfl, he⟩ | he
    · rcases ha.mem_trace he with he | hn
      · exact hlater.authored (h.commits j qc g f batch he)
      · exact hlater.authored (h.authored_of_known hn.1)
    · exact hlater.authored (h.commits j qc g f batch he)

end Attributed

theorem attributed_of_reachable (hw : (hotStuffSteps cf members).Reachable w) : Attributed w := by
  induction hw with
  | start =>
    refine ⟨fun m hm => ?_, fun i qc g f batch hc => ?_⟩
    · obtain ⟨i, e, he, -⟩ := hm
      simp [hotStuffNet, network, HotStuff.new] at he
    · simp [hotStuffNet, network, HotStuff.new] at hc
  | @step w i t hr hi ha ih => exact ih.act (hr.ok i) ha

/-! ### Commits -/

section Runs

variable (hw : (hotStuffSteps cf members).Reachable w) (hid : CollisionFree (Proposed w))
include hw hid

/-- Who proposed a block has left its initial state. -/
theorem moved_of_proposed (he : cf.elec.Consistent members) {b : Block} (hb : Proposed w b) :
    w (cf.elec.findLeaderFor b.view) ≠ HotStuff.new cf.n := by
  obtain ⟨i, e, hsent, hbody⟩ := hb
  obtain ⟨hi, hl⟩ := (sound_of_reachable hw hid).sent i e hsent
  rw [(he i hi b.view).1 (hbody ▸ hl).1]
  intro hnew
  rw [hnew] at hsent
  cases hsent

/-- The votes behind a certificate that led to a commit were collected by the leader of the next view. -/
theorem moved_of_committed (hn : 2 ≤ cf.n) {i : NodeID} {qc : QC} {g b : Block} {f : LevelledForest}
    {batch : List Block} (hc : .committed qc g f batch ∈ (w i).trace) (hq : Genuine cf members w qc b) :
    w (cf.elec.findLeaderFor (b.view + 1)) ≠ HotStuff.new cf.n := by
  rcases (attributed_of_reachable hw).commits i qc g f batch hc with rfl | ⟨j, hj⟩
  · have hview := hq.view
    have := one_le_view_of_proposed hw hq.proposed
    simp only [QC.initial] at hview
    omega
  · rw [← hq.view, built_at_leader hw hid hn j hj]
    intro hnew
    rw [hnew] at hj
    cases hj

end Runs

/-- **Four leaders in a row.**  In every run of honest replicas, a block is committed only together with a block `g`
it is an ancestor of, or is itself, such that the leaders of the view of `g` and of the three views after it have
all done something.  If of any four leaders in a row one is down from the start, no block is ever committed.  The
views are integers of the machine. -/
theorem commits_need_leaders {net : NodeID → Net.Proc HotStuff} (hr : (hotStuffNet cf members).Reachable net)
    (he : cf.elec.Consistent members) (hn : 2 ≤ cf.n) (hid : CollisionFree (Proposed (Net.states net)))
    (_hmax : ∀ j ∈ members, (net j).st.pm.InRange) {i : NodeID} {x : Block} (hx : x ∈ (net i).st.committedBlocks) :
    ∃ g, Ancestor (Proposed (Net.states net)) x g ∧ 1 ≤ g.view ∧
      ∀ k : ℕ, k ≤ 3 → (net (cf.elec.findLeaderFor (g.view + k))).st ≠ HotStuff.new cf.n := by
  have hw : (hotStuffSteps cf members).Reachable (Net.states net) := .of_reachable hr
  obtain ⟨qc, g, f, batch, hc, hxb⟩ := mem_committedBlocks hw hx
  obtain ⟨⟨p, b, h3, hq⟩, hanc⟩ := committed_threeChain hw hid hc
  refine ⟨g, hanc x hxb, one_le_view_of_proposed hw h3.parent.parent, fun k hk => ?_⟩
  have hg := moved_of_proposed hw hid he h3.parent.parent
  have hp := moved_of_proposed hw hid he h3.parent.child
  have hb := moved_of_proposed hw hid he h3.child.child
  have hlast := moved_of_committed hw hid hn hc hq
  rw [← h3.next, ← h3.view] at hb hlast
  rw [← h3.view] at hp
  rcases (by omega : k = 0 ∨ k = 1 ∨ k = 2 ∨ k = 3) with rfl | rfl | rfl | rfl
  · rw [Nat.cast_zero, add_zero]
    exact hg
  · exact hp
  · rwa [add_assoc] at hb
  · rwa [add_assoc, add_assoc] at hlast

/-- The first blocks of node 1, where it leads all views. -/
theorem commits_need_leaders_steadyRun :
    ∃ net, (hotStuffNet (FourNodes.config fun _ => "1") FourNodes.members).Reachable net ∧
      ∃ x ∈ (net "1").st.committedBlocks, ∃ g, Ancestor (Proposed (Net.states net)) x g ∧ 1 ≤ g.view ∧
        ∀ k : ℕ, k ≤ 3 → (net ((FourNodes.config fun _ => "1").elec.findLeaderFor (g.view + k))).st ≠
          HotStuff.new 4 := by
  obtain ⟨net, hr, htest⟩ :=
    (hotStuffNet (FourNodes.config fun _ => "1") FourNodes.members).exists_reachable steadyRun
      (fun net => decide (
        ((blocksSent HotStuff.sent FourNodes.members (Net.states net)).map Block.id).Nodup ∧
        (∀ b ∈ blocksSent HotStuff.sent FourNodes.members (Net.states net), b.id ≠ zeroID) ∧
        (∀ j ∈ FourNodes.members, (net j).st.pm.InRange) ∧ (net "1").st.committedBlocks ≠ [])) (by decide_cbv)
  obtain ⟨hnd, hnz, hmax, hne⟩ := of_decide_eq_true htest
  have hw : (hotStuffSteps _ _).Reachable (Net.states net) := .of_reachable hr
  have hid := collisionFree_of_list (mem_blocksSent_of_proposed hw) ⟨hnd, hnz⟩
  obtain ⟨x, hx⟩ := List.exists_mem_of_ne_nil _ hne
  exact ⟨net, hr, x, hx, commits_need_leaders hr (FourNodes.consistent _ _) (by decide) hid hmax hx⟩

end HotStuff

end Bamboo
