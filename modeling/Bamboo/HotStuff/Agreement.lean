import Bamboo.HotStuff.Certificates
import Bamboo.Lib.Quorums

/-!
# Agreement in HotStuff

Two replicas commit on one chain as long as replicas vote under the lock: whoever votes for the last
block of a three-chain of consecutive views has, when the block is inserted, its `preferredView` at the
view of the first.  The code does not see to that: `processCertificate` drops a certificate of an old
view before the lock is raised, and the vote is cast all the same.

* `LockedVotes`: all votes of a run were cast under the lock;
* `Locking`: what insertions, votes and the lock of one replica have to do with each other;
* `certified_extends`: under `LockedVotes`, certified blocks extend the head of every three-chain;
* `agreement`, and `fork_without_lock`, a run in which the lock is skipped and two replicas commit
  conflicting blocks.
-/

namespace Bamboo

namespace HotStuff

/-- Every vote for the last block of a three-chain was cast under the lock: at an insertion of the block
the replica's `preferredView` was not below the view of the chain's first block.  The first block of all
needs no lock. -/
def LockedVotes (w : NodeID → HotStuff) : Prop :=
  ∀ i g p b, Voted w i b → ParentOf (Proposed w) p b → ParentOf (Proposed w) g p →
    1 < g.view → g.view + 1 = p.view → p.view + 1 = b.view →
    ∃ lock parent, .accepted b lock parent ∈ (w i).trace ∧ g.view ≤ lock

variable {cf : Config} {members : List NodeID} {w w' : NodeID → HotStuff} {nd : Node}
  {In : Msg → Prop} {s t : HotStuff} {P P' : Block → Prop}

/-! ### The lock of one replica -/

/-- The lock moves only with a certificate, which also takes the replica past its view. -/
theorem Act.preferredView_cases (h : Act nd In s t) :
    t.preferredView = s.preferredView ∨ s.preferredView ≤ t.preferredView ∧
      ∃ qc : QC, s.pm.curView ≤ qc.view ∧ t.pm.curView = qc.view + 1 := by
  cases h with
  | @certify qc u hk hv hp ht =>
    obtain ⟨v, rfl, hle, -⟩ := updatePreferredView_cases ht
    refine Or.inr ⟨by simpa using hle, qc, hv, ?_⟩
    simp [Pacemaker.advanceView_of_le hv]
  | offer => exact Or.inl (by simp)
  | _ => exact Or.inl rfl

/-- Insertions, votes and the lock of a replica.  `P` are the blocks of the network. -/
structure Locking (P : Block → Prop) (s : HotStuff) : Prop where
  inserted : ∀ c, .voted c ∈ s.trace → ∃ lock parent, .accepted c lock parent ∈ s.trace
  window : ∀ b lock parent, .accepted b lock parent ∈ s.trace → b.view ≤ s.pm.curView + 1
  lock_le : ∀ b lock parent, .accepted b lock parent ∈ s.trace → lock ≤ s.preferredView
  /-- a vote in a view not yet over is not below the lock -/
  current : ∀ c, .voted c ∈ s.trace → 2 < c.view →
    ∃ a, ParentOf P a c ∧ (s.preferredView ≤ a.view ∨ c.view ≤ s.pm.curView)
  /-- the lock at an insertion binds all votes in later views, cast before or after -/
  binding : ∀ b lock parent c, .accepted b lock parent ∈ s.trace → .voted c ∈ s.trace →
    b.view < c.view → 2 < c.view → ∃ a, ParentOf P a c ∧ lock ≤ a.view

theorem locking_new (n : ℕ) : Locking P (HotStuff.new n) where
  inserted := fun _ h => by simp [HotStuff.new] at h
  window := fun _ _ _ h => by simp [HotStuff.new] at h
  lock_le := fun _ _ _ h => by simp [HotStuff.new] at h
  current := fun _ h => by simp [HotStuff.new] at h
  binding := fun _ _ _ _ h => by simp [HotStuff.new] at h

theorem Locking.mono (h : Locking P s) (hP : ∀ b, P b → P' b) : Locking P' s where
  inserted := h.inserted
  window := h.window
  lock_le := h.lock_le
  current := fun c hc h2 => (h.current c hc h2).imp fun _ ha => ⟨ha.1.mono hP, ha.2⟩
  binding := fun b lock parent c hb hc hlt h2 =>
    (h.binding b lock parent c hb hc hlt h2).imp fun _ ha => ⟨ha.1.mono hP, ha.2⟩

/-- One small step keeps the lock binding.  `hvote` says what the voting rule gives for a new vote. -/
theorem Locking.act (h : Locking P s) (ha : Act nd In s t)
    (hvote : ∀ c, pending s.trace = some c → s.votingRule c = some true → 2 < c.view →
      ∃ a, ParentOf P a c ∧ s.preferredView ≤ a.view) : Locking P t := by
  have hcur := ha.curView_le
  have hle : s.preferredView ≤ t.preferredView := by
    rcases ha.preferredView_cases with hp | ⟨hp, -⟩ <;> omega
  -- a step that moves the lock leaves the view of every vote so far behind
  have hmoved : ∀ {c : Block} {x : ℤ}, c.view ≤ s.pm.curView + 1 →
      (s.preferredView ≤ x ∨ c.view ≤ s.pm.curView) →
      t.preferredView ≤ x ∨ c.view ≤ t.pm.curView := by
    intro c x hc hx
    rcases ha.preferredView_cases with hp | ⟨-, qc, hqc, ht⟩ <;> omega
  have hwindow : ∀ c, .voted c ∈ s.trace → c.view ≤ s.pm.curView + 1 := by
    intro c hc
    obtain ⟨lock, parent, hm⟩ := h.inserted c hc
    exact h.window c lock parent hm
  constructor
  · intro c hc
    rcases ha.mem_trace hc with hc | hn
    · obtain ⟨lock, parent, hm⟩ := h.inserted c hc
      exact ⟨lock, parent, ha.subset.2 hm⟩
    · obtain ⟨lock, parent, hm⟩ := accepted_of_pending hn.1
      exact ⟨lock, parent, ha.subset.2 hm⟩
  · intro b lock parent hb
    rcases ha.mem_trace hb with hb | hn
    · have := h.window b lock parent hb
      omega
    · have := hn.1.upper
      omega
  · intro b lock parent hb
    rcases ha.mem_trace hb with hb | hn
    · have := h.lock_le b lock parent hb
      omega
    · have := hn.2.1
      omega
  · intro c hc h2
    rcases ha.mem_trace hc with hc | hn
    · obtain ⟨a, hp, hor⟩ := h.current c hc h2
      exact ⟨a, hp, hmoved (hwindow c hc) hor⟩
    · obtain ⟨a, hp, hle'⟩ := hvote c hn.1 hn.2 h2
      obtain ⟨lock, parent, hm⟩ := accepted_of_pending hn.1
      exact ⟨a, hp, hmoved (h.window c lock parent hm) (Or.inl hle')⟩
  · intro b lock parent c hb hc hlt h2
    rcases ha.mem_trace hb with hb | hn
    · rcases ha.mem_trace hc with hc | hn'
      · exact h.binding b lock parent c hb hc hlt h2
      · -- a new vote is not below the lock, which is not below the one at the insertion
        obtain ⟨a, hp, hle'⟩ := hvote c hn'.1 hn'.2 h2
        have := h.lock_le b lock parent hb
        exact ⟨a, hp, by omega⟩
    · have hlock : lock = s.preferredView := hn.2.1
      rcases ha.mem_trace hc with hc | hn'
      · -- a new insertion is not behind, so the earlier vote is in a view not yet over
        obtain ⟨a, hp, hor⟩ := h.current c hc h2
        have := hn.1.lower
        exact ⟨a, hp, by omega⟩
      · obtain ⟨a, hp, hle'⟩ := hvote c hn'.1 hn'.2 h2
        exact ⟨a, hp, by omega⟩

/-! ### The lock in a network -/

theorem locking_of_reachable (hw : (hotStuffSteps cf members).Reachable w)
    (hid : CollisionFree (Proposed w)) (i : NodeID) : Locking (Proposed w) (w i) := by
  refine hw.invariant (P := fun w => CollisionFree (Proposed w)) (J := fun w _ s => Locking (Proposed w) s)
    (fun _ => locking_new cf.n) (fun ha => (Act.later ha).collisionFree) ?_
    (fun ha h => h.mono (Act.later ha).proposed) hid i
  intro w j t hr hj hid ha h
  have hlater : Later w (Function.update w j t) := Act.later ha
  have hid' := hlater.collisionFree hid
  refine Locking.mono (h.act ha fun c hp hrule h2 => ?_) hlater.proposed
  -- the voting rule has found the block and its parent in the forest
  obtain ⟨lock, parent, hm⟩ := accepted_of_pending hp
  have hc := (sound_of_reachable hr hid').accepted j c lock parent hm
  obtain ⟨c', a, hc', ha', hle⟩ := BlockChain.votingRule_cases hrule h2
  obtain ⟨hcid, hcp⟩ := Sound.stored (hr.ok j) hc'
  obtain ⟨haid, hap⟩ := Sound.stored (hr.ok j) ha'
  have : c' = c := hid'.inj hcp hc hcid
  exact ⟨a, ⟨hap, hc, this ▸ haid⟩, hle⟩

theorem rooted_of_reachable (hw : (hotStuffSteps cf members).Reachable w)
    (hid : CollisionFree (Proposed w)) {b : Block} (hb : Proposed w b) : Rooted (Proposed w) b := by
  induction hw generalizing b with
  | start =>
    obtain ⟨i, e, he, -⟩ := hb
    simp [hotStuffNet, network, HotStuff.new] at he
  | @step w j t hr hj ha ih =>
    have hlater : Later w (Function.update w j t) := Act.later ha
    have hid' := hlater.collisionFree hid
    have hprop := hb
    obtain ⟨i, e, hnew, hbody⟩ := hb
    have hold : e ∈ (w i).sent → Rooted (Proposed (Function.update w j t)) b :=
      fun he => (ih hid' ⟨i, e, he, hbody⟩).mono hlater.proposed
    rcases Net.update_cases (P := fun s : HotStuff => e ∈ s.sent) hnew with ⟨rfl, he⟩ | he
    · rcases Act.mem_sent ha he with he | ⟨v, b', -, hp, hb'⟩ | ⟨_, _, -, -, hv⟩ | ⟨_, -, ht⟩
      · exact hold he
      · -- a new block stands on the block of a certificate
        rw [hbody] at hb'
        cases hb'
        rcases (sound_of_reachable hr hid').fine_of_known (hr.ok i).high with hq | ⟨a, hq⟩
        · exact .root (by rw [hp.prevID, hq]; rfl)
        · refine .child ⟨hlater.proposed a hq.proposed, hprop, ?_⟩
            ((ih hid' hq.proposed).mono hlater.proposed)
          rw [hp.prevID, hq.blockID]
      · rw [hbody] at hv; cases hv
      · rw [hbody] at ht; cases ht
    · exact hold he

theorem Genuine.isQuorum {qc : QC} {b : Block} (h : Genuine cf members w qc b) :
    Quorums.IsQuorum members cf.n qc.signers :=
  ⟨h.nodup, h.quorum, fun i hi => (h.voted i hi).1⟩

/-- The chain down from a certified block does not step over the head of a three-chain. -/
theorem not_stepped_over (hw : (hotStuffSteps cf members).Reachable w)
    (hid : CollisionFree (Proposed w)) (he : cf.elec.Consistent members) (hn : members.length = cf.n)
    (hl : LockedVotes w) {g p b c : Block} (h3 : ThreeChain cf members w g p b)
    (hc : Certified cf members w c) (hv : g.view ≤ c.view) :
    Ancestor (Proposed w) g c ∨
      ∃ a, ParentOf (Proposed w) a c ∧ Certified cf members w a ∧ g.view ≤ a.view := by
  obtain ⟨qc, hq⟩ := hc
  have hview := h3.view
  have hnext := h3.next
  by_cases hle : c.view ≤ b.view
  · -- one block for each view: `c` is one of the three
    left
    have huniq := fun {x : Block} (hx : Proposed w x) => proposed_unique hw he hid hq.proposed hx
    have hgp : Ancestor (Proposed w) g p := Chain.Ancestor.step (Chain.Ancestor.refl g) h3.parent
    rcases (by omega : c.view = g.view ∨ c.view = p.view ∨ c.view = b.view) with h | h | h
    · rw [huniq h3.parent.parent h]
      exact Chain.Ancestor.refl g
    · rw [huniq h3.parent.child h]
      exact hgp
    · rw [huniq h3.child.child h]
      exact Chain.Ancestor.step hgp h3.child
  · -- a replica that voted for `b` and for `c` was locked on `g`
    right
    obtain ⟨qb, hqb⟩ := h3.certified.2.2
    obtain ⟨i, hib, hic⟩ := hqb.isQuorum.inter hn hq.isQuorum
    have hlocking := locking_of_reachable hw hid i
    have h1 := one_le_view_of_proposed hw h3.parent.parent
    obtain ⟨a, ha, hga⟩ : ∃ a, ParentOf (Proposed w) a c ∧ g.view ≤ a.view := by
      by_cases hg : 1 < g.view
      · obtain ⟨lock, parent, hacc, hlock⟩ :=
          hl i g p b (hqb.voted i hib).2 h3.child h3.parent hg hview hnext
        obtain ⟨a, ha, hla⟩ := hlocking.binding b lock parent c hacc (hq.voted i hic).2 (by omega)
          (by omega)
        exact ⟨a, ha, by omega⟩
      · -- a vote in a view above 2 is for a block with a parent
        obtain ⟨a, ha, -⟩ := hlocking.current c (hq.voted i hic).2 (by omega)
        have := one_le_view_of_proposed hw ha.parent
        exact ⟨a, ha, by omega⟩
    exact ⟨a, ha, (sound_of_reachable hw hid).certified_of_parentOf hid ha, hga⟩

/-- **Certified blocks extend every three-chain head that is not above them.** -/
theorem certified_extends (hw : (hotStuffSteps cf members).Reachable w)
    (hid : CollisionFree (Proposed w)) (he : cf.elec.Consistent members) (hn : members.length = cf.n)
    (hl : LockedVotes w) {g p b c : Block} (h3 : ThreeChain cf members w g p b)
    (hc : Certified cf members w c) (hv : g.view ≤ c.view) : Ancestor (Proposed w) g c := by
  refine Chain.ancestor_of_certified Block.view (C := Certified cf members w) ?_ ?_ hc hv
  · rintro c ⟨qc, hq⟩
    exact (rooted_of_reachable hw hid hq.proposed).acc hid
  · intro c hc hv
    exact not_stepped_over hw hid he hn hl h3 hc hv

/-- **Agreement.**  In every run of honest replicas in which all votes were cast under the lock, any two
blocks that any two replicas committed lie on one chain. -/
theorem agreement {net : NodeID → Net.Proc HotStuff} (hr : (hotStuffNet cf members).Reachable net)
    (hn : members.length = cf.n) (he : cf.elec.Consistent members)
    (hid : CollisionFree (Proposed (Net.states net))) (hl : LockedVotes (Net.states net))
    {i j : NodeID} {x y : Block} (hx : x ∈ (net i).st.committedBlocks)
    (hy : y ∈ (net j).st.committedBlocks) :
    Ancestor (Proposed (Net.states net)) x y ∨ Ancestor (Proposed (Net.states net)) y x := by
  have hw : (hotStuffSteps cf members).Reachable (Net.states net) := .of_reachable hr
  obtain ⟨qc, g, f, batch, hc, hxb⟩ := mem_committedBlocks hw hx
  obtain ⟨qc', g', f', batch', hc', hyb⟩ := mem_committedBlocks hw hy
  obtain ⟨⟨p, b, h3, -⟩, hanc⟩ := committed_threeChain hw hid hc
  obtain ⟨⟨p', b', h3', -⟩, hanc'⟩ := committed_threeChain hw hid hc'
  refine Chain.comparable_of_heads Block.view (C := Certified cf members (Net.states net))
    (H := fun g => ∃ p b, ThreeChain cf members (Net.states net) g p b)
    (fun _ _ _ h h' => h.unique hid h') ?_ ?_ ⟨p, b, h3⟩ ⟨p', b', h3'⟩ (hanc x hxb) (hanc' y hyb)
  · rintro g ⟨p, b, h3⟩
    exact h3.certified.1
  · rintro g ⟨p, b, h3⟩ c hc hv
    exact certified_extends hw hid he hn hl h3 hc hv

/-! ### Concrete runs -/

/-- The entry inserts `b` under a lock not below `v`. -/
def locks (b : Block) (v : ℤ) : Entry → Bool
  | .accepted b' lock _ => decide (b' = b ∧ v ≤ lock)
  | _ => false

/-- `LockedVotes` for the votes of one replica, over a list that holds all blocks. -/
def lockedVotesIn (bs : List Block) (trace : List Entry) : Bool :=
  bs.all fun b => !trace.contains (.voted b) || bs.all fun p => bs.all fun g =>
    !decide (p.id = b.prevID ∧ g.id = p.prevID ∧ 1 < g.view ∧ g.view + 1 = p.view ∧
      p.view + 1 = b.view) || trace.any (locks b g.view)

theorem lockedVotes_of_members (hw : (hotStuffSteps cf members).Reachable w) {bs : List Block}
    (hbs : ∀ b, Proposed w b → b ∈ bs) (h : ∀ i ∈ members, lockedVotesIn bs (w i).trace = true) :
    LockedVotes w := by
  intro i g p b hv hp hg h1 hgp hpb
  have hi : i ∈ members := by
    by_contra hi
    rw [Voted, hw.eq_init hi] at hv
    simp [hotStuffNet, network, HotStuff.new] at hv
  have hall := h i hi
  simp only [lockedVotesIn, List.all_eq_true, Bool.or_eq_true, Bool.not_eq_true',
    List.contains_eq_mem, decide_eq_false_iff_not, List.any_eq_true] at hall
  rcases hall b (hbs b hp.child) with hn | hall
  · exact absurd hv hn
  rcases hall p (hbs p hp.parent) g (hbs g hg.parent) with hn | ⟨e, he, hlock⟩
  · exact absurd ⟨hp.link, hg.link, h1, hgp, hpb⟩ hn
  · cases e with
    | accepted b' lock parent =>
      obtain ⟨rfl, hle⟩ := of_decide_eq_true hlock
      exact ⟨lock, parent, he, hle⟩
    | _ => cases hlock

theorem agreement_steadyRun :
    ∃ net, (hotStuffNet (FourNodes.config fun _ => "1") FourNodes.members).Reachable net ∧
      CollisionFree (Proposed (Net.states net)) ∧ LockedVotes (Net.states net) ∧
      ∃ x ∈ (net "1").st.committedBlocks, ∃ y ∈ (net "2").st.committedBlocks, x ≠ y ∧
        (Ancestor (Proposed (Net.states net)) x y ∨ Ancestor (Proposed (Net.states net)) y x) := by
  obtain ⟨net, hr, htest⟩ :=
    (hotStuffNet (FourNodes.config fun _ => "1") FourNodes.members).exists_reachable steadyRun
      (fun net => decide (
        ((blocksSent HotStuff.sent FourNodes.members (Net.states net)).map Block.id).Nodup ∧
        (∀ b ∈ blocksSent HotStuff.sent FourNodes.members (Net.states net), b.id ≠ zeroID) ∧
        (∀ i ∈ FourNodes.members, lockedVotesIn
          (blocksSent HotStuff.sent FourNodes.members (Net.states net)) (net i).st.trace = true) ∧
        ∃ x ∈ (net "1").st.committedBlocks, ∃ y ∈ (net "2").st.committedBlocks, x ≠ y))
      (by decide_cbv)
  obtain ⟨hnd, hnz, hl, x, hx, y, hy, hxy⟩ := of_decide_eq_true htest
  have hw : (hotStuffSteps _ _).Reachable (Net.states net) := .of_reachable hr
  have hbs := mem_blocksSent_of_proposed hw
  have hid := collisionFree_of_list hbs ⟨hnd, hnz⟩
  have hlv := lockedVotes_of_members hw hbs hl
  exact ⟨net, hr, hid, hlv, x, hx, y, hy, hxy,
    agreement hr rfl (FourNodes.consistent _ _) hid hlv hx hy⟩

/-- Node 3 leads up to view 5, then node 4. -/
def forkLeader (view : ℤ) : NodeID := if view ≤ 5 then "3" else "4"

/-- Node 3 proposes in views 1 to 4.  Nodes 1 and 2 time out of view 3 before they see the block of view
4, so that the certificate in it does not raise their lock, vote for it, and node 3 commits the blocks
of views 1 and 2.  Node 4, which has seen views 1 and 2 only, times out until it leads view 6 and
proposes on the block of view 1.  Nodes 1 and 2, which are not locked, vote for that and for the next two
blocks, and node 4 commits the block of view 6. -/
def forkRun : List (Net.System.Sched NodeID Event) :=
  [.fire "3" .txn,
    FourNodes.newView "3", .pass "3" 0 "1", .pass "3" 0 "2", .pass "3" 0 "4",
    .pass "1" 0 "3", .pass "2" 0 "3",
    FourNodes.newView "3", .pass "3" 1 "1", .pass "3" 1 "2", .pass "3" 1 "4",
    .pass "1" 1 "3", .pass "2" 1 "3",
    FourNodes.newView "3", .pass "3" 2 "1", .pass "3" 2 "2", .pass "1" 2 "3", .pass "2" 2 "3",
    FourNodes.newView "3", .fire "1" .timer, .fire "2" .timer,
    .pass "3" 3 "1", .pass "3" 3 "2", .pass "1" 4 "3", .pass "2" 4 "3",
    .fire "4" .timer, .fire "4" .timer, .fire "4" .timer, .fire "4" .timer,
    FourNodes.newView "4", FourNodes.newView "4", FourNodes.newView "4", FourNodes.newView "4",
    FourNodes.newView "4", FourNodes.newView "4", .fire "1" .timer, .fire "2" .timer,
    .pass "4" 6 "1", .pass "4" 6 "2", .pass "1" 6 "4", .pass "2" 6 "4",
    FourNodes.newView "4", .fire "1" .timer, .fire "2" .timer,
    .pass "4" 7 "1", .pass "4" 7 "2", .pass "1" 8 "4", .pass "2" 8 "4",
    FourNodes.newView "4", .pass "4" 8 "1", .pass "4" 8 "2", .pass "1" 9 "4", .pass "2" 9 "4"]

/-- **Without the lock two replicas commit conflicting blocks.** -/
theorem fork_without_lock :
    ∃ net, (hotStuffNet (FourNodes.config forkLeader) FourNodes.members).Reachable net ∧
      CollisionFree (Proposed (Net.states net)) ∧
      ∃ x ∈ (net "3").st.committedBlocks, ∃ y ∈ (net "4").st.committedBlocks,
        ¬ Ancestor (Proposed (Net.states net)) x y ∧
          ¬ Ancestor (Proposed (Net.states net)) y x := by
  obtain ⟨net, hr, htest⟩ :=
    (hotStuffNet (FourNodes.config forkLeader) FourNodes.members).exists_reachable forkRun
      (fun net =>
        let bs := blocksSent HotStuff.sent FourNodes.members (Net.states net)
        decide ((bs.map Block.id).Nodup ∧ (∀ b ∈ bs, b.id ≠ zeroID) ∧
          (∀ c ∈ bs, c.id ∈ [2, 1] → ∀ p ∈ bs, p.id = c.prevID → p.id ∈ [2, 1]) ∧
          (∀ c ∈ bs, c.id ∈ [6, 1] → ∀ p ∈ bs, p.id = c.prevID → p.id ∈ [6, 1]) ∧
          (∃ x ∈ (net "3").st.committedBlocks, x.id = 2) ∧
          ∃ y ∈ (net "4").st.committedBlocks, y.id = 6))
      (by decide_cbv)
  obtain ⟨hnd, hnz, h2, h6, ⟨x, hx, hx2⟩, y, hy, hy6⟩ := of_decide_eq_true htest
  have hbs := mem_blocksSent_of_proposed (.of_reachable (R := hotStuffSteps _ _) hr)
  refine ⟨net, hr, collisionFree_of_list hbs ⟨hnd, hnz⟩, x, hx, y, hy, ?_, ?_⟩
  · exact not_ancestor_of_ids hbs [6, 1] h6 (by simp [hy6]) (by simp [hx2])
  · exact not_ancestor_of_ids hbs [2, 1] h2 (by simp [hx2]) (by simp [hy6])

end HotStuff

end Bamboo
