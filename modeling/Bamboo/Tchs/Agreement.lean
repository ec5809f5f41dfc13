import Bamboo.FourNodes
import Bamboo.Tchs.Votes

/-!
# Agreement in two-chain HotStuff

`forkChoice` overwrites the view of a certificate, and the lock is skipped for certificates of old
views.  What keeps replicas on one chain is the shape of certified chains: above view 2 the parent of a
certified block is of the view before, and the grandparent of the view before that.

* `Grounded`: what a proposal says about the view of its parent;
* `parent_view_lt`, `shaped_of_certified`: parents and grandparents of certified blocks;
* `committed_twoChain`: a committed block has a certified child of the next view;
* `agreement_twoChain`: any two blocks that any two replicas committed lie on one chain.
-/

namespace Bamboo

namespace Tchs

variable {P P' : Block → Prop} {cf : Config} {members : List NodeID} {w : NodeID → Tchs} {i : NodeID}
  {a b g : Block} {q : QC}

/-! ### The parent of a proposal -/

/-- The parent of a proposal is not above its certificate's view, or another block with the same parent
was sent before, at most two views above. -/
def Grounded (P : Block → Prop) (b : Block) : Prop :=
  ∃ q, b.qc = some q ∧ (b.prevID = zeroID ∨ (∃ a, P a ∧ a.id = b.prevID ∧ a.view ≤ q.view) ∨
    ∃ c, P c ∧ c ≠ b ∧ c.prevID = b.prevID ∧ c.view ≤ q.view + 2)

theorem Grounded.mono (h : Grounded P b) (hP : ∀ b, P b → P' b) : Grounded P' b := by
  obtain ⟨q, hq, h | ⟨a, ha, hid, hv⟩ | ⟨c, hc, hne, hprev, hv⟩⟩ := h
  · exact ⟨q, hq, Or.inl h⟩
  · exact ⟨q, hq, Or.inr (Or.inl ⟨a, hP a ha, hid, hv⟩)⟩
  · exact ⟨q, hq, Or.inr (Or.inr ⟨c, hP c hc, hne, hprev, hv⟩)⟩

/-- A block about to be proposed has not been sent before. -/
theorem fresh_of_proposal (hw : (tchsSteps cf members).Reachable w) (hid : CollisionFree (Proposed w))
    (he : cf.elec.Consistent members) (hi : i ∈ members) {v : ℤ} {rest : List ℤ}
    (hv : (w i).pm.newViewChan = v :: rest) (hl : cf.elec.isLeader i v = true) (hb : b.view = v) :
    ¬ Proposed w b := by
  rintro ⟨j, ⟨dest, body⟩, hsent, rfl⟩
  obtain ⟨hj, -, hl', -⟩ := (sound_of_reachable hw hid).sent j _ hsent
  have hij : j = i := by
    rw [← (he j hj b.view).1 hl', hb, (he i hi v).1 hl]
  subst hij
  have hviews := (List.pairwise_append.1 (ordered_of_reachable hw j).views).2.2 b.view
    (List.mem_map_of_mem (mem_filterMap_blockOf hsent rfl)) v (by simp [hv])
  omega

theorem grounded_of_proposal (hw : (tchsSteps cf members).Reachable w)
    (hid : CollisionFree (Proposed w)) (hsig : cf.SignaturesVerify) (he : cf.elec.Consistent members)
    (hi : i ∈ members) {v : ℤ} {rest : List ℤ} (hv : (w i).pm.newViewChan = v :: rest) (hl : cf.elec.isLeader i v = true)
    (hb : Proposal (cf.honest i) (w i) v b) : Grounded (Proposed w) b := by
  have hmem := memory_of_reachable hw hid hsig i
  obtain ⟨q, c, hc, hq⟩ := (hw.ok i).high
  have hat : (w i).qcAt (w i).highQC = q := Holds.qcAt ⟨c, hc, hq⟩
  have hstamp := hb.stamped
  have hqc := hb.qc
  have hprev := hb.prevID
  rw [hat] at hstamp hqc hprev
  refine ⟨q, hqc, ?_⟩
  cases c with
  | block c =>
    -- the certificate is in a block that was sent before
    obtain ⟨c₀, q₀, hk⟩ := hmem.block _ c hc
    have hlink := (hk.link (env_of_reachable hw hid hsig i)).1
    refine Or.inr (Or.inr ⟨c₀, hk.proposed, fun hsame => ?_, ?_, ?_⟩)
    · exact fresh_of_proposal hw hid he hi hv hl hb.view (hsame ▸ hk.proposed)
    · rw [← hk.copy.prevID, hlink, hprev, (hk.cert hq).1]
    · have := (hk.high rfl).1
      rw [← hk.copy.view]
      omega
  | certificate q' =>
    cases hq
    rcases hmem.certificate _ q hc with hzero | ⟨q₀, hbuilt, hid₀, -, hlt⟩
    · exact Or.inl (hprev.trans hzero)
    · obtain ⟨a, ha, hav⟩ := (sound_of_reachable hw hid).built i q₀ hbuilt
      refine Or.inr (Or.inl ⟨a, ha.proposed, by rw [hprev, hid₀, ha.blockID], ?_⟩)
      have := hlt rfl
      omega

theorem grounded_of_reachable (hw : (tchsSteps cf members).Reachable w)
    (hid : CollisionFree (Proposed w)) (hsig : cf.SignaturesVerify) (he : cf.elec.Consistent members)
    (hb : Proposed w b) : Grounded (Proposed w) b := by
  induction hw generalizing b with
  | start =>
    obtain ⟨i, e, hsent, -⟩ := hb
    simp [tchsNet, network, Tchs.new] at hsent
  | @step w j t hr hj ha ih =>
    have hlater : Later w (Function.update w j t) := Act.later ha
    have hid' := hlater.collisionFree hid
    obtain ⟨i, e, hnew, hbody⟩ := hb
    have hold : e ∈ (w i).sent → Grounded (Proposed (Function.update w j t)) b :=
      fun hsent => (ih hid' ⟨i, e, hsent, hbody⟩).mono hlater.proposed
    rcases Net.update_cases (P := fun s : Tchs => e ∈ s.sent) hnew with ⟨rfl, hsent⟩ | hsent
    · rcases Act.mem_sent ha hsent with hsent | ⟨v, rest, b', hv, hl, hp, rfl⟩ | ⟨_, _, -, -, hv⟩ | ⟨_, ht⟩
      · exact hold hsent
      · cases hbody
        exact (grounded_of_proposal hr hid' hsig he hj hv hl hp).mono hlater.proposed
      · rw [hbody] at hv; cases hv
      · rw [hbody] at ht; cases ht
    · exact hold hsent

/-! ### The shape of certified chains -/

theorem Backed.isQuorum (h : Backed cf members w q b) : Quorums.IsQuorum members cf.n q.signers :=
  ⟨h.nodup, h.quorum, fun i hi => (h.voted i hi).1⟩

/-- Above view 2, parent and grandparent are of the two views before. -/
def Shaped (P : Block → Prop) (b : Block) : Prop :=
  2 < b.view → ∃ a g, ParentOf P a b ∧ ParentOf P g a ∧ a.view + 1 = b.view ∧ g.view + 2 = b.view

section Shape

variable (hw : (tchsSteps cf members).Reachable w) (hid : CollisionFree (Proposed w))
include hw hid

theorem not_own_ancestor (hb : Proposed w b) : ¬ Relation.TransGen (ParentOf (Proposed w)) b b :=
  Chain.acyclic ((rooted_of_reachable hw hid hb).acc hid)

theorem certified_of_parentOf (hp : ParentOf (Proposed w) a b) : Certified cf members w a := by
  obtain ⟨q, -, hq⟩ := (sound_of_reachable hw hid).certified_of_parentOf hid hp
  exact ⟨q, hq⟩

variable (he : cf.elec.Consistent members)
include he

theorem view_ne_of_parentOf (hp : ParentOf (Proposed w) a b) : a.view ≠ b.view := by
  intro hv
  have hab := proposed_unique hw he hid hp.parent hp.child hv
  subst hab
  exact not_own_ancestor hw hid hp.parent (.single hp)

theorem view_ne_of_grandparent (hp : ParentOf (Proposed w) a b) (hg : ParentOf (Proposed w) g a) :
    g.view ≠ b.view := by
  intro hv
  have hgb := proposed_unique hw he hid hg.parent hp.child hv
  subst hgb
  exact not_own_ancestor hw hid hg.parent (.tail (.single hg) hp)

variable (hsig : cf.SignaturesVerify) (hn : members.length = cf.n)
include hsig hn

omit he in
/-- Someone who voted for the block had voted for its parent before. -/
theorem exists_signer (hc : Certified cf members w b) (hp : ParentOf (Proposed w) a b) :
    a.view ≤ b.view + 1 ∧ ∃ q, b.qc = some q ∧ (b.view ≤ 1 → q.view ≤ 0) := by
  obtain ⟨q', hq'⟩ := hc
  obtain ⟨q, hq, hback⟩ := (sound_of_reachable hw hid).certified_of_parentOf hid hp
  obtain ⟨i, hi', hi⟩ := hq'.isQuorum.inter hn hback.isQuorum
  obtain ⟨-, c, hvote, hcopy⟩ := hq'.voted i hi'
  obtain ⟨-, lock, parent, hm⟩ := (sound_of_reachable hw hid).voted i c hvote
  obtain ⟨b₀, q₀, hacc⟩ := (record_of_reachable hw hid hsig i).accepted c lock parent hm
  have hb₀ : b₀ = b := hid.inj hacc.proposed hp.child (by rw [← hacc.copy.id, hcopy.id])
  subst hb₀
  have hq₀ : q₀ = q := Option.some.inj (hacc.qc.symm.trans hq)
  subst hq₀
  have hview := hacc.copy.view
  refine ⟨?_, q₀, hq, fun h1 => hacc.first hi (by omega)⟩
  obtain ⟨a', ha', haid, hle⟩ := hacc.parent hi
  have haa : a' = a := hid.inj ha' hp.parent (by rw [haid, hback.blockID])
  subst haa
  omega

/-- A certified block of view 1 stands on the first certificate. -/
theorem two_le_view (hc : Certified cf members w b) (hp : ParentOf (Proposed w) a b) : 2 ≤ b.view := by
  by_contra hlt
  obtain ⟨hle, q, hq, h0⟩ := exists_signer hw hid hsig hn hc hp
  have hb := one_le_view_of_proposed hw hp.child
  have ha := one_le_view_of_proposed hw hp.parent
  have hne := view_ne_of_parentOf hw hid he hp
  have hq0 := h0 (by omega)
  obtain ⟨q', hq', hzero | ⟨a', ha', haid, hav⟩ | ⟨c, hc', hcb, hprev, hcv⟩⟩ :=
    grounded_of_reachable hw hid hsig he hp.child
  · exact hid.ne_zero hp.parent (hp.link.trans hzero)
  · have haa : a' = a := hid.inj ha' hp.parent (haid.trans hp.link.symm)
    have hqq : q' = q := Option.some.inj (hq'.symm.trans hq)
    subst haa hqq
    omega
  · -- the other block is of view 2, as the parent is, so it is the parent and its own parent
    have hqq : q' = q := Option.some.inj (hq'.symm.trans hq)
    subst hqq
    have hc1 := one_le_view_of_proposed hw hc'
    have hcv' : c.view ≠ b.view := fun hv => hcb (proposed_unique hw he hid hc' hp.child hv)
    have hca : c = a := proposed_unique hw he hid hc' hp.parent (by omega)
    subst hca
    exact not_own_ancestor hw hid hc' (.single ⟨hc', hc', hp.link.trans hprev.symm⟩)

/-- The view of a parent is lower, provided that the parent is well shaped itself. -/
theorem parent_view_lt_of_shaped (hc : Certified cf members w b) (hp : ParentOf (Proposed w) a b)
    (hs : Shaped (Proposed w) a) : a.view < b.view := by
  have h2 := two_le_view hw hid he hsig hn hc hp
  have hle := (exists_signer hw hid hsig hn hc hp).1
  have hne := view_ne_of_parentOf hw hid he hp
  by_contra hlt
  obtain ⟨g, -, hg, -, hgv, -⟩ := hs (by omega)
  exact view_ne_of_grandparent hw hid he hp hg (by omega)

omit hn in
/-- What the voters for a certified block say about its parent. -/
theorem granted_of_certified (h4 : 4 ≤ cf.n) (hc : Certified cf members w b) (h2 : 2 < b.view) :
    ∃ a, ParentOf (Proposed w) a b ∧
      ((∃ g, ParentOf (Proposed w) g a ∧ g.view + 2 = b.view) ∨ b.view - 1 ≤ a.view ∧ 3 < b.view) := by
  obtain ⟨q, hq⟩ := hc
  have hgrant : ∀ i ∈ q.signers, Granted (Proposed w) (cf.honest i) b := by
    intro i hi
    obtain ⟨-, c, hvote, hcopy⟩ := hq.voted i hi
    have h := (record_of_reachable hw hid hsig i).voted c hvote (by rw [hcopy.view]; exact h2)
    obtain ⟨a, ha, haid, hor⟩ := h
    refine ⟨a, ha, by rw [haid, hcopy.prevID], ?_⟩
    rw [← hcopy.view]
    exact hor
  have hlen := hq.quorum
  obtain ⟨i, hi⟩ : ∃ i, i ∈ q.signers := List.exists_mem_of_length_pos (by omega)
  obtain ⟨a, ha, haid, -⟩ := hgrant i hi
  have hp : ParentOf (Proposed w) a b := ⟨ha, hq.proposed, haid⟩
  refine ⟨a, hp, ?_⟩
  by_cases hgate : ∃ g, ParentOf (Proposed w) g a ∧ g.view + 2 = b.view
  · exact Or.inl hgate
  -- no voter has seen a commit, so each leads one of the views before the block's
  have hled : ∀ j ∈ q.signers, b.view - 1 ≤ a.view ∧ Led (cf.honest j) (b.view - 1) := by
    intro j hj
    obtain ⟨a', ha', haid', hor⟩ := hgrant j hj
    have haa : a' = a := hid.inj ha' ha (haid'.trans haid.symm)
    subst haa
    exact hor.resolve_left hgate
  refine Or.inr ⟨(hled i hi).1, ?_⟩
  by_contra h3
  have hsub : q.signers ⊆ [cf.elec.findLeaderFor 1, cf.elec.findLeaderFor 2] := by
    intro j hj
    obtain ⟨-, e, h1, hle, hlead⟩ := hled j hj
    have hj' : cf.elec.findLeaderFor e = j := (he j (hq.voted j hj).1 e).1 hlead
    rcases (by omega : e = 1 ∨ e = 2) with rfl | rfl
    · simp [hj']
    · simp [hj']
  have := (hq.nodup.subperm hsub).length_le
  simp only [List.length_cons, List.length_nil] at this
  omega

/-- **Above view 2 certified chains descend by one view at each step.** -/
theorem shaped_of_certified (h4 : 4 ≤ cf.n) (hc : Certified cf members w b) :
    Shaped (Proposed w) b := by
  have hacc : Acc (Relation.TransGen (ParentOf (Proposed w))) b := by
    obtain ⟨q, hq⟩ := hc
    exact ((rooted_of_reachable hw hid hq.proposed).acc hid).transGen
  induction hacc with
  | intro b _ ih =>
    intro h2
    obtain ⟨a, hp, hor⟩ := granted_of_certified hw hid he hsig h4 hc h2
    have hca := certified_of_parentOf hw hid hp
    have hsa : Shaped (Proposed w) a := ih a (.single hp) hca
    have hlt := parent_view_lt_of_shaped hw hid he hsig hn hc hp hsa
    by_cases ha2 : 2 < a.view
    · -- the parent is above view 2 as well, and tells where the grandparent is
      obtain ⟨g, -, hg, -, hgv, -⟩ := hsa ha2
      rcases hor with ⟨g', hg', hgv'⟩ | ⟨hle, -⟩
      · have hgg : g' = g := hg'.unique hid hg
        subst hgg
        exact ⟨a, g', hp, hg, by omega, by omega⟩
      · exact ⟨a, g, hp, hg, by omega, by omega⟩
    · rcases hor with ⟨g, hg, hgv⟩ | ⟨hle, h3⟩
      · have hcg := certified_of_parentOf hw hid hg
        have hsg : Shaped (Proposed w) g := ih g (.tail (.single hg) hp) hcg
        have hlt' := parent_view_lt_of_shaped hw hid he hsig hn hca hg hsg
        exact ⟨a, g, hp, hg, by omega, hgv⟩
      · omega

/-- **The view of the parent of a certified block is lower.** -/
theorem parent_view_lt (h4 : 4 ≤ cf.n) (hc : Certified cf members w b)
    (hp : ParentOf (Proposed w) a b) : a.view < b.view :=
  parent_view_lt_of_shaped hw hid he hsig hn hc hp
    (shaped_of_certified hw hid he hsig hn h4 (certified_of_parentOf hw hid hp))

end Shape

/-! ### Commits -/

/-- Two certified blocks of consecutive views, the first the parent of the second. -/
structure TwoChain (cf : Config) (members : List NodeID) (w : NodeID → Tchs) (g a : Block) : Prop where
  parent : ParentOf (Proposed w) g a
  view : g.view + 1 = a.view
  certified : Certified cf members w g ∧ Certified cf members w a

/-- What a commit delivers are copies of ancestors. -/
theorem ancestor_of_above (hok : Ok (cf.honest i) (Net.SentTo Tchs.sent w i) (w i)) {low : ℕ}
    {l : List Block} {c : Block} (hl : BlockChain.Above (w i).bc.forrest low c l)
    (hb : Proposed w b) (hc : Copy c b) : ∀ x ∈ l, ∃ x₀, Copy x x₀ ∧ Ancestor (Proposed w) x₀ b := by
  induction hl generalizing b with
  | stop => simp
  | last =>
    intro x hx
    rw [List.mem_singleton.1 hx]
    exact ⟨b, hc, Chain.Ancestor.refl _⟩
  | @next c p l hlow hp ht ih =>
    obtain ⟨hpid, p₀, hpc, hph⟩ := hok.stored _ _ hp
    intro x hx
    rcases List.mem_cons.1 hx with rfl | hx
    · exact ⟨b, hc, Chain.Ancestor.refl _⟩
    · obtain ⟨x₀, hx₀, hanc⟩ := ih hph.sent hpc x hx
      refine ⟨x₀, hx₀, Chain.Ancestor.step hanc ⟨hph.sent, hb, ?_⟩⟩
      rw [← hpc.id, hpid, hc.prevID]

/-- Every block written to the channel was delivered by a commit. -/
theorem mem_committedBlocks (hw : (tchsSteps cf members).Reachable w) {x : Block}
    (hx : x ∈ (w i).committedBlocks) :
    ∃ q g f batch, .committed q g f batch ∈ (w i).trace ∧ x ∈ batch := by
  refine hw.keeps (J := fun _ s => ∀ x ∈ s.committedBlocks, ∃ q g f batch,
    .committed q g f batch ∈ s.trace ∧ x ∈ batch) ?_ ?_ i x hx
  · intro i x hx
    simp [tchsNet, network, Tchs.new] at hx
  · intro i In s t ha ih x hx
    rcases Act.mem_committedBlocks ha hx with hx | hx
    · obtain ⟨q, g, f, batch, hc, hb⟩ := ih x hx
      exact ⟨q, g, f, batch, (Act.subset ha).2 hc, hb⟩
    · exact hx

/-- A commit is asked for by a fine certificate and delivers copies of ancestors of one block. -/
theorem committed_cases (hw : (tchsSteps cf members).Reachable w) (hid : CollisionFree (Proposed w))
    {f : LevelledForest} {batch : List Block} (hmem : .committed q g f batch ∈ (w i).trace) :
    Fine cf members w q ∧ ∃ g₀, Proposed w g₀ ∧ Copy g g₀ ∧
      ∀ x ∈ batch, ∃ x₀, Copy x x₀ ∧ Ancestor (Proposed w) x₀ g₀ := by
  induction hw generalizing i with
  | start => simp [tchsNet, network, Tchs.new] at hmem
  | @step w j t hr hj ha ih =>
    have hlater : Later w (Function.update w j t) := Act.later ha
    have hid' := hlater.collisionFree hid
    suffices h : Fine cf members w q ∧ ∃ g₀, Proposed w g₀ ∧ Copy g g₀ ∧
        ∀ x ∈ batch, ∃ x₀, Copy x x₀ ∧ Ancestor (Proposed w) x₀ g₀ by
      obtain ⟨hf, g₀, hg₀, hcopy, hx⟩ := h
      refine ⟨hlater.fine hf, g₀, hlater.sent hg₀, hcopy, fun x hb => ?_⟩
      obtain ⟨x₀, hxc, hanc⟩ := hx x hb
      exact ⟨x₀, hxc, hanc.mono hlater.proposed⟩
    rcases Net.update_cases (P := fun s : Tchs => Entry.committed q g f batch ∈ s.trace) hmem
      with ⟨rfl, hc⟩ | hc
    · rcases Act.mem_trace ha hc with hc | ⟨⟨b, hb, hq, -⟩, -, hg, -, forked, bc, hd⟩
      · exact ih hid' hc
      have hs := sound_of_reachable hr hid'
      have hok := hr.ok i
      obtain ⟨lock, parent, hm⟩ := accepted_of_pending hb
      obtain ⟨b₀, hb₀, hbc⟩ := hs.accepted i b lock parent hm
      obtain ⟨a, -, hgs, -⟩ := commitRule_cases hg
      obtain ⟨hgid, g₀, hgc, hgh⟩ := hok.stored _ _ hgs
      obtain ⟨g', hg', habove, -, -⟩ := hd.done batch forked rfl
      have hgg : g' = g := by
        rw [hgid, hgs] at hg'
        cases hg'
        rfl
      subst hgg
      exact ⟨hs.fine_of_copy hb₀ hbc hq, g₀, hgh.sent, hgc, ancestor_of_above hok habove hgh.sent hgc⟩
    · exact ih hid' hc

section Commits

variable (hw : (tchsSteps cf members).Reachable w) (hid : CollisionFree (Proposed w))
  (he : cf.elec.Consistent members) (hsig : cf.SignaturesVerify) (hn : members.length = cf.n) (h4 : 4 ≤ cf.n)
include hw hid he hsig hn h4

/-- **What a commit rests on.**  The committed block is the first of a two-chain, and what is delivered
with it are its ancestors. -/
theorem committed_twoChain {f : LevelledForest} {batch : List Block}
    (hmem : .committed q g f batch ∈ (w i).trace) :
    ∃ g₀ a, TwoChain cf members w g₀ a ∧
      ∀ x ∈ batch, ∃ x₀, Copy x x₀ ∧ Ancestor (Proposed w) x₀ g₀ := by
  obtain ⟨hf, g₀, hg₀, hgc, hx⟩ := committed_cases hw hid hmem
  obtain ⟨a, g₁, ha, haid, hp, hgc', hv⟩ := (record_of_reachable hw hid hsig i).committed q g f batch hmem
  have hgg : g₁ = g₀ := hid.inj hp.parent hg₀ (by rw [← hgc'.id, hgc.id])
  subst hgg
  have hca : Certified cf members w a := by
    rcases hf with hblank | ⟨a', ha'⟩
    · exact absurd (haid.trans hblank.blockID) (hid.ne_zero ha)
    · have haa : a' = a := hid.inj ha'.proposed ha (by rw [haid, ha'.blockID])
      exact ⟨q, haa ▸ ha'⟩
  have hcg := certified_of_parentOf hw hid hp
  refine ⟨g₁, a, ⟨hp, ?_, hcg, hca⟩, hx⟩
  -- the grandparent of the block that asked for the commit is one view below the parent
  have hlt := parent_view_lt hw hid he hsig hn h4 hca hp
  have h1 := one_le_view_of_proposed hw hp.parent
  by_cases h2 : 2 < a.view
  · obtain ⟨g', -, hg', -, hgv, -⟩ := shaped_of_certified hw hid he hsig hn h4 hca h2
    rw [hp.unique hid hg']
    exact hgv
  · omega

/-- The chain down from a certified block does not step over the first block of a two-chain. -/
theorem not_stepped_over {c : Block} (h : TwoChain cf members w g a) (hc : Certified cf members w c)
    (hv : g.view ≤ c.view) :
    Ancestor (Proposed w) g c ∨
      ∃ p, ParentOf (Proposed w) p c ∧ Certified cf members w p ∧ g.view ≤ p.view := by
  have hga := h.view
  have h1 := one_le_view_of_proposed hw h.parent.parent
  have hprop : Proposed w c := by
    obtain ⟨q, hq⟩ := hc
    exact hq.proposed
  by_cases hle : c.view ≤ a.view
  · -- one block for each view: `c` is one of the two
    left
    rcases (by omega : c.view = g.view ∨ c.view = a.view) with hcv | hcv
    · rw [proposed_unique hw he hid hprop h.parent.parent hcv]
      exact Chain.Ancestor.refl g
    · rw [proposed_unique hw he hid hprop h.parent.child hcv]
      exact Chain.Ancestor.step (Chain.Ancestor.refl g) h.parent
  · obtain ⟨p, -, hp, -, hpv, -⟩ := shaped_of_certified hw hid he hsig hn h4 hc (by omega)
    exact Or.inr ⟨p, hp, certified_of_parentOf hw hid hp, by omega⟩

/-- **Certified blocks extend every committed block that is not above them.** -/
theorem certified_extends {c : Block} (h : TwoChain cf members w g a) (hc : Certified cf members w c)
    (hv : g.view ≤ c.view) : Ancestor (Proposed w) g c := by
  refine Chain.ancestor_of_certified Block.view (C := Certified cf members w) ?_ ?_ hc hv
  · rintro c ⟨q, hq⟩
    exact (rooted_of_reachable hw hid hq.proposed).acc hid
  · intro c hc hv
    exact not_stepped_over hw hid he hsig hn h4 h hc hv

end Commits

/-- **Agreement.**  In every run of honest replicas, any two blocks that any two replicas committed are,
up to the view of their certificates, blocks that were proposed and lie on one chain. -/
theorem agreement_twoChain {net : NodeID → Net.Proc Tchs} (hr : (tchsNet cf members).Reachable net)
    (h4 : 4 ≤ cf.n) (hn : members.length = cf.n) (he : cf.elec.Consistent members)
    (hsig : cf.SignaturesVerify) (hid : CollisionFree (Proposed (Net.states net))) {i j : NodeID}
    {x y : Block} (hx : x ∈ (net i).st.committedBlocks) (hy : y ∈ (net j).st.committedBlocks) :
    ∃ x₀ y₀, Proposed (Net.states net) x₀ ∧ Proposed (Net.states net) y₀ ∧ Copy x x₀ ∧ Copy y y₀ ∧
      (Ancestor (Proposed (Net.states net)) x₀ y₀ ∨ Ancestor (Proposed (Net.states net)) y₀ x₀) := by
  have hw : (tchsSteps cf members).Reachable (Net.states net) := .of_reachable hr
  obtain ⟨q, g, f, batch, hc, hxb⟩ := mem_committedBlocks hw hx
  obtain ⟨q', g', f', batch', hc', hyb⟩ := mem_committedBlocks hw hy
  obtain ⟨g₀, a, h2, hanc⟩ := committed_twoChain hw hid he hsig hn h4 hc
  obtain ⟨g₀', a', h2', hanc'⟩ := committed_twoChain hw hid he hsig hn h4 hc'
  obtain ⟨x₀, hxc, hxa⟩ := hanc x hxb
  obtain ⟨y₀, hyc, hya⟩ := hanc' y hyb
  have hprop : ∀ {u v : Block}, Proposed (Net.states net) v → Ancestor (Proposed (Net.states net)) u v →
      Proposed (Net.states net) u :=
    fun hv hu => Chain.Ancestor.closed hu hv fun _ _ _ hp => hp.parent
  refine ⟨x₀, y₀, hprop h2.parent.parent hxa, hprop h2'.parent.parent hya, hxc, hyc, ?_⟩
  refine Chain.comparable_of_heads Block.view (C := Certified cf members (Net.states net))
    (H := fun g => ∃ a, TwoChain cf members (Net.states net) g a)
    (fun _ _ _ h h' => h.unique hid h') ?_ ?_ ⟨a, h2⟩ ⟨a', h2'⟩ hxa hya
  · rintro g ⟨a, h2⟩
    exact h2.certified.1
  · rintro g ⟨a, h2⟩ c hc hv
    exact certified_extends hw hid he hsig hn h4 h2 hc hv

/-- Four views of one leader, without loss: the first two blocks get committed. -/
def steadyRun : List (Net.System.Sched NodeID Event) :=
  [.fire "1" .txn,
    FourNodes.newView "1", .pass "1" 0 "2", .pass "1" 0 "3", .pass "2" 0 "1", .pass "3" 0 "1",
    FourNodes.newView "1", .pass "1" 1 "2", .pass "1" 1 "3", .pass "2" 1 "1", .pass "3" 1 "1",
    FourNodes.newView "1", .pass "1" 2 "2", .pass "1" 2 "3", .pass "2" 2 "1", .pass "3" 2 "1",
    FourNodes.newView "1", .pass "1" 3 "2"]

theorem agreement_twoChain_steadyRun :
    ∃ net, (tchsNet (FourNodes.config fun _ => "1") FourNodes.members).Reachable net ∧
      CollisionFree (Proposed (Net.states net)) ∧
      ∃ x ∈ (net "1").st.committedBlocks, ∃ y ∈ (net "3").st.committedBlocks, x.id ≠ y.id ∧
        ∃ x₀ y₀, Proposed (Net.states net) x₀ ∧ Proposed (Net.states net) y₀ ∧ Copy x x₀ ∧ Copy y y₀ ∧
          (Ancestor (Proposed (Net.states net)) x₀ y₀ ∨ Ancestor (Proposed (Net.states net)) y₀ x₀) := by
  obtain ⟨net, hr, htest⟩ :=
    (tchsNet (FourNodes.config fun _ => "1") FourNodes.members).exists_reachable steadyRun
      (fun net => decide (
        ((blocksSent Tchs.sent FourNodes.members (Net.states net)).map Block.id).Nodup ∧
        (∀ b ∈ blocksSent Tchs.sent FourNodes.members (Net.states net), b.id ≠ zeroID) ∧
        ∃ x ∈ (net "1").st.committedBlocks, ∃ y ∈ (net "3").st.committedBlocks, x.id ≠ y.id))
      (by decide_cbv)
  obtain ⟨hnd, hnz, x, hx, y, hy, hxy⟩ := of_decide_eq_true htest
  have hw : (tchsSteps _ _).Reachable (Net.states net) := .of_reachable hr
  have hid := collisionFree_of_list (mem_blocksSent_of_proposed hw) ⟨hnd, hnz⟩
  exact ⟨net, hr, hid, x, hx, y, hy, hxy, agreement_twoChain hr (by decide) rfl
    (FourNodes.consistent _ _) (FourNodes.signaturesVerify _) hid hx hy⟩

end Tchs

end Bamboo
