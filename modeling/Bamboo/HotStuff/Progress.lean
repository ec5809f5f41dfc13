import Bamboo.HotStuff.Certificates
import Bamboo.HotStuff.Rounds

/-!
# HotStuff makes progress

The schedule the protocol is made for: the leader proposes, its block reaches everyone, and all votes reach the
next leader.  The network can go on like this, and commits a block in each round, as long as no block that is
made has the id of an earlier one.

* `Healthy`: what the deployment has to provide;
* `nextBlock`, `Laid`: the blocks, each made from the certificate for the one before;
* `Stands`, `Rounded`: the replicas between two rounds;
* `Rounded.propose`, `Spreading.step`, `Collecting.step`: the three parts of a round;
* `Rounded.genuine`: the replicas' votes stand behind the certificates;
* `progress`: any number of rounds, with any payloads.
-/

namespace Bamboo

/-- A block as `MakeBlock` and `MakePBlock` return it. -/
inductive Minted (cf : Config) (c : Block) : Prop
  | block {view : ℤ} {qc : QC} {prevID : ℕ} {payload : List Transaction} {proposer : NodeID}
      (h : makeBlock cf view qc prevID payload proposer = .ok c)
  | pBlock {view : ℤ} {qc : QC} {prevID : ℕ} {pBatch : PBatch} {proposer : NodeID}
      (h : makePBlock cf view qc prevID pBatch proposer = .ok c)

/-- A block carries its proposer's signature. -/
theorem Minted.signed {cf : Config} {c : Block} (h : Minted cf c) : privSign cf c.id c.proposer = .ok c.sig := by
  rcases h with h | h
  · unfold makeBlock at h
    simp only [bind, Except.bind, pure, Except.pure] at h
    split at h
    · cases h
    · next hs =>
      cases h
      exact hs
  · unfold makePBlock at h
    simp only [bind, Except.bind, pure, Except.pure] at h
    split at h
    · cases h
    · next hs =>
      cases h
      exact hs

theorem pBatch_makePBlock {cf : Config} {view : ℤ} {qc : QC} {prevID : ℕ} {pBatch : PBatch} {proposer : NodeID}
    {c : Block} (h : makePBlock cf view qc prevID pBatch proposer = .ok c) : c.pBatch = some pBatch := by
  unfold makePBlock at h
  simp only [bind, Except.bind, pure, Except.pure] at h
  split at h
  · cases h
  · cases h
    rfl

/-- A deployment in which nothing is missing: all nodes are there and have keys, every view has a leader among
them, and signatures verify. -/
structure Healthy (cf : Config) (members : List NodeID) : Prop where
  nodup : members.Nodup
  all : members.length = cf.n
  others : 2 ≤ cf.n
  keys : ∀ i ∈ members, ∃ k, keyIndex cf i = .ok k
  elected : cf.elec.Consistent members
  leaders : ∀ view, cf.elec.findLeaderFor view ∈ members
  verify : cf.SignaturesVerify

namespace HotStuff

open Prog

variable {cf : Config} {members : List NodeID} {b b' : ℕ → Block} {v r : ℕ} {i : NodeID}
  {net : NodeID → Net.Proc HotStuff} {payload : List Transaction} {batch : ℕ → PBatch}

/-- The leader of a view. -/
def lead (cf : Config) (v : ℕ) : NodeID := cf.elec.findLeaderFor (v : ℤ)

theorem isLeader_iff_lead (h : cf.elec.Consistent members) (hi : i ∈ members) (v : ℕ) :
    cf.elec.isLeader i (v : ℤ) = true ↔ lead cf v = i := h i hi v

theorem isLeader_lead (h : Healthy cf members) (v : ℕ) : cf.elec.isLeader (lead cf v) (v : ℤ) = true :=
  (isLeader_iff_lead h.elected (h.leaders _) v).2 rfl

theorem enabled_newView {view : ℤ} {rest : List ℤ} {s : HotStuff} (h : s.pm.newViewChan = view :: rest)
    (pBatch : PBatch) : (hotStuffNet cf members).enabled i (.newView payload pBatch) s = true := by
  show (!s.pm.newViewChan.isEmpty) = true
  rw [h]
  rfl

theorem Able.of_healthy (h : Healthy cf members) (hi : i ∈ members) : Able (cf.honest i) where
  honest := rfl
  others := h.others
  verify := h.verify
  key := h.keys i hi

/-- The block that the leader of view `v + 1` makes from a certificate. -/
def nextBlock (cf : Config) (payload : List Transaction) (batch : ℕ → PBatch) (v : ℕ) (qc : QC) :
    Except Fault Block :=
  if 1 < ((v + 1 : ℕ) : ℤ)
    then makePBlock cf ((v + 1 : ℕ) : ℤ) qc qc.blockID (batch (v + 1)) (lead cf (v + 1))
    else makeBlock cf ((v + 1 : ℕ) : ℤ) qc qc.blockID payload (lead cf (v + 1))

/-- The blocks proposed so far, with what the proposers were given to propose. -/
structure Laid (cf : Config) (payload : List Transaction) (batch : ℕ → PBatch) (b : ℕ → Block) (k : ℕ) :
    Prop where
  row : Row cf b k
  made : ∀ v, 1 ≤ v → v ≤ k → Minted cf (b v)
  proposer : ∀ v, 1 ≤ v → v ≤ k → (b v).proposer = lead cf v
  first : 1 ≤ k → (b 1).payload = payload
  later : ∀ v, 2 ≤ v → v ≤ k → (b v).pBatch = some (batch v)

/-- The blocks that a replica has sent are among the first `v`. -/
def Spoke (b : ℕ → Block) (v : ℕ) (sent : List Envelope) : Prop :=
  ∀ dest c, ⟨dest, .block c⟩ ∈ sent → ∃ w, 1 ≤ w ∧ w ≤ v ∧ b w = c

/-- The leaders of the first `v` views have sent their blocks. -/
def Told (cf : Config) (b : ℕ → Block) (v : ℕ) (net : NodeID → Net.Proc HotStuff) : Prop :=
  ∀ w, 1 ≤ w → w ≤ v → ⟨none, .block (b w)⟩ ∈ (net (lead cf w)).st.sent

theorem Spoke.vote {sent : List Envelope} (h : Spoke b v sent) (nd : Node) (c : Block) :
    Spoke b v (sent ++ voteSent nd c) := by
  intro dest c' hc
  rcases List.mem_append.1 hc with hc | hc
  · exact h dest c' hc
  · unfold voteSent at hc
    split at hc
    · split_ifs at hc
      · cases hc
      · cases List.mem_singleton.1 hc
    · cases hc

theorem Spoke.propose {sent : List Envelope} (h : Spoke b v sent) :
    Spoke b (v + 1) (sent ++ [⟨none, .block (b (v + 1))⟩]) := by
  intro dest c hc
  rcases List.mem_append.1 hc with hc | hc
  · obtain ⟨w, h1, hw, rfl⟩ := h dest c hc
    exact ⟨w, h1, by omega, rfl⟩
  · cases List.mem_singleton.1 hc
    exact ⟨v + 1, by omega, le_rfl, rfl⟩

theorem Spoke.succ {sent : List Envelope} (h : Spoke b v sent) : Spoke b (v + 1) sent := fun dest c hc => by
  obtain ⟨w, h1, hw, rfl⟩ := h dest c hc
  exact ⟨w, h1, by omega, rfl⟩

theorem Told.update (h : Told cf b v net) {t : HotStuff} (hsub : (net i).st.sent ⊆ t.sent) :
    Told cf b v (Function.update net i ⟨t, true⟩) := by
  intro w h1 hw
  by_cases hi : lead cf w = i
  · subst hi
    rw [Function.update_self]
    exact hsub (h w h1 hw)
  · rw [Function.update_of_ne hi]
    exact h w h1 hw

/-- A replica that has inserted the blocks up to view `v` and is in view `r`, with these view events to come. -/
structure Stands (cf : Config) (b : ℕ → Block) (v r : ℕ) (chan : List ℤ) (p : Net.Proc HotStuff) : Prop where
  up : p.up = true
  inStep : InStep cf b v r p.st
  chan : p.st.pm.newViewChan = chan
  blocks : p.st.bufferedBlocks = ∅
  spoke : Spoke b v p.st.sent

/-- A replica that has voted for the block of view `v`. -/
structure HasVoted (cf : Config) (b : ℕ → Block) (v : ℕ) (i : NodeID) (p : Net.Proc HotStuff) : Prop
    extends Stands cf b v v [] p where
  sent : voteSent (cf.honest i) (b v) ⊆ p.st.sent
  polled : p.st.bc.quorum.Polled (b v).id (selfVoter (cf.honest i) (b v))

/-- Between two rounds: the leader of view `v + 1` has entered it, the others are in view `v`. -/
structure Rounded (cf : Config) (members : List NodeID) (b : ℕ → Block) (v : ℕ)
    (net : NodeID → Net.Proc HotStuff) : Prop where
  told : Told cf b v net
  leader : Stands cf b v (v + 1) [((v + 1 : ℕ) : ℤ)] (net (lead cf (v + 1)))
  others : ∀ i ∈ members, i ≠ lead cf (v + 1) → Stands cf b v v [] (net i)

/-- While the block of view `v + 1` spreads: the replicas in `W` have voted for it. -/
structure Spreading (cf : Config) (members : List NodeID) (b : ℕ → Block) (v : ℕ) (W : Finset NodeID)
    (net : NodeID → Net.Proc HotStuff) : Prop where
  told : Told cf b (v + 1) net
  proposer : lead cf (v + 1) ∈ W
  voted : ∀ i ∈ W, HasVoted cf b (v + 1) i (net i)
  waiting : ∀ i ∈ members, i ∉ W → Stands cf b v v [] (net i)

/-- While the votes for the block of view `v` reach the leader of view `v + 1`: those of the replicas in `W` are
counted. -/
structure Collecting (cf : Config) (members : List NodeID) (b : ℕ → Block) (v : ℕ) (W : Finset NodeID)
    (net : NodeID → Net.Proc HotStuff) : Prop where
  told : Told cf b v net
  sent : ∀ i ∈ members, voteSent (cf.honest i) (b v) ⊆ (net i).st.sent
  others : ∀ i ∈ members, i ≠ lead cf (v + 1) → Stands cf b v v [] (net i)
  self : lead cf (v + 1) ∈ W
  polled : (net (lead cf (v + 1))).st.bc.quorum.Polled (b v).id W
  leader : if cf.n * 2 / 3 < W.card
    then Stands cf b v (v + 1) [((v + 1 : ℕ) : ℤ)] (net (lead cf (v + 1)))
    else Stands cf b v v [] (net (lead cf (v + 1)))

theorem Stands.congr {chan : List ℤ} {p : Net.Proc HotStuff} (h : Stands cf b v r chan p) (hr : r - 3 ≤ v)
    (hb : ∀ w, w ≤ v → b' w = b w) : Stands cf b' v r chan p :=
  { h with
    inStep := h.inStep.congr hr hb
    spoke := fun dest c hc => by
      obtain ⟨w, h1, hw, rfl⟩ := h.spoke dest c hc
      exact ⟨w, h1, hw, hb w hw⟩ }

/-! ### The proposal -/

/-- What the next block is made of. -/
theorem exists_nextBlock (h : Healthy cf members) (payload : List Transaction) (batch : ℕ → PBatch) (v : ℕ)
    (qc : QC) :
    ∃ c, nextBlock cf payload batch v qc = .ok c ∧ Minted cf c ∧ c.view = ((v + 1 : ℕ) : ℤ) ∧ c.qc = some qc ∧
      c.proposer = lead cf (v + 1) ∧ c.prevID = qc.blockID ∧ (v = 0 → c.payload = payload) ∧
      (1 ≤ v → c.pBatch = some (batch (v + 1))) := by
  obtain ⟨k, hk⟩ := h.keys (lead cf (v + 1)) (h.leaders _)
  unfold nextBlock
  split_ifs with h1
  · obtain ⟨c, hc⟩ : ∃ c, makePBlock cf ((v + 1 : ℕ) : ℤ) qc qc.blockID (batch (v + 1)) (lead cf (v + 1)) = .ok c := by
      unfold makePBlock privSign
      rw [hk]
      exact ⟨_, rfl⟩
    obtain ⟨h₁, h₂, h₃, h₄⟩ := makePBlock_eq_ok hc
    exact ⟨c, hc, .pBlock hc, h₁, h₂, h₃, h₄, fun h0 => by omega, fun _ => pBatch_makePBlock hc⟩
  · obtain ⟨c, hc⟩ : ∃ c, makeBlock cf ((v + 1 : ℕ) : ℤ) qc qc.blockID payload (lead cf (v + 1)) = .ok c := by
      unfold makeBlock privSign
      rw [hk]
      exact ⟨_, rfl⟩
    obtain ⟨h₁, h₂, h₃, h₄⟩ := makeBlock_eq_ok hc
    exact ⟨c, hc, .block hc, h₁, h₂, h₃, h₄, fun _ => payload_makeBlock hc, fun h0 => by omega⟩

/-- The leader proposes it. -/
theorem makeProposal_of_nextBlock {c : Block} {s : HotStuff}
    (hc : nextBlock cf payload batch v s.highQC = .ok c) :
    let i := lead cf (v + 1)
    (if 1 < ((v + 1 : ℕ) : ℤ) then makePProposal (cf.honest i) ((v + 1 : ℕ) : ℤ) (batch (v + 1))
      else makeProposal (cf.honest i) ((v + 1 : ℕ) : ℤ) payload) s = .ok c s := by
  intro i
  unfold nextBlock at hc
  split_ifs at hc ⊢
  · rw [makePProposal, bind_apply_ok (forkChoice_of_honest rfl s)]
    exact congrArg (fun x => Prog.ofExcept x s) hc
  · rw [makeProposal, bind_apply_ok (forkChoice_of_honest rfl s)]
    exact congrArg (fun x => Prog.ofExcept x s) hc

/-- A next block with an id of its own extends the row. -/
theorem Laid.extend (h : Healthy cf members) (hp : Laid cf payload batch b v) {s : HotStuff} {c : Block}
    (hs : InStep cf b v (v + 1) s) (hc : nextBlock cf payload batch v s.highQC = .ok c)
    (hid : ∀ w, w ≤ v → c.id ≠ idAt b w) : Laid cf payload batch (Function.update b (v + 1) c) (v + 1) := by
  obtain ⟨c', hc', hmade, hview, hqc, hprop, hprev, hfirst, hlater⟩ := exists_nextBlock h payload batch v s.highQC
  rw [hc] at hc'
  cases hc'
  obtain ⟨q, hq, hqv, hcert⟩ := hs.high
  obtain rfl : q = v := by omega
  have hold : ∀ w, w ≤ q → Function.update b (q + 1) c w = b w := fun w hw =>
    Function.update_of_ne (by omega) ..
  -- what holds of the new block and of the earlier ones holds of all
  have hall : ∀ {P : ℕ → Block → Prop}, P (q + 1) c → (∀ w, 1 ≤ w → w ≤ q → P w (b w)) →
      ∀ w, 1 ≤ w → w ≤ q + 1 → P w (Function.update b (q + 1) c w) := by
    intro P hnew hprev w h1 hw
    rcases Nat.eq_or_lt_of_le hw with rfl | hlt
    · rwa [Function.update_self]
    · rw [hold w (by omega)]
      exact hprev w h1 (by omega)
  refine ⟨hp.row.extend hview hqc hcert (hprev.trans hcert.blockID) ?_
    ⟨true, pubVerify_privSign h.verify hmade.signed⟩ hid, hall (P := fun _ c => Minted cf c) hmade hp.made,
    hall (P := fun w c => c.proposer = lead cf w) hprop hp.proposer, fun _ => ?_, fun w h2 hw => ?_⟩
  · rw [hprop]
    exact isLeader_lead h _
  · refine hall (P := fun w c => w = 1 → c.payload = payload) (fun h0 => hfirst (by omega)) ?_ 1 le_rfl (by omega) rfl
    rintro w h1 hw rfl
    exact hp.first hw
  · exact hall (P := fun w c => 2 ≤ w → c.pBatch = some (batch w)) (fun _ => hlater (by omega))
      (fun w _ hw h2 => hp.later w h2 hw) w (by omega) hw h2

/-- **The proposal**: the leader sends the next block, inserts it and votes for it. -/
theorem Rounded.propose (h : Healthy cf members) (hp : Laid cf payload batch b v)
    (hs : Rounded cf members b v net) (hr : (hotStuffNet cf members).Reachable net) {c : Block}
    (hc : nextBlock cf payload batch v (net (lead cf (v + 1))).st.highQC = .ok c)
    (hid : ∀ w, w ≤ v → c.id ≠ idAt b w) :
    ∃ net', (hotStuffNet cf members).Reachable net' ∧
      Laid cf payload batch (Function.update b (v + 1) c) (v + 1) ∧
      Spreading cf members (Function.update b (v + 1) c) v {lead cf (v + 1)} net' := by
  -- the event leaves the channel, the block is made and sent
  let s := (net (lead cf (v + 1))).st
  let s₀ : HotStuff := { s with pm := { s.pm with newViewChan := [] } }
  have hp' := hp.extend h hs.leader.inStep hc hid
  set b' := Function.update b (v + 1) c with hb'
  have hnew : b' (v + 1) = c := Function.update_self ..
  have hold : ∀ w, w ≤ v → b' w = b w := fun w hw => Function.update_of_ne (by omega) ..
  have hmem : lead cf (v + 1) ∈ members := h.leaders _
  have hlead : Stands cf b' _ _ _ _ := hs.leader.congr (by omega) hold
  have hin₁ : InStep cf b' v (v + 1) (send ⟨none, .block c⟩ s₀) := { hlead.inStep with }
  -- its own block passes
  obtain ⟨t, ht, hin, hsent, hblocks, hpm⟩ := vetBlock_row_own (cf.honest (lead cf (v + 1))) hp'.row hin₁
    (hp'.proposer (v + 1) (by omega) le_rfl)
  obtain ⟨u, hu, hin', hins⟩ := insertAndVote_row (.of_healthy h hmem) hp'.row hin
  have hempty : u.bufferedBlocks = ∅ := by rw [hins.blocks, hblocks]; exact hlead.blocks
  have hblock := processBlock_unbuffered ht hu hempty
  rw [hnew] at hblock
  have husent : u.sent = s.sent ++ [⟨none, .block (b' (v + 1))⟩] ++
      voteSent (cf.honest (lead cf (v + 1))) (b' (v + 1)) := by
    rw [hins.sent, hsent, hnew]
    rfl
  have hrun : (hotStuffNet cf members).trigger (lead cf (v + 1)) (.newView payload (batch (v + 1))) s = .ok () u :=
    Safety.processNewView_lead hs.leader.chan (isLeader_lead h _) (makeProposal_of_nextBlock (s := s₀) hc)
      (bind_apply_ok hblock)
  have hnet := hr.fire (e := .newView payload (batch (v + 1))) hmem hs.leader.up
    (enabled_newView hs.leader.chan _) hrun
  refine ⟨_, hnet, hp', fun w h1 hw => ?_, Finset.mem_singleton_self _, fun j hj => ?_, fun j hj hne => ?_⟩
  · rcases Nat.eq_or_lt_of_le hw with rfl | hlt
    · rw [Function.update_self]
      show _ ∈ u.sent
      rw [husent]
      simp
    · have htold : Told cf b v (Function.update net (lead cf (v + 1)) ⟨u, true⟩) := hs.told.update (by
        rw [husent, List.append_assoc]
        exact List.subset_append_left _ _)
      rw [hold w (by omega)]
      exact htold w h1 (by omega)
  · obtain rfl := Finset.mem_singleton.1 hj
    rw [Function.update_self]
    refine ⟨⟨rfl, hin', ?_, hempty, ?_⟩, ?_, hins.polled⟩
    · rw [hins.chan, hpm]
      rfl
    · show Spoke b' (v + 1) u.sent
      rw [husent]
      exact hlead.spoke.propose.vote _ _
    · rw [hins.sent]
      exact List.subset_append_right _ _
  · rw [Finset.mem_singleton] at hne
    rw [Function.update_of_ne hne]
    exact (hs.others j hj hne).congr (by omega) hold

/-! ### The block spreads -/

/-- **One more replica gets the block**, inserts it and votes for it; it does not lead the view it enters. -/
theorem Spreading.step (h : Healthy cf members) (hp : Laid cf payload batch b (v + 1)) {W : Finset NodeID}
    (hr : (hotStuffNet cf members).Reachable net) (hs : Spreading cf members b v W net) (hi : i ∈ members) :
    ∃ net', (hotStuffNet cf members).Reachable net' ∧ Spreading cf members b v (insert i W) net' := by
  by_cases hW : i ∈ W
  · exact ⟨net, hr, by rwa [Finset.insert_eq_of_mem hW]⟩
  have hw := hs.waiting i hi hW
  have hne : i ≠ lead cf (v + 1) := fun heq => hW (heq ▸ hs.proposer)
  have hprop : (b (v + 1)).proposer = lead cf (v + 1) := hp.proposer (v + 1) (by omega) le_rfl
  -- the delivery of the block
  obtain ⟨t, ht, hin, hent⟩ := vetBlock_row (cf.honest i) rfl hp.row hw.inStep
    (by rw [hprop]; exact hne.symm)
  obtain ⟨u, hu, hin', hins⟩ := insertAndVote_row (.of_healthy h hi) hp.row hin
  have hempty : u.bufferedBlocks = ∅ := by rw [hins.blocks, hent.blocks, hw.blocks]
  have husent : u.sent = (net i).st.sent ++ voteSent (cf.honest i) (b (v + 1)) := by rw [hins.sent, hent.sent]
  have hchan : u.pm.newViewChan = [((v + 1 : ℕ) : ℤ)] := by rw [hins.chan, hent.chan, hw.chan]; rfl
  have hflight : Net.InFlight HotStuff.sent (Net.states net) (lead cf (v + 1)) i (Msg.block (b (v + 1))) :=
    Or.inr ⟨hne, hs.told (v + 1) (by omega) le_rfl⟩
  have hr₁ := hr.deliver hi hw.up hflight (bind_apply_ok (processBlock_unbuffered ht hu hempty))
  -- the event of the view it enters
  have hlead : (cf.honest i).elec.isLeader (cf.honest i).id ((v + 1 : ℕ) : ℤ) = false := by
    rw [← Bool.not_eq_true]
    exact fun hl => hne ((isLeader_iff_lead h.elected hi (v + 1)).1 hl).symm
  have hfollow : (safety (cf.honest i)).processNewView (cf.honest i) [] ⟨[]⟩ u = _ :=
    Safety.processNewView_follow hchan hlead
  have hr₂ := hr₁.fire (e := .newView [] ⟨[]⟩) hi (by rw [Function.update_self])
    (by rw [Function.update_self]; exact enabled_newView hchan _)
    (by rw [Function.update_self]; exact hfollow)
  rw [Function.update_idem] at hr₂
  refine ⟨_, hr₂, ?_, Finset.mem_insert_of_mem hs.proposer, fun j hj => ?_, fun j hj hjW => ?_⟩
  · refine hs.told.update ?_
    show (net i).st.sent ⊆ u.sent
    rw [husent]
    exact List.subset_append_left _ _
  · by_cases hji : j = i
    · subst hji
      rw [Function.update_self]
      refine ⟨⟨rfl, { hin' with }, rfl, hempty, ?_⟩, ?_, hins.polled⟩
      · show Spoke b (v + 1) u.sent
        rw [husent]
        exact hw.spoke.succ.vote _ _
      · show _ ⊆ u.sent
        rw [husent]
        exact List.subset_append_right _ _
    · rw [Function.update_of_ne hji]
      exact hs.voted j (Finset.mem_of_mem_insert_of_ne hj hji)
  · rw [Finset.mem_insert, not_or] at hjW
    rw [Function.update_of_ne hjW.1]
    exact hs.waiting j hj hjW.2

/-! ### The votes are collected -/

/-- When everyone has voted, the votes are on their way to the next leader, which has counted its own. -/
theorem Spreading.collecting (h : Healthy cf members) (hrow : Row cf b (v + 1)) {W : Finset NodeID}
    (hs : Spreading cf members b v W net) (hW : ∀ i ∈ members, i ∈ W) :
    Collecting cf members b (v + 1) {lead cf (v + 1 + 1)} net := by
  have hmem : lead cf (v + 1 + 1) ∈ members := h.leaders _
  have hlead := hs.voted _ (hW _ hmem)
  have hself : selfVoter (cf.honest (lead cf (v + 1 + 1))) (b (v + 1)) = {lead cf (v + 1 + 1)} := by
    unfold selfVoter
    rw [hrow.view (v + 1) (by omega) le_rfl]
    exact if_pos rfl
  refine ⟨hs.told, fun i hi => (hs.voted i (hW i hi)).sent, fun i hi _ => (hs.voted i (hW i hi)).toStands,
    Finset.mem_singleton_self _, hself ▸ hlead.polled, ?_⟩
  have hn := h.others
  rw [if_neg (by rw [Finset.card_singleton]; omega)]
  exact hlead.toStands

/-- The vote of a replica is sent to the next leader, and passes its check. -/
theorem exists_vote (h : Healthy cf members) (hrow : Row cf b v) (h1 : 1 ≤ v) (hi : i ∈ members)
    (hne : i ≠ lead cf (v + 1)) :
    ∃ vote : Vote, vote.voter = i ∧ ValidVote (cf.honest (lead cf (v + 1))) (b v) vote ∧
      pubVerify cf vote.signature vote.blockID vote.voter = .ok true ∧
      voteSent (cf.honest i) (b v) = [⟨some (lead cf (v + 1)), .vote vote⟩] := by
  obtain ⟨k, hk⟩ := h.keys i hi
  obtain ⟨vote, hvote⟩ : ∃ vote, makeVote cf (b v).view i (b v).id = .ok vote := by
    unfold makeVote privSign
    rw [hk]
    exact ⟨_, rfl⟩
  obtain ⟨hview, hvoter, hid, hsign⟩ := makeVote_eq_ok hvote
  have hsig : pubVerify cf vote.signature vote.blockID vote.voter = .ok true := by
    rw [hid, hvoter]
    exact pubVerify_privSign h.verify hsign
  have hto : cf.elec.findLeaderFor ((b v).view + 1) = lead cf (v + 1) := by rw [hrow.view v h1 le_rfl]; rfl
  refine ⟨vote, hvoter, ⟨hid, hview, ?_⟩, hsig, ?_⟩
  · unfold checkVote
    split_ifs
    · exact hsig
    · rfl
  · unfold voteSent
    simp only [Config.honest, hvote, hto, if_neg (Ne.symm hne)]

/-- What one more vote does at the next leader. -/
theorem Collecting.count (hrow : Row cf b v) (h1 : 1 ≤ v) {W : Finset NodeID}
    (hs : Collecting cf members b v W net) {vote : Vote}
    (hvalid : ValidVote (cf.honest (lead cf (v + 1))) (b v) vote)
    (hsig : pubVerify cf vote.signature vote.blockID vote.voter = .ok true) :
    ∃ t, processVote (cf.honest (lead cf (v + 1))) vote (net (lead cf (v + 1))).st = .ok () t ∧
      t.bc.quorum.Polled (b v).id (insert vote.voter W) ∧ t.sent = (net (lead cf (v + 1))).st.sent ∧
      if cf.n * 2 / 3 < (insert vote.voter W).card
        then Stands cf b v (v + 1) [((v + 1 : ℕ) : ℤ)] ⟨t, true⟩ else Stands cf b v v [] ⟨t, true⟩ := by
  have hsub : W.card ≤ (insert vote.voter W).card := Finset.card_le_card (Finset.subset_insert _ _)
  have hleader := hs.leader
  by_cases hfull : cf.n * 2 / 3 < W.card
  · rw [if_pos hfull] at hleader
    obtain ⟨ht, hin, hp⟩ := processVote_row_late (cf.honest (lead cf (v + 1))) h1 hleader.inStep hvalid
      hsig hs.polled hfull
    refine ⟨_, ht, hp, rfl, ?_⟩
    rw [if_pos (by omega)]
    exact ⟨rfl, hin, hleader.chan, hleader.blocks, hleader.spoke⟩
  · rw [if_neg hfull] at hleader
    obtain ⟨t, ht, hp, hsent, hblocks, hin⟩ := processVote_row (cf.honest (lead cf (v + 1))) rfl hrow h1
      hleader.inStep hvalid hsig hs.polled hfull
    refine ⟨t, ht, hp, hsent, ?_⟩
    rw [hleader.chan] at hin
    have hspoke : Spoke b v t.sent := hsent ▸ hleader.spoke
    by_cases hnow : cf.n * 2 / 3 < (insert vote.voter W).card
    · obtain ⟨hin, hchan⟩ := (if_pos hnow).mp hin
      rw [if_pos hnow]
      exact ⟨rfl, hin, hchan, hblocks.trans hleader.blocks, hspoke⟩
    · obtain ⟨hin, hchan⟩ := (if_neg hnow).mp hin
      rw [if_neg hnow]
      exact ⟨rfl, hin, hchan, hblocks.trans hleader.blocks, hspoke⟩

/-- **One more vote reaches the next leader**; the one that completes the quorum takes it into the next view. -/
theorem Collecting.step (h : Healthy cf members) (hrow : Row cf b v) (h1 : 1 ≤ v) {W : Finset NodeID}
    (hr : (hotStuffNet cf members).Reachable net) (hs : Collecting cf members b v W net) (hi : i ∈ members) :
    ∃ net', (hotStuffNet cf members).Reachable net' ∧ Collecting cf members b v (insert i W) net' := by
  by_cases hne : i = lead cf (v + 1)
  · exact ⟨net, hr, by rwa [Finset.insert_eq_of_mem (hne ▸ hs.self)]⟩
  obtain ⟨vote, rfl, hvalid, hsig, hsent⟩ := exists_vote h hrow h1 hi hne
  obtain ⟨t, ht, hpolled, htsent, hlead⟩ := hs.count hrow h1 hvalid hsig
  have hup : (net (lead cf (v + 1))).up = true := by
    have hleader := hs.leader
    split_ifs at hleader
    · exact hleader.up
    · exact hleader.up
  have hflight : ⟨some (lead cf (v + 1)), .vote vote⟩ ∈ (net vote.voter).st.sent :=
    hs.sent _ hi (hsent ▸ List.mem_singleton_self _)
  have hmem : lead cf (v + 1) ∈ members := h.leaders _
  refine ⟨_, hr.deliver (m := .vote vote) hmem hup (Or.inl hflight) ht,
    hs.told.update (htsent ▸ List.Subset.refl _), fun j hj => ?_, fun j hj hjl => ?_,
    Finset.mem_insert_of_mem hs.self, ?_, ?_⟩
  · by_cases hjl : j = lead cf (v + 1)
    · subst hjl
      rw [Function.update_self, htsent]
      exact hs.sent _ hj
    · rw [Function.update_of_ne hjl]
      exact hs.sent j hj
  · rw [Function.update_of_ne hjl]
    exact hs.others j hj hjl
  · rwa [Function.update_self]
  · rwa [Function.update_self]

/-! ### Rounds -/

/-- **Step lemma**: one round, unless the next block has the id of an earlier one. -/
theorem Rounded.round (h : Healthy cf members) (hp : Laid cf payload batch b v)
    (hs : Rounded cf members b v net) (hr : (hotStuffNet cf members).Reachable net) {c : Block}
    (hc : nextBlock cf payload batch v (net (lead cf (v + 1))).st.highQC = .ok c)
    (hid : ∀ w, w ≤ v → c.id ≠ idAt b w) :
    ∃ b' net', (hotStuffNet cf members).Reachable net' ∧ Laid cf payload batch b' (v + 1) ∧
      Rounded cf members b' (v + 1) net' := by
  obtain ⟨net₁, hr₁, hp', hs₁⟩ := hs.propose h hp hr hc hid
  obtain ⟨net₂, hr₂, hs₂⟩ := hr₁.sweep (P := Spreading cf members _ v) (fun hr hs hi => hs.step h hp' hr hi)
    hs₁ members (List.Subset.refl _)
  have hs₃ := hs₂.collecting h hp'.row fun i hi => Finset.mem_union_left _ (List.mem_toFinset.2 hi)
  obtain ⟨net₄, hr₄, hs₄⟩ := hr₂.sweep (P := Collecting cf members _ (v + 1))
    (fun hr hs hi => hs.step h hp'.row (by omega) hr hi) hs₃ members (List.Subset.refl _)
  refine ⟨_, net₄, hr₄, hp', hs₄.told, ?_, hs₄.others⟩
  -- all nodes are more than two thirds of them
  have hcard : members.toFinset.card = cf.n := by rw [List.toFinset_card_of_nodup h.nodup, h.all]
  have hsub : members.toFinset ⊆ members.toFinset ∪ {lead cf (v + 1 + 1)} := Finset.subset_union_left
  have hle := Finset.card_le_card hsub
  have hn := h.others
  have hleader := hs₄.leader
  rwa [if_pos (by omega)] at hleader

/-- What was proposed is the row of blocks. -/
theorem Rounded.proposed_iff (hs : Rounded cf members b v net) (hr : (hotStuffNet cf members).Reachable net)
    (c : Block) : Proposed (Net.states net) c ↔ ∃ w, 1 ≤ w ∧ w ≤ v ∧ b w = c := by
  constructor
  · rintro ⟨i, ⟨dest, body⟩, he, rfl⟩
    by_cases hi : i ∈ members
    · by_cases hl : i = lead cf (v + 1)
      · exact hs.leader.spoke dest c (hl ▸ he)
      · exact (hs.others i hi hl).spoke dest c he
    · have hw : (hotStuffSteps cf members).Reachable (Net.states net) := .of_reachable hr
      rw [hw.eq_init hi] at he
      cases he
  · rintro ⟨w, h1, hw, rfl⟩
    exact ⟨lead cf w, _, hs.told w h1 hw, rfl⟩

theorem Rounded.collisionFree (hp : Laid cf payload batch b v) (hs : Rounded cf members b v net)
    (hr : (hotStuffNet cf members).Reachable net) : CollisionFree (Proposed (Net.states net)) where
  inj := by
    intro c c' hc hc' heq
    obtain ⟨w, h1, hw, rfl⟩ := (hs.proposed_iff hr c).1 hc
    obtain ⟨w', h1', hw', rfl⟩ := (hs.proposed_iff hr c').1 hc'
    rw [hp.row.inj w w' hw hw' (by rw [idAt_of_pos h1, idAt_of_pos h1', heq])]
  ne_zero := by
    intro c hc heq
    obtain ⟨w, h1, hw, rfl⟩ := (hs.proposed_iff hr c).1 hc
    have := hp.row.inj w 0 hw (by omega) (by rw [idAt_of_pos h1, heq]; rfl)
    omega

/-- **The certificate in a block is made of the replicas' votes** for the block before. -/
theorem Rounded.genuine (hp : Laid cf payload batch b v) (hs : Rounded cf members b v net)
    (hr : (hotStuffNet cf members).Reachable net) {w : ℕ} (h1 : 1 ≤ w) (hw : w + 1 ≤ v) :
    ∃ qc, (b (w + 1)).qc = some qc ∧ Genuine cf members (Net.states net) qc (b w) := by
  have hid := hs.collisionFree hp hr
  have hsound := sound_of_reachable (.of_reachable hr) hid
  obtain ⟨-, -, -, qc, hqc, -, hfine⟩ := hsound.msgOk ((hs.proposed_iff hr _).2 ⟨w + 1, by omega, hw, rfl⟩)
  obtain ⟨qc', hqc', hcert⟩ := hp.row.cert w hw
  rw [hqc] at hqc'
  cases hqc'
  refine ⟨qc, hqc, ?_⟩
  rcases hfine with rfl | ⟨c, hc⟩
  · have hview : (0 : ℤ) = w := hcert.view
    omega
  · have hbid : c.id = (b w).id := by rw [← hc.blockID, hcert.blockID, idAt_of_pos h1]
    rwa [← hid.inj hc.proposed ((hs.proposed_iff hr _).2 ⟨w, h1, by omega, rfl⟩) hbid]

end HotStuff

end Bamboo
