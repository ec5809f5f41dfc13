import Bamboo.HotStuff.Adoption
import Bamboo.HotStuff.Certificates

/-!
# Proposals and the certificates they carry

A proposal takes its view from a queued view event and its certificate from `highQC` at the time the
event is handled.  Between the two the replica may learn of certificates of later views.

* `handleEvent_blocks`: the only block an event sends is the proposal for the view event it handles;
* `Timely`: the view event is handled before a certificate of its view or a later one is there;
* `proposals_point_backwards`: in the runs of the network that are timely throughout, the certificate of
  every proposal is of an earlier view;
* `late_proposal_points_forwards`: a run that is not.
-/

namespace Bamboo

namespace HotStuff

open Prog

variable {nd : Node} {In : Msg → Prop} {s : HotStuff}

/-! ### The blocks that are sent -/

theorem handleMsg_blocks (hb : nd.isByz = false) (hok : Ok nd In s) {m : Msg} (hm : In m) :
    (Prog.final ((safety nd).handleMsg m s)).sent.filterMap blockOf = s.sent.filterMap blockOf :=
  Reacts.blocks_eq (handleMsg_steps hb hok hm).final

/-- An event sends no block, or it is a view event and the block is the proposal for it. -/
theorem handleEvent_blocks (hb : nd.isByz = false) (hok : Ok nd In s) (e : Event) :
    (Prog.final ((safety nd).handleEvent nd e s)).sent.filterMap blockOf = s.sent.filterMap blockOf ∨
      ∃ payload pBatch v rest b, e = .newView payload pBatch ∧ s.pm.newViewChan = v :: rest ∧
        nd.elec.isLeader nd.id v = true ∧ Proposal nd s v b ∧
        (Prog.final ((safety nd).handleEvent nd e s)).sent.filterMap blockOf =
          s.sent.filterMap blockOf ++ [b] := by
  cases e with
  | txn =>
    have hsteps : Steps (Reacts nd In) ((safety nd).handleTxn nd) (fun _ _ => True) s := handleTxn_steps
    exact Or.inl (Reacts.blocks_eq hsteps.final)
  | timer => exact Or.inl (Reacts.blocks_eq (Steps.get_bind (processLocalTmo_steps hb hok)).final)
  | newView payload pBatch =>
    obtain ⟨u, ho, hu⟩ := wp_final.1 (processNewView_opens hb hok payload pBatch)
    have hblocks := Reacts.blocks_eq hu
    cases ho with
    | idle => exact Or.inl hblocks
    | pop h => exact Or.inl hblocks
    | @propose v rest b h hl hprop =>
      exact Or.inr ⟨payload, pBatch, v, rest, b, rfl, h, hl, hprop,
        hblocks.trans (by simp [blockOf])⟩

/-! ### Timely view events -/

/-- No certificate of view `v` or later has come to the replica: none is in a block or a timeout that it
received, and it has built none. -/
def Unseen (In : Msg → Prop) (trace : List Entry) (v : ℤ) : Prop :=
  ∀ qc, ReceivedQC In qc ∨ .built qc ∈ trace → qc.view < v

/-- If the event is a view event that the replica leads, then no certificate of that view or later has
come to it. -/
def Timely (cf : Config) (as : List (Net.Action NodeID Msg Event)) (net : NodeID → Net.Proc HotStuff)
    (a : Net.Action NodeID Msg Event) : Prop :=
  ∀ i payload pBatch v rest, a = .fire i (.newView payload pBatch) →
    (net i).st.pm.newViewChan = v :: rest → cf.elec.isLeader i v = true →
      Unseen (Safety.Received (inputsOf i as)) (net i).st.trace v

/-- `highQC` is among the certificates that have come to the replica. -/
theorem highQC_lt_of_unseen (hb : nd.isByz = false) (inputs : List Safety.Input) {v : ℤ} (hv : 1 ≤ v)
    (hu : Unseen (Safety.Received inputs) (runOn nd inputs).trace v) :
    (runOn nd inputs).highQC.view < v := by
  have hbears : Bears (fun qc => qc.view < v) (runOn nd inputs) := by
    refine runOn_bears hb inputs (by dsimp only [QC.initial]; omega) ?_ ?_ ?_
    · intro b high qc _ hr _ _
      exact hu qc (Or.inl hr)
    · intro qc hr _
      exact hu qc (Or.inl hr)
    · intro qc hm
      exact hu qc (Or.inr hm)
  exact hbears.high

theorem runOn_ordered (hb : nd.isByz = false) (inputs : List Safety.Input) :
    Ordered (runOn nd inputs).pm (runOn nd inputs).sent :=
  runOn_invariant hb inputs (ordered_new nd.n) fun _ _ _ h ha => ha.ordered h

/-- The certificate of the block is of an earlier view than the block. -/
def PointsBackwards (b : Block) : Prop := ∃ qc, b.qc = some qc ∧ qc.view < b.view

variable {cf : Config} {members : List NodeID} {as : List (Net.Action NodeID Msg Event)}
  {net : NodeID → Net.Proc HotStuff}

/-- One event of a timely run. -/
theorem pointsBackwards_act {a : Net.Action NodeID Msg Event} (i : NodeID)
    (hnet : (net i).st = runOn (cf.honest i) (inputsOf i as)) (ha : Timely cf as net a)
    (ih : ∀ b ∈ (net i).st.sent.filterMap blockOf, PointsBackwards b) :
    ∀ b ∈ ((hotStuffNet cf members).act net a i).st.sent.filterMap blockOf, PointsBackwards b := by
  rw [Net.System.act_st]
  split_ifs with htarget
  · have hok : Ok (cf.honest i) (Safety.Received (inputsOf i as)) (net i).st :=
      hnet ▸ (runOn_acts rfl (inputsOf i as)).2
    cases a with
    | deliver src dst m =>
      have hd : i = dst := htarget
      subst hd
      have hok' : Ok (cf.honest i) (fun _ => True) (net i).st := hok.mono fun _ _ => trivial
      have hblocks := handleMsg_blocks rfl hok' (m := m) trivial
      intro b hb
      exact ih b (hblocks ▸ hb)
    | fire j e =>
      have hj : i = j := htarget
      subst hj
      intro b hb
      rcases handleEvent_blocks rfl hok e with hblocks | ⟨payload, pBatch, v, rest, b', rfl, hq, hl,
        hprop, hblocks⟩
      · exact ih b (hblocks ▸ hb)
      · have hb' : b ∈ (net i).st.sent.filterMap blockOf ++ [b'] := hblocks ▸ hb
        rcases List.mem_append.1 hb' with hb' | hb'
        · exact ih b hb'
        · -- the proposal for view `v`
          cases List.mem_singleton.1 hb'
          have hord : Ordered (net i).st.pm (net i).st.sent := hnet ▸ runOn_ordered rfl (inputsOf i as)
          have hv : 1 ≤ v := (hord.bounds v (List.mem_append_right _ (by simp [hq]))).1
          have hlt : (net i).st.highQC.view < v := by
            have hu := ha i payload pBatch v rest rfl hq hl
            rw [hnet] at hu ⊢
            exact highQC_lt_of_unseen rfl _ hv hu
          exact ⟨_, hprop.qc, hprop.view.symm ▸ hlt⟩
  · exact ih

/-- **Proposals point backwards.**  In a run of the network in which every view event is handled before a
certificate of its view or a later one comes to its leader, each block that a replica proposes carries a
certificate of an earlier view. -/
theorem proposals_point_backwards (h : (hotStuffNet cf members).Runs (Timely cf) as net) (i : NodeID) :
    ∀ e ∈ (net i).st.sent, ∀ b, e.body = .block b → PointsBackwards b := by
  have hblocks : ∀ b ∈ (net i).st.sent.filterMap blockOf, PointsBackwards b := by
    induction h with
    | start => simp [Net.System.start, hotStuffNet, network, HotStuff.new]
    | step h hc ha ih => exact pointsBackwards_act i (congrArg Net.Proc.st (proc_eq_run h i)) ha ih
  intro e he b hb
  exact hblocks b (mem_filterMap_blockOf he hb)

/-! ### Runs -/

/-- A test for `Unseen`. -/
def unseen (inputs : List Safety.Input) (trace : List Entry) (v : ℤ) : Bool :=
  (inputs.all fun x => match x with
    | .msg (.block b) => b.qc.all fun qc => decide (qc.view < v)
    | .msg (.tmo t) => t.highQC.all fun qc => decide (qc.view < v)
    | _ => true) &&
  trace.all fun e => match e with
    | .built qc => decide (qc.view < v)
    | _ => true

theorem unseen_of_test {inputs : List Safety.Input} {trace : List Entry} {v : ℤ}
    (h : unseen inputs trace v = true) : Unseen (Safety.Received inputs) trace v := by
  obtain ⟨hi, ht⟩ := Bool.and_eq_true_iff.1 h
  rintro qc ((⟨b, hb, hqc⟩ | ⟨t, hm, hqc⟩) | hbuilt)
  · have := List.all_eq_true.1 hi _ hb
    simpa [hqc] using this
  · have := List.all_eq_true.1 hi _ hm
    simpa [hqc] using this
  · have := List.all_eq_true.1 ht _ hbuilt
    simpa using this

/-- A test for `Timely`. -/
def timely (cf : Config) (as : List (Net.Action NodeID Msg Event)) (net : NodeID → Net.Proc HotStuff) :
    Net.Action NodeID Msg Event → Bool
  | .fire i (.newView _ _) =>
    match (net i).st.pm.newViewChan with
    | [] => true
    | v :: _ => !cf.elec.isLeader i v || unseen (inputsOf i as) (net i).st.trace v
  | _ => true

theorem timely_of_test (cf : Config) (as : List (Net.Action NodeID Msg Event))
    (net : NodeID → Net.Proc HotStuff) (a : Net.Action NodeID Msg Event)
    (h : timely cf as net a = true) : Timely cf as net a := by
  rintro i payload pBatch v rest rfl hq hl
  rw [timely] at h
  simp only [hq, hl, Bool.not_true, Bool.false_or] at h
  exact unseen_of_test h

/-- Node 2 leads view 2, node 1 the other views. -/
def twoLeaders : Config := FourNodes.config fun v => if v = 2 then "2" else "1"

/-- Node 1 proposes in view 1, and node 2 proposes in view 2 on the certificate it builds. -/
def handoverRun : List (Net.System.Sched NodeID Event) :=
  [.fire "1" .txn, FourNodes.newView "1", .pass "1" 0 "2", .pass "1" 0 "3", .pass "1" 1 "2",
    .pass "3" 0 "2", FourNodes.newView "2", FourNodes.newView "2"]

/-- The proposal of node 2 in view 2 carries a certificate of an earlier view. -/
theorem proposals_point_backwards_handoverRun :
    ∃ as net, (hotStuffNet twoLeaders FourNodes.members).Runs (Timely twoLeaders) as net ∧
      ∃ e ∈ (net "2").st.sent, ∃ b, e.body = .block b ∧ b.view = 2 ∧ PointsBackwards b := by
  obtain ⟨as, net, hr, htest⟩ := (hotStuffNet twoLeaders FourNodes.members).exists_runs
    (timely_of_test twoLeaders) handoverRun
    (fun net => decide (∃ b ∈ (net "2").st.sent.filterMap blockOf, b.view = 2)) (by decide_cbv)
  obtain ⟨b, hb, hv⟩ := of_decide_eq_true htest
  obtain ⟨e, he, hbody⟩ := exists_of_mem_filterMap_blockOf hb
  exact ⟨as, net, hr, e, he, b, hbody, hv, proposals_point_backwards hr "2" e he b hbody⟩

/-- Node 1 enters view 1 and leaves the event in the channel.  Node 2 goes on to view 2 by its timer and
proposes there; nodes 1, 2 and 3 vote, and node 1, which leads view 3, builds the certificate.  Then it
handles the event of view 1. -/
def lateEventRun : List (Net.System.Sched NodeID Event) :=
  [.fire "1" .txn, .fire "2" .timer, .fire "2" .timer, FourNodes.newView "2", FourNodes.newView "2",
    .fire "3" .timer, .pass "2" 2 "1", .pass "2" 2 "3", .pass "2" 3 "1", .pass "3" 1 "1",
    FourNodes.newView "1"]

/-- **A late proposal points forwards.**  Node 1 proposes a block of view 1 with the certificate of
view 2. -/
theorem late_proposal_points_forwards :
    ∃ net, (hotStuffNet twoLeaders FourNodes.members).Reachable net ∧
      ∃ e ∈ (net "1").st.sent, ∃ b qc, e.body = .block b ∧ b.qc = some qc ∧ b.view = 1 ∧ qc.view = 2 := by
  obtain ⟨net, hr, htest⟩ := (hotStuffNet twoLeaders FourNodes.members).exists_reachable lateEventRun
    (fun net => decide (∃ b ∈ (net "1").st.sent.filterMap blockOf,
      b.view = 1 ∧ b.qc.map QC.view = some 2)) (by decide_cbv)
  obtain ⟨b, hb, hv, hq⟩ := of_decide_eq_true htest
  obtain ⟨e, he, hbody⟩ := exists_of_mem_filterMap_blockOf hb
  obtain ⟨qc, hqc, hview⟩ := Option.map_eq_some_iff.1 hq
  exact ⟨net, hr, e, he, b, qc, hbody, hqc, hv, hview⟩

end HotStuff

end Bamboo
