import Bamboo.Streamlet.Agreement

/-!
# Streamlet leaves no view out

A replica of Streamlet goes on to the next view with a certificate for a block of its view, or with the timeouts of a
quorum; a timer that runs out only sends a message.  Certificates may be of later views, so that one replica can
jump, but the views in between have then been ended by others.

* `GaveUp`, `Ended`: a replica has timed out in a view, and a quorum has certified a block of a view or timed out;
* `InTurn`: the invariant, all views below those that replicas are in have ended;
* `no_view_skipped`: it holds in every run.
-/

namespace Bamboo

namespace Streamlet

section SmallSteps

variable {nd : Node} {In : Msg → Prop} {s t : Streamlet}

/-- A new current view is the first one, or the one after a timed out or a certified view. -/
theorem Act.curView_cases (h : Act nd In s t) :
    t.pm.curView = s.pm.curView ∨ t.pm.curView = 1 ∨ (∃ v ∈ s.pending, t.pm.curView = v + 1) ∨
      ∃ qc, Known s qc ∧ t.pm.curView = qc.view + 1 := by
  have hadvance : ∀ view, (s.pm.advanceView view).curView = s.pm.curView ∨
      (s.pm.advanceView view).curView = view + 1 := by
    intro view
    unfold Pacemaker.advanceView
    split_ifs
    · exact Or.inl rfl
    · exact Or.inr rfl
  cases h with
  | @advance k view hk =>
    rcases hadvance view with h | h
    · exact Or.inl h
    · exact Or.inr (Or.inr (Or.inl ⟨view, List.mem_of_getElem? hk, h⟩))
  | kickOff => exact (hadvance 0).imp_right Or.inl
  | @notarize qc b hk hb hcur hp =>
    rcases hadvance qc.view with h | h
    · exact Or.inl h
    · exact Or.inr (Or.inr (Or.inr ⟨qc, hk, h⟩))
  | @timeout tmo ht =>
    obtain ⟨tcl, hpm, -⟩ := s.pm.processRemoteTmo_cases tmo
    exact Or.inl (by rw [tmoState, hpm])
  | _ => exact Or.inl rfl

end SmallSteps

variable {cf : Config} {members : List NodeID} {w w' : NodeID → Streamlet} {i : NodeID} {b : Block} {v : ℤ}

/-! ### Views that have ended -/

/-- The replica has sent a timeout of the view. -/
def GaveUp (s : Streamlet) (v : ℤ) : Prop := ∃ tmo : TMO, tmo.view = v ∧ ∃ e ∈ s.sent, e.body = .tmo tmo

/-- A quorum has voted for a block of the view, or a quorum has timed out in it. -/
def Ended (cf : Config) (members : List NodeID) (w : NodeID → Streamlet) (v : ℤ) : Prop :=
  (∃ b, b.view = v ∧ Supported cf members w b) ∨
    ∃ q, Quorums.IsQuorum members cf.n q ∧ ∀ i ∈ q, GaveUp (w i) v

/-- The view and all those before it have ended. -/
def EndedUpTo (cf : Config) (members : List NodeID) (w : NodeID → Streamlet) (v : ℤ) : Prop :=
  ∀ u, 1 ≤ u → u ≤ v → Ended cf members w u

theorem Later.gaveUp (h : Later w w') (hg : GaveUp (w i) v) : GaveUp (w' i) v := by
  obtain ⟨tmo, hv, e, he, hbody⟩ := hg
  exact ⟨tmo, hv, e, h.outbox i he, hbody⟩

theorem Later.ended (h : Later w w') (he : Ended cf members w v) : Ended cf members w' v := by
  rcases he with ⟨b, hb, qc, hqc⟩ | ⟨q, hq, hgave⟩
  · exact Or.inl ⟨b, hb, qc, h.genuine hqc⟩
  · exact Or.inr ⟨q, hq, fun i hi => h.gaveUp (hgave i hi)⟩

theorem Later.endedUpTo (h : Later w w') (he : EndedUpTo cf members w v) : EndedUpTo cf members w' v :=
  fun u h1 hu => h.ended (he u h1 hu)

/-- The view after those that have ended ends. -/
theorem EndedUpTo.next (h : EndedUpTo cf members w (v - 1)) (he : Ended cf members w v) : EndedUpTo cf members w v := by
  intro u h1 hu
  rcases lt_or_eq_of_le hu with hlt | rfl
  · exact h u h1 (by omega)
  · exact he

theorem EndedUpTo.mono (h : EndedUpTo cf members w v) {u : ℤ} (hu : u ≤ v) : EndedUpTo cf members w u :=
  fun x h1 hx => h x h1 (hx.trans hu)

/-- All views below those that replicas are in have ended, and timeouts on record were sent. -/
structure InTurn (cf : Config) (members : List NodeID) (w : NodeID → Streamlet) : Prop where
  table : ∀ i v j tmo, ((w i).pm.timeoutController.timeoutsFor v).lookup j = some tmo → j ∈ members ∧ GaveUp (w j) v
  pending : ∀ i, ∀ v ∈ (w i).pending, EndedUpTo cf members w v
  current : ∀ i, EndedUpTo cf members w ((w i).pm.curView - 1)

theorem inTurn_new : InTurn cf members fun _ => Streamlet.new cf.n where
  table := fun _ _ _ _ h => by
    simp [Streamlet.new, Pacemaker.new, Pacemaker.advanceView, TimeoutController.new,
      TimeoutController.timeoutsFor] at h
  pending := fun _ _ h => by simp [Streamlet.new] at h
  current := fun _ u h1 hu => by
    have hcur : (Streamlet.new cf.n).pm.curView = 1 := rfl
    omega

namespace InTurn

/-- Replicas that time out in a view have come to it. -/
theorem of_gaveUp (h : InTurn cf members w) (hs : Sound cf members w) {q : List NodeID}
    (hq : Quorums.IsQuorum members cf.n q) (hgave : ∀ i ∈ q, GaveUp (w i) v) : EndedUpTo cf members w v := by
  obtain ⟨j, hj⟩ : ∃ j, j ∈ q := List.exists_mem_of_length_pos (by have := hq.large; omega)
  obtain ⟨tmo, rfl, ⟨dest, body⟩, he, rfl⟩ := hgave j hj
  have hview : tmo.view ≤ (w j).pm.curView := (hs.sent j _ he).2.2
  exact ((h.current j).mono (by omega)).next (Or.inr ⟨q, hq, hgave⟩)

/-- The proposer of a block has come to the block's view. -/
theorem of_genuine (h : InTurn cf members w) (hs : Sound cf members w)
    (hord : ∀ i, Ordered (w i).pm (proposals (w i).trace)) {qc : QC} (hqc : Genuine cf members w qc b) :
    EndedUpTo cf members w qc.view := by
  obtain ⟨j, hj⟩ := hs.exists_proposer hqc.proposed
  have hview := ((hord j).view_bounds (mem_proposals hj)).2
  rw [hqc.view]
  exact ((h.current j).mono (by omega)).next (Or.inl ⟨b, rfl, qc, hqc⟩)

/-- **One small step.** -/
theorem act (h : InTurn cf members w) (hs : Sound cf members w)
    (hord : ∀ i, Ordered (w i).pm (proposals (w i).trace)) (htotal : (w i).pm.timeoutController.n = cf.n)
    {t : Streamlet} (ha : Act (cf.honest i) (Net.SentTo Streamlet.sent w i) (w i) t) :
    InTurn cf members (Function.update w i t) := by
  have hlater : Later w (Function.update w i t) := ha.later
  -- what the step counts was sent before
  have htable : ∀ v j tmo, (t.pm.timeoutController.timeoutsFor v).lookup j = some tmo →
      j ∈ members ∧ GaveUp (w j) v := by
    intro v j tmo hl
    rcases ha.table_cases hl with hl | ⟨tmo', hheard, rfl, rfl⟩
    · exact h.table i v j tmo hl
    · obtain ⟨k, ⟨dest, body⟩, he, rfl⟩ := hheard.sent
      obtain ⟨hk, hnode, -⟩ := hs.sent k _ he
      exact hnode ▸ ⟨hk, tmo', rfl, _, he, rfl⟩
  have hpending : ∀ v ∈ t.pending, EndedUpTo cf members w v := by
    intro v hv
    rcases ha.pending_cases hv with hv | hmaj
    · exact h.pending i v hv
    · obtain ⟨q, hq, hgave⟩ := quorum_of_superMajority (ha.total_eq.trans htotal) (htable v) hmaj
      exact h.of_gaveUp hs hq hgave
  have hcurrent : EndedUpTo cf members w (t.pm.curView - 1) := by
    rcases ha.curView_cases with heq | heq | ⟨v, hv, heq⟩ | ⟨qc, hk, heq⟩
    · exact heq ▸ h.current i
    · exact fun u h1 hu => by omega
    · exact (h.pending i v hv).mono (by omega)
    · obtain ⟨b, hqc⟩ := hs.built i qc hk
      exact (h.of_genuine hs hord hqc).mono (by omega)
  constructor
  · intro j v k tmo hnew
    have hold : k ∈ members ∧ GaveUp (w k) v := by
      rcases Net.update_cases (P := fun s : Streamlet =>
        (s.pm.timeoutController.timeoutsFor v).lookup k = some tmo) hnew with ⟨rfl, hl⟩ | hl
      · exact htable v k tmo hl
      · exact h.table j v k tmo hl
    exact ⟨hold.1, hlater.gaveUp hold.2⟩
  · intro j v hnew
    refine hlater.endedUpTo ?_
    rcases Net.update_cases (P := fun s : Streamlet => v ∈ s.pending) hnew with ⟨rfl, hv⟩ | hv
    · exact hpending v hv
    · exact h.pending j v hv
  · intro j
    refine hlater.endedUpTo ?_
    by_cases hj : j = i
    · subst hj
      rw [Function.update_self]
      exact hcurrent
    · rw [Function.update_of_ne hj]
      exact h.current j

end InTurn

/-! ### The runs of the network -/

theorem inTurn_of_reachable {depth : ℕ} (hw : (streamletSteps cf members depth).Reachable w)
    (hid : CollisionFree (Proposed w)) : InTurn cf members w := by
  induction hw with
  | start => exact inTurn_new
  | @step w i t hr hi ha ih =>
    have hid' := (Act.later ha).collisionFree hid
    exact (ih hid').act (sound_of_reachable hr hid') (ordered_of_reachable hr)
      ((clocked_of_reachable hr hid').total i) ha

/-- **No view is left out.**  In every run, each view below the one a replica is in was ended by a quorum: more than
two thirds of the members have voted for a block of that view, or more than two thirds have timed out in it.  The
views are integers of the machine. -/
theorem no_view_skipped {depth : ℕ} {net : NodeID → Net.Proc Streamlet}
    (hr : (streamletNet cf members depth).Reachable net) (hid : CollisionFree (Proposed (Net.states net)))
    (_hmax : ∀ j ∈ members, (net j).st.pm.InRange) (h1 : 1 ≤ v) (hv : v < (net i).st.pm.curView) : Ended cf members (Net.states net) v := by
  have hw : (streamletSteps cf members depth).Reachable (Net.states net) := .of_reachable hr
  exact (inTurn_of_reachable hw hid).current i v h1 (by show v ≤ (net i).st.pm.curView - 1; omega)

/-- A block is certified in view 1, and the replicas time out in view 2. -/
theorem no_view_skipped_stepsAside :
    ∃ net, (streamletNet (FourNodes.config fun _ => "1") FourNodes.members 9).Reachable net ∧
      (net "1").st.pm.curView = 3 ∧ (net "4").st.pm.curView = 2 ∧
      ∀ v, 1 ≤ v → v < 3 → Ended (FourNodes.config fun _ => "1") FourNodes.members (Net.states net) v := by
  obtain ⟨net, hr, htest⟩ :=
    (streamletNet (FourNodes.config fun _ => "1") FourNodes.members 9).exists_reachable (stepsAside.take 22)
      (fun net => decide (OneProposer net ∧ (∀ j ∈ FourNodes.members, (net j).st.pm.InRange) ∧
        (net "1").st.pm.curView = 3 ∧ (net "4").st.pm.curView = 2)) (by decide_cbv)
  obtain ⟨hone, hmax, h3, h2⟩ := of_decide_eq_true htest
  have hid := collisionFree_of_list (hone.mem hr) hone.2
  exact ⟨net, hr, h3, h2, fun v h1 hv => no_view_skipped hr hid hmax h1 (i := "1") (by omega)⟩

end Streamlet

end Bamboo
