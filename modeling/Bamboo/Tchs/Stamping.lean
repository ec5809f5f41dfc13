import Bamboo.FourNodes
import Bamboo.Tchs.Handlers

/-!
# Proposing rewrites a certificate

`forkChoice` writes the view before the current one into the certificate of `highQC`, the one that goes
into the proposal and that the replica keeps.

* `Proposes`: what `MakeProposal` and `MakePProposal` return;
* `Proposes.eq_stamped`: what they do;
* `proposal_keeps_certificate_iff`: certificate and proposal are as they should be exactly in the view after
  the certificate's and the certified block's;
* `late_proposal_stamps`: a replica that proposes after a timeout.
-/

namespace Bamboo

namespace Tchs

variable {nd : Node} {s t : Tchs} {view : ℤ} {b : Block}

/-- `MakeProposal` or `MakePProposal` returns the block `b` and leaves the state `t`. -/
def Proposes (nd : Node) (s : Tchs) (view : ℤ) (b : Block) (t : Tchs) : Prop :=
  (∃ payload, makeProposal nd view payload s = .ok b t) ∨ ∃ pBatch, makePProposal nd view pBatch s = .ok b t

/-- `highQC` is the same certificate as before, and the proposal's certificate has the view of the block it
certifies, if that block is stored. -/
structure KeepsCertificate (s t : Tchs) (b : Block) : Prop where
  highQC : t.qcAt t.highQC = s.qcAt s.highQC
  view : ∀ q x, b.qc = some q → t.bc.getBlockByID q.blockID = some x → q.view = x.view

/-- A proposal is made from the stamped certificate of `highQC`. -/
theorem Proposes.eq_stamped (h : Proposes nd s view b t) :
    t = s.stamped ∧ b.qc = some (s.stamped.qcAt s.highQC) := by
  rcases h with ⟨payload, h⟩ | ⟨pBatch, h⟩
  · refine Prog.wp_ok (Q := fun b t => t = s.stamped ∧ b.qc = some (s.stamped.qcAt s.highQC))
      (E := fun _ => True) ?_ h
    exact Prog.wp_bind.2 (Prog.wp_ofExcept.2 ⟨fun b hb => ⟨rfl, (makeBlock_eq_ok hb).2.1⟩, fun _ _ => trivial⟩)
  · refine Prog.wp_ok (Q := fun b t => t = s.stamped ∧ b.qc = some (s.stamped.qcAt s.highQC))
      (E := fun _ => True) ?_ h
    exact Prog.wp_bind.2 (Prog.wp_ofExcept.2 ⟨fun b hb => ⟨rfl, (makePBlock_eq_ok hb).2.1⟩, fun _ _ => trivial⟩)

/-- The certificate of `highQC` after `forkChoice`. -/
theorem qcAt_stamped {q : QC} (h : s.Holds s.highQC q) :
    s.stamped.qcAt s.highQC = { q with view := s.pm.curView - 1 } := by
  obtain ⟨c, hc, hcert⟩ := h
  have hcell : s.stamped.heap[s.highQC]? = some (c.setView (s.pm.curView - 1)) := by
    simp [stamped, hc]
  exact Holds.qcAt ⟨_, hcell, by rw [Cell.cert_setView, hcert]; rfl⟩

/-- One proposal, in any state in which `highQC` points to a certificate. -/
theorem Proposes.keepsCertificate_iff {q : QC} (h : Proposes nd s view b t) (hq : s.Holds s.highQC q) :
    KeepsCertificate s t b ↔
      q.view + 1 = s.pm.curView ∧ ∀ x, s.bc.getBlockByID q.blockID = some x → x.view + 1 = s.pm.curView := by
  obtain ⟨rfl, hb⟩ := h.eq_stamped
  rw [qcAt_stamped hq] at hb
  have hbefore : s.qcAt s.highQC = q := hq.qcAt
  have hafter : s.stamped.qcAt s.stamped.highQC = { q with view := s.pm.curView - 1 } := qcAt_stamped hq
  constructor
  · rintro ⟨hhigh, hview⟩
    rw [hafter, hbefore] at hhigh
    have hv : s.pm.curView - 1 = q.view := congrArg QC.view hhigh
    refine ⟨by omega, fun x hx => ?_⟩
    have := hview _ x hb hx
    dsimp only at this
    omega
  · rintro ⟨hv, hx⟩
    have hsame : { q with view := s.pm.curView - 1 } = q := by
      rw [show s.pm.curView - 1 = q.view by omega]
    rw [hsame] at hb hafter
    refine ⟨hafter.trans hbefore.symm, fun q' x hq' hst => ?_⟩
    cases hb.symm.trans hq'
    have := hx x hst
    omega

/-- **Proposing leaves certificates alone exactly in the next view.**  Take a replica in any run of honest
replicas, with any view events waiting, that proposes.  `highQC` stays as it is and the proposal's
certificate has the view of its block if and only if the current view is the one after `highQC`'s view and
after the view of the block it certifies, where that is stored. -/
theorem proposal_keeps_certificate_iff {cf : Config} {members : List NodeID} {net : NodeID → Net.Proc Tchs}
    (hr : (tchsNet cf members).Reachable net) (i : NodeID) (waiting : List ℤ)
    (hs : s = { (net i).st with pm := { (net i).st.pm with newViewChan := waiting } })
    (h : Proposes (cf.honest i) s view b t) :
    KeepsCertificate s t b ↔ (s.qcAt s.highQC).view + 1 = s.pm.curView ∧
      ∀ x, s.bc.getBlockByID (s.qcAt s.highQC).blockID = some x → x.view + 1 = s.pm.curView := by
  have hw : (tchsSteps cf members).Reachable (Net.states net) := .of_reachable hr
  obtain ⟨q, hq⟩ := (hw.ok i).high
  have hq' : s.Holds s.highQC q := by
    rw [hs]
    exact hq
  rw [hq'.qcAt]
  exact h.keepsCertificate_iff hq'

/-- Node 1 leads all views and gets the votes for its first block. -/
def firstCertified : List (Net.System.Sched NodeID Event) :=
  [.fire "1" .txn, FourNodes.newView "1", .pass "1" 0 "2", .pass "1" 0 "3", .pass "2" 0 "1", .pass "3" 0 "1"]

theorem proposal_keeps_certificate_iff_firstCertified :
    ∃ net b t, (tchsNet (FourNodes.config fun _ => "1") FourNodes.members).Reachable net ∧
      Proposes ((FourNodes.config fun _ => "1").honest "1") (net "1").st 2 b t ∧
      (b.qc.map QC.view = some 1 ∧ b.prevID = 1) ∧ KeepsCertificate (net "1").st t b := by
  obtain ⟨net, hr, htest⟩ :=
    (tchsNet (FourNodes.config fun _ => "1") FourNodes.members).exists_reachable firstCertified
      (fun net =>
        Prog.passes (makeProposal ((FourNodes.config fun _ => "1").honest "1") 2 [])
          (fun b _ => decide (b.qc.map QC.view = some 1 ∧ b.prevID = 1)) (net "1").st &&
        decide (((net "1").st.qcAt (net "1").st.highQC).view + 1 = (net "1").st.pm.curView ∧
          ∀ x ∈ (net "1").st.bc.getBlockByID ((net "1").st.qcAt (net "1").st.highQC).blockID,
            x.view + 1 = (net "1").st.pm.curView)) (by decide_cbv)
  rw [Bool.and_eq_true, decide_eq_true_eq] at htest
  obtain ⟨b, t, hrun, hb⟩ := Prog.exists_ok_of_passes htest.1
  have hprop : Proposes ((FourNodes.config fun _ => "1").honest "1") (net "1").st 2 b t :=
    Or.inl ⟨[], hrun⟩
  exact ⟨net, b, t, hr, hprop, of_decide_eq_true hb,
    (proposal_keeps_certificate_iff hr "1" _ rfl hprop).2 htest.2⟩

/-- **A late proposal.**  After the votes for its first block the timer of node 1 fires, and its next
proposal turns the certificate of view 1 into one of view 3. -/
theorem late_proposal_stamps :
    ∃ net b t, (tchsNet (FourNodes.config fun _ => "1") FourNodes.members).Reachable net ∧
      makeProposal ((FourNodes.config fun _ => "1").honest "1") 2 [] (net "1").st = .ok b t ∧
      ((net "1").st.qcAt (net "1").st.highQC).view = 1 ∧ (t.qcAt t.highQC).view = 3 ∧
      ∃ q x, b.qc = some q ∧ t.bc.getBlockByID q.blockID = some x ∧ q.view = 3 ∧ x.view = 1 := by
  obtain ⟨net, hr, htest⟩ :=
    (tchsNet (FourNodes.config fun _ => "1") FourNodes.members).exists_reachable
      (firstCertified ++ [.fire "1" .timer])
      (fun net => decide (((net "1").st.qcAt (net "1").st.highQC).view = 1) &&
        Prog.passes (makeProposal ((FourNodes.config fun _ => "1").honest "1") 2 [])
          (fun b t => decide ((t.qcAt t.highQC).view = 3 ∧
            ∃ q ∈ b.qc, ∃ x ∈ t.bc.getBlockByID q.blockID, q.view = 3 ∧ x.view = 1)) (net "1").st)
      (by decide_cbv)
  rw [Bool.and_eq_true, decide_eq_true_eq] at htest
  obtain ⟨b, t, hrun, hb⟩ := Prog.exists_ok_of_passes htest.2
  obtain ⟨hhigh, q, hq, x, hx, hv⟩ := of_decide_eq_true hb
  exact ⟨net, b, t, hr, hrun, htest.1, hhigh, q, x, hq, hx, hv⟩

end Tchs

end Bamboo
