import Bamboo.Tchs.SmallSteps

/-!
# The handlers of two-chain HotStuff are made of small steps

Each handler of an honest replica, run from a state that satisfies `Ok`, goes through small steps only,
also when it stops with a fault.

* `processCertificate_cases`: the five ways through `processCertificate`;
* `handleMsg_steps`, `handleEvent_steps`: the handlers;
* `runOn_invariant`: the invariant rule for the runs of one replica;
* `tchsSteps`: the network in small steps.
-/

namespace Bamboo

namespace Tchs

open Prog

variable {nd : Node} {In : Msg → Prop} {s t : Tchs} {p : ℕ} {b : Block} {q : QC}

theorem Ok.acts (hok : Ok nd In s) (h : Relation.ReflTransGen (Act nd In) s t) : Ok nd In t := by
  induction h with
  | refl => exact hok
  | tail _ h ih => exact ih.act h

theorem wp_alloc {c : Cell} {Q : ℕ → Tchs → Prop} {E : Tchs → Prop} :
    wp (alloc c) Q E s ↔ Q s.heap.length { s with heap := s.heap ++ [c] } := Iff.rfl

/-! ### Certificates -/

theorem Holds.qcAt (h : s.Holds p q) : s.qcAt p = q := by
  obtain ⟨c, hc, hcert⟩ := h
  simp [Tchs.qcAt, hc, hcert]

theorem updatePreferredView_eq_none (h : s.updatePreferredView q = none) :
    s.bc.getBlockByID q.blockID = none := by
  unfold updatePreferredView at h
  by_cases h2 : q.view < 2
  · rw [if_pos h2] at h
    cases h
  · rw [if_neg h2] at h
    cases hg : s.bc.getBlockByID q.blockID with
    | none => rfl
    | some a =>
      simp only [hg, Option.bind_eq_bind, Option.bind_some] at h
      by_cases hlt : s.preferredView < q.view
      · rw [if_pos hlt] at h
        cases h
      · rw [if_neg hlt] at h
        cases h

/-- The ways through `processCertificate`: the certificate is of a view that is over, does not pass the
check, waits for its block, or goes through. -/
inductive CertificateCases (nd : Node) (s : Tchs) (p : ℕ) (q : QC) :
    EStateM.Result Fault Tchs Unit → Prop
  | outdated (h : q.view < s.pm.curView) : CertificateCases nd s p q (.ok () s)
  | refused (h : ¬ Passes nd q) : CertificateCases nd s p q (.ok () s)
  | fault (e : Fault) (h : ¬ Passes nd q) : CertificateCases nd s p q (.error e s)
  | waits (h : s.bc.getBlockByID q.blockID = none) :
      CertificateCases nd s p q (.ok () { s with bufferedQCs := s.bufferedQCs.insert q.blockID p })
  | through {t : Tchs} (hv : s.pm.curView ≤ q.view) (hp : Passes nd q)
      (ht : s.updatePreferredView q = some t) :
      CertificateCases nd s p q (.ok () { t.updateHighQC p with pm := t.pm.advanceView q.view })

theorem not_passes_of_checkQC (h : checkQC nd q ≠ .ok true) : ¬ Passes nd q := by
  rintro (hl | hv)
  · exact h (by simp [checkQC, hl])
  · exact h (by unfold checkQC; split_ifs <;> [exact hv; rfl])

theorem processCertificate_cases (hb : nd.isByz = false) (hq : s.Holds p q) :
    CertificateCases nd s p q (processCertificate nd p s) := by
  unfold processCertificate
  rw [get_bind_apply, hq.qcAt]
  by_cases hv : q.view < s.pm.curView
  · rw [if_pos hv]
    exact .outdated hv
  rw [if_neg hv]
  cases hcheck : checkQC nd q with
  | error e => exact .fault e (not_passes_of_checkQC (by simp [hcheck]))
  | ok ok =>
    rw [ok_bind_apply]
    cases ok with
    | false => exact .refused (not_passes_of_checkQC (by simp [hcheck]))
    | true =>
      rw [if_neg (by simp), if_neg (by simp [hb])]
      cases ht : s.updatePreferredView q with
      | none => exact .waits (updatePreferredView_eq_none ht)
      | some t => exact .through (by omega) (passes_of_checkQC hcheck) ht

theorem processCertificate_steps (hb : nd.isByz = false) (hq : s.Holds p q) :
    Steps (Act nd In) (processCertificate nd p) (fun _ t => t.trace = s.trace) s := by
  have h := processCertificate_cases hb hq
  unfold Steps wp
  generalize processCertificate nd p s = r at h ⊢
  cases h with
  | outdated h => exact ⟨.refl, rfl⟩
  | refused h => exact ⟨.refl, rfl⟩
  | fault e h => exact .refl
  | waits h => exact ⟨.single (.bufferQC hq), rfl⟩
  | through hv hp ht =>
    refine ⟨.single (.certify hq hv hp ht), ?_⟩
    obtain ⟨v, h, heq, -⟩ := certify_cases (p := p) ht
    rw [heq]

theorem processVote_steps (hb : nd.isByz = false) (hok : Ok nd In s) {v : Vote}
    (hv : In (.vote v) ∨ OwnVote nd s v) :
    Steps (Act nd In) (processVote nd v) (fun _ _ => True) s := by
  unfold processVote
  refine .ofExcept_bind fun ok hcheck => .ite (fun _ => .pure trivial) fun hq => .get_bind ?_
  have hc : Counts nd In s v := ⟨hv, verified_of_checkVote (by simpa [hq] using hcheck)⟩
  rcases BlockChain.addVote_cases nd.toConfig hok.quorum v with h | h | ⟨qc, h, hcert⟩
  · rw [h]
    exact ⟨.refl, trivial⟩
  · rw [h]
    exact .step_bind rfl (.count hc) (.pure trivial)
  · rw [h]
    have ha : Act nd In s _ := .build hc hcert
    -- noting the certificate and putting it into memory are one step
    refine wp_bind.2 (wp_set.2 (wp_bind.2 (wp_modify.2 (wp_bind.2 (wp_alloc.2 (Steps.after ha ?_))))))
    have hholds : Holds { s with
        bc := { s.bc with quorum := s.bc.quorum.record v }
        heap := s.heap ++ [.certificate { qc with leader := nd.id }]
        trace := s.trace ++ [.built { qc with leader := nd.id }] } s.heap.length
        { qc with leader := nd.id } := ⟨.certificate { qc with leader := nd.id }, by simp, rfl⟩
    split
    · exact .single ⟨.bufferQC hholds, trivial⟩
    · exact (processCertificate_steps hb hholds).mono fun _ _ _ => trivial

/-! ### Blocks -/

theorem updatePreferredView_highQC (x : ℕ) :
    { s with highQC := x }.updatePreferredView q =
      (s.updatePreferredView q).map fun u => { u with highQC := x } := by
  unfold updatePreferredView
  dsimp only
  by_cases h2 : q.view < 2
  · rw [if_pos h2, if_pos h2]
    rfl
  · rw [if_neg h2, if_neg h2]
    cases s.bc.getBlockByID q.blockID with
    | none => rfl
    | some a =>
      simp only [Option.bind_eq_bind, Option.bind_some]
      by_cases hlt : s.preferredView < q.view
      · rw [if_pos hlt, if_pos hlt]
        rfl
      · rw [if_neg hlt, if_neg hlt]
        rfl

/-- Handing a certificate to `updateHighQC` beforehand makes no difference to `processCertificate`. -/
theorem certify_updateHighQC (h : (s.updateHighQC p).updatePreferredView q = some t) :
    ∃ u, s.updatePreferredView q = some u ∧ t.pm = u.pm ∧ t.updateHighQC p = u.updateHighQC p := by
  unfold updateHighQC at h
  by_cases hlt : (s.qcAt s.highQC).view < (s.qcAt p).view
  · rw [if_pos hlt, updatePreferredView_highQC] at h
    obtain ⟨u, hu, rfl⟩ := Option.map_eq_some_iff.1 h
    refine ⟨u, hu, rfl, ?_⟩
    obtain ⟨v, rfl⟩ := updatePreferredView_cases hu
    unfold updateHighQC
    rw [if_neg (Int.lt_irrefl _)]
    exact (if_pos hlt).symm
  · rw [if_neg hlt] at h
    exact ⟨t, h, rfl, rfl⟩

/-- `ProcessBlock` hands the certificate to `updateHighQC` and to `processCertificate`: after that the
certificate has been taken. -/
theorem offer_steps (hb : nd.isByz = false) (hok : Ok nd In s) (hp : s.heap[p]? = some (.block b))
    (hq : b.qc = some q) (hu : b.view ≤ s.pm.curView + 1) :
    wp (if b.proposer ≠ nd.id then processCertificate nd p else pure ())
      (fun _ t => Relation.ReflTransGen (Act nd In) s t ∧ t.heap = s.heap ∧ t.trace = s.trace ∧
        s.pm.curView ≤ t.pm.curView ∧ Taken nd In t q)
      (Relation.ReflTransGen (Act nd In) s) (s.updateHighQC p) := by
  obtain ⟨h, heq, -⟩ := updateHighQC_cases s p
  have hholds : (s.updateHighQC p).Holds p q := by
    rw [heq]
    exact ⟨_, hp, hq⟩
  have hoffer : Taken nd In s q → Act nd In s (s.updateHighQC p) := fun ht => .offer hp hq hu ht
  -- nothing that `Taken` looks at has changed
  have htaken : Taken nd In s q → Taken nd In (s.updateHighQC p) q := by
    rw [heq]
    exact id
  have hsame : (s.updateHighQC p).heap = s.heap ∧ (s.updateHighQC p).trace = s.trace ∧
      s.pm.curView ≤ (s.updateHighQC p).pm.curView := by
    rw [heq]
    exact ⟨rfl, rfl, Int.le_refl _⟩
  have hleft : ∀ ht : Taken nd In s q, Relation.ReflTransGen (Act nd In) s (s.updateHighQC p) ∧
      (s.updateHighQC p).heap = s.heap ∧ (s.updateHighQC p).trace = s.trace ∧
      s.pm.curView ≤ (s.updateHighQC p).pm.curView ∧ Taken nd In (s.updateHighQC p) q :=
    fun ht => ⟨.single (hoffer ht), hsame.1, hsame.2.1, hsame.2.2, htaken ht⟩
  by_cases hself : b.proposer ≠ nd.id
  · rw [if_pos hself]
    have hcases := processCertificate_cases hb hholds
    unfold wp
    generalize processCertificate nd p (s.updateHighQC p) = r at hcases ⊢
    cases hcases with
    | outdated h => exact hleft (Or.inr (Or.inr (Or.inl (by rw [heq] at h; exact h))))
    | refused h => exact hleft (Or.inr (Or.inl h))
    | fault e h => exact (hleft (Or.inr (Or.inl h))).1
    | waits hn =>
      have hn' : s.bc.getBlockByID q.blockID = none := by rw [heq] at hn; exact hn
      obtain ⟨hst, hheap, htrace, hcur, ht⟩ := hleft (Or.inr (Or.inr (Or.inr hn')))
      exact ⟨hst.tail (.bufferQC hholds), hheap, htrace, hcur, ht⟩
    | through hv hpass ht =>
      obtain ⟨u, hu', hpm, hup⟩ := certify_updateHighQC ht
      have hv' : s.pm.curView ≤ q.view := by rw [heq] at hv; exact hv
      rw [hup, hpm]
      have ha : Act nd In s _ := .certify ⟨_, hp, hq⟩ hv' hpass hu'
      obtain ⟨v, h', heq', -⟩ := certify_cases (p := p) hu'
      refine ⟨.single ha, ?_⟩
      rw [heq', Pacemaker.advanceView_of_le hv']
      exact ⟨rfl, rfl, by dsimp only; omega, Or.inr (Or.inr (Or.inl (by dsimp only; omega)))⟩
  · rw [if_neg hself]
    have hid : b.proposer = nd.id := not_not.1 hself
    obtain ⟨b₀, hcopy, hsrc⟩ := hok.block p b hp
    rcases hsrc with hin | ⟨-, hlt⟩
    · exact hleft (Or.inl ⟨b₀, hin, hcopy.proposer ▸ hid⟩)
    · exact hleft (Or.inr (Or.inr (Or.inl (hlt q hq))))

theorem vetBlock_steps (hb : nd.isByz = false) (hok : Ok nd In s) (hp : s.heap[p]? = some (.block b)) :
    Steps (Act nd In) (vetBlock nd p b) (fun r t => r = none → Admitted nd In t p b) s := by
  unfold vetBlock
  refine .get_bind (.ofExcept_bind fun _ _ => .ite (fun hfar => ?_) fun hnear => ?_)
  · exact .step_bind rfl (.bufferBlock hp) (.pure fun h => by cases h)
  cases hq : b.qc with
  | none =>
    rw [if_pos rfl]
    exact .pure fun h => by cases h
  | some q =>
    rw [if_neg (by simp)]
    have hu : b.view ≤ s.pm.curView + 1 := by omega
    refine wp_bind.2 (wp_modify.2 (wp_bind.2 (wp_mono (offer_steps hb hok hp hq hu) ?_ fun _ h => h)))
    rintro _ t ⟨hst, hheap, -, hcur, htaken⟩
    refine wp_bind.2 (wp_get.2 (wp_ite.2 ⟨fun _ => ⟨hst, fun h => by cases h⟩, fun hlow => ?_⟩))
    refine wp_ite.2 ⟨fun _ => ⟨hst, fun h => by cases h⟩, fun hlead => ⟨hst, fun _ => ?_⟩⟩
    exact ⟨hheap ▸ hp, by omega, by omega, by simpa using hlead, q, hq, htaken⟩

/-- `tryCommit` opens the gate for the vote, or the answer is not `none`. -/
theorem tryCommit_steps (hok : Ok nd In s) (hb : pending s.trace = some b) (hq : b.qc = some q) :
    Steps (Act nd In) (tryCommit b q)
      (fun r t => r = none → pending t.trace = some b ∧ Gate t b) s := by
  unfold tryCommit
  refine .get_bind (.ite (fun hn => .pure fun _ => ⟨hb, ?_⟩) fun hv => ?_)
  · intro q' hq' h2 hv
    rw [hq] at hq'
    cases hq'
    exact absurd ⟨h2, hv⟩ hn
  obtain ⟨h2, hv⟩ := not_not.1 hv
  cases hg : s.commitRule q with
  | none => exact .pure fun h => by cases h
  | some g =>
    refine .single (wp_bind.2 (wp_zoom.2 (wp_mono (BlockChain.commitBlock_spec hok.forrest _ _) ?_ ?_)))
    · intro r bc hc
      cases r with
      | none => exact ⟨.commitFailed ⟨hc.failed rfl, hc.wf, hc.has, hc.total⟩, fun h => by cases h⟩
      | some res =>
        refine ⟨.commit hb hq h2 hv hg hc, fun _ => ⟨by simpa [pendingNext] using hb, ?_⟩⟩
        intro q' hq' _ _
        rw [hq] at hq'
        cases hq'
        exact ⟨g, s.bc.forrest, res.1, List.mem_append_right _ (List.mem_singleton.2 rfl)⟩
    · intro bc hd
      exact .commitFailed hd

theorem processBufferedQC_steps (hb : nd.isByz = false) (hok : Ok nd In s) (id : ℕ) :
    Steps (Act nd In) (processBufferedQC nd id) (fun _ t => t.trace = s.trace) s := by
  unfold processBufferedQC
  refine .get_bind ?_
  cases hl : s.bufferedQCs.lookup id with
  | none => exact .pure rfl
  | some p =>
    obtain ⟨q, hq⟩ := hok.bufferedQC id p hl
    refine (processCertificate_steps hb hq).bind ?_
    intro _ t _ ht
    exact .single ⟨.dropQC id, ht⟩

theorem castVote_steps (hb : nd.isByz = false) (hok : Ok nd In s) (hp : pending s.trace = some b)
    (hg : Gate s b) : Steps (Act nd In) (castVote nd b) (fun _ _ => True) s := by
  unfold castVote
  refine .get_bind ?_
  cases hr : s.votingRule b with
  | none => exact .pure trivial
  | some vote =>
    cases vote with
    | false => exact .pure trivial
    | true =>
      refine .ofExcept_bind fun v hv => ?_
      have ha : Act nd In s _ := .vote hp hg hr hv
      dsimp only
      rw [← bind_assoc]
      -- noting the vote and sending it are one step
      refine .bind (Q := fun _ _ => True) ?_ fun _ _ _ _ => .pure trivial
      by_cases hself : nd.elec.findLeaderFor (b.view + 1) = nd.id
      · simp only [if_pos hself] at ha ⊢
        have hown : OwnVote nd { s with trace := s.trace ++ [.voted b] } v :=
          ⟨b, List.mem_append_right _ (List.mem_singleton.2 rfl), hv, hself⟩
        exact .step_bind rfl ha (processVote_steps hb (hok.act ha) (Or.inr hown))
      · simp only [if_neg hself] at ha ⊢
        exact .single ⟨ha, trivial⟩

theorem insertAndVote_steps (hb : nd.isByz = false) (hok : Ok nd In s) (hadm : Admitted nd In s p b)
    (hq : b.qc = some q) : Steps (Act nd In) (insertAndVote nd b q) (fun _ _ => True) s := by
  unfold insertAndVote
  refine .get_bind ?_
  rw [← bind_assoc]
  refine .bind (Q := fun _ t => pending t.trace = some b) (.single ?_) ?_
  · refine wp_bind.2 (wp_modify.2 (wp_zoom.2 (wp_zoom.2 (wp_mono
      (LevelledForest.addVertex_spec hok.forrest b) ?_ ?_))))
    · intro _ f hf
      exact ⟨.accept hadm hf, by simp [pendingNext]⟩
    · intro f hf
      exact .accept hadm hf
  intro _ t hst hp
  refine (tryCommit_steps (hok.acts hst) hp hq).bind ?_
  intro r u htu hr
  cases r with
  | some err => exact .pure trivial
  | none =>
    obtain ⟨hpu, hgate⟩ := hr rfl
    refine (processBufferedQC_steps hb ((hok.acts hst).acts htu) b.id).bind ?_
    intro _ x hux htrace
    refine castVote_steps hb (((hok.acts hst).acts htu).acts hux) (htrace ▸ hpu) ?_
    intro q' hq' h2 hv
    obtain ⟨g, f, batch, hm⟩ := hgate q' hq' h2 hv
    exact ⟨g, f, batch, htrace ▸ hm⟩

theorem processBlockN_steps (hb : nd.isByz = false) (fuel : ℕ) (hok : Ok nd In s)
    (hp : ∃ b, s.heap[p]? = some (.block b)) :
    Steps (Act nd In) (processBlockN nd fuel p) (fun _ _ => True) s := by
  induction fuel generalizing s p with
  | zero => exact .throw
  | succ fuel ih =>
    obtain ⟨b, hp⟩ := hp
    unfold processBlockN
    refine .get_bind ?_
    simp only [hp]
    refine (vetBlock_steps hb hok hp).bind fun r t hst hr => ?_
    cases r with
    | some err => exact .pure trivial
    | none =>
      have hadm := hr rfl
      obtain ⟨q, hq, -⟩ := hadm.taken
      have hat : s.qcAt p = q := Holds.qcAt ⟨_, hp, hq⟩
      rw [hat]
      refine (insertAndVote_steps hb (hok.acts hst) hadm hq).bind fun r' u htu _ => ?_
      cases r' with
      | some err => exact .pure trivial
      | none =>
        have hoku := (hok.acts hst).acts htu
        refine .get_bind ?_
        cases hl : u.bufferedBlocks.lookup b.view with
        | none => exact .pure trivial
        | some p' => exact ih hoku (hoku.bufferedBlock _ _ hl)

theorem processBlock_steps (hb : nd.isByz = false) (hok : Ok nd In s) (hsrc : Source In s b b) :
    Steps (Act nd In) ((safety nd).processBlock b) (fun _ _ => True) s := by
  have ha : Act nd In s _ := .load hsrc
  refine .bind (Q := fun _ _ => True) ?_ fun _ _ _ _ => .pure trivial
  refine .step_bind rfl ha (.get_bind (processBlockN_steps hb _ (hok.act ha) ⟨b, ?_⟩))
  simp

/-! ### Timeouts and view events -/

theorem processRemoteTmo_steps (m : TMO) :
    Steps (Act nd In) (processRemoteTmo m) (fun _ _ => True) s := by
  unfold processRemoteTmo
  refine .get_bind (.ite (fun _ => .pure trivial) fun _ => ?_)
  obtain ⟨tcl, hpm, -⟩ := s.pm.processRemoteTmo_cases m
  generalize s.pm.processRemoteTmo m = r at hpm ⊢
  obtain ⟨tc, pm⟩ := r
  dsimp only at hpm ⊢
  subst hpm
  refine .step_bind rfl (.timeouts tcl) ?_
  cases tc with
  | none => exact .pure trivial
  | some tc =>
    unfold processTC
    refine .get_bind (.ite (fun _ => .pure trivial) fun _ => ?_)
    exact .single ⟨.advance tc.view, trivial⟩

theorem processLocalTmo_steps (view : ℤ) :
    Steps (Act nd In) (processLocalTmo nd view) (fun _ _ => True) s := by
  unfold processLocalTmo
  refine .step_bind rfl (.advance (view + 1)) (.get_bind ?_)
  exact .step_bind rfl (.sendTmo _) (processRemoteTmo_steps _)

/-- The state after `forkChoice`. -/
def stamped (s : Tchs) : Tchs :=
  { s with heap := s.heap.modify s.highQC (Cell.setView (s.pm.curView - 1)) }

/-- `forkChoice` returns the certificate of `highQC` under its new view. -/
theorem view_stamped (hok : Ok nd In s) : (s.stamped.qcAt s.highQC).view = s.pm.curView - 1 := by
  obtain ⟨q, c, hc, hcert⟩ := hok.high
  have hcell : s.stamped.heap[s.highQC]? = some (c.setView (s.pm.curView - 1)) := by
    simp [stamped, hc]
  have hholds : s.stamped.Holds s.highQC { q with view := s.pm.curView - 1 } :=
    ⟨_, hcell, by rw [Cell.cert_setView, hcert]; rfl⟩
  rw [hholds.qcAt]

theorem proposal_wp (hok : Ok nd In s) (view : ℤ) (payload : List Transaction) (pBatch : PBatch) :
    wp (if 1 < view then makePProposal nd view pBatch else makeProposal nd view payload)
      (fun b t => t = s.stamped ∧ Proposal nd s.stamped view b) (fun t => t = s.stamped) s := by
  have hview := view_stamped hok
  refine wp_ite.2 ⟨fun _ => ?_, fun _ => ?_⟩
  · unfold makePProposal
    refine wp_bind.2 (wp_ofExcept.2 ⟨fun b h => ?_, fun _ _ => rfl⟩)
    obtain ⟨h₁, h₂, h₃, h₄⟩ := makePBlock_eq_ok h
    exact ⟨rfl, h₁, h₂, h₃, h₄, hview⟩
  · unfold makeProposal
    refine wp_bind.2 (wp_ofExcept.2 ⟨fun b h => ?_, fun _ _ => rfl⟩)
    obtain ⟨h₁, h₂, h₃, h₄⟩ := makeBlock_eq_ok h
    exact ⟨rfl, h₁, h₂, h₃, h₄, hview⟩

theorem processNewView_steps (hb : nd.isByz = false) (hok : Ok nd In s) (payload : List Transaction)
    (pBatch : PBatch) :
    Steps (Act nd In) ((safety nd).processNewView nd payload pBatch) (fun _ _ => True) s := by
  unfold Safety.processNewView
  refine .get_bind ?_
  cases hq : s.pm.newViewChan with
  | nil => simp only [safety, hq]; exact .pure trivial
  | cons v rest =>
    simp only [safety, hq]
    by_cases hl : nd.elec.isLeader nd.id v = false
    · rw [if_pos hl]
      exact .step_bind rfl (.pop hq) (.pure trivial)
    rw [if_neg hl]
    have hl' : nd.elec.isLeader nd.id v = true := by simpa using hl
    have hpop : Act nd In s _ := .pop hq
    have hst : Act nd In s s.stamped := .stamp hq hl'
    unfold Safety.proposeBlock
    refine wp_bind.2 (wp_set.2 (wp_bind.2 (wp_mono (proposal_wp (hok.act hpop) v payload pBatch) ?_ ?_)))
    · rintro b _ ⟨rfl, hprop⟩
      -- the stamp comes first here, and then the event leaves the channel with the proposal
      have ha : Act nd In s.stamped _ := .propose hq hl'
        ⟨hprop.view, hprop.qc, hprop.proposer, hprop.prevID, hprop.stamped⟩
      refine wp_bind.2 (wp_modify.2 (wp_mono (processBlock_steps hb ((hok.act hst).act ha) ?_) ?_ ?_))
      · refine Or.inr ⟨⟨_, List.mem_append_right _ (List.mem_singleton.2 rfl), rfl⟩, fun q hq' => ?_⟩
        have hview := hprop.stamped
        rw [hprop.qc] at hq'
        cases hq'
        dsimp only [stamped, send] at hview ⊢
        omega
      · intro _ t h
        exact ⟨.head hst (.head ha h.1), trivial⟩
      · intro t h
        exact .head hst (.head ha h)
    · rintro _ rfl
      have hpop' : Act nd In s.stamped _ := .pop hq
      exact .head hst (.single hpop')

theorem handleTxn_steps :
    Steps (Act nd In) ((safety nd).handleTxn nd) (fun _ _ => True) s := by
  unfold Safety.handleTxn
  refine .get_bind (.ite (fun _ => ?_) fun _ => .pure trivial)
  exact .single ⟨.advance 0, trivial⟩

/-- **Every event of a replica is a sequence of small steps.** -/
theorem handleEvent_steps (hb : nd.isByz = false) (hok : Ok nd In s) (e : Event) :
    Steps (Act nd In) ((safety nd).handleEvent nd e) (fun _ _ => True) s := by
  cases e with
  | txn => exact handleTxn_steps
  | newView payload pBatch => exact processNewView_steps hb hok payload pBatch
  | timer => exact .get_bind (processLocalTmo_steps _)

/-- **So is the handling of every message.** -/
theorem handleMsg_steps (hb : nd.isByz = false) (hok : Ok nd In s) {m : Msg} (hm : In m) :
    Steps (Act nd In) ((safety nd).handleMsg m) (fun _ _ => True) s := by
  cases m with
  | block b => exact processBlock_steps hb hok (Or.inl hm)
  | vote v => exact processVote_steps hb hok (Or.inl hm)
  | tmo t => exact processRemoteTmo_steps t

/-- More messages allow no fewer steps. -/
theorem Act.mono {In' : Msg → Prop} (h : Act nd In s t) (hI : ∀ m, In m → In' m) :
    Act nd In' s t := by
  have hC : ∀ v, Counts nd In s v → Counts nd In' s v := fun v hv => ⟨hv.1.imp_left (hI _), hv.2⟩
  have hT : ∀ q, Taken nd In s q → Taken nd In' s q :=
    fun q hq => hq.imp_left fun ⟨b, hb, hp⟩ => ⟨b, hI _ hb, hp⟩
  cases h with
  | advance v => exact .advance v
  | timeouts tcl => exact .timeouts tcl
  | pop h => exact .pop h
  | stamp h hl => exact .stamp h hl
  | propose h hl hb => exact .propose h hl hb
  | load hb => exact .load (hb.mono hI (List.Subset.refl _) (Int.le_refl _))
  | bufferBlock hp => exact .bufferBlock hp
  | offer hp hq hu ht => exact .offer hp hq hu (hT _ ht)
  | bufferQC hp => exact .bufferQC hp
  | dropQC id => exact .dropQC id
  | certify hp hv hpass ht => exact .certify hp hv hpass ht
  | accept hb hf =>
    obtain ⟨q, hq, ht⟩ := hb.taken
    exact .accept ⟨hb.cell, hb.lower, hb.upper, hb.leader, q, hq, hT q ht⟩ hf
  | commit hb hq h2 hv hg hc => exact .commit hb hq h2 hv hg hc
  | commitFailed hd => exact .commitFailed hd
  | vote hp hg hr hv => exact .vote hp hg hr hv
  | count hv => exact .count (hC _ hv)
  | build hv hc => exact .build (hC _ hv) hc
  | sendTmo t => exact .sendTmo t

/-- The state of one replica after a sequence of inputs. -/
def runOn (nd : Node) (inputs : List Safety.Input) : Tchs :=
  ((safety nd).run nd (Tchs.new nd.n) inputs).st

/-- A run of one replica is a sequence of small steps, whatever it is sent. -/
theorem runOn_acts (hb : nd.isByz = false) (inputs : List Safety.Input) :
    Relation.ReflTransGen (Act nd (Safety.Received inputs)) (Tchs.new nd.n) (runOn nd inputs) :=
  ((safety nd).run_steps nd (fun hI h => h.mono hI) (fun hI h => h.mono hI) (fun In => ok_new nd In)
    (fun ho h => ho.act h) (fun ho hm => (handleMsg_steps hb ho hm).final)
    (fun ho => (handleEvent_steps hb ho _).final) inputs).1

/-- **Invariant rule for the runs of one replica.** -/
theorem runOn_invariant (hb : nd.isByz = false) (inputs : List Safety.Input) {P : Tchs → Prop}
    (h0 : P (Tchs.new nd.n)) (hs : ∀ s t, P s → Act nd (Safety.Received inputs) s t → P t) :
    P (runOn nd inputs) := by
  have key : ∀ t, Relation.ReflTransGen (Act nd (Safety.Received inputs)) (Tchs.new nd.n) t → P t := by
    intro t ht
    induction ht with
    | refl => exact h0
    | tail _ h ih => exact hs _ _ ih h
  exact key _ (runOn_acts hb inputs)

end Tchs

/-- The network of replicas of two-chain HotStuff in small steps. -/
def tchsSteps (cf : Config) (members : List NodeID) : Net.SmallSteps (tchsNet cf members) where
  step := fun i In => Tchs.Act (cf.honest i) In
  Ok := fun i In => Tchs.Ok (cf.honest i) In
  step_mono := fun hI h => h.mono hI
  ok_mono := fun hI h => h.mono hI
  outbox_subset := fun h => h.subset.1
  ok_init := fun i In => Tchs.ok_new (cf.honest i) In
  ok_step := fun hok h => hok.act h
  receive := fun hok hm => (Tchs.handleMsg_steps rfl hok hm).final
  trigger := fun hok _ => (Tchs.handleEvent_steps rfl hok _).final

end Bamboo
