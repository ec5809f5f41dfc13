import Bamboo.HotStuff.Handlers
import Bamboo.FourNodes

/-!
# Which certificates a HotStuff replica adopts

`processCertificate` on an arbitrary certificate, and what then becomes of `highQC`.

* `Accepts`, `Waits`: the two ways past the tests of `processCertificate`, and one equation for each
  outcome;
* `obeyed_real_iff`: what the tests leave to the sender;
* `Bears`, `runOn_bears`: what `highQC` and the replica's own messages inherit from the certificates it
  meets;
* `highQC_trusted`: where `highQC` comes from in a run, given what `updateHighQC` is offered.
-/

namespace Bamboo

namespace HotStuff

open Prog

/-- The forking attack's branch of `processCertificate`. -/
def Forks (nd : Node) (qc : QC) : Prop :=
  nd.isByz = true ∧ nd.fork = true ∧ nd.elec.isLeader nd.id (qc.view + 1) = true

/-- `updatePreferredView` finds the blocks it looks for. -/
def Traceable (s : HotStuff) (qc : QC) : Prop :=
  qc.view ≤ 2 ∨ (s.bc.getBlockByID qc.blockID).isSome ∧ (s.bc.getParentBlock qc.blockID).isSome

/-- The certificate is not stale and passes the replica's check. -/
def Passed (nd : Node) (s : HotStuff) (qc : QC) : Prop :=
  s.pm.curView ≤ qc.view ∧ checkQC nd qc = .ok true

/-- `processCertificate` goes through to `AdvanceView`. -/
def Accepts (nd : Node) (s : HotStuff) (qc : QC) : Prop :=
  Passed nd s qc ∧ (Forks nd qc ∨ Traceable s qc)

/-- `processCertificate` puts the certificate into `bufferedQCs`. -/
def Waits (nd : Node) (s : HotStuff) (qc : QC) : Prop :=
  Passed nd s qc ∧ ¬ Forks nd qc ∧ ¬ Traceable s qc

variable {nd : Node} {s : HotStuff} {qc : QC}

theorem isSome_updatePreferredView : (s.updatePreferredView qc).isSome ↔ Traceable s qc := by
  unfold updatePreferredView Traceable
  split_ifs with h2
  · simp [h2]
  · cases s.bc.getBlockByID qc.blockID with
    | none => simp [h2]
    | some b =>
      cases s.bc.getParentBlock qc.blockID with
      | none => simp [h2]
      | some g =>
        simp only [h2, Option.bind_eq_bind, Option.bind_some, Option.isSome_some]
        split_ifs <;> simp

/-! ### The outcomes of `processCertificate` -/

/-- The certificate is ignored without a fault. -/
def Rejected (nd : Node) (s : HotStuff) (qc : QC) : Prop :=
  qc.view < s.pm.curView ∨ checkQC nd qc = .ok false

/-- The check of the certificate panics. -/
def CheckFaults (nd : Node) (s : HotStuff) (qc : QC) : Prop :=
  s.pm.curView ≤ qc.view ∧ ∃ e, checkQC nd qc = .error e

theorem certificate_cases (nd : Node) (s : HotStuff) (qc : QC) :
    Accepts nd s qc ∨ Waits nd s qc ∨ Rejected nd s qc ∨ CheckFaults nd s qc := by
  rcases Int.lt_or_le qc.view s.pm.curView with hv | hv
  · exact Or.inr (Or.inr (Or.inl (Or.inl hv)))
  cases hc : checkQC nd qc with
  | error e => exact Or.inr (Or.inr (Or.inr ⟨hv, e, hc⟩))
  | ok ok =>
    cases ok with
    | false => exact Or.inr (Or.inr (Or.inl (Or.inr hc)))
    | true =>
      by_cases hgo : Forks nd qc ∨ Traceable s qc
      · exact Or.inl ⟨⟨hv, hc⟩, hgo⟩
      · rw [not_or] at hgo
        exact Or.inr (Or.inl ⟨⟨hv, hc⟩, hgo⟩)

theorem Passed.not_rejected (h : Passed nd s qc) : ¬ Rejected nd s qc := by
  rintro (hv | hc)
  · have := h.1
    omega
  · rw [h.2] at hc
    cases hc

theorem Passed.not_checkFaults (h : Passed nd s qc) : ¬ CheckFaults nd s qc := by
  rintro ⟨-, e, he⟩
  rw [h.2] at he
  cases he

theorem Rejected.not_checkFaults (h : Rejected nd s qc) : ¬ CheckFaults nd s qc := by
  rintro ⟨hv, e, he⟩
  rcases h with hlt | hc
  · omega
  · rw [hc] at he
    cases he

theorem Accepts.not_waits (h : Accepts nd s qc) : ¬ Waits nd s qc :=
  fun hw => h.2.elim hw.2.1 hw.2.2

theorem processCertificate_rejected (h : Rejected nd s qc) :
    processCertificate nd qc s = .ok () s := by
  unfold processCertificate
  rw [get_bind_apply]
  by_cases hv : qc.view < s.pm.curView
  · rw [if_pos hv]
    rfl
  · rw [if_neg hv, h.resolve_left hv, ok_bind_apply]
    rfl

theorem processCertificate_fault (h : CheckFaults nd s qc) :
    ∃ e, processCertificate nd qc s = .error e s := by
  obtain ⟨hv, e, he⟩ := h
  unfold processCertificate
  rw [get_bind_apply, if_neg (by omega), he, error_bind_apply]
  exact ⟨e, rfl⟩

theorem processCertificate_waits (h : Waits nd s qc) :
    processCertificate nd qc s =
      .ok () { s with bufferedQCs := s.bufferedQCs.insert qc.blockID qc } := by
  obtain ⟨⟨hv, hc⟩, hf, ht⟩ := h
  have hn : s.updatePreferredView qc = none := by
    rw [← isSome_updatePreferredView] at ht
    simpa using ht
  unfold Forks at hf
  unfold processCertificate
  rw [get_bind_apply, if_neg (by omega), hc, ok_bind_apply, if_neg (by simp),
    if_neg hf, hn]
  rfl

theorem tryCommit_pm : wp (tryCommit qc) (fun _ t => t.pm = s.pm) (fun t => t.pm = s.pm) s := by
  unfold tryCommit
  refine wp_bind.2 (wp_get.2 ?_)
  cases s.commitRule qc with
  | none => exact rfl
  | some g =>
    refine wp_bind.2 (wp_zoom.2 ?_)
    unfold wp
    cases BlockChain.commitBlock g.id s.pm.curView s.bc with
    | error e bc => exact rfl
    | ok r bc =>
      cases r with
      | none => exact rfl
      | some res => exact rfl

/-- An accepted certificate takes the replica to the next view. -/
theorem processCertificate_accepts (h : Accepts nd s qc) :
    (final (processCertificate nd qc s)).pm.curView = qc.view + 1 := by
  obtain ⟨⟨hv, hc⟩, hft⟩ := h
  have hv' : ¬ qc.view < s.pm.curView := by omega
  have hadv : ∀ t : HotStuff, t.pm = s.pm → (t.pm.advanceView qc.view).curView = qc.view + 1 := by
    intro t ht
    rw [ht, Pacemaker.advanceView_of_le hv]
  apply (wp_final (P := fun t : HotStuff => t.pm.curView = qc.view + 1)).1
  unfold processCertificate
  refine wp_bind.2 (wp_get.2 ?_)
  rw [if_neg hv', hc]
  refine wp_bind.2 (wp_ofExcept.2 ⟨fun ok hok => ?_, fun e he => by cases he⟩)
  cases hok
  rw [if_neg (show ¬ true = false by decide)]
  refine wp_ite.2 ⟨fun _ => hadv s rfl, fun hnf => ?_⟩
  -- the attack's branch aside, `updatePreferredView` succeeds
  obtain ⟨t, ht⟩ := Option.isSome_iff_exists.1 (isSome_updatePreferredView.2 (hft.resolve_left hnf))
  have hpm : t.pm = s.pm := by
    obtain ⟨v, rfl, -⟩ := updatePreferredView_cases ht
    rfl
  rw [ht]
  refine wp_bind.2 (wp_set.2 (wp_ite.2 ⟨fun _ => ?_, fun _ => ?_⟩))
  · simpa using hadv t hpm
  · refine wp_mono tryCommit_pm (fun _ u hu => ?_) fun u hu => ?_ <;>
    · rw [hu]
      simpa using hadv t hpm

/-! ### Obeyed certificates -/

/-- `processCertificate` on the certificate changes the lock, the view or `highQC`, or commits. -/
def Obeyed (nd : Node) (s : HotStuff) (qc : QC) : Prop :=
  let t := final (processCertificate nd qc s)
  t.preferredView ≠ s.preferredView ∨ t.pm.curView ≠ s.pm.curView ∨ t.highQC ≠ s.highQC ∨
    t.committedBlocks ≠ s.committedBlocks

/-- The signers of the certificate stand for more than two thirds of the replicas. -/
def Quorate (cf : Config) (qc : QC) : Prop := 2 * cf.n < 3 * (qc.signers.map node).dedup.length

/-- Every signer has a valid signature in the certificate. -/
def AllSigned (cf : Config) (qc : QC) : Prop :=
  ∀ i ∈ qc.signers, ∃ sig ∈ qc.aggSig, pubVerify cf sig qc.blockID i = .ok true

/-- More than two thirds of the replicas signed the certificate. -/
def RealQuorum (cf : Config) (qc : QC) : Prop := Quorate cf qc ∧ AllSigned cf qc

/-- Exactly the accepted certificates are obeyed. -/
theorem obeyed_iff_accepts : Obeyed nd s qc ↔ Accepts nd s qc := by
  constructor
  · intro hob
    by_contra hacc
    -- turned away: the state stays, or the certificate is buffered
    unfold Obeyed at hob
    rcases certificate_cases nd s qc with h | h | h | h
    · exact hacc h
    · simp [processCertificate_waits h, final] at hob
    · simp [processCertificate_rejected h, final] at hob
    · obtain ⟨e, he⟩ := processCertificate_fault h
      simp [he, final] at hob
  · intro hacc
    refine Or.inr (Or.inl ?_)
    have hv := hacc.1.1
    rw [processCertificate_accepts hacc]
    omega

/-- `VerifyQuorumSignature` looks at the signatures of all signers. -/
theorem allSigned_of_verified {cf : Config} {id : ℕ} {sigs : List Signature} {signers : List NodeID}
    (h : verifyQuorumSignature cf sigs id signers = .ok true) :
    ∀ i ∈ signers, ∃ sig ∈ sigs, pubVerify cf sig id i = .ok true := by
  induction signers generalizing sigs with
  | nil => simp
  | cons j signers ih =>
    cases sigs with
    | nil => simp [verifyQuorumSignature] at h
    | cons sig sigs =>
      rw [verifyQuorumSignature] at h
      cases hv : pubVerify cf sig id j with
      | error e => simp [hv, bind, Except.bind] at h
      | ok ok =>
        cases ok with
        | false => simp [hv, bind, Except.bind, pure, Except.pure] at h
        | true =>
          simp only [hv, bind, Except.bind, if_true] at h
          intro i hi
          rcases List.mem_cons.1 hi with rfl | hi
          · exact ⟨sig, List.mem_cons_self, hv⟩
          · obtain ⟨sig', hmem, hsig'⟩ := ih h i hi
            exact ⟨sig', List.mem_cons_of_mem _ hmem, hsig'⟩

/-- **Obedience to real quorums.**  A certificate is obeyed only if a quorum signed it, exactly when
`processCertificate` turns it away or it has what is not tested: its signers are a quorum, and they
have signed if it names this replica as its leader. -/
theorem obeyed_real_iff (nd : Node) (s : HotStuff) (qc : QC) :
    (Obeyed nd s qc → RealQuorum nd.toConfig qc) ↔
      (Accepts nd s qc →
        Quorate nd.toConfig qc ∧ (qc.leader = nd.id → AllSigned nd.toConfig qc)) := by
  rw [obeyed_iff_accepts]
  refine forall_congr' fun hacc => and_congr_right fun _ => ⟨fun h _ => h, fun h => ?_⟩
  rcases passes_of_checkQC hacc.1.2 with hl | hv
  · exact h hl
  · exact allSigned_of_verified hv

/-- A certificate of view 1 that nobody signed. -/
def unsigned : QC := ⟨"", 1, 1, [], [], []⟩

/-- **A certificate without signatures is obeyed.** -/
theorem unsigned_obeyed :
    1 ≤ unsigned.view ∧
      Obeyed FourNodes.second (HotStuff.new 4) unsigned ∧
      ¬ RealQuorum FourNodes.second.toConfig unsigned := by
  refine ⟨by decide, obeyed_iff_accepts.2 ⟨⟨by decide, by decide⟩, Or.inr (Or.inl (by decide))⟩, ?_⟩
  rintro ⟨hq, -⟩
  exact absurd hq (by unfold Quorate; decide)

/-! ### Where `highQC` comes from -/

/-- A certificate inside a received message. -/
def ReceivedQC (In : Msg → Prop) (qc : QC) : Prop :=
  (∃ b, In (.block b) ∧ b.qc = some qc) ∨ ∃ t : TMO, In (.tmo t) ∧ t.highQC = some qc

/-- The first certificate, one the replica built, or one it received and can verify. -/
inductive Trusted (nd : Node) (In : Msg → Prop) (trace : List Entry) (qc : QC) : Prop
  | initial (h : qc = .initial)
  | built (h : .built qc ∈ trace)
  | verified (hr : ReceivedQC In qc) (hv : verifyQC nd.toConfig qc = .ok true)

/-- The replica built the certificate or can verify it. -/
def Vouched (nd : Node) (trace : List Entry) (qc : QC) : Prop :=
  .built qc ∈ trace ∨ verifyQC nd.toConfig qc = .ok true

/-- No forged certificate gets past the replica: those offered to `updateHighQC` that are newer than
`highQC`, and those received that name the replica as their leader, are vouched for. -/
structure Unforged (nd : Node) (In : Msg → Prop) (trace : List Entry) : Prop where
  offered : ∀ b high qc, .offered b high ∈ trace → b.qc = some qc → high < qc.view →
    Vouched nd trace qc
  named : ∀ qc, ReceivedQC In qc → qc.leader = nd.id → Vouched nd trace qc

variable {In : Msg → Prop} {trace : List Entry} {t : HotStuff}

theorem Vouched.trusted (h : Vouched nd trace qc) (hr : ReceivedQC In qc) :
    Trusted nd In trace qc := h.elim .built (.verified hr)

/-- `highQC` and the certificates of the replica's own messages have the property `P`. -/
structure Bears (P : QC → Prop) (s : HotStuff) : Prop where
  high : P s.highQC
  block : ∀ e ∈ s.sent, ∀ b, e.body = .block b →
    ∃ qc, b.qc = some qc ∧ b.prevID = qc.blockID ∧ P qc
  tmo : ∀ e ∈ s.sent, ∀ m : TMO, e.body = .tmo m → ∃ qc, m.highQC = some qc ∧ P qc

section Bears

variable {P : QC → Prop}

/-- A certificate inside one of the replica's own messages has the property already. -/
theorem Bears.heard (h : Bears P s) {b : Block} (hb : Heard In s (.block b)) (hqc : b.qc = some qc) :
    ReceivedQC In qc ∨ P qc := by
  rcases hb with hb | ⟨e, he, hbody⟩
  · exact Or.inl (Or.inl ⟨b, hb, hqc⟩)
  · obtain ⟨qc', hq, -, hP⟩ := h.block e he b hbody
    rw [hqc] at hq
    cases hq
    exact Or.inr hP

theorem Bears.known (h : Bears P s) (h0 : P .initial) (hr : ReceivedQC In qc → P qc)
    (hbuilt : .built qc ∈ s.trace → P qc) (hk : Known In s qc) : P qc := by
  cases hk with
  | initial h => exact h ▸ h0
  | block b hb hqc => exact (h.heard hb hqc).elim hr id
  | tmo m hm hqc =>
    rcases hm with hm | ⟨e, he, hbody⟩
    · exact hr (Or.inr ⟨m, hm, hqc⟩)
    · obtain ⟨qc', hq, hP⟩ := h.tmo e he m hbody
      rw [hqc] at hq
      cases hq
      exact hP
  | built h => exact hbuilt h

/-- A small step adopts certificates from a block offered to `updateHighQC`, and those that pass
`processCertificate`. -/
theorem Bears.act (h : Bears P s) (ha : Act nd In s t) (h0 : P .initial)
    (hoff : ∀ b qc, .offered b s.highQC.view ∈ t.trace → ReceivedQC In qc → b.qc = some qc →
      s.highQC.view < qc.view → P qc)
    (hr : ∀ qc, ReceivedQC In qc → Passes nd qc → P qc)
    (hbuilt : ∀ qc, .built qc ∈ s.trace → P qc) : Bears P t where
  high := by
    rcases ha.highQC_cases with hq | ⟨b, hb, hqc, hlt, htrace⟩ | ⟨hk, hp⟩
    · rw [hq]
      exact h.high
    · -- adopted by `updateHighQC` before any check
      exact (h.heard hb hqc).elim (fun hrec => hoff b _ (by simp [htrace]) hrec hqc hlt) id
    · exact h.known h0 (fun hrec => hr _ hrec hp) (hbuilt _) hk
  block := by
    intro e he b hbody
    rcases ha.mem_sent he with he | ⟨v, b', -, hprop, hb'⟩ | ⟨b', v, -, -, hv⟩ | ⟨m, -, hm⟩
    · exact h.block e he b hbody
    · rw [hbody] at hb'
      cases hb'
      exact ⟨s.highQC, hprop.qc, hprop.prevID, h.high⟩
    · rw [hbody] at hv
      cases hv
    · rw [hbody] at hm
      cases hm
  tmo := by
    intro e he m hbody
    rcases ha.mem_sent he with he | ⟨v, b', -, -, hb'⟩ | ⟨b', v, -, -, hv⟩ | ⟨m', hq, hm⟩
    · exact h.tmo e he m hbody
    · rw [hbody] at hb'
      cases hb'
    · rw [hbody] at hv
      cases hv
    · rw [hbody] at hm
      cases hm
      exact ⟨s.highQC, hq, h.high⟩

/-- A property of the first certificate, of those built, and of those received that get past the replica
is one of `highQC` and of every proposal. -/
theorem runOn_bears (hb : nd.isByz = false) (inputs : List Safety.Input) (h0 : P .initial)
    (hoff : ∀ b high qc, .offered b high ∈ (runOn nd inputs).trace →
      ReceivedQC (Safety.Received inputs) qc → b.qc = some qc → high < qc.view → P qc)
    (hr : ∀ qc, ReceivedQC (Safety.Received inputs) qc → Passes nd qc → P qc)
    (hbuilt : ∀ qc, .built qc ∈ (runOn nd inputs).trace → P qc) : Bears P (runOn nd inputs) := by
  -- along the run, the trace is part of the last one
  have hrun : (runOn nd inputs).trace ⊆ (runOn nd inputs).trace → Bears P (runOn nd inputs) := by
    refine runOn_invariant hb inputs (P := fun s => s.trace ⊆ (runOn nd inputs).trace → Bears P s)
      (fun _ => ⟨h0, by simp [HotStuff.new], by simp [HotStuff.new]⟩) ?_
    intro s t _ ih ha htr
    have hs := List.Subset.trans ha.subset.2 htr
    exact (ih hs).act ha h0 (fun b qc hm => hoff b _ qc (htr hm)) hr fun qc hm => hbuilt qc (hs hm)
  exact hrun (List.Subset.refl _)

end Bears

/-- **The origin of `highQC`.**  In a run in which no forged certificate gets past the replica, `highQC`
and the certificate of every proposal are the first one, built by the replica, or received and
verified, and each proposal extends the block its certificate names. -/
theorem highQC_trusted (hb : nd.isByz = false) (inputs : List Safety.Input)
    (hu : Unforged nd (Safety.Received inputs) (runOn nd inputs).trace) :
    Trusted nd (Safety.Received inputs) (runOn nd inputs).trace (runOn nd inputs).highQC ∧
      ∀ e ∈ (runOn nd inputs).sent, ∀ b, e.body = .block b →
        ∃ qc, b.qc = some qc ∧ b.prevID = qc.blockID ∧
          Trusted nd (Safety.Received inputs) (runOn nd inputs).trace qc := by
  have hbears : Bears (Trusted nd (Safety.Received inputs) (runOn nd inputs).trace) (runOn nd inputs) := by
    refine runOn_bears hb inputs (.initial rfl) ?_ ?_ fun qc => .built
    · intro b high qc hoff hr hqc hlt
      exact (hu.offered b high qc hoff hqc hlt).trusted hr
    · intro qc hr hp
      exact hp.elim (fun hl => (hu.named qc hr hl).trusted hr) (.verified hr)
  exact ⟨hbears.high, hbears.block⟩

/-- Every certificate that was offered to `updateHighQC` and is newer than `highQC` verifies. -/
def offersVerify (nd : Node) (trace : List Entry) : Bool :=
  trace.all fun e => match e with
    | .offered ⟨_, some qc, _, _, _, _, _, _⟩ high =>
      decide (high < qc.view → verifyQC nd.toConfig qc = .ok true)
    | _ => true

theorem vouched_of_offersVerify (h : offersVerify nd trace = true) {b : Block} {high : ℤ}
    (hoff : .offered b high ∈ trace) (hqc : b.qc = some qc) (hlt : high < qc.view) :
    Vouched nd trace qc := by
  have hb := List.all_eq_true.1 h _ hoff
  obtain ⟨_, _, _, _, _, _, _, _⟩ := b
  cases hqc
  exact Or.inr (of_decide_eq_true hb hlt)

/-! ### Runs -/

/-- Node 2 where node 1 leads view 1 and node 2 the other views. -/
def secondLeader : Node := (FourNodes.config fun v => if v ≤ 1 then "1" else "2").honest "2"

/-- A certificate of view 5 whose signature is not that of its signer. -/
def forged : QC := ⟨"1", 5, 7, ["3"], [FourNodes.signature 0 7], []⟩

/-- The block of view 1 arrives with the forged certificate, and node 2 goes on to view 2. -/
def forgedRun : List Safety.Input :=
  [.msg (.block (FourNodes.block 1 forged)), .event .timer, .event .timer,
    .event (.newView [] ⟨[]⟩), .event (.newView [] ⟨[]⟩)]

/-- A proposal on the forged certificate. -/
def onForged (e : Envelope) : Bool :=
  match e.body with
  | .block b => decide (b.qc = some forged ∧ b.prevID = forged.blockID)
  | _ => false

/-- **A forged certificate is proposed on.** -/
theorem forged_proposed :
    (runOn secondLeader forgedRun).highQC = forged ∧
      ¬ Trusted secondLeader (Safety.Received forgedRun) (runOn secondLeader forgedRun).trace forged ∧
      ∃ e ∈ (runOn secondLeader forgedRun).sent, ∃ b, e.body = .block b ∧ b.qc = some forged ∧
        b.prevID = forged.blockID := by
  have hhigh : (runOn secondLeader forgedRun).highQC = forged := by decide_cbv
  have hbuilt : .built forged ∉ (runOn secondLeader forgedRun).trace := by decide_cbv
  have hsent : (runOn secondLeader forgedRun).sent.any onForged = true := by decide_cbv
  have hverify : verifyQC secondLeader.toConfig forged ≠ .ok true := by decide_cbv
  refine ⟨hhigh, ?_, ?_⟩
  · rintro (h | h | ⟨-, hv⟩)
    · exact absurd (congrArg QC.view h) (by decide)
    · exact hbuilt h
    · exact hverify hv
  · obtain ⟨e, he, htest⟩ := List.any_eq_true.1 hsent
    refine ⟨e, he, ?_⟩
    unfold onForged at htest
    cases hbody : e.body with
    | block b =>
      simp only [hbody] at htest
      exact ⟨b, rfl, of_decide_eq_true htest⟩
    | vote v => simp [hbody] at htest
    | tmo m => simp [hbody] at htest

/-- Node 2 gets two blocks and proposes for view 2. -/
def genuineRun : List Safety.Input :=
  [.msg (.block (FourNodes.block 1 .initial)),
    .msg (.block (FourNodes.block 2 (FourNodes.certificate 1))),
    .event (.newView [] ⟨[]⟩), .event (.newView [] ⟨[]⟩)]

/-- Node 2 adopts the certificate of view 1, which it can verify, and proposes on it. -/
theorem highQC_trusted_genuineRun :
    (runOn secondLeader genuineRun).highQC = FourNodes.certificate 1 ∧
      Trusted secondLeader (Safety.Received genuineRun) (runOn secondLeader genuineRun).trace
        (runOn secondLeader genuineRun).highQC := by
  have hhigh : (runOn secondLeader genuineRun).highQC = FourNodes.certificate 1 := by decide_cbv
  have hoffers : offersVerify secondLeader (runOn secondLeader genuineRun).trace = true := by
    decide_cbv
  refine ⟨hhigh, (highQC_trusted rfl genuineRun ⟨?_, ?_⟩).1⟩
  · intro b high qc hoff hqc hlt
    exact vouched_of_offersVerify hoffers hoff hqc hlt
  · -- no received certificate names node 2
    rintro qc (⟨b, hb, hqc⟩ | ⟨m, hm, -⟩) hl
    · simp only [Safety.Received, genuineRun, List.mem_cons, Safety.Input.msg.injEq, Msg.block.injEq,
        reduceCtorEq, List.not_mem_nil, or_false] at hb
      rcases hb with rfl | rfl <;> cases hqc <;> exact absurd hl (by decide)
    · simp [Safety.Received, genuineRun] at hm

end HotStuff

end Bamboo
