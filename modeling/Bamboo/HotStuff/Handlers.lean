import Bamboo.HotStuff.SmallSteps

/-!
# The handlers of HotStuff are made of small steps

Each handler of an honest replica, run from a state that satisfies `Ok`, goes through small steps only,
also when it stops with a fault.  `hotStuffSteps` puts this in the form in which the network's runs
become runs in small steps.
-/

namespace Bamboo

namespace HotStuff

open Prog

variable {nd : Node} {In : Msg → Prop} {s t : HotStuff}

/-! ### Along a sequence of small steps -/

theorem Acts.subset (h : Relation.ReflTransGen (Act nd In) s t) :
    s.sent ⊆ t.sent ∧ s.trace ⊆ t.trace := by
  induction h with
  | refl => exact ⟨List.Subset.refl _, List.Subset.refl _⟩
  | tail _ h ih => exact ⟨List.Subset.trans ih.1 h.subset.1, List.Subset.trans ih.2 h.subset.2⟩

theorem Heard.acts {m : Msg} (hm : Heard In s m) (h : Relation.ReflTransGen (Act nd In) s t) :
    Heard In t m := hm.mono (fun _ h => h) (Acts.subset h).1

theorem Known.acts {qc : QC} (hq : Known In s qc) (h : Relation.ReflTransGen (Act nd In) s t) :
    Known In t qc := hq.mono (fun _ h => h) (Acts.subset h).1 (Acts.subset h).2

theorem Ok.acts (hok : Ok nd In s) (h : Relation.ReflTransGen (Act nd In) s t) : Ok nd In t := by
  induction h with
  | refl => exact hok
  | tail _ h ih => exact ih.act h

/-- The current view never goes back. -/
theorem Act.curView_le (h : Act nd In s t) : s.pm.curView ≤ t.pm.curView := by
  cases h with
  | advance v => exact s.pm.curView_le_advanceView v
  | @certify qc u hk hv hp ht =>
    obtain ⟨v, rfl, -⟩ := updatePreferredView_cases ht
    simpa using s.pm.curView_le_advanceView qc.view
  | offer => simp
  | _ => exact Int.le_refl _

theorem Acts.curView_le (h : Relation.ReflTransGen (Act nd In) s t) :
    s.pm.curView ≤ t.pm.curView := by
  induction h with
  | refl => exact Int.le_refl _
  | tail _ h ih => exact Int.le_trans ih h.curView_le

/-- A small step that proposes nothing. -/
structure Reacts (nd : Node) (In : Msg → Prop) (s t : HotStuff) : Prop where
  act : Act nd In s t
  blocks : t.sent.filterMap blockOf = s.sent.filterMap blockOf

theorem Reacts.acts (h : Relation.ReflTransGen (Reacts nd In) s t) :
    Relation.ReflTransGen (Act nd In) s t :=
  Relation.ReflTransGen.mono (fun _ _ h => h.act) _ _ h

theorem Reacts.steps {m : Go HotStuff Unit} (h : Steps (Reacts nd In) m (fun _ _ => True) s) :
    Steps (Act nd In) m (fun _ _ => True) s :=
  wp_mono h (fun _ _ h => ⟨Reacts.acts h.1, trivial⟩) fun _ h => Reacts.acts h

theorem Reacts.blocks_eq (h : Relation.ReflTransGen (Reacts nd In) s t) :
    t.sent.filterMap blockOf = s.sent.filterMap blockOf := by
  induction h with
  | refl => rfl
  | tail _ h ih => exact h.blocks.trans ih

/-! ### Certificates and votes -/

theorem tryCommit_steps (hok : Ok nd In s) {qc : QC} (hk : Known In s qc) (hp : Passes nd qc)
    (h3 : 3 ≤ qc.view) :
    Steps (Reacts nd In) (tryCommit qc) (fun _ t => pending t.trace = pending s.trace) s := by
  unfold tryCommit
  refine .get_bind ?_
  cases hg : s.commitRule qc with
  | none => exact .pure rfl
  | some g =>
    refine .single (wp_bind.2 (wp_zoom.2 (wp_mono (BlockChain.commitBlock_spec hok.forrest _ _) ?_ ?_)))
    · intro r bc hc
      cases r with
      | none =>
        exact ⟨⟨.commitFailed ⟨hc.failed rfl, hc.wf, hc.has, hc.total⟩, rfl⟩, rfl⟩
      | some res =>
        exact ⟨⟨.commit hk hp h3 hg hc, rfl⟩, by simp [pendingNext]⟩
    · intro bc hd
      exact ⟨.commitFailed hd, rfl⟩

theorem processCertificate_steps (hb : nd.isByz = false) (hok : Ok nd In s) {qc : QC}
    (hk : Known In s qc) :
    Steps (Reacts nd In) (processCertificate nd qc) (fun _ t => pending t.trace = pending s.trace) s := by
  unfold processCertificate
  refine .get_bind (.ite (fun _ => .pure rfl) fun hv => ?_)
  refine .ofExcept_bind fun ok hcheck => ?_
  refine .ite (fun _ => .pure rfl) fun hq => .ite (fun hbyz => ?_) fun _ => ?_
  · simp [hb] at hbyz
  have hp : Passes nd qc := passes_of_checkQC (by simpa [hq] using hcheck)
  cases ht : s.updatePreferredView qc with
  | none => exact .single ⟨⟨.bufferQC hk, rfl⟩, rfl⟩
  | some t =>
    have ha : Act nd In s _ := .certify hk (by omega) hp ht
    have htr : pending ({ t with pm := t.pm.advanceView qc.view }.updateHighQC qc).trace =
        pending s.trace := by
      obtain ⟨v, rfl, -⟩ := updatePreferredView_cases ht
      simp
    have hsent : ({ t with pm := t.pm.advanceView qc.view }.updateHighQC qc).sent = s.sent := by
      obtain ⟨v, rfl, -⟩ := updatePreferredView_cases ht
      simp
    refine .step_bind rfl ⟨ha, by rw [hsent]⟩ (.ite (fun _ => .pure htr) fun h3 => ?_)
    exact (tryCommit_steps (hok.act ha) (hk.act ha) hp (by omega)).mono fun _ _ h => h.trans htr

theorem processVote_steps (hb : nd.isByz = false) (hok : Ok nd In s) {v : Vote}
    (hv : Heard In s (.vote v) ∨ OwnVote nd s v) :
    Steps (Reacts nd In) (processVote nd v) (fun _ _ => True) s := by
  unfold processVote
  refine .ofExcept_bind fun ok hcheck => .ite (fun _ => .pure trivial) fun hq => .get_bind ?_
  have hc : Counts nd In s v := ⟨hv, verified_of_checkVote (by simpa [hq] using hcheck)⟩
  rcases BlockChain.addVote_cases nd.toConfig hok.quorum v with h | h | ⟨qc, h, hcert⟩
  · rw [h]
    exact ⟨.refl, trivial⟩
  · rw [h]
    exact .step_bind rfl ⟨.count hc, rfl⟩ (.pure trivial)
  · rw [h]
    dsimp only
    rw [← bind_assoc]
    have ha : Act nd In s _ := .build hc hcert
    refine .step_bind rfl ⟨ha, rfl⟩ ?_
    split
    · exact .single ⟨⟨@Act.bufferQC _ _ _ { qc with leader := nd.id } (.built (by simp)), rfl⟩,
        trivial⟩
    · exact (processCertificate_steps hb (hok.act ha) (.built (by simp))).mono fun _ _ _ => trivial

/-! ### Blocks -/

theorem vetBlock_steps (hb : nd.isByz = false) (hok : Ok nd In s) {b : Block}
    (hblk : Heard In s (.block b)) :
    Steps (Reacts nd In) (vetBlock nd b) (fun r t => r = none → Admitted nd In t b) s := by
  unfold vetBlock
  refine .get_bind (.ofExcept_bind fun _ _ => .ite (fun hfar => ?_) fun hnear => ?_)
  · exact .step_bind rfl ⟨.bufferBlock hblk hfar, rfl⟩ (.pure fun h => by cases h)
  cases hqc : b.qc with
  | none => exact .pure fun h => by cases h
  | some qc =>
    dsimp only
    rw [← bind_assoc]
    have ha : Act nd In s _ := .offer hblk hqc
    refine .step_bind rfl ⟨ha, by simp⟩ ?_
    have hok' := hok.act ha
    have hblk' := hblk.act ha
    refine .bind (Q := fun _ _ => True) (.ite (fun _ => ?_) fun _ => .pure trivial) ?_
    · exact (processCertificate_steps hb hok' (.block b hblk' hqc)).mono fun _ _ _ => trivial
    intro _ t hst _
    refine .get_bind (.ite (fun _ => .pure fun h => by cases h) fun hlow => ?_)
    refine .ite (fun _ => .pure fun h => by cases h) fun hlead => .pure fun _ => ?_
    have hcur : s.pm.curView ≤ t.pm.curView := Acts.curView_le (.head ha (Reacts.acts hst))
    exact ⟨hblk'.acts (Reacts.acts hst), by omega, by omega, by simpa using hlead⟩

theorem processBufferedQC_steps (hb : nd.isByz = false) (hok : Ok nd In s) (id : ℕ) :
    Steps (Reacts nd In) (processBufferedQC nd id) (fun _ t => pending t.trace = pending s.trace) s := by
  unfold processBufferedQC
  refine .get_bind ?_
  cases hl : s.bufferedQCs.lookup id with
  | none => exact .pure rfl
  | some qc =>
    refine (processCertificate_steps hb hok (hok.bufferedQC id qc hl)).bind ?_
    intro _ t _ ht
    exact .single ⟨⟨.dropQC id, rfl⟩, ht⟩

theorem castVote_steps (hb : nd.isByz = false) (hok : Ok nd In s) {b : Block}
    (hp : pending s.trace = some b) :
    Steps (Reacts nd In) (castVote nd b) (fun _ _ => True) s := by
  unfold castVote
  refine .get_bind ?_
  cases hr : s.votingRule b with
  | none => exact .pure trivial
  | some vote =>
    cases vote with
    | false => exact .pure trivial
    | true =>
      refine .ofExcept_bind fun v hv => ?_
      have ha : Act nd In s _ := .vote hp hr hv
      dsimp only
      rw [← bind_assoc]
      -- noting the vote and sending it are one step
      refine .bind (Q := fun _ _ => True) ?_ fun _ _ _ _ => .pure trivial
      by_cases hself : nd.elec.findLeaderFor (b.view + 1) = nd.id
      · simp only [if_pos hself] at ha ⊢
        have hown : OwnVote nd { s with trace := s.trace ++ [.voted b] } v :=
          ⟨b, List.mem_append_right _ (List.mem_singleton.2 rfl), hv⟩
        exact .step_bind rfl ⟨ha, rfl⟩ (processVote_steps hb (hok.act ha) (Or.inr hown))
      · simp only [if_neg hself] at ha ⊢
        exact .single ⟨⟨ha, by simp [send, blockOf]⟩, trivial⟩

theorem insertAndVote_steps (hb : nd.isByz = false) (hok : Ok nd In s) {b : Block}
    (hadm : Admitted nd In s b) :
    Steps (Reacts nd In) (insertAndVote nd b) (fun _ _ => True) s := by
  unfold insertAndVote
  refine .get_bind ?_
  rw [← bind_assoc]
  refine .bind (Q := fun _ t => pending t.trace = some b) (.single ?_) ?_
  · refine wp_bind.2 (wp_modify.2 (wp_zoom.2 (wp_zoom.2 (wp_mono
      (LevelledForest.addVertex_spec hok.forrest b) ?_ ?_))))
    · intro _ f hf
      exact ⟨⟨.accept hadm hf, rfl⟩, by simp [pendingNext]⟩
    · intro f hf
      exact ⟨.accept hadm hf, rfl⟩
  intro _ t hst hp
  refine (processBufferedQC_steps hb (hok.acts (Reacts.acts hst)) b.id).bind ?_
  intro _ u htu hpu
  exact castVote_steps hb ((hok.acts (Reacts.acts hst)).acts (Reacts.acts htu)) (hpu.trans hp)

theorem processBlockN_steps (hb : nd.isByz = false) (fuel : ℕ) (hok : Ok nd In s) {b : Block}
    (hblk : Heard In s (.block b)) :
    Steps (Reacts nd In) (processBlockN nd fuel b) (fun _ _ => True) s := by
  induction fuel generalizing s b with
  | zero => exact .throw
  | succ fuel ih =>
    unfold processBlockN
    refine (vetBlock_steps hb hok hblk).bind fun r t hst hr => ?_
    cases r with
    | some err => exact .pure trivial
    | none =>
      refine (insertAndVote_steps hb (hok.acts (Reacts.acts hst)) (hr rfl)).bind fun r' u htu _ => ?_
      cases r' with
      | some err => exact .pure trivial
      | none =>
        have hoku := (hok.acts (Reacts.acts hst)).acts (Reacts.acts htu)
        refine .get_bind ?_
        cases hl : u.bufferedBlocks.lookup b.view with
        | none => exact .pure trivial
        | some b' =>
          refine (ih hoku (hoku.bufferedBlock _ _ hl)).bind fun _ _ _ _ => ?_
          exact .step_bind rfl ⟨.dropBlock b.view, rfl⟩ (.pure trivial)

/-! ### Timeouts and view events -/

theorem processRemoteTmo_steps (hb : nd.isByz = false) (hok : Ok nd In s) {m : TMO}
    (hm : Heard In s (.tmo m)) :
    Steps (Reacts nd In) (processRemoteTmo nd m) (fun _ _ => True) s := by
  unfold processRemoteTmo
  refine .bind (Q := fun _ _ => True) ?_ ?_
  · cases hq : m.highQC with
    | none => exact .throw
    | some qc => exact (processCertificate_steps hb hok (.tmo m hm hq)).mono fun _ _ _ => trivial
  intro _ t _ _
  refine .get_bind ?_
  obtain ⟨tcl, hpm, -⟩ := t.pm.processRemoteTmo_cases m
  generalize t.pm.processRemoteTmo m = r at hpm ⊢
  obtain ⟨tc, pm⟩ := r
  dsimp only at hpm ⊢
  subst hpm
  refine .step_bind rfl ⟨.timeouts tcl, rfl⟩ ?_
  cases tc with
  | none => exact .pure trivial
  | some tc =>
    unfold processTC
    refine .get_bind (.ite (fun _ => .pure trivial) fun _ => ?_)
    exact .single ⟨⟨.advance tc.view, rfl⟩, trivial⟩

theorem processLocalTmo_steps (hb : nd.isByz = false) (hok : Ok nd In s) :
    Steps (Reacts nd In) (processLocalTmo nd s.pm.curView) (fun _ _ => True) s := by
  unfold processLocalTmo
  have ha : Act nd In s _ := .advance s.pm.curView
  refine .step_bind rfl ⟨ha, rfl⟩ (.get_bind ?_)
  have hs : Act nd In { s with pm := s.pm.advanceView s.pm.curView } _ :=
    .sendTmo (t := ⟨s.pm.curView + 1, nd.id, some s.highQC⟩)
      (by rw [Pacemaker.advanceView_of_le (Int.le_refl _)]) rfl rfl
  refine .step_bind rfl ⟨hs, by simp [send, blockOf]⟩ (processRemoteTmo_steps hb ((hok.act ha).act hs) (Or.inr ?_))
  exact ⟨_, List.mem_append_right _ (List.mem_singleton.2 rfl), rfl⟩

/-- An honest replica proposes on its `highQC`. -/
theorem forkChoice_of_honest (hb : nd.isByz = false) (s : HotStuff) :
    forkChoice nd s = .ok s.highQC s := by
  unfold forkChoice
  simp only [hb, true_or, if_true]
  rfl

theorem makeProposal_wp (hb : nd.isByz = false) (view : ℤ) (payload : List Transaction) :
    wp (makeProposal nd view payload) (fun b t => t = s ∧ Proposal nd s view b) (fun t => t = s) s := by
  unfold makeProposal
  refine wp_bind.2 (wp_of_ok (forkChoice_of_honest hb s) ?_)
  refine wp_ofExcept.2 ⟨fun b h => ?_, fun _ _ => rfl⟩
  obtain ⟨h₁, h₂, h₃, h₄⟩ := makeBlock_eq_ok h
  exact ⟨rfl, h₁, h₂, h₃, h₄⟩

theorem makePProposal_wp (hb : nd.isByz = false) (view : ℤ) (pBatch : PBatch) :
    wp (makePProposal nd view pBatch) (fun b t => t = s ∧ Proposal nd s view b) (fun t => t = s) s := by
  unfold makePProposal
  refine wp_bind.2 (wp_of_ok (forkChoice_of_honest hb s) ?_)
  refine wp_ofExcept.2 ⟨fun b h => ?_, fun _ _ => rfl⟩
  obtain ⟨h₁, h₂, h₃, h₄⟩ := makePBlock_eq_ok h
  exact ⟨rfl, h₁, h₂, h₃, h₄⟩

theorem proposal_wp (hb : nd.isByz = false) (view : ℤ) (payload : List Transaction) (pBatch : PBatch) :
    wp (if 1 < view then makePProposal nd view pBatch else makeProposal nd view payload)
      (fun b t => t = s ∧ Proposal nd s view b) (fun t => t = s) s :=
  wp_ite.2 ⟨fun _ => makePProposal_wp hb view pBatch, fun _ => makeProposal_wp hb view payload⟩

theorem processBlock_steps (hb : nd.isByz = false) (hok : Ok nd In s) {b : Block}
    (hblk : Heard In s (.block b)) :
    Steps (Reacts nd In) ((safety nd).processBlock b) (fun _ _ => True) s :=
  .bind (.get_bind (processBlockN_steps hb _ hok hblk)) fun _ _ _ _ => .pure trivial

/-- What a view event does before anything else: nothing, or it leaves the channel, with a proposal or
without. -/
inductive Opens (nd : Node) (s : HotStuff) : HotStuff → Prop
  | idle : Opens nd s s
  | pop {v : ℤ} {rest : List ℤ} (h : s.pm.newViewChan = v :: rest) :
      Opens nd s { s with pm := { s.pm with newViewChan := rest } }
  | propose {v : ℤ} {rest : List ℤ} {b : Block} (h : s.pm.newViewChan = v :: rest)
      (hl : nd.elec.isLeader nd.id v = true) (hb : Proposal nd s v b) :
      Opens nd s { s with
        pm := { s.pm with newViewChan := rest }
        sent := s.sent ++ [⟨none, .block b⟩] }

theorem Opens.acts (h : Opens nd s t) : Relation.ReflTransGen (Act nd In) s t := by
  cases h with
  | idle => exact .refl
  | pop h => exact .single (.pop h)
  | propose h hl hb => exact .single (.propose h hl hb)

/-- A view event is handled: it opens with a proposal or not, and nothing else is proposed. -/
theorem processNewView_opens (hb : nd.isByz = false) (hok : Ok nd In s) (payload : List Transaction)
    (pBatch : PBatch) :
    wp ((safety nd).processNewView nd payload pBatch)
      (fun _ t => ∃ u, Opens nd s u ∧ Relation.ReflTransGen (Reacts nd In) u t)
      (fun t => ∃ u, Opens nd s u ∧ Relation.ReflTransGen (Reacts nd In) u t) s := by
  unfold Safety.processNewView
  refine wp_bind.2 (wp_get.2 ?_)
  cases hq : s.pm.newViewChan with
  | nil =>
    simp only [safety, hq]
    exact ⟨s, .idle, .refl⟩
  | cons v rest =>
    simp only [safety, hq]
    by_cases hl : nd.elec.isLeader nd.id v = false
    · rw [if_pos hl]
      exact ⟨_, .pop hq, .refl⟩
    rw [if_neg hl]
    unfold Safety.proposeBlock
    refine wp_bind.2 (wp_set.2 (wp_bind.2 ?_))
    -- the block is made from the state without the event, and then sent
    refine wp_mono (proposal_wp hb v payload pBatch) ?_ ?_
    · rintro b _ ⟨rfl, hprop⟩
      have ho : Opens nd s _ := .propose hq (by simpa using hl)
        ⟨hprop.view, hprop.qc, hprop.proposer, hprop.prevID⟩
      refine wp_bind.2 (wp_modify.2 (wp_mono (processBlock_steps hb (hok.acts ho.acts) (Or.inr ?_)) ?_ ?_))
      · exact ⟨_, List.mem_append_right _ (List.mem_singleton.2 rfl), rfl⟩
      · intro _ t h
        exact ⟨_, ho, h.1⟩
      · intro t h
        exact ⟨_, ho, h⟩
    · rintro _ rfl
      exact ⟨_, .pop hq, .refl⟩

theorem processNewView_steps (hb : nd.isByz = false) (hok : Ok nd In s) (payload : List Transaction)
    (pBatch : PBatch) :
    Steps (Act nd In) ((safety nd).processNewView nd payload pBatch) (fun _ _ => True) s := by
  refine wp_mono (processNewView_opens hb hok payload pBatch) ?_ ?_
  · rintro _ t ⟨u, ho, h⟩
    exact ⟨ho.acts.trans (Reacts.acts h), trivial⟩
  · rintro t ⟨u, ho, h⟩
    exact ho.acts.trans (Reacts.acts h)

theorem handleTxn_steps :
    Steps (Reacts nd In) ((safety nd).handleTxn nd) (fun _ _ => True) s := by
  unfold Safety.handleTxn
  refine .get_bind (.ite (fun _ => ?_) fun _ => .pure trivial)
  exact .single ⟨⟨.advance 0, rfl⟩, trivial⟩

/-- **Every event of a replica is a sequence of small steps.** -/
theorem handleEvent_steps (hb : nd.isByz = false) (hok : Ok nd In s) (e : Event) :
    Steps (Act nd In) ((safety nd).handleEvent nd e) (fun _ _ => True) s := by
  cases e with
  | txn => exact Reacts.steps handleTxn_steps
  | newView payload pBatch => exact processNewView_steps hb hok payload pBatch
  | timer => exact Reacts.steps (.get_bind (processLocalTmo_steps hb hok))

/-- **So is the handling of every message**, and it proposes nothing. -/
theorem handleMsg_steps (hb : nd.isByz = false) (hok : Ok nd In s) {m : Msg} (hm : In m) :
    Steps (Reacts nd In) ((safety nd).handleMsg m) (fun _ _ => True) s := by
  cases m with
  | block b => exact processBlock_steps hb hok (Or.inl hm)
  | vote v => exact processVote_steps hb hok (Or.inl (Or.inl hm))
  | tmo t => exact processRemoteTmo_steps hb hok (Or.inl hm)

/-- More messages allow no fewer steps. -/
theorem Act.mono {In' : Msg → Prop} (h : Act nd In s t) (hI : ∀ m, In m → In' m) :
    Act nd In' s t := by
  have hH : ∀ m, Heard In s m → Heard In' s m := fun m hm => hm.mono hI (List.Subset.refl _)
  have hK : ∀ qc, Known In s qc → Known In' s qc :=
    fun qc hq => hq.mono hI (List.Subset.refl _) (List.Subset.refl _)
  have hC : ∀ v, Counts nd In s v → Counts nd In' s v :=
    fun v hv => ⟨hv.1.imp_left (hH _), hv.2⟩
  cases h with
  | advance v => exact .advance v
  | timeouts tcl => exact .timeouts tcl
  | pop h => exact .pop h
  | propose h hl hb => exact .propose h hl hb
  | bufferBlock hb h => exact .bufferBlock (hH _ hb) h
  | dropBlock v => exact .dropBlock v
  | offer hb hqc => exact .offer (hH _ hb) hqc
  | bufferQC hk => exact .bufferQC (hK _ hk)
  | dropQC id => exact .dropQC id
  | certify hk hv hp ht => exact .certify (hK _ hk) hv hp ht
  | commit hk hp h3 hg hc => exact .commit (hK _ hk) hp h3 hg hc
  | commitFailed hd => exact .commitFailed hd
  | accept hb hf => exact .accept ⟨hH _ hb.heard, hb.lower, hb.upper, hb.leader⟩ hf
  | vote hp hr hv => exact .vote hp hr hv
  | count hv => exact .count (hC _ hv)
  | build hv hc => exact .build (hC _ hv) hc
  | sendTmo hv hi hq => exact .sendTmo hv hi hq

/-- The state of one replica after a sequence of inputs. -/
def runOn (nd : Node) (inputs : List Safety.Input) : HotStuff :=
  ((safety nd).run nd (HotStuff.new nd.n) inputs).st

/-- A run of one replica is a sequence of small steps, whatever it is sent. -/
theorem runOn_acts (hb : nd.isByz = false) (inputs : List Safety.Input) :
    Relation.ReflTransGen (Act nd (Safety.Received inputs)) (HotStuff.new nd.n) (runOn nd inputs) ∧
      Ok nd (Safety.Received inputs) (runOn nd inputs) :=
  (safety nd).run_steps nd (fun hI h => h.mono hI) (fun hI h => h.mono hI) (fun In => ok_new nd In)
    (fun ho h => ho.act h) (fun ho hm => Reacts.acts (handleMsg_steps hb ho hm).final)
    (fun ho => (handleEvent_steps hb ho _).final) inputs

/-- **Invariant rule for the runs of one replica.** -/
theorem runOn_invariant (hb : nd.isByz = false) (inputs : List Safety.Input) {P : HotStuff → Prop}
    (h0 : P (HotStuff.new nd.n))
    (hs : ∀ s t, Ok nd (Safety.Received inputs) s → P s → Act nd (Safety.Received inputs) s t → P t) :
    P (runOn nd inputs) := by
  have key : ∀ t, Relation.ReflTransGen (Act nd (Safety.Received inputs)) (HotStuff.new nd.n) t →
      Ok nd (Safety.Received inputs) t ∧ P t := by
    intro t ht
    induction ht with
    | refl => exact ⟨ok_new nd _, h0⟩
    | tail _ h ih => exact ⟨ih.1.act h, hs _ _ ih.1 ih.2 h⟩
  exact (key _ (runOn_acts hb inputs).1).2

end HotStuff

/-- The network of HotStuff replicas in small steps. -/
def hotStuffSteps (cf : Config) (members : List NodeID) : Net.SmallSteps (hotStuffNet cf members) where
  step := fun i In => HotStuff.Act (cf.honest i) In
  Ok := fun i In => HotStuff.Ok (cf.honest i) In
  step_mono := fun hI h => h.mono hI
  ok_mono := fun hI h => h.mono hI
  outbox_subset := fun h => h.subset.1
  ok_init := fun i In => HotStuff.ok_new (cf.honest i) In
  ok_step := fun hok h => hok.act h
  receive := fun hok hm => HotStuff.Reacts.acts (HotStuff.handleMsg_steps rfl hok hm).final
  trigger := fun hok _ => (HotStuff.handleEvent_steps rfl hok _).final

end Bamboo
