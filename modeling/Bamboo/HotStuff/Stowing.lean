import Bamboo.HotStuff.ForestFrames
import Bamboo.HotStuff.Polls

/-!
# From the call of `ProcessBlock` to the stored block

The block's own certificate may raise the lock and prune the forest before the block is stored, and the
certificate of the votes for the block may do so before the voting rule is asked.

* `Effect`: what an accepted certificate does to lock and forest;
* `Acceptable`: a block that `ProcessBlock` goes on to store;
* `Vetted`, `Stowed`: the state after the checks, and after the block is stored;
* `Hides`, `Stowed.votingRule_after`: when the voting rule no longer finds the block or its parent.
-/

namespace Bamboo

namespace HotStuff

open Prog

variable {nd : Node} {s t u : HotStuff} {b : Block} {vs : List Vote} {W : Finset NodeID}

/-! ### What a certificate does to the forest -/

/-- What an accepted certificate does to lock and forest: the lock is raised to the view of the certified
block's parent, and what is filed below the committed block is forgotten.  The votes on record for a
block that is not stored stay. -/
structure Effect (s : HotStuff) (qc : QC) (t : HotStuff) : Prop where
  lastVotedView : t.lastVotedView = s.lastVotedView
  bufferedQCs : t.bufferedQCs = s.bufferedQCs
  lock : qc.view ≤ 2 → t.preferredView = s.preferredView
  raised : 2 < qc.view → ∀ g, s.bc.getParentBlock qc.blockID = some g →
    t.preferredView = max s.preferredView g.view
  same : (∀ z, 3 ≤ qc.view → s.commitRule qc ≠ some z) → t.bc = s.bc
  pruned : ∀ z, 3 ≤ qc.view → s.commitRule qc = some z → s.bc.forrest.PrunedTo z.level t.bc.forrest
  total : t.bc.quorum.total = s.bc.quorum.total
  votes : ∀ x, s.bc.forrest.getVertex x = none → t.bc.quorum.votesFor x = s.bc.quorum.votesFor x

theorem commitLoop_votesFor {bc : BlockChain} {x : ℕ}
    (hst : ∀ y c, bc.forrest.getVertex y = some c → c.id ≠ x) (view : ℤ) (fuel : ℕ) {block : Block}
    (hb : block.id ≠ x) (acc : List Block) :
    wp (BlockChain.commitLoop view fuel block acc)
      (fun _ t => t.quorum.votesFor x = bc.quorum.votesFor x) (fun _ => True) bc := by
  induction fuel generalizing bc block acc with
  | zero => trivial
  | succ fuel ih =>
    unfold BlockChain.commitLoop
    simp only [wp_bind, wp_get, wp_ite, wp_set, wp_pure]
    refine ⟨fun _ => ?_, fun _ => trivial⟩
    have hdel : (bc.quorum.delete block.id).votesFor x = bc.quorum.votesFor x := by
      rw [Quorum.votesFor_delete, if_neg fun h => hb h.symm]
    cases hp : bc.forrest.getVertex block.prevID with
    | none => exact hdel
    | some parent =>
      refine wp_mono (ih ?_ (hst _ _ hp) _) (fun _ t ht => ?_) fun _ h => h
      · exact hst
      · exact ht.trans hdel

theorem commitBlock_votesFor {bc : BlockChain} {x : ℕ}
    (hst : ∀ y c, bc.forrest.getVertex y = some c → c.id ≠ x) (id : ℕ) (view : ℤ) :
    wp (BlockChain.commitBlock id view) (fun _ t => t.quorum.votesFor x = bc.quorum.votesFor x)
      (fun _ => True) bc := by
  unfold BlockChain.commitBlock
  simp only [wp_bind, wp_get]
  cases hv : bc.forrest.getVertex id with
  | none => exact rfl
  | some block =>
    simp only [wp_bind, wp_set]
    refine wp_mono (commitLoop_votesFor ?_ view _ (hst _ _ hv) []) (fun l t ht => ?_) fun _ h => h
    · exact hst
    simp only [wp_zoom]
    refine wp_mono (wp_self (m := LevelledForest.pruneUpToLevel (uint64 block.view))) (fun r f _ => ?_)
      fun _ h => h
    cases r with
    | none => exact ht
    | some res => exact ht

theorem tryCommit_effect (hs : s.bc.forrest.Sound) {qc : QC} (hr : tryCommit qc s = .ok () t) :
    t.preferredView = s.preferredView ∧ t.lastVotedView = s.lastVotedView ∧ t.bufferedQCs = s.bufferedQCs ∧
      (s.commitRule qc = none → t.bc = s.bc) ∧
      (∀ z, s.commitRule qc = some z → s.bc.forrest.PrunedTo z.level t.bc.forrest) ∧
      t.bc.quorum.total = s.bc.quorum.total ∧
      ∀ x, s.bc.forrest.getVertex x = none → t.bc.quorum.votesFor x = s.bc.quorum.votesFor x := by
  unfold tryCommit at hr
  rw [get_bind_apply] at hr
  cases hz : s.commitRule qc with
  | none =>
    simp only [hz] at hr
    cases hr
    exact ⟨rfl, rfl, rfl, fun _ => rfl, fun z h => (by cases h), rfl, fun _ _ => rfl⟩
  | some z =>
    simp only [hz] at hr
    obtain ⟨res, s', hcommit, hr⟩ := bind_eq_ok hr
    obtain ⟨bc, hc, rfl⟩ := zoom_eq_ok hcommit
    have hpr := BlockChain.commitBlock_prunedTo hs hc (commitRule_eq_some hs hz).1
    have htot := (wp_ok (BlockChain.commitBlock_spec hs.indexed.wf z.id s.pm.curView) hc).total
    have hvotes : ∀ x, s.bc.forrest.getVertex x = none → bc.quorum.votesFor x = s.bc.quorum.votesFor x := by
      intro x hx
      have hst : ∀ y c, s.bc.forrest.getVertex y = some c → c.id ≠ x := by
        rintro y c hy rfl
        rw [hs.named _ _ hy, hy] at hx
        cases hx
      have hv := wp_ok (commitBlock_votesFor hst z.id s.pm.curView) hc
      exact hv
    cases res with
    | none =>
      cases hr
      exact ⟨rfl, rfl, rfl, fun h => (by cases h), fun z' h => (by cases h; exact hpr), htot, hvotes⟩
    | some res =>
      cases hr
      exact ⟨rfl, rfl, rfl, fun h => (by cases h), fun z' h => (by cases h; exact hpr), htot, hvotes⟩

/-- **An accepted certificate**, lock and forest. -/
theorem processCertificate_effect (hb : nd.isByz = false) (hs : s.bc.forrest.Sound) {qc : QC}
    (ha : Accepts nd s qc) (hr : processCertificate nd qc s = .ok () t) : Effect s qc t := by
  obtain ⟨⟨hcur, hc⟩, hgo⟩ := ha
  have hnf : ¬ Forks nd qc := fun hf => by simp [hf.1] at hb
  obtain ⟨s', hs'⟩ := Option.isSome_iff_exists.1 (isSome_updatePreferredView.2 (hgo.resolve_left hnf))
  obtain ⟨v, rfl, -, hcases⟩ := updatePreferredView_cases hs'
  unfold Forks at hnf
  unfold processCertificate at hr
  rw [get_bind_apply, if_neg (by omega), hc, ok_bind_apply, if_neg (by simp), if_neg hnf, hs'] at hr
  dsimp only at hr
  rw [set_bind_apply] at hr
  -- what the commit starts from differs in lock, view and certificate only
  generalize hw : ({ s with preferredView := v, pm := s.pm.advanceView qc.view }.updateHighQC qc) = w at hr
  have hbc : w.bc = s.bc := by simp [← hw]
  have hrule : w.commitRule qc = s.commitRule qc := by
    unfold commitRule
    rw [hbc]
  have hlock : w.preferredView = v := by simp [← hw]
  have hlast : w.lastVotedView = s.lastVotedView := by simp [← hw]
  have hbuf : w.bufferedQCs = s.bufferedQCs := by simp [← hw]
  have hlow : qc.view ≤ 2 → v = s.preferredView := by
    intro h2
    rcases hcases with ⟨-, h⟩ | ⟨p, g, h2', -⟩
    · exact h
    · omega
  have hup : 2 < qc.view → ∀ g, s.bc.getParentBlock qc.blockID = some g → v = max s.preferredView g.view := by
    intro h2 g hg
    rcases hcases with ⟨h2', -⟩ | ⟨p, g', -, -, hg', h⟩
    · omega
    · rw [hg] at hg'
      cases hg'
      exact h
  by_cases h3 : qc.view < 3
  · rw [if_pos h3] at hr
    cases hr
    exact ⟨hlast, hbuf, fun h2 => hlock.trans (hlow h2), fun h2 g hg => hlock.trans (hup h2 g hg),
      fun _ => hbc, fun z hz => by omega, by rw [hbc], fun _ _ => by rw [hbc]⟩
  · rw [if_neg h3] at hr
    obtain ⟨h₁, h₂, h₃, h₄, h₅, h₆, h₇⟩ := tryCommit_effect (hbc ▸ hs) hr
    rw [hrule, hbc] at h₄ h₅
    rw [hbc] at h₆ h₇
    refine ⟨h₂.trans hlast, h₃.trans hbuf, fun h2 => (h₁.trans hlock).trans (hlow h2),
      fun h2 g hg => (h₁.trans hlock).trans (hup h2 g hg), fun hno => ?_, fun z _ hz => h₅ z hz, h₆, h₇⟩
    refine h₄ ?_
    cases hz : s.commitRule qc with
    | none => rfl
    | some z => exact absurd hz (hno z (by omega))

/-- An accepted certificate stores nothing. -/
theorem Effect.stored_before {qc : QC} (h : Effect s qc t) {x : ℕ} {a : Block}
    (hx : t.bc.forrest.getVertex x = some a) : s.bc.forrest.getVertex x = some a := by
  by_cases hz : ∃ z, 3 ≤ qc.view ∧ s.commitRule qc = some z
  · obtain ⟨z, h3, hz⟩ := hz
    exact ((h.pruned z h3 hz).stored_iff.1 hx).1
  · rw [h.same fun z h3 hz' => hz ⟨z, h3, hz'⟩] at hx
    exact hx

/-! ### From the call to the stored block -/

/-- `ProcessBlock` accepts the block: it goes on to `AddBlock`.  The block is new, its parent is stored
with the view of the block's certificate, and nothing waits for the block. -/
structure Acceptable (nd : Node) (s : HotStuff) (b : Block) (qc : QC) (p : Block) : Prop where
  cert : b.qc = some qc
  accepted : ∃ t, vetBlock nd b s = .ok none t
  fresh : s.bc.forrest.getVertex b.id = none
  parent : s.bc.forrest.getVertex b.prevID = some p
  parentView : p.view = qc.view
  noBlock : s.bufferedBlocks.lookup b.view = none
  noQC : s.bufferedQCs.lookup b.id = none
  noVotes : s.bc.quorum.votesFor b.id = ∅

theorem Acceptable.prevID_ne {qc : QC} {p : Block} (ha : Acceptable nd s b qc p) : b.prevID ≠ b.id := by
  intro he
  have hp := ha.parent
  rw [he, ha.fresh] at hp
  cases hp

/-- `ProcessBlock` processes the block's certificate, and it is accepted. -/
def Certifying (nd : Node) (s : HotStuff) (b : Block) (qc : QC) : Prop :=
  b.proposer ≠ nd.id ∧ Accepts nd s qc

/-- A container at this level survives the commit that the block's certificate may cause. -/
def Survives (nd : Node) (s : HotStuff) (b : Block) (qc : QC) (l : ℕ) : Prop :=
  ∀ z, Certifying nd s b qc → 3 ≤ qc.view → s.commitRule qc = some z → z.level ≤ l

/-- The lock is not above this view, also after the block's certificate. -/
def LockUpTo (nd : Node) (s : HotStuff) (b : Block) (qc : QC) (view : ℤ) : Prop :=
  s.preferredView ≤ view ∧ ∀ g, Certifying nd s b qc → 2 < qc.view →
    s.bc.getParentBlock qc.blockID = some g → g.view ≤ view

/-- The block's certificate names the block itself and is put into `bufferedQCs` under its id. -/
def Overrides (nd : Node) (s : HotStuff) (b : Block) (qc : QC) : Prop :=
  b.proposer ≠ nd.id ∧ Passed nd s qc ∧ 2 < qc.view ∧ qc.blockID = b.id

/-- What the checks of `ProcessBlock` leave behind. -/
structure Vetted (nd : Node) (s : HotStuff) (b : Block) (qc : QC) (t : HotStuff) : Prop where
  sound : SoundState t
  cur : t.pm.curView ≤ b.view
  lastVotedView : t.lastVotedView = s.lastVotedView
  total : t.bc.quorum.total = s.bc.quorum.total
  votes : t.bc.quorum.votesFor b.id = s.bc.quorum.votesFor b.id
  stored : ∀ x a, t.bc.forrest.getVertex x = some a ↔
    s.bc.forrest.getVertex x = some a ∧ ∀ l, s.bc.forrest.FiledAt x l → Survives nd s b qc l
  filed : ∀ x l, t.bc.forrest.FiledAt x l ↔ s.bc.forrest.FiledAt x l ∧ Survives nd s b qc l
  lock : ∀ view, t.preferredView ≤ view ↔ LockUpTo nd s b qc view
  waiting : ¬ Overrides nd s b qc → t.bufferedQCs.lookup b.id = s.bufferedQCs.lookup b.id
  overridden : Overrides nd s b qc → t.bufferedQCs.lookup b.id = some qc ∧ t.pm = s.pm

theorem vetBlock_current (h : vetBlock nd b s = .ok none t) : t.pm.curView ≤ b.view := by
  have hwp : wp (vetBlock nd b) (fun r t => r = none → t.pm.curView ≤ b.view) (fun _ => True) s := by
    unfold vetBlock
    simp only [wp_bind, wp_get, wp_ofExcept, wp_ite, wp_set, wp_pure]
    refine ⟨fun _ _ => ⟨fun _ h => (by cases h), fun _ => ?_⟩, fun _ _ => trivial⟩
    cases b.qc with
    | none => exact fun h => (by cases h)
    | some qc =>
      refine wp_bind.2 (wp_modify.2 (wp_bind.2 (wp_modify.2 (wp_bind.2 (wp_mono wp_self ?_ fun _ h => h)))))
      intro _ u _
      simp only [wp_bind, wp_get, wp_ite, wp_pure]
      exact ⟨fun _ h => (by cases h), fun hcur => ⟨fun _ h => (by cases h), fun _ _ => by omega⟩⟩
  exact wp_ok hwp h rfl

/-- Nothing happens to forest and lock. -/
theorem Vetted.of_same {qc : QC} (hs : SoundState s) (hno : ¬ Certifying nd s b qc)
    (hcur : t.pm.curView ≤ b.view) (hpm : t.pm = s.pm) (hbc : t.bc = s.bc)
    (hlast : t.lastVotedView = s.lastVotedView) (hlock : t.preferredView = s.preferredView)
    (hwait : ¬ Overrides nd s b qc → t.bufferedQCs.lookup b.id = s.bufferedQCs.lookup b.id)
    (hover : Overrides nd s b qc → t.bufferedQCs.lookup b.id = some qc) : Vetted nd s b qc t where
  sound := ⟨hbc ▸ hs.forrest, hbc ▸ hpm ▸ hs.lowest⟩
  cur := hcur
  lastVotedView := hlast
  total := by rw [hbc]
  votes := by rw [hbc]
  stored := fun x a => by
    rw [hbc]
    exact ⟨fun h => ⟨h, fun l _ z hc => absurd hc hno⟩, fun h => h.1⟩
  filed := fun x l => by
    rw [hbc]
    exact ⟨fun h => ⟨h, fun z hc => absurd hc hno⟩, fun h => h.1⟩
  lock := fun view => by
    rw [hlock]
    exact ⟨fun h => ⟨h, fun g hc => absurd hc hno⟩, fun h => h.1⟩
  waiting := hwait
  overridden := fun h => ⟨hover h, hpm⟩

theorem offeredState_eq (s : HotStuff) (b : Block) (qc : QC) :
    (offeredState s b qc).bc = s.bc ∧ (offeredState s b qc).pm = s.pm ∧
      (offeredState s b qc).lastVotedView = s.lastVotedView ∧
      (offeredState s b qc).preferredView = s.preferredView ∧
      (offeredState s b qc).bufferedQCs = s.bufferedQCs := by
  simp [offeredState]

theorem Effect.of_offered {qc : QC} (h : Effect (offeredState s b qc) qc t) : Effect s qc t := by
  obtain ⟨hbc, -, hlast, hlock, hbuf⟩ := offeredState_eq s b qc
  have hrule : (offeredState s b qc).commitRule qc = s.commitRule qc := by
    unfold commitRule
    rw [hbc]
  obtain ⟨h₁, h₂, h₃, h₄, h₅, h₆, h₇, h₈⟩ := h
  rw [hlast] at h₁
  rw [hbuf] at h₂
  rw [hlock] at h₃
  rw [hbc, hlock] at h₄
  rw [hbc, hrule] at h₅ h₆
  rw [hbc] at h₇ h₈
  exact ⟨h₁, h₂, h₃, h₄, h₅, h₆, h₇, h₈⟩

/-- After the block's certificate, the forest is as before, and all levels survive, or pruned, and the levels
from there on survive. -/
theorem Effect.survives_cases {qc : QC} (h : Effect s qc t) (hc : Certifying nd s b qc) :
    (t.bc = s.bc ∧ ∀ l, Survives nd s b qc l) ∨
      ∃ z, 3 ≤ qc.view ∧ s.commitRule qc = some z ∧ s.bc.forrest.PrunedTo z.level t.bc.forrest ∧
        ∀ l, Survives nd s b qc l ↔ z.level ≤ l := by
  by_cases hz : ∃ z, 3 ≤ qc.view ∧ s.commitRule qc = some z
  · obtain ⟨z, h3, hz⟩ := hz
    refine Or.inr ⟨z, h3, hz, h.pruned z h3 hz, fun l => ⟨fun hl => hl z hc h3 hz, fun hl z' _ _ hz' => ?_⟩⟩
    rw [hz] at hz'
    cases hz'
    exact hl
  · refine Or.inl ⟨h.same fun z h3 hz' => hz ⟨z, h3, hz'⟩, fun l z _ h3 hz' => ?_⟩
    exact absurd ⟨z, h3, hz'⟩ hz

/-- The lock after the block's certificate. -/
theorem Effect.lockUpTo {qc : QC} (h : Effect s qc t) (hb : nd.isByz = false) (hc : Certifying nd s b qc)
    (view : ℤ) : t.preferredView ≤ view ↔ LockUpTo nd s b qc view := by
  by_cases h2 : qc.view ≤ 2
  · rw [h.lock h2]
    exact ⟨fun hl => ⟨hl, fun g _ h2' => by omega⟩, fun hl => hl.1⟩
  · have htr := hc.2.2.resolve_left fun hf => by simp [hf.1] at hb
    obtain ⟨g, hg⟩ := Option.isSome_iff_exists.1 (htr.resolve_left h2).2
    rw [h.raised (by omega) g hg, max_le_iff]
    refine ⟨fun hl => ⟨hl.1, fun g' _ _ hg' => ?_⟩, fun hl => ⟨hl.1, hl.2 g hc (by omega) hg⟩⟩
    rw [hg] at hg'
    cases hg'
    exact hl.2

/-- The block's certificate is accepted. -/
theorem Vetted.of_effect {qc : QC} (hb : nd.isByz = false) (hs : SoundState s)
    (hfresh : s.bc.forrest.getVertex b.id = none) (hc : Certifying nd s b qc) (heff : Effect s qc t)
    (hview : t.pm.curView = qc.view + 1) (hcur : t.pm.curView ≤ b.view) : Vetted nd s b qc t := by
  have hqv : s.pm.curView ≤ qc.view := hc.2.1.1
  have hlow := hs.lowest
  have hnot : ¬ Overrides nd s b qc := by
    rintro ⟨-, -, h2, hid⟩
    rcases hc.2.2 with hf | h2' | ⟨hx, -⟩
    · simp [hf.1] at hb
    · omega
    · rw [hid, BlockChain.getBlockByID, hfresh] at hx
      cases hx
  have hwait : ¬ Overrides nd s b qc → t.bufferedQCs.lookup b.id = s.bufferedQCs.lookup b.id :=
    fun _ => by rw [heff.bufferedQCs]
  rcases heff.survives_cases hc with ⟨hf, hsurv⟩ | ⟨z, h3, hz, hp, hsurv⟩
  · -- no commit
    refine ⟨⟨hf ▸ hs.forrest, ?_⟩, hcur, heff.lastVotedView, heff.total, heff.votes _ hfresh, fun x a => ?_,
      fun x l => ?_, heff.lockUpTo hb hc, hwait, fun h => absurd h hnot⟩
    · rw [hf, hview]
      omega
    · rw [hf]
      exact ⟨fun h => ⟨h, fun l _ => hsurv l⟩, fun h => h.1⟩
    · rw [hf]
      exact ⟨fun h => ⟨h, hsurv l⟩, fun h => h.1⟩
  · refine ⟨⟨hp.sound, ?_⟩, hcur, heff.lastVotedView, heff.total, heff.votes _ hfresh, fun x a => ?_,
      fun x l => ?_, heff.lockUpTo hb hc, hwait, fun h => absurd h hnot⟩
    · have hzv := (commitRule_eq_some hs.forrest hz).2
      have hzl : (z.level : ℤ) = z.view := uint64_of_nonneg (by omega)
      rw [hp.lowest, hview]
      omega
    · rw [hp.stored_iff]
      refine and_congr_right fun hx => ⟨?_, fun h => ?_⟩
      · rintro ⟨l, hl, hle⟩ l' hl'
        rw [hsurv, ← hl.unique hl']
        exact hle
      · obtain ⟨l, hl, -⟩ := hs.forrest.filedAt hx
        exact ⟨l, hl, (hsurv l).1 (h l hl)⟩
    · rw [hp.filedAt_iff, hsurv]

/-- **The checks of `ProcessBlock`** on a block that is not stored. -/
theorem vetBlock_vetted (hb : nd.isByz = false) (hs : SoundState s) {qc : QC} (hqc : b.qc = some qc)
    (hfresh : s.bc.forrest.getVertex b.id = none) (hv : vetBlock nd b s = .ok none t) :
    Vetted nd s b qc t := by
  have hcur := vetBlock_current hv
  obtain ⟨hbc, hpm, hlast, hlock, hbuf⟩ := offeredState_eq s b qc
  have hacc : Accepts nd (offeredState s b qc) qc ↔ Accepts nd s qc := by
    unfold Accepts Passed Traceable
    rw [hbc, hpm]
  obtain ⟨qc', hqc', hcase⟩ := vetBlock_cases hv
  rw [hqc] at hqc'
  cases hqc'
  rcases hcase with ⟨hown, rfl⟩ | ⟨hother, hproc⟩
  · refine .of_same hs (fun h => h.1 hown) hcur hpm hbc hlast hlock (fun _ => by rw [hbuf]) ?_
    exact fun h => absurd hown h.1
  rcases certificate_cases nd (offeredState s b qc) qc with ha | hw | hrej | hfault
  · -- the certificate is accepted
    have heff := processCertificate_effect hb (hbc ▸ hs.forrest) ha hproc
    have hview := processCertificate_accepts ha
    rw [hproc, final] at hview
    exact .of_effect hb hs hfresh ⟨hother, hacc.1 ha⟩ heff.of_offered hview hcur
  · -- it is put into the buffer
    have hrun := processCertificate_waits hw
    rw [hproc] at hrun
    cases hrun
    have hpass : Passed nd s qc := by
      unfold Passed
      rw [← hpm]
      exact hw.1
    refine .of_same hs (fun h => (hacc.2 h.2).not_waits hw) hcur hpm hbc hlast hlock (fun hn => ?_) fun h => ?_
    · dsimp only
      by_cases hid : b.id = qc.blockID
      · -- then it would override
        have htr := hw.2.2
        unfold Traceable at htr
        rw [not_or] at htr
        exact absurd ⟨hother, hpass, by omega, hid.symm⟩ hn
      · rw [AList.lookup_insert_ne hid, hbuf]
    · rw [← h.2.2.2]
      exact AList.lookup_insert _
  · have hrun := processCertificate_rejected hrej
    rw [hproc] at hrun
    cases hrun
    refine .of_same hs (fun h => (hacc.2 h.2).1.not_rejected hrej) hcur hpm hbc hlast hlock
      (fun _ => by rw [hbuf]) fun h => ?_
    have hpass : Passed nd (offeredState s b qc) qc := by
      unfold Passed
      rw [hpm]
      exact h.2.1
    exact absurd hrej hpass.not_rejected
  · obtain ⟨e, he⟩ := processCertificate_fault hfault
    rw [hproc] at he
    cases he

/-- The state in which `ProcessBlock`, called in `s`, has stored the block. -/
structure Stowed (nd : Node) (s : HotStuff) (b : Block) (qc : QC) (c : HotStuff) : Prop where
  sound : c.bc.forrest.Sound
  own : c.bc.forrest.getVertex b.id = some b
  cur : c.pm.curView ≤ b.view
  lastVotedView : c.lastVotedView = s.lastVotedView
  stored : ∀ x a, x ≠ b.id → (c.bc.forrest.getVertex x = some a ↔
    s.bc.forrest.getVertex x = some a ∧ ∀ l, s.bc.forrest.FiledAt x l → Survives nd s b qc l)
  keeps : ∀ x l, s.bc.forrest.FiledAt x l → Survives nd s b qc l → c.bc.forrest.FiledAt x l
  place : ∀ l, c.bc.forrest.FiledAt b.id l →
    l = b.level ∨ s.bc.forrest.FiledAt b.id l ∧ Survives nd s b qc l
  lock : ∀ view, c.preferredView ≤ view ↔ LockUpTo nd s b qc view

theorem Stowed.congr {qc : QC} {c c' : HotStuff} (h : Stowed nd s b qc c) (hc : SameCore c c') :
    Stowed nd s b qc c' := by
  obtain ⟨h₁, h₂, h₃, h₄, h₅, h₆, h₇, h₈⟩ := h
  rw [hc.forrest] at h₁ h₂ h₅ h₆ h₇
  exact ⟨h₁, h₂, hc.pm ▸ h₃, hc.lastVotedView ▸ h₄, h₅, h₆, h₇, hc.preferredView ▸ h₈⟩

/-- **`AddBlock`** after the checks. -/
theorem Vetted.storeBlock {qc : QC} (h : Vetted nd s b qc t)
    (hfresh : s.bc.forrest.getVertex b.id = none) (hr : storeBlock b t = .ok () u) :
    Stowed nd s b qc u := by
  obtain ⟨f, hf, rfl⟩ := storeBlock_eq_ok hr
  have hspec := wp_ok (wp_and (h.sound.forrest.addVertex b)
    (LevelledForest.addVertex_spec h.sound.forrest.indexed.wf b)) hf
  obtain ⟨⟨hsound, hkeeps, hnew⟩, hadd⟩ := hspec
  have hlow : t.bc.forrest.lowestLevel ≤ b.level := by
    have h₁ := h.sound.lowest
    have h₂ := h.cur
    have h₃ : (b.level : ℤ) = b.view := uint64_of_nonneg (by omega)
    omega
  have hnone : t.bc.forrest.getVertex b.id = none := by
    cases hx : t.bc.forrest.getVertex b.id with
    | none => rfl
    | some a =>
      have := ((h.stored b.id a).1 hx).1
      rw [hfresh] at this
      cases this
  refine ⟨hsound, ?_, h.cur, h.lastVotedView, fun x a hx => ?_,
    fun x l hl hs => hkeeps x l ((h.filed x l).2 ⟨hl, hs⟩), fun l hl => ?_, h.lock⟩
  · exact (hadd.stored b.id).trans (if_pos ⟨rfl, hlow, hnone⟩)
  · rw [← h.stored]
    dsimp only
    rw [hadd.stored, if_neg fun hn => hx hn.1]
  · -- the container was there, or has been made for the block
    cases hlk : t.bc.forrest.vertices.lookup b.id with
    | none => exact Or.inl (hl.unique (hnew hlow hlk))
    | some q =>
      obtain ⟨d, hd, -⟩ := h.sound.forrest.indexed b.id q hlk
      have hfiled : t.bc.forrest.FiledAt b.id d.level := ⟨q, d, hlk, hd, rfl⟩
      rw [hl.unique (hkeeps _ _ hfiled)]
      exact Or.inr ((h.filed _ _).1 hfiled)

/-! ### The voting rule before and after the certificate of the votes -/

theorem votingRule_iff (h2 : 2 < b.view) :
    s.votingRule b = some true ↔ ∃ p, s.bc.getParentBlock b.id = some p ∧ s.lastVotedView < b.view ∧
      s.preferredView ≤ p.view := by
  unfold votingRule BlockChain.votingRule
  rw [if_neg (by omega)]
  cases s.bc.getParentBlock b.id with
  | none => simp
  | some p =>
    simp only [Option.some.injEq, exists_eq_left']
    split_ifs with h
    · simp only [Option.some.injEq, Bool.false_eq_true, false_iff]
      omega
    · simp only [true_iff]
      omega

theorem votingRule_of_le (h2 : b.view ≤ 2) : s.votingRule b = some true := by
  unfold votingRule BlockChain.votingRule
  rw [if_pos h2]

/-- The commit that the certificate of the votes causes removes the block or its parent. -/
def Hides (nd : Node) (s : HotStuff) (b : Block) (qc : QC) (p : Block) : Prop :=
  ∃ g, s.bc.forrest.getVertex p.prevID = some g ∧ g.view + 1 = p.view ∧ p.view + 1 = b.view ∧
    (∀ l, s.bc.forrest.FiledAt p.prevID l → Survives nd s b qc l) ∧
    ((∃ l, s.bc.forrest.FiledAt b.prevID l ∧ l < g.level) ∨
      ∃ l, s.bc.forrest.FiledAt b.id l ∧ Survives nd s b qc l ∧ l < g.level)

section Rule

variable {qc : QC} {p : Block} {c e : HotStuff}

/-- The voting rule on the stored block. -/
theorem Stowed.votingRule_iff (hi : Stowed nd s b qc c) (ha : Acceptable nd s b qc p) (h2 : 2 < b.view) :
    c.votingRule b = some true ↔ (∀ l, s.bc.forrest.FiledAt b.prevID l → Survives nd s b qc l) ∧
      s.lastVotedView < b.view ∧ LockUpTo nd s b qc p.view := by
  have hne := ha.prevID_ne
  have hpar : ∀ a, c.bc.getParentBlock b.id = some a ↔ c.bc.forrest.getVertex b.prevID = some a := by
    intro a
    simp [BlockChain.getParentBlock, hi.own]
  rw [HotStuff.votingRule_iff h2, hi.lastVotedView]
  constructor
  · rintro ⟨a, hpa, hlast, hlock⟩
    obtain ⟨hsa, hsurv⟩ := (hi.stored _ _ hne).1 ((hpar a).1 hpa)
    rw [ha.parent] at hsa
    cases hsa
    exact ⟨hsurv, hlast, (hi.lock _).1 hlock⟩
  · rintro ⟨hsurv, hlast, hlock⟩
    exact ⟨p, (hpar p).2 ((hi.stored _ _ hne).2 ⟨ha.parent, hsurv⟩), hlast, (hi.lock _).2 hlock⟩

/-- A certificate for the block does not make the voting rule more generous. -/
theorem votingRule_of_after (hb : nd.isByz = false) (hs : c.bc.forrest.Sound) {qcv : QC}
    (hqc : CertifiedBy nd b qcv) (he : processCertificate nd qcv c = .ok () e)
    (h : e.votingRule b = some true) : c.votingRule b = some true := by
  by_cases h2 : b.view ≤ 2
  · exact votingRule_of_le h2
  rw [HotStuff.votingRule_iff (by omega)] at h ⊢
  obtain ⟨p, hp, hlast, hlock⟩ := h
  rcases certificate_cases nd c qcv with hacc | hw | hrej | hfault
  · have heff := processCertificate_effect hb hs hacc he
    simp only [BlockChain.getParentBlock, Option.bind_eq_bind, Option.bind_eq_some_iff] at hp
    obtain ⟨a, ha, hpa⟩ := hp
    have hpar : c.bc.getParentBlock b.id = some p := by
      simp [BlockChain.getParentBlock, heff.stored_before ha, heff.stored_before hpa]
    refine ⟨p, hpar, heff.lastVotedView ▸ hlast, ?_⟩
    have hraised := heff.raised (by rw [hqc.view]; omega) p (by rw [hqc.blockID]; exact hpar)
    omega
  · have hrun := processCertificate_waits hw
    rw [he] at hrun
    cases hrun
    exact ⟨p, hp, hlast, hlock⟩
  · have hrun := processCertificate_rejected hrej
    rw [he] at hrun
    cases hrun
    exact ⟨p, hp, hlast, hlock⟩
  · obtain ⟨err, herr⟩ := processCertificate_fault hfault
    rw [he] at herr
    cases herr

/-- A certificate commits the grandparent of its block, if the three views are consecutive. -/
theorem commitRule_iff {qcv : QC} (hpar : c.bc.getParentBlock qcv.blockID = some p)
    (hp : c.bc.forrest.getVertex p.id = some p) (z : Block) :
    c.commitRule qcv = some z ↔
      c.bc.forrest.getVertex p.prevID = some z ∧ z.view + 1 = p.view ∧ p.view + 1 = qcv.view := by
  have hgp : c.bc.getParentBlock p.id = c.bc.forrest.getVertex p.prevID := by
    simp [BlockChain.getParentBlock, hp]
  unfold commitRule
  rw [hpar, Option.bind_eq_bind, Option.bind_some, hgp]
  cases c.bc.forrest.getVertex p.prevID with
  | none => simp
  | some g =>
    simp only [Option.bind_some]
    split_ifs with hviews
    · constructor
      · intro h
        cases h
        exact ⟨rfl, hviews⟩
      · rintro ⟨h, -⟩
        exact h
    · constructor
      · intro h
        cases h
      · rintro ⟨h, hz⟩
        cases h
        exact absurd hz hviews

/-- Block and parent stay in the forest that is pruned to the level of the grandparent, unless one of them was
filed below it. -/
theorem Stowed.pruned_iff (hi : Stowed nd s b qc c) (ha : Acceptable nd s b qc p)
    (hsurv : ∀ l, s.bc.forrest.FiledAt b.prevID l → Survives nd s b qc l) {g : Block} {f : LevelledForest}
    (hpc : c.bc.forrest.getVertex b.prevID = some p) (hlevels : g.level < b.level)
    (hf : c.bc.forrest.PrunedTo g.level f) :
    f.getVertex b.id = some b ∧ f.getVertex b.prevID = some p ↔
      ¬((∃ l, s.bc.forrest.FiledAt b.prevID l ∧ l < g.level) ∨
        ∃ l, s.bc.forrest.FiledAt b.id l ∧ Survives nd s b qc l ∧ l < g.level) := by
  rw [hf.stored_iff, hf.stored_iff]
  constructor
  · rintro ⟨⟨-, lb, hlb, hleb⟩, -, lp, hlp, hlep⟩ (⟨l, hl, hlt⟩ | ⟨l, hl, hs', hlt⟩)
    · have := hlp.unique (hi.keeps _ _ hl (hsurv l hl))
      omega
    · have := hlb.unique (hi.keeps _ _ hl hs')
      omega
  · intro hnot
    refine ⟨⟨hi.own, ?_⟩, hpc, ?_⟩
    · obtain ⟨l, hl, -⟩ := hi.sound.filedAt hi.own
      refine ⟨l, hl, ?_⟩
      by_contra hlt
      rcases hi.place l hl with rfl | ⟨hsl, hss⟩
      · omega
      · exact hnot (Or.inr ⟨l, hsl, hss, by omega⟩)
    · obtain ⟨l, hl⟩ := LevelledForest.exists_filedAt ha.parent
      refine ⟨l, hi.keeps _ _ hl (hsurv l hl), ?_⟩
      by_contra hlt
      exact hnot (Or.inl ⟨l, hl, by omega⟩)

/-- **The voting rule after the certificate of the votes** still finds block and parent, unless the commit
has removed one of them. -/
theorem Stowed.votingRule_after (hb : nd.isByz = false) (hi : Stowed nd s b qc c)
    (ha : Acceptable nd s b qc p) {qcv : QC} (hqc : CertifiedBy nd b qcv)
    (he : processCertificate nd qcv c = .ok () e) (hrule : c.votingRule b = some true) :
    e.votingRule b = some true ↔ ¬ (2 < b.view ∧ Hides nd s b qc p) := by
  by_cases h2 : b.view ≤ 2
  · exact ⟨fun _ h => by omega, fun _ => votingRule_of_le h2⟩
  have h2 : 2 < b.view := by omega
  have hne := ha.prevID_ne
  obtain ⟨hsurv, hlast, hlock⟩ := (hi.votingRule_iff ha h2).1 hrule
  have hpc : c.bc.forrest.getVertex b.prevID = some p := (hi.stored _ _ hne).2 ⟨ha.parent, hsurv⟩
  have hpid : p.id = b.prevID := hi.sound.named _ _ hpc
  have hpar : c.bc.getParentBlock qcv.blockID = some p := by
    rw [hqc.blockID]
    simp [BlockChain.getParentBlock, hi.own, hpc]
  have hacc : Accepts nd c qcv := by
    refine ⟨⟨hqc.view ▸ hi.cur, hqc.passes⟩, Or.inr (Or.inr ⟨?_, by rw [hpar]; rfl⟩)⟩
    rw [hqc.blockID, BlockChain.getBlockByID, hi.own]
    rfl
  have heff := processCertificate_effect hb hi.sound hacc he
  have hraised := heff.raised (by rw [hqc.view]; omega) p hpar
  have hcl := (hi.lock p.view).2 hlock
  -- the rule comes down to the two blocks being there
  have hkept : e.votingRule b = some true ↔
      e.bc.forrest.getVertex b.id = some b ∧ e.bc.forrest.getVertex b.prevID = some p := by
    rw [HotStuff.votingRule_iff h2]
    simp only [BlockChain.getParentBlock, Option.bind_eq_bind, Option.bind_eq_some_iff]
    constructor
    · rintro ⟨a, ⟨b', hb', ha'⟩, -, -⟩
      have hbb := heff.stored_before hb'
      rw [hi.own] at hbb
      cases hbb
      have haa := heff.stored_before ha'
      rw [hpc] at haa
      cases haa
      exact ⟨hb', ha'⟩
    · rintro ⟨hbe, hpe⟩
      refine ⟨p, ⟨b, hbe, hpe⟩, ?_, ?_⟩
      · rw [heff.lastVotedView, hi.lastVotedView]
        exact hlast
      · rw [hraised]
        exact max_le hcl (Int.le_refl _)
  rw [hkept]
  have hcommit := commitRule_iff hpar (hpid ▸ hpc)
  rw [hqc.view] at hcommit
  by_cases hz : ∃ z, c.commitRule qcv = some z
  · -- the grandparent is committed
    obtain ⟨g, hg⟩ := hz
    obtain ⟨hgc, hgv, hpv⟩ := (hcommit g).1 hg
    have hgne : p.prevID ≠ b.id := by
      intro heq
      rw [heq, hi.own] at hgc
      cases hgc
      omega
    obtain ⟨hgs, hgsurv⟩ := (hi.stored _ _ hgne).1 hgc
    have hlevels : g.level < b.level := by
      have h₁ : (b.level : ℤ) = b.view := uint64_of_nonneg (by omega)
      have h₂ : (g.level : ℤ) = g.view := uint64_of_nonneg (by omega)
      omega
    rw [hi.pruned_iff ha hsurv hpc hlevels (heff.pruned g (by rw [hqc.view]; omega) hg), not_iff_not]
    constructor
    · exact fun hhid => ⟨h2, g, hgs, hgv, hpv, hgsurv, hhid⟩
    · rintro ⟨-, g', hg', -, -, -, hhid⟩
      rw [hgs] at hg'
      cases hg'
      exact hhid
  · -- nothing is committed
    have hf := heff.same fun z _ hz' => hz ⟨z, hz'⟩
    rw [hf]
    refine ⟨fun _ => ?_, fun _ => ⟨hi.own, hpc⟩⟩
    rintro ⟨-, g, hgs, hgv, hpv, hgsurv, -⟩
    have hgne : p.prevID ≠ b.id := by
      intro heq
      rw [heq, ha.fresh] at hgs
      cases hgs
    exact hz ⟨g, (hcommit g).2 ⟨(hi.stored _ _ hgne).2 ⟨hgs, hgsurv⟩, hgv, hpv⟩⟩

end Rule

end HotStuff

end Bamboo
