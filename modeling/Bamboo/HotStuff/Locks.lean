import Bamboo.FourNodes
import Bamboo.HotStuff.Agreement
import Bamboo.HotStuff.Frames

/-!
# The lock at the time of a vote

Before a replica votes for a block it should have locked on the block's grandparent.  The lock is raised
by `processCertificate`, which `ProcessBlock` calls on the block's certificate; but it drops a certificate
of an old view, does not get to see the replica's own proposals, and the vote does not wait for it.

* `voteState`: the state in which `ProcessBlock` votes;
* `Called`: the calls of `ProcessBlock` in a run;
* `LockTaken`: the call finds the replica locked, or a certificate that will lock it;
* `votes_are_locked`, and `vote_without_lock`, a vote without the lock.
-/

namespace Bamboo

namespace HotStuff

open Prog

variable {nd : Node} {In : Msg → Prop} {s t u : HotStuff} {b : Block}

/-! ### The vote of a call -/

/-- The state in which `ProcessBlock`, called in `s`, votes for the block; `none` when it does not. -/
def voteState (nd : Node) (b : Block) (s : HotStuff) : Option HotStuff :=
  match vetBlock nd b s with
  | .ok none t =>
    match insertBlock nd b t with
    | .ok _ u =>
      match u.votingRule b, makeVote nd.toConfig b.view nd.id b.id with
      | some true, .ok _ => some u
      | _, _ => none
    | .error _ _ => none
  | _ => none

theorem voteState_cases (h : voteState nd b s = some u) :
    ∃ t v, vetBlock nd b s = .ok none t ∧ insertBlock nd b t = .ok () u ∧
      u.votingRule b = some true ∧ makeVote nd.toConfig b.view nd.id b.id = .ok v := by
  unfold voteState at h
  split at h
  · next t hv =>
    split at h
    · next u' hi =>
      split at h
      · next v hr hm =>
        cases h
        exact ⟨t, v, hv, hi, hr, hm⟩
      · cases h
    · cases h
  · cases h

/-- The replica is locked on the grandparent of a block whose certificate is for the parent, when both are
stored. -/
def Locked (s : HotStuff) (b : Block) : Prop :=
  ∀ p g qc, s.bc.forrest.getVertex b.prevID = some p → s.bc.forrest.getVertex p.prevID = some g →
    b.qc = some qc → qc.blockID = p.id → qc.view = p.view → 2 < p.view → g.view ≤ s.preferredView

/-- The replica is locked on the block's grandparent, or the certificate of the block will lock it: it is
not in the replica's own proposal, not old, and passes the check.  The block is not its own parent or
grandparent. -/
structure LockTaken (nd : Node) (s : HotStuff) (b : Block) : Prop where
  certificate : ∀ p g qc, s.bc.forrest.getVertex b.prevID = some p →
    s.bc.forrest.getVertex p.prevID = some g → b.qc = some qc → qc.blockID = p.id →
    qc.view = p.view → 2 < p.view → g.view ≤ s.preferredView ∨
      b.proposer ≠ nd.id ∧ s.pm.curView ≤ qc.view ∧ checkQC nd qc = .ok true
  noCycle : b.prevID ≠ b.id ∧ ∀ p, s.bc.forrest.getVertex b.prevID = some p → p.prevID ≠ b.id

/-! ### What happens between the call and the vote -/

/-- `t` comes after `s`: blocks other than those satisfying `N` have been stored before, and the lock
was not lowered. -/
structure After (N : ℕ → Block → Prop) (s t : HotStuff) : Prop where
  wf : t.bc.forrest.WF
  stored : ∀ x b, t.bc.forrest.getVertex x = some b → s.bc.forrest.getVertex x = some b ∨ N x b
  lock : s.preferredView ≤ t.preferredView

theorem After.trans {N : ℕ → Block → Prop} (h : After N s t) (h' : After N t u) : After N s u where
  wf := h'.wf
  stored := fun x b hb => (h'.stored x b hb).elim (fun hb => h.stored x b hb) Or.inr
  lock := Int.le_trans h.lock h'.lock

theorem After.refl {N : ℕ → Block → Prop} (hf : s.bc.forrest.WF) : After N s s :=
  ⟨hf, fun _ _ h => Or.inl h, Int.le_refl _⟩

/-- A change of other parts of the state. -/
theorem After.of_eq {N : ℕ → Block → Prop} (hf : s.bc.forrest.WF) (hbc : t.bc = s.bc)
    (hp : s.preferredView ≤ t.preferredView) : After N s t :=
  ⟨hbc ▸ hf, fun _ _ h => Or.inl (hbc ▸ h), hp⟩

theorem tryCommit_after {N : ℕ → Block → Prop} (hf : s.bc.forrest.WF) (qc : QC) :
    wp (tryCommit qc) (fun _ t => After N s t) (fun _ => True) s := by
  unfold tryCommit
  simp only [wp_bind, wp_get]
  cases s.commitRule qc with
  | none => exact .refl hf
  | some g =>
    simp only [wp_bind, wp_zoom]
    refine wp_mono (BlockChain.commitBlock_spec hf g.id s.pm.curView) (fun r bc hc => ?_) fun _ _ => trivial
    cases r with
    | none => exact ⟨hc.forrest, fun x b h => Or.inl (hc.stored x b h), Int.le_refl _⟩
    | some res => exact ⟨hc.forrest, fun x b h => Or.inl (hc.stored x b h), Int.le_refl _⟩

theorem processCertificate_after {N : ℕ → Block → Prop} (hf : s.bc.forrest.WF) (qc : QC) :
    wp (processCertificate nd qc) (fun _ t => After N s t) (fun _ => True) s := by
  unfold processCertificate
  simp only [wp_bind, wp_get, wp_ite, wp_pure, wp_ofExcept, wp_set]
  refine ⟨fun _ => .refl hf, fun _ => ⟨fun ok _ => ⟨fun _ => .refl hf, fun _ => ⟨fun _ => ?_, fun _ => ?_⟩⟩,
    fun _ _ => trivial⟩⟩
  · exact .of_eq hf rfl (Int.le_refl _)
  · cases ht : s.updatePreferredView qc with
    | none => exact .of_eq hf rfl (Int.le_refl _)
    | some t =>
      obtain ⟨v, rfl, hle, -⟩ := updatePreferredView_cases ht
      have h₁ : After N s
          ({ s with preferredView := v, pm := s.pm.advanceView qc.view }.updateHighQC qc) :=
        .of_eq hf (by simp) (by simpa using hle)
      simp only [wp_bind, wp_set, wp_ite, wp_pure]
      refine ⟨fun _ => h₁, fun _ => ?_⟩
      exact wp_mono (tryCommit_after h₁.wf qc) (fun _ _ h => h₁.trans h) fun _ h => h

/-- A certificate that is not old and passes the check locks an honest replica. -/
theorem processCertificate_locks (hb : nd.isByz = false) (hf : s.bc.forrest.WF) {qc : QC} {p g : Block}
    (hcur : s.pm.curView ≤ qc.view) (hc : checkQC nd qc = .ok true) (h2 : 2 < qc.view)
    (hp : s.bc.forrest.getVertex qc.blockID = some p) (hg : s.bc.forrest.getVertex p.prevID = some g) :
    wp (processCertificate nd qc) (fun _ t => g.view ≤ t.preferredView) (fun _ => True) s := by
  have hpar : s.bc.getParentBlock qc.blockID = some g := by
    simp [BlockChain.getParentBlock, hp, hg]
  unfold processCertificate
  simp only [wp_bind, wp_get, wp_ite, wp_pure, wp_ofExcept, wp_set, hc]
  refine ⟨fun h => by omega, fun _ => ⟨fun ok hok => ⟨fun h => ?_, fun _ => ⟨fun h => ?_, fun _ => ?_⟩⟩,
    fun _ _ => trivial⟩⟩
  · rw [h] at hok
    cases hok
  · rw [hb] at h
    cases h.1
  · cases ht : s.updatePreferredView qc with
    | none =>
      exfalso
      unfold updatePreferredView at ht
      rw [if_neg (by omega)] at ht
      simp only [BlockChain.getBlockByID, hp, hpar, Option.bind_eq_bind, Option.bind_some] at ht
      split_ifs at ht
    | some t =>
      obtain ⟨v, rfl, -, hcase⟩ := updatePreferredView_cases ht
      have hv : g.view ≤ v := by
        rcases hcase with ⟨h, -⟩ | ⟨p', g', -, -, hg', hmax⟩
        · omega
        · rw [hpar] at hg'
          cases hg'
          omega
      simp only [wp_bind, wp_set, wp_ite, wp_pure]
      refine ⟨fun _ => by simpa using hv, fun _ => ?_⟩
      have hf' : ({ s with preferredView := v, pm := s.pm.advanceView qc.view }.updateHighQC
          qc).bc.forrest.WF := by simpa using hf
      refine wp_mono (tryCommit_after (N := fun _ _ => False) hf' qc) (fun _ t h => ?_) fun _ h => h
      have := h.lock
      simp only [updateHighQC_preferredView] at this
      omega

/-- The state in which `ProcessBlock` comes to the block's certificate. -/
def offeredState (s : HotStuff) (b : Block) (qc : QC) : HotStuff :=
  { s with trace := s.trace ++ [Entry.offered b s.highQC.view] }.updateHighQC qc

/-- A block that passes the checks has a certificate, which was processed unless the block is the
replica's own. -/
theorem vetBlock_cases (h : vetBlock nd b s = .ok none t) :
    ∃ qc, b.qc = some qc ∧ (b.proposer = nd.id ∧ t = offeredState s b qc ∨
      b.proposer ≠ nd.id ∧ processCertificate nd qc (offeredState s b qc) = .ok () t) := by
  unfold vetBlock at h
  rw [get_bind_apply] at h
  obtain ⟨ok, s₁, hcheck, h⟩ := bind_eq_ok h
  have hs₁ : s₁ = s := by
    cases hx : checkBlock nd b with
    | ok x =>
      rw [hx] at hcheck
      cases hcheck
      rfl
    | error e =>
      rw [hx] at hcheck
      cases hcheck
  subst hs₁
  by_cases hfar : s₁.pm.curView + 1 < b.view
  · rw [if_pos hfar] at h
    cases h
  rw [if_neg hfar] at h
  cases hqc : b.qc with
  | none =>
    simp only [hqc] at h
    cases h
  | some qc =>
    simp only [hqc] at h
    unfold note at h
    rw [modify_bind_apply, modify_bind_apply] at h
    obtain ⟨_, u, hproc, h⟩ := bind_eq_ok h
    -- the remaining checks do not change the state
    have hu : u = t := by
      rw [get_bind_apply] at h
      by_cases hlow : b.view < u.pm.curView
      · rw [if_pos hlow] at h
        cases h
      rw [if_neg hlow] at h
      by_cases hlead : nd.elec.isLeader b.proposer b.view = false
      · rw [if_pos hlead] at h
        cases h
      rw [if_neg hlead] at h
      cases h
      rfl
    subst hu
    refine ⟨qc, rfl, ?_⟩
    by_cases hprop : b.proposer ≠ nd.id
    · rw [if_pos hprop] at hproc
      exact Or.inr ⟨hprop, hproc⟩
    · rw [if_neg hprop] at hproc
      cases hproc
      exact Or.inl ⟨not_not.1 hprop, rfl⟩

theorem vetBlock_after {N : ℕ → Block → Prop} (hf : s.bc.forrest.WF)
    (h : vetBlock nd b s = .ok none t) : After N s t := by
  obtain ⟨qc, -, hcase⟩ := vetBlock_cases h
  have h₁ : After N s (offeredState s b qc) := .of_eq hf (by simp [offeredState]) (by simp [offeredState])
  rcases hcase with ⟨-, rfl⟩ | ⟨-, hproc⟩
  · exact h₁
  · have h₂ := wp_ok (processCertificate_after (N := N) h₁.wf qc) hproc
    exact h₁.trans h₂

theorem insertBlock_after (hf : s.bc.forrest.WF) (h : insertBlock nd b s = .ok () t) :
    After (fun x b' => x = b.id ∧ b' = b) s t := by
  have hwp : wp (insertBlock nd b) (fun _ t => After (fun x b' => x = b.id ∧ b' = b) s t)
      (fun _ => True) s := by
    unfold insertBlock
    refine wp_bind.2 (wp_get.2 (wp_bind.2 (wp_modify.2 (wp_bind.2 (wp_zoom.2 (wp_zoom.2
      (wp_mono (LevelledForest.addVertex_spec hf b) (fun _ f hadd => ?_) fun _ _ => trivial)))))))
    have h₁ : After (fun x b' => x = b.id ∧ b' = b) s { s with
        bc := { s.bc with forrest := f }
        trace := s.trace ++ [.accepted b s.preferredView (s.bc.getBlockByID b.prevID)] } := by
      refine ⟨hadd.wf, fun x b' hx => ?_, Int.le_refl _⟩
      have hx' : f.getVertex x = some b' := hx
      rw [hadd.stored] at hx'
      split_ifs at hx' with hnew
      · cases hx'
        exact Or.inr ⟨hnew.1, rfl⟩
      · exact Or.inl hx'
    unfold processBufferedQC
    refine wp_bind.2 (wp_get.2 ?_)
    dsimp only
    cases s.bufferedQCs.lookup b.id with
    | none => exact h₁
    | some qc =>
      refine wp_bind.2 (wp_mono (m := processCertificate nd qc)
        (processCertificate_after (N := fun x b' => x = b.id ∧ b' = b) h₁.wf qc) (fun _ u hu => ?_) fun _ h => h)
      exact wp_modify.2 ((h₁.trans hu).trans (.of_eq hu.wf rfl (Int.le_refl _)))
  have hend := wp_ok hwp h
  exact hend

/-- **One call**: a replica that is locked or will be locked when `ProcessBlock` is called is locked when
it votes. -/
theorem locked_of_call (hb : nd.isByz = false) (hf : s.bc.forrest.WF)
    (hst : ∀ x b, s.bc.forrest.getVertex x = some b → b.id = x) (hc : LockTaken nd s b)
    (hu : voteState nd b s = some u) : Locked u b := by
  obtain ⟨t, -, hv, hi, -, -⟩ := voteState_cases hu
  have hat := vetBlock_after (N := fun x b' => x = b.id ∧ b' = b) hf hv
  have hau := hat.trans (insertBlock_after hat.wf hi)
  intro p g qc hp hg hqc hpid hview h2
  -- parent and grandparent were there when the block came
  have hps : s.bc.forrest.getVertex b.prevID = some p :=
    (hau.stored _ _ hp).resolve_right fun h => hc.noCycle.1 h.1
  have hgs : s.bc.forrest.getVertex p.prevID = some g :=
    (hau.stored _ _ hg).resolve_right fun h => hc.noCycle.2 p hps h.1
  rcases hc.certificate p g qc hps hgs hqc hpid hview h2 with hle | ⟨hprop, hcur, hcheck⟩
  · exact Int.le_trans hle hau.lock
  · obtain ⟨qc', hqc', hcase⟩ := vetBlock_cases hv
    rw [hqc] at hqc'
    cases hqc'
    have hproc := (hcase.resolve_left fun h => hprop h.1).2
    have hbc : (offeredState s b qc).bc = s.bc := by simp [offeredState]
    have hpm : (offeredState s b qc).pm = s.pm := by simp [offeredState]
    have hlock := wp_ok (processCertificate_locks (s := offeredState s b qc) hb (hbc ▸ hf)
      (hpm ▸ hcur) hcheck (hview ▸ h2) (p := p) (g := g)
      (by rw [hbc, hpid, hst _ _ hps]; exact hps) (by rw [hbc]; exact hgs)) hproc
    exact Int.le_trans hlock (insertBlock_after hat.wf hi).lock

/-! ### The calls of a run -/

/-- `ProcessBlock`, called in `s` on `b`, comes to a call in `s'` on `b'`: this one itself, or one on a
buffered block after it. -/
inductive Rounds (nd : Node) : HotStuff → Block → HotStuff → Block → Prop
  | first {s : HotStuff} {b : Block} : Rounds nd s b s b
  | next {s t u s' : HotStuff} {b c b' : Block} (hv : vetBlock nd b s = .ok none t)
      (hi : insertAndVote nd b t = .ok none u) (hl : u.bufferedBlocks.lookup b.view = some c)
      (hr : Rounds nd u c s' b') : Rounds nd s b s' b'

/-- The call of `ProcessBlock` that an input leads to: on a received block, or on the proposal for the
view that is entered. -/
inductive Called₀ (nd : Node) (s : HotStuff) : Safety.Input → HotStuff → Block → Prop
  | msg (b : Block) : Called₀ nd s (.msg (.block b)) s b
  | proposal {payload : List Transaction} {pBatch : PBatch} {v : ℤ} {rest : List ℤ} {b : Block}
      {t : HotStuff} (hq : s.pm.newViewChan = v :: rest) (hl : nd.elec.isLeader nd.id v = true)
      (hm : (if 1 < v then makePProposal nd v pBatch else makeProposal nd v payload)
        { s with pm := { s.pm with newViewChan := rest } } = .ok b t) :
      Called₀ nd s (.event (.newView payload pBatch)) (send ⟨none, .block b⟩ t) b

/-- `ProcessBlock` is called in `s` on `b`, in a run on the given inputs. -/
def Called (nd : Node) (inputs : List Safety.Input) (s : HotStuff) (b : Block) : Prop :=
  ∃ before x after s₀ b₀, inputs = before ++ x :: after ∧ Called₀ nd (runOn nd before) x s₀ b₀ ∧
    Rounds nd s₀ b₀ s b

theorem Rounds.ok (hb : nd.isByz = false) {s' : HotStuff} {b' : Block} (h : Rounds nd s b s' b')
    (hok : Ok nd In s) (hblk : Heard In s (.block b)) : Ok nd In s' := by
  induction h with
  | first => exact hok
  | next hv hi hl _ ih =>
    obtain ⟨hst, hadm⟩ := wp_ok (vetBlock_steps hb hok hblk) hv
    have hokt := hok.acts (Reacts.acts hst)
    obtain ⟨htu, -⟩ := wp_ok (insertAndVote_steps hb hokt (hadm rfl)) hi
    have hoku := hokt.acts (Reacts.acts htu)
    exact ih hoku (hoku.bufferedBlock _ _ hl)

theorem Called₀.ok (hb : nd.isByz = false) {x : Safety.Input} (h : Called₀ nd s x t b)
    (hok : Ok nd In s) (hx : ∀ m, x = .msg m → In m) : Ok nd In t ∧ Heard In t (.block b) := by
  cases h with
  | msg => exact ⟨hok, Or.inl (hx _ rfl)⟩
  | @proposal payload pBatch v rest _ t hq hl hm =>
    obtain ⟨rfl, hprop⟩ := wp_ok (proposal_wp hb v payload pBatch) hm
    have ha : Act nd In s _ := .propose hq hl ⟨hprop.view, hprop.qc, hprop.proposer, hprop.prevID⟩
    exact ⟨hok.act ha, Or.inr ⟨_, List.mem_append_right _ (List.mem_singleton.2 rfl), rfl⟩⟩

theorem Called.ok (hb : nd.isByz = false) {inputs : List Safety.Input} (h : Called nd inputs s b) :
    Ok nd (Safety.Received inputs) s := by
  obtain ⟨before, x, after, s₀, b₀, rfl, h₀, hr⟩ := h
  have hok : Ok nd (Safety.Received (before ++ x :: after)) (runOn nd before) :=
    (runOn_acts hb before).2.mono fun m hm => List.mem_append_left _ hm
  obtain ⟨hok₀, hblk⟩ := h₀.ok hb hok fun m hm => by
    rw [hm]
    exact List.mem_append_right _ List.mem_cons_self
  exact hr.ok hb hok₀ hblk

/-! ### All votes are votes of calls -/

/-- The votes on the trace satisfy `V`. -/
structure VotesIn (V : Block → Prop) (s : HotStuff) : Prop where
  wf : s.bc.quorum.WF
  votes : ∀ c, .voted c ∈ s.trace → V c

theorem votesIn_stable (V : Block → Prop) : Stable (VotesIn V) where
  wf := fun h => h.wf
  congr := fun h hq ht => ⟨hq ▸ h.wf, ht ▸ h.votes⟩
  deletes := fun h hd => ⟨hd.wf h.wf, h.votes⟩
  note := fun {s e} h he => by
    refine ⟨h.wf, fun c hc => ?_⟩
    rcases List.mem_append.1 hc with hc | hc
    · exact h.votes c hc
    · rw [← List.mem_singleton.1 hc] at he
      exact he.elim

theorem votesIn_counting (V : Block → Prop) (v : Vote) : Counting nd (VotesIn V) v where
  count := fun h => ⟨Quorum.wf_record h.wf v, h.votes⟩
  build := fun h _ => ⟨Quorum.wf_record h.wf v, fun c hc => h.votes c (by simpa using hc)⟩

theorem VotesIn.mono {V V' : Block → Prop} (h : VotesIn V s) (hV : ∀ c, V c → V' c) : VotesIn V' s :=
  ⟨h.wf, fun c hc => hV c (h.votes c hc)⟩

/-- Every vote that `ProcessBlock` casts is the vote of one of its rounds. -/
theorem processBlockN_votes {V : Block → Prop} (fuel : ℕ) (h : VotesIn V s)
    (hV : ∀ s' c u, Rounds nd s b s' c → voteState nd c s' = some u → V c) :
    wp (processBlockN nd fuel b) (fun _ t => VotesIn V t) (VotesIn V) s := by
  induction fuel generalizing s b with
  | zero => exact h
  | succ fuel ih =>
    unfold processBlockN
    refine wp_bind.2 (wp_mono (wp_and ((votesIn_stable V).vetBlock h b) wp_self) ?_ fun _ h => h.1)
    rintro r t ⟨ht, hv⟩
    cases r with
    | some err => exact ht
    | none =>
      have hcast : wp (insertAndVote nd b) (fun _ u => VotesIn V u) (VotesIn V) t := by
        rw [insertAndVote_eq]
        refine wp_bind.2 (wp_mono (wp_and ((votesIn_stable V).insertBlock ht b) wp_self) ?_ fun _ h => h.1)
        rintro _ u ⟨hu, hi⟩
        refine (votesIn_stable V).castVote hu fun v hr hm => ⟨⟨hu.wf, fun c hc => ?_⟩, votesIn_counting V v⟩
        rcases List.mem_append.1 hc with hc | hc
        · exact hu.votes c hc
        · cases List.mem_singleton.1 hc
          refine hV s b u .first ?_
          simp only [voteState, hv, hi, hr, hm]
      refine wp_bind.2 (wp_mono (wp_and hcast wp_self) ?_ fun _ h => h.1)
      rintro r u ⟨hu, hi⟩
      cases r with
      | some err => exact hu
      | none =>
        refine wp_bind.2 (wp_get.2 ?_)
        cases hl : u.bufferedBlocks.lookup b.view with
        | none => exact hu
        | some c =>
          refine wp_bind.2 (wp_mono (ih hu fun s' c' u' hr => hV s' c' u' (.next hv hi hl hr)) ?_ fun _ h => h)
          exact fun _ x hx => wp_bind.2 (wp_modify.2 ((votesIn_stable V).congr hx rfl rfl))

theorem processBlock_votes {V : Block → Prop} (h : VotesIn V s)
    (hV : ∀ s' c u, Rounds nd s b s' c → voteState nd c s' = some u → V c) :
    wp ((safety nd).processBlock b) (fun _ t => VotesIn V t) (VotesIn V) s :=
  wp_bind.2 (wp_mono (wp_bind.2 (wp_get.2 (processBlockN_votes _ h hV))) (fun _ _ h => h) fun _ h => h)

/-- One input: the votes are those of the call it leads to. -/
theorem step_votes {V : Block → Prop} (h : VotesIn V s) {x : Safety.Input}
    (hV : ∀ s₀ b₀ s' c u, Called₀ nd s x s₀ b₀ → Rounds nd s₀ b₀ s' c → voteState nd c s' = some u → V c)
    {up : Bool} : VotesIn V ((safety nd).step nd ⟨s, up⟩ x).st := by
  have hst := votesIn_stable V
  unfold Safety.step
  split_ifs
  · cases x with
    | msg m =>
      rw [Net.Proc.run_st]
      refine wp_final.1 ?_
      cases m with
      | block b => exact processBlock_votes h fun s' c u hr => hV s b s' c u (.msg b) hr
      | vote v => exact hst.processVote h fun _ => votesIn_counting V v
      | tmo m => exact hst.processRemoteTmo h m
    | event e =>
      rw [Net.Proc.run_st]
      refine wp_final.1 ?_
      cases e with
      | txn => exact hst.handleTxn h
      | timer => exact wp_bind.2 (wp_get.2 (hst.processLocalTmo h _))
      | newView payload pBatch =>
        show wp ((safety nd).processNewView nd payload pBatch) _ _ s
        unfold Safety.processNewView
        refine wp_bind.2 (wp_get.2 ?_)
        cases hq : ((safety nd).pm s).newViewChan with
        | nil => exact h
        | cons v rest =>
          have h' : VotesIn V { s with pm := { s.pm with newViewChan := rest } } := hst.congr h rfl rfl
          refine wp_bind.2 (wp_set.2 (wp_ite.2 ⟨fun _ => h', fun hl => ?_⟩))
          unfold Safety.proposeBlock
          refine wp_bind.2 (wp_mono (wp_and (hst.makeProposals h' v payload pBatch) wp_self) ?_
            fun _ h => h.1)
          rintro b t ⟨ht, hm⟩
          refine wp_bind.2 (wp_modify.2 (processBlock_votes (hst.congr ht rfl rfl) fun s' c u hr => ?_))
          exact hV _ b s' c u (.proposal hq (by simpa using hl) hm) hr
  · exact h

/-- Every vote of a run is the vote of a call of `ProcessBlock`. -/
theorem votes_called (nd : Node) (inputs : List Safety.Input) :
    ∀ b, .voted b ∈ (runOn nd inputs).trace → ∃ s u, Called nd inputs s b ∧ voteState nd b s = some u := by
  suffices h : VotesIn (fun b => ∃ s u, Called nd inputs s b ∧ voteState nd b s = some u)
      (runOn nd inputs) from h.votes
  unfold runOn
  induction inputs using List.reverseRecOn with
  | nil => exact ⟨Quorum.wf_new _, fun c hc => by cases hc⟩
  | append_singleton inputs x ih =>
    rw [Safety.run_concat]
    refine step_votes (ih.mono ?_) fun s₀ b₀ s' c u h₀ hr hu => ?_
    · rintro c ⟨s', u, ⟨before, y, after, s₀, b₀, rfl, h₀, hr⟩, hu⟩
      exact ⟨s', u, ⟨before, y, after ++ [x], s₀, b₀, by simp, h₀, hr⟩, hu⟩
    · exact ⟨s', u, ⟨inputs, x, [], s₀, b₀, rfl, h₀, hr⟩, hu⟩

/-- **Votes under the lock.**  In a run of an honest replica in which every call of `ProcessBlock` finds
it locked, or with a certificate that will lock it, the replica is locked at every vote: whenever a call votes, and
so for every vote on the trace of the run. -/
theorem votes_are_locked (nd : Node) (hb : nd.isByz = false) (inputs : List Safety.Input)
    (hcalls : ∀ s b, Called nd inputs s b → LockTaken nd s b) :
    (∀ s b u, Called nd inputs s b → voteState nd b s = some u → Locked u b) ∧
      ∀ b, .voted b ∈ (runOn nd inputs).trace →
        ∃ s u, Called nd inputs s b ∧ voteState nd b s = some u ∧ Locked u b := by
  have hlocked : ∀ s b u, Called nd inputs s b → voteState nd b s = some u → Locked u b := by
    intro s b u hc hu
    have hok := hc.ok hb
    exact locked_of_call hb hok.forrest (fun x b hx => (hok.stored x b hx).1) (hcalls s b hc) hu
  refine ⟨hlocked, fun b hb => ?_⟩
  obtain ⟨s, u, hc, hu⟩ := votes_called nd inputs b hb
  exact ⟨s, u, hc, hu, hlocked s b u hc hu⟩

/-- Blocks of views 1 to 4, each with the certificate of the one before. -/
def fourBlocks : List Block :=
  [FourNodes.block 1 .initial, FourNodes.block 2 (FourNodes.certificate 1),
    FourNodes.block 3 (FourNodes.certificate 2), FourNodes.block 4 (FourNodes.certificate 3)]

/-- A call without further rounds, on a block that is not its own parent or grandparent and has a
certificate that is new and correct. -/
def quietCall (nd : Node) (s : HotStuff) (b : Block) : Bool :=
  (match vetBlock nd b s with
    | .ok none t =>
      match insertAndVote nd b t with
      | .ok none u => (u.bufferedBlocks.lookup b.view).isNone
      | _ => true
    | _ => true) &&
  decide (b.prevID ≠ b.id ∧ b.proposer ≠ nd.id) &&
  (s.bc.forrest.getVertex b.prevID).all (fun p => decide (p.prevID ≠ b.id)) &&
  b.qc.all (fun qc => decide (s.pm.curView ≤ qc.view ∧ checkQC nd qc = .ok true))

theorem quietCall_rounds (h : quietCall nd s b = true) {s' : HotStuff} {b' : Block}
    (hr : Rounds nd s b s' b') : s' = s ∧ b' = b ∧ LockTaken nd s b := by
  simp only [quietCall, Bool.and_eq_true, decide_eq_true_eq, Option.all_eq_true] at h
  obtain ⟨⟨⟨hround, hne, hprop⟩, hpar⟩, hqc⟩ := h
  have htaken : LockTaken nd s b := by
    refine ⟨fun p g qc _ _ hb _ _ _ => Or.inr ⟨hprop, hqc qc hb⟩, hne, fun p hp => hpar p hp⟩
  cases hr with
  | first => exact ⟨rfl, rfl, htaken⟩
  | next hv hi hl =>
    simp only [hv, hi, hl] at hround
    cases hround

/-- In a run on messages, `ProcessBlock` is called on those that are blocks. -/
theorem called_msgs {ms : List Msg} (h : Called nd (ms.map .msg) s b) :
    ∃ k b₀, ms[k]? = some (.block b₀) ∧ Rounds nd (runOn nd ((ms.take k).map .msg)) b₀ s b := by
  obtain ⟨before, x, after, s₀, b₀, heq, h₀, hr⟩ := h
  obtain ⟨ms₁, ms₂, rfl, rfl, h₂⟩ := List.map_eq_append_iff.1 heq
  obtain ⟨m, ms₃, rfl, rfl, -⟩ := List.map_eq_cons_iff.1 h₂
  cases h₀
  exact ⟨ms₁.length, b₀, by simp, by rwa [List.take_left' rfl]⟩

/-- In a run on blocks, each of which is called quietly, all calls are of this kind. -/
theorem lockTaken_of_quietCalls {bs : List Block}
    (h : ∀ k < bs.length, ∀ b, bs[k]? = some b →
      quietCall nd (runOn nd ((bs.take k).map fun b => .msg (.block b))) b = true) :
    ∀ s b, Called nd (bs.map fun b => .msg (.block b)) s b → LockTaken nd s b := by
  intro s b hcall
  have hmsgs : Called nd ((bs.map Msg.block).map .msg) s b := by
    rw [List.map_map]
    exact hcall
  obtain ⟨k, b₀, hk, hr⟩ := called_msgs hmsgs
  rw [← List.map_take, List.map_map] at hr
  rw [List.getElem?_map, Option.map_eq_some_iff] at hk
  obtain ⟨_, hk, he⟩ := hk
  cases he
  obtain ⟨rfl, rfl, ht⟩ := quietCall_rounds (h k (List.getElem?_eq_some_iff.1 hk).1 _ hk) hr
  exact ht

theorem votes_are_locked_fourBlocks :
    ∃ s u, Called FourNodes.second (fourBlocks.map fun b => .msg (.block b)) s
        (FourNodes.block 4 (FourNodes.certificate 3)) ∧
      voteState FourNodes.second (FourNodes.block 4 (FourNodes.certificate 3)) s = some u ∧
      u.preferredView = 2 ∧ Locked u (FourNodes.block 4 (FourNodes.certificate 3)) := by
  have hcalls : ∀ k < fourBlocks.length, ∀ b, fourBlocks[k]? = some b →
      quietCall FourNodes.second (runOn FourNodes.second
        ((fourBlocks.take k).map fun b => .msg (.block b))) b = true := by
    have hall : (List.range fourBlocks.length).all (fun k => (fourBlocks[k]?).all fun b =>
        quietCall FourNodes.second (runOn FourNodes.second
          ((fourBlocks.take k).map fun b => .msg (.block b))) b) = true := by decide_cbv
    intro k hk b hb
    have := List.all_eq_true.1 hall k (List.mem_range.2 hk)
    rw [hb] at this
    exact this
  have htest : (voteState FourNodes.second (FourNodes.block 4 (FourNodes.certificate 3))
      (runOn FourNodes.second ((fourBlocks.take 3).map fun b => .msg (.block b)))).any
        (fun u => decide (u.preferredView = 2)) = true := by decide_cbv
  cases hu : voteState FourNodes.second (FourNodes.block 4 (FourNodes.certificate 3))
      (runOn FourNodes.second ((fourBlocks.take 3).map fun b => .msg (.block b))) with
  | none =>
    rw [hu] at htest
    cases htest
  | some u =>
    rw [hu] at htest
    have hc : Called FourNodes.second (fourBlocks.map fun b => .msg (.block b))
        (runOn FourNodes.second ((fourBlocks.take 3).map fun b => .msg (.block b)))
        (FourNodes.block 4 (FourNodes.certificate 3)) :=
      ⟨(fourBlocks.take 3).map fun b => .msg (.block b), _, [], _, _, rfl, .msg _, .first⟩
    exact ⟨_, u, hc, hu, of_decide_eq_true htest, (votes_are_locked FourNodes.second rfl _
      (lockTaken_of_quietCalls hcalls)).1 _ _ u hc hu⟩

/-- Node 2 gets the blocks of views 1 to 3, its timer fires twice, and it gets the block of view 5 on that
of view 3. -/
def lateBlock : List Safety.Input :=
  [.msg (.block (FourNodes.block 1 .initial)), .msg (.block (FourNodes.block 2 (FourNodes.certificate 1))),
    .msg (.block (FourNodes.block 3 (FourNodes.certificate 2))), .event .timer, .event .timer,
    .msg (.block (FourNodes.block 5 (FourNodes.certificate 3)))]

/-- **A vote without the lock**: the certificate of view 3 is old when the block of view 5 comes, and the
replica votes with its lock at view 0 and the grandparent at view 2. -/
theorem vote_without_lock :
    ∃ s u, Called FourNodes.second lateBlock s (FourNodes.block 5 (FourNodes.certificate 3)) ∧
      voteState FourNodes.second (FourNodes.block 5 (FourNodes.certificate 3)) s = some u ∧
      ¬ Locked u (FourNodes.block 5 (FourNodes.certificate 3)) := by
  have htest : (voteState FourNodes.second (FourNodes.block 5 (FourNodes.certificate 3))
      (runOn FourNodes.second (lateBlock.take 5))).any (fun u => decide (u.preferredView = 0 ∧
        u.bc.forrest.getVertex 3 = some (FourNodes.block 3 (FourNodes.certificate 2)) ∧
        u.bc.forrest.getVertex 2 = some (FourNodes.block 2 (FourNodes.certificate 1)))) = true := by
    decide_cbv
  cases hu : voteState FourNodes.second (FourNodes.block 5 (FourNodes.certificate 3))
      (runOn FourNodes.second (lateBlock.take 5)) with
  | none =>
    rw [hu] at htest
    cases htest
  | some u =>
    rw [hu] at htest
    obtain ⟨hlock, hp, hg⟩ := of_decide_eq_true htest
    refine ⟨_, u, ⟨lateBlock.take 5, _, [], _, _, rfl, .msg _, .first⟩, hu, fun h => ?_⟩
    have hle := h _ _ _ hp hg rfl rfl rfl (by decide)
    rw [hlock] at hle
    exact absurd hle (by decide)

end HotStuff

end Bamboo
