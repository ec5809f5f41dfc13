import Bamboo.HotStuff.Adoption

/-!
# What a foreign block does to a HotStuff replica

`ProcessBlock` on an arbitrary block of another node, from an arbitrary state.

* `Grows`: what no part of `ProcessBlock` takes back, so that an effect once made stays;
* `Quiet`: the states and blocks on which `ProcessBlock` comes to nothing;
* `noEffect_iff_quiet`, and `unauthentic_no_effect_iff` for blocks that are not the leader's.
-/

namespace Bamboo

namespace HotStuff

open Prog

/-! ### What `ProcessBlock` never takes back -/

/-- View, certificate and votes only go forward. -/
structure Grows (s t : HotStuff) : Prop where
  curView : s.pm.curView ≤ t.pm.curView
  highQC : s.highQC.view ≤ t.highQC.view
  votes : voteViews s.trace <+: voteViews t.trace

variable {nd : Node} {s t u : HotStuff} {qc : QC} {b : Block}

theorem Grows.refl (s : HotStuff) : Grows s s :=
  ⟨Int.le_refl _, Int.le_refl _, List.prefix_refl _⟩

theorem Grows.trans (h : Grows s t) (h' : Grows t u) : Grows s u :=
  ⟨Int.le_trans h.curView h'.curView, Int.le_trans h.highQC h'.highQC, h.votes.trans h'.votes⟩

/-- A change of other fields. -/
theorem Grows.of_eq (hp : t.pm.curView = s.pm.curView) (hq : t.highQC = s.highQC)
    (ht : t.trace = s.trace) : Grows s t :=
  ⟨Int.le_of_eq hp.symm, Int.le_of_eq (by rw [hq]), ht.symm ▸ List.prefix_refl _⟩

theorem grows_note (s : HotStuff) (e : Entry) : Grows s { s with trace := s.trace ++ [e] } :=
  ⟨Int.le_refl _, Int.le_refl _, by simp [voteViews]⟩

theorem grows_updateHighQC (s : HotStuff) (qc : QC) : Grows s (s.updateHighQC qc) := by
  refine ⟨by simp, ?_, by simp⟩
  rcases updateHighQC_highQC (s := s) qc with ⟨h, hlt⟩ | ⟨h, -⟩
  · rw [h]
    omega
  · exact Int.le_of_eq (congrArg QC.view h.symm)

theorem Grows.final {α : Type} {m : Go HotStuff α} (h : Steps Grows m (fun _ _ => True) s) :
    Grows s (Prog.final (m s)) := by
  have hst := Steps.final h
  generalize Prog.final (m s) = t at hst
  induction hst with
  | refl => exact Grows.refl s
  | tail _ h ih => exact ih.trans h

/-- What a program reached stays, whatever comes after it. -/
theorem Grows.bind {α β : Type} {m : Go HotStuff α} {f : α → Go HotStuff β}
    (h : ∀ a t, Steps Grows (f a) (fun _ _ => True) t) :
    Grows (Prog.final (m s)) (Prog.final ((m >>= f) s)) := by
  cases hm : m s with
  | ok a t =>
    rw [bind_apply_ok hm]
    exact Grows.final (h a t)
  | error e t =>
    rw [bind_apply_error hm]
    exact Grows.refl t

theorem tryCommit_grows : Steps Grows (tryCommit qc) (fun _ _ => True) s := by
  unfold tryCommit
  refine .get_bind ?_
  cases s.commitRule qc with
  | none => exact .pure trivial
  | some g =>
    refine .single (wp_bind.2 (wp_zoom.2 ?_))
    unfold wp
    cases BlockChain.commitBlock g.id s.pm.curView s.bc with
    | error e bc => exact .of_eq rfl rfl rfl
    | ok r bc =>
      cases r with
      | none => exact ⟨.of_eq rfl rfl rfl, trivial⟩
      | some res =>
        refine ⟨(grows_note s (.committed qc g s.bc.forrest res.1)).trans ?_, trivial⟩
        exact .of_eq rfl rfl rfl

theorem processCertificate_grows : Steps Grows (processCertificate nd qc) (fun _ _ => True) s := by
  unfold processCertificate
  refine .get_bind (.ite (fun _ => .pure trivial) fun hv => .ofExcept_bind fun ok _ => ?_)
  have hadv : ∀ v, Grows s { s with pm := s.pm.advanceView qc.view, preferredView := v } :=
    fun v => ⟨s.pm.curView_le_advanceView qc.view, Int.le_refl _, List.prefix_refl _⟩
  refine .ite (fun _ => .pure trivial) fun _ => .ite (fun _ => ?_) fun _ => ?_
  · exact .step_bind rfl (hadv s.preferredView) (.pure trivial)
  cases ht : s.updatePreferredView qc with
  | none => exact .single ⟨.of_eq rfl rfl rfl, trivial⟩
  | some t =>
    obtain ⟨v, rfl, -⟩ := updatePreferredView_cases ht
    refine .step_bind rfl ((hadv v).trans (grows_updateHighQC _ qc)) ?_
    exact .ite (fun _ => .pure trivial) fun _ => tryCommit_grows

theorem processVote_grows {v : Vote} : Steps Grows (processVote nd v) (fun _ _ => True) s := by
  unfold processVote
  refine .ofExcept_bind fun ok _ => .ite (fun _ => .pure trivial) fun _ => .get_bind ?_
  generalize s.bc.addVote nd.toConfig v = r
  obtain ⟨built, bc⟩ := r
  refine .step_bind rfl (.of_eq rfl rfl rfl) ?_
  cases built with
  | none => exact .pure trivial
  | some qc =>
    refine .step_bind rfl (grows_note _ _) ?_
    split
    · exact .single ⟨.of_eq rfl rfl rfl, trivial⟩
    · exact processCertificate_grows

theorem vetBlock_grows : Steps Grows (vetBlock nd b) (fun _ _ => True) s := by
  unfold vetBlock
  refine .get_bind (.ofExcept_bind fun _ _ => .ite (fun _ => ?_) fun _ => ?_)
  · exact .step_bind rfl (.of_eq rfl rfl rfl) (.pure trivial)
  cases b.qc with
  | none => exact .pure trivial
  | some qc =>
    refine .step_bind rfl (grows_note s _) (.step_bind rfl (grows_updateHighQC _ qc) ?_)
    refine .bind (.ite (fun _ => processCertificate_grows) fun _ => .pure trivial) fun _ t _ _ => ?_
    exact .get_bind (.ite (fun _ => .pure trivial) fun _ =>
      .ite (fun _ => .pure trivial) fun _ => .pure trivial)

theorem processBufferedQC_grows {id : ℕ} :
    Steps Grows (processBufferedQC nd id) (fun _ _ => True) s := by
  unfold processBufferedQC
  refine .get_bind ?_
  cases s.bufferedQCs.lookup id with
  | none => exact .pure trivial
  | some qc =>
    refine processCertificate_grows.bind fun _ t _ _ => ?_
    exact .single ⟨.of_eq rfl rfl rfl, trivial⟩

theorem castVote_grows : Steps Grows (castVote nd b) (fun _ _ => True) s := by
  unfold castVote
  refine .get_bind ?_
  cases s.votingRule b with
  | none => exact .pure trivial
  | some vote =>
    cases vote with
    | false => exact .pure trivial
    | true =>
      refine .ofExcept_bind fun v _ => .step_bind rfl (grows_note s _) ?_
      refine .bind (.ite (fun _ => processVote_grows) fun _ => ?_) fun _ _ _ _ => .pure trivial
      exact .single ⟨.of_eq rfl rfl rfl, trivial⟩

theorem insertAndVote_grows : Steps Grows (insertAndVote nd b) (fun _ _ => True) s := by
  unfold insertAndVote
  refine .get_bind (.step_bind rfl (grows_note s _) (.bind (Q := fun _ _ => True) (.single ?_) ?_))
  · refine wp_zoom.2 ?_
    unfold wp
    cases BlockChain.addBlock b s.bc with
    | error e bc => exact .of_eq rfl rfl rfl
    | ok r bc => exact ⟨.of_eq rfl rfl rfl, trivial⟩
  · exact fun _ t _ _ => processBufferedQC_grows.bind fun _ u _ _ => castVote_grows

theorem processBlockN_grows (fuel : ℕ) : Steps Grows (processBlockN nd fuel b) (fun _ _ => True) s := by
  induction fuel generalizing s b with
  | zero => exact .throw
  | succ fuel ih =>
    unfold processBlockN
    refine vetBlock_grows.bind fun r t _ _ => ?_
    cases r with
    | some err => exact .pure trivial
    | none =>
      refine insertAndVote_grows.bind fun r' u _ _ => ?_
      cases r' with
      | some err => exact .pure trivial
      | none =>
        refine .get_bind ?_
        cases u.bufferedBlocks.lookup b.view with
        | none => exact .pure trivial
        | some b' =>
          refine ih.bind fun _ _ _ _ => .step_bind rfl (.of_eq rfl rfl rfl) (.pure trivial)

/-! ### No effect -/

/-- Nothing that `ProcessBlock` may change for a block has changed. -/
structure SameState (s t : HotStuff) : Prop where
  highQC : t.highQC = s.highQC
  preferredView : t.preferredView = s.preferredView
  curView : t.pm.curView = s.pm.curView
  forrest : t.bc.forrest = s.bc.forrest
  bufferedQCs : ∀ id, t.bufferedQCs.lookup id = s.bufferedQCs.lookup id
  bufferedBlocks : ∀ v, t.bufferedBlocks.lookup v = s.bufferedBlocks.lookup v
  committedBlocks : t.committedBlocks = s.committedBlocks
  votes : voteViews t.trace = voteViews s.trace
  sent : t.sent = s.sent

/-- `ProcessBlock` on the block comes to nothing. -/
def NoEffect (nd : Node) (s : HotStuff) (b : Block) : Prop :=
  SameState s (final (processBlock nd b s))

variable {T : List Entry} {m : GoMap ℕ QC}

/-- A state that differs in the buffered certificates and in the trace, without a new vote. -/
theorem sameState_buffered (hT : voteViews T = voteViews s.trace) :
    SameState s { s with trace := T, bufferedQCs := m } ↔
      ∀ id, m.lookup id = s.bufferedQCs.lookup id :=
  ⟨fun h => h.bufferedQCs, fun h => ⟨rfl, rfl, rfl, rfl, h, fun _ => rfl, rfl, hT, rfl⟩⟩

theorem not_sameState_of_curView (h : s.pm.curView < t.pm.curView) : ¬ SameState s t :=
  fun hs => by have := hs.curView; omega

theorem not_sameState_of_votes (h : (voteViews s.trace).length < (voteViews t.trace).length) :
    ¬ SameState s t :=
  fun hs => by rw [hs.votes] at h; omega

/-! ### Voting -/

/-- The replica votes for the block. -/
def Votes (nd : Node) (s : HotStuff) (b : Block) : Prop :=
  s.votingRule b = some true ∧ ∃ v, makeVote nd.toConfig b.view nd.id b.id = .ok v

/-- An insertion is no vote. -/
theorem voteViews_accepted (T : List Entry) (b : Block) (lock : ℤ) (parent : Option Block) :
    voteViews (T ++ [.accepted b lock parent]) = voteViews T := by
  simp [voteViews, voteView]

/-- Without a vote `castVote` does nothing and `ProcessBlock` ends. -/
theorem castVote_silent (h : ¬ Votes nd s b) :
    final (castVote nd b s) = s ∧ ∀ u, castVote nd b s ≠ .ok none u := by
  unfold castVote
  rw [get_bind_apply]
  cases hr : s.votingRule b with
  | none => exact ⟨rfl, fun u hu => by cases hu⟩
  | some vote =>
    cases vote with
    | false => exact ⟨rfl, fun u hu => by cases hu⟩
    | true =>
      cases hv : makeVote nd.toConfig b.view nd.id b.id with
      | error e =>
        dsimp only
        rw [error_bind_apply]
        exact ⟨rfl, fun u hu => by cases hu⟩
      | ok v => exact absurd ⟨hr, v, hv⟩ h

theorem castVote_votes (h : Votes nd s b) :
    (voteViews s.trace).length < (voteViews (final (castVote nd b s)).trace).length := by
  obtain ⟨hr, v, hv⟩ := h
  have hlen : (voteViews (s.trace ++ [.voted b])).length = (voteViews s.trace).length + 1 := by
    simp [voteViews, voteView]
  -- the rest of the run keeps the vote that was noted
  have hrest : Grows { s with trace := s.trace ++ [.voted b] } (final (castVote nd b s)) := by
    unfold castVote
    rw [get_bind_apply, hr]
    dsimp only
    rw [hv, ok_bind_apply, note, modify_bind_apply]
    refine Grows.final (.bind (.ite (fun _ => processVote_grows) fun _ => ?_) fun _ _ _ _ => .pure trivial)
    exact .single ⟨.of_eq rfl rfl rfl, trivial⟩
  have := hrest.votes.length_le
  dsimp only at this
  omega

/-! ### Insertion -/

/-- `AddBlock` changes nothing. -/
def Kept (s : HotStuff) (b : Block) : Prop :=
  b.level < s.bc.forrest.lowestLevel ∨ (s.bc.forrest.getVertex b.id).isSome

theorem addVertex_kept {f : LevelledForest}
    (h : b.level < f.lowestLevel ∨ (f.getVertex b.id).isSome) :
    LevelledForest.addVertex b f = .ok () f := by
  unfold LevelledForest.addVertex
  rw [get_bind_apply]
  by_cases hlow : b.level < f.lowestLevel
  · rw [if_pos hlow]
    rfl
  · rw [if_neg hlow]
    obtain ⟨x, hx⟩ := Option.isSome_iff_exists.1 (h.resolve_left hlow)
    simp only [LevelledForest.getVertex, Option.bind_eq_bind, Option.bind_eq_some_iff] at hx
    obtain ⟨p, hp, c, hc, hv⟩ := hx
    have hget : f.getOrCreateVertexContainer b.id b.level = (p, f) := by
      unfold LevelledForest.getOrCreateVertexContainer
      rw [hp]
    rw [hget]
    dsimp only
    rw [set_bind_apply, hc]
    dsimp only
    rw [if_pos (by rw [hv]; rfl)]
    rfl

/-- Otherwise the block is stored, also when `AddBlock` ends in a fault. -/
theorem addVertex_new {f : LevelledForest} (hf : f.WF)
    (h : ¬ (b.level < f.lowestLevel ∨ (f.getVertex b.id).isSome)) :
    (final (LevelledForest.addVertex b f)).getVertex b.id = some b ∧ f.getVertex b.id = none := by
  have hnone : f.getVertex b.id = none := by
    have : ¬ (f.getVertex b.id).isSome := fun hs => h (Or.inr hs)
    simpa using this
  have hlow : f.lowestLevel ≤ b.level := Nat.le_of_not_lt fun hl => h (Or.inl hl)
  have hadded : f.Added b (final (LevelledForest.addVertex b f)) :=
    wp_final.1 (LevelledForest.addVertex_spec hf b)
  exact ⟨by rw [hadded.stored, if_pos ⟨rfl, hlow, hnone⟩], hnone⟩

theorem insertAndVote_kept (h : Kept s b) :
    insertAndVote nd b s = (processBufferedQC nd b.id >>= fun _ => castVote nd b) { s with
      trace := s.trace ++ [.accepted b s.preferredView (s.bc.getBlockByID b.prevID)] } := by
  have hadd : BlockChain.addBlock b s.bc = .ok () s.bc := zoom_apply_ok (addVertex_kept h)
  unfold insertAndVote
  rw [get_bind_apply, note, modify_bind_apply]
  exact bind_apply_ok (zoom_apply_ok hadd)

/-- A certificate that is processed leaves the block chain alone, or takes the replica to another
view. -/
theorem processCertificate_bc :
    wp (processCertificate nd qc) (fun _ t => t.bc = s.bc ∨ s.pm.curView < t.pm.curView)
      (fun t => t.bc = s.bc ∨ s.pm.curView < t.pm.curView) s := by
  apply (wp_final (P := fun t : HotStuff => t.bc = s.bc ∨ s.pm.curView < t.pm.curView)).2
  rcases certificate_cases nd s qc with h | h | h | h
  · rw [processCertificate_accepts h]
    exact Or.inr (by have := h.1.1; omega)
  · rw [processCertificate_waits h]
    exact Or.inl rfl
  · rw [processCertificate_rejected h]
    exact Or.inl rfl
  · obtain ⟨e, he⟩ := processCertificate_fault h
    rw [he]
    exact Or.inl rfl

theorem processBufferedQC_bc {id : ℕ} :
    wp (processBufferedQC nd id) (fun _ t => t.bc = s.bc ∨ s.pm.curView < t.pm.curView)
      (fun t => t.bc = s.bc ∨ s.pm.curView < t.pm.curView) s := by
  unfold processBufferedQC
  refine wp_bind.2 (wp_get.2 ?_)
  cases s.bufferedQCs.lookup id with
  | none => exact Or.inl rfl
  | some qc => exact wp_bind.2 (wp_mono processCertificate_bc (fun _ _ h => h) fun _ h => h)

/-- A block that is stored is an effect: another view or a vote is all that can come after it. -/
theorem insertAndVote_new (hf : t.bc.forrest.WF) (h : ¬ Kept t b)
    (hforrest : t.bc.forrest = s.bc.forrest) (hcur : t.pm.curView = s.pm.curView)
    (hvotes : voteViews t.trace = voteViews s.trace) :
    ¬ SameState s (final (insertAndVote nd b t)) := by
  obtain ⟨hnew, hold⟩ := addVertex_new hf h
  let P : HotStuff → Prop := fun u => u.bc.forrest.getVertex b.id = some b ∨
    t.pm.curView < u.pm.curView ∨ (voteViews t.trace).length < (voteViews u.trace).length
  have key : wp (insertAndVote nd b) (fun _ u => P u) P t := by
    unfold insertAndVote
    refine wp_bind.2 (wp_get.2 (wp_bind.2 (wp_modify.2 (wp_bind.2 (wp_zoom.2 (wp_zoom.2 ?_))))))
    refine wp_mono ((wp_final (P := fun f : LevelledForest => f.getVertex b.id = some b)).2 hnew)
      (fun _ f hfb => ?_) fun f hfb => Or.inl hfb
    refine wp_bind.2 (wp_mono (wp_and processBufferedQC_bc (wp_final.2 (Grows.final
      processBufferedQC_grows))) ?_ ?_)
    · rintro - u ⟨hu, hg⟩
      have hle := hg.votes.length_le
      dsimp only at hle
      rw [voteViews_accepted] at hle
      refine (wp_final (P := P)).2 ?_
      by_cases hv : Votes nd u b
      · have hlt := castVote_votes hv
        exact Or.inr (Or.inr (by omega))
      · rw [(castVote_silent hv).1]
        exact hu.imp (fun hbc => by rw [hbc]; exact hfb) Or.inl
    · rintro u ⟨hu, -⟩
      exact hu.imp (fun hbc => by rw [hbc]; exact hfb) Or.inl
  intro hs
  rcases wp_final.1 key with hb | hlt | hlt
  · rw [hs.forrest, ← hforrest, hold] at hb
    cases hb
  · have := hs.curView
    omega
  · rw [hs.votes, hvotes] at hlt
    omega

theorem processBufferedQC_none {id : ℕ} (h : s.bufferedQCs.lookup id = none) :
    processBufferedQC nd id s = .ok () s := by
  unfold processBufferedQC
  rw [get_bind_apply, h]
  rfl

theorem processBufferedQC_some {id : ℕ} (h : s.bufferedQCs.lookup id = some qc) :
    processBufferedQC nd id s = (processCertificate nd qc >>= fun _ =>
      modify fun hs => { hs with bufferedQCs := hs.bufferedQCs.erase id }) s := by
  unfold processBufferedQC
  rw [get_bind_apply, h]

/-- `castVote` in a state with other buffered certificates. -/
theorem castVote_sameState (hT : voteViews T = voteViews s.trace) :
    SameState s (final (castVote nd b { s with trace := T, bufferedQCs := m })) ↔
      (∀ id, m.lookup id = s.bufferedQCs.lookup id) ∧ ¬ Votes nd s b := by
  by_cases hv : Votes nd s b
  · have hlt := castVote_votes (s := { s with trace := T, bufferedQCs := m }) hv
    refine iff_of_false (not_sameState_of_votes ?_) fun h => h.2 hv
    rw [← hT]
    exact hlt
  · rw [(castVote_silent (s := { s with trace := T, bufferedQCs := m }) hv).1, sameState_buffered hT]
    exact ⟨fun h => ⟨h, hv⟩, fun h => h.1⟩

/-- `insertAndVote` on a block that `AddBlock` does not add: what becomes of the certificate that
waited for the block decides. -/
theorem insertAndVote_sameState (hT : voteViews T = voteViews s.trace) (hk : Kept s b) :
    SameState s (final (insertAndVote nd b { s with trace := T, bufferedQCs := m })) ↔
      (m.lookup b.id = none ∧ (∀ id, m.lookup id = s.bufferedQCs.lookup id) ∧ ¬ Votes nd s b) ∨
      ∃ q, m.lookup b.id = some q ∧
        (CheckFaults nd s q ∧ (∀ id, m.lookup id = s.bufferedQCs.lookup id) ∨
          Rejected nd s q ∧ (∀ id, (m.erase b.id).lookup id = s.bufferedQCs.lookup id) ∧
            ¬ Votes nd s b ∨
          Waits nd s q ∧ (∀ id, ((m.insert q.blockID q).erase b.id).lookup id =
            s.bufferedQCs.lookup id) ∧ ¬ Votes nd s b) := by
  rw [insertAndVote_kept (s := { s with trace := T, bufferedQCs := m }) hk]
  have hT' : voteViews (T ++ [.accepted b s.preferredView (s.bc.getBlockByID b.prevID)]) =
      voteViews s.trace := by
    rw [voteViews_accepted, hT]
  dsimp only
  generalize T ++ [.accepted b s.preferredView (s.bc.getBlockByID b.prevID)] = T' at hT' ⊢
  cases hl : m.lookup b.id with
  | none =>
    rw [bind_apply_ok (processBufferedQC_none hl), castVote_sameState hT']
    simp
  | some q =>
    have hsome := @processBufferedQC_some nd { s with trace := T', bufferedQCs := m } q b.id hl
    simp only [reduceCtorEq, false_and, Option.some.injEq, exists_eq_left', false_or]
    rcases certificate_cases nd s q with h | h | h | h
    · -- the view changes for good
      refine iff_of_false (not_sameState_of_curView ?_) ?_
      · have hacc := processCertificate_accepts (s := { s with trace := T', bufferedQCs := m }) h
        have h₁ := (Grows.bind (m := processBufferedQC nd b.id) (f := fun _ => castVote nd b)
          (s := { s with trace := T', bufferedQCs := m }) fun _ _ => castVote_grows).curView
        have h₂ := (Grows.bind (m := processCertificate nd q) (f := fun _ => modify fun hs =>
          { hs with bufferedQCs := hs.bufferedQCs.erase b.id })
          (s := { s with trace := T', bufferedQCs := m })
          fun _ _ => .single ⟨.of_eq rfl rfl rfl, trivial⟩).curView
        rw [hsome] at h₁
        have hv := h.1.1
        omega
      · rintro (hf | hr | hw)
        · exact h.1.not_checkFaults hf.1
        · exact h.1.not_rejected hr.1
        · exact h.not_waits hw.1
    · rw [bind_apply_ok (hsome.trans (bind_apply_ok (processCertificate_waits h)))]
      refine (castVote_sameState hT').trans ⟨fun hc => Or.inr (Or.inr ⟨h, hc⟩), ?_⟩
      rintro (hf | hr | hw)
      · exact absurd hf.1 h.1.not_checkFaults
      · exact absurd hr.1 h.1.not_rejected
      · exact hw.2
    · rw [bind_apply_ok (hsome.trans (bind_apply_ok (processCertificate_rejected h)))]
      refine (castVote_sameState hT').trans ⟨fun hc => Or.inr (Or.inl ⟨h, hc⟩), ?_⟩
      rintro (hf | hr | hw)
      · exact absurd hf.1 h.not_checkFaults
      · exact hr.2
      · exact absurd h hw.1.1.not_rejected
    · obtain ⟨e, he⟩ := processCertificate_fault (s := { s with trace := T', bufferedQCs := m }) h
      rw [bind_apply_error (hsome.trans (bind_apply_error he))]
      refine (sameState_buffered hT').trans ⟨fun hc => Or.inl ⟨h, hc⟩, ?_⟩
      rintro (hf | hr | hw)
      · exact hf.2
      · exact absurd h hr.1.not_checkFaults
      · exact absurd h hw.1.1.not_checkFaults

/-- `ProcessBlock` goes on to a buffered block after a vote only. -/
theorem insertAndVote_none (h : insertAndVote nd b t = .ok none u) :
    (voteViews t.trace).length < (voteViews u.trace).length := by
  have key : wp (insertAndVote nd b)
      (fun r u => r = none → (voteViews t.trace).length < (voteViews u.trace).length)
      (fun _ => True) t := by
    unfold insertAndVote
    refine wp_bind.2 (wp_get.2 (wp_bind.2 (wp_modify.2 (wp_bind.2 (wp_zoom.2 ?_)))))
    dsimp only
    unfold wp
    cases BlockChain.addBlock b t.bc with
    | error e bc => exact trivial
    | ok r bc =>
      refine wp_bind.2 (wp_mono (wp_final.2 (Grows.final processBufferedQC_grows)) ?_ fun _ _ => trivial)
      intro _ v hg
      have hle := hg.votes.length_le
      dsimp only at hle
      rw [voteViews_accepted] at hle
      by_cases hv : Votes nd v b
      · refine wp_mono ((wp_final (P := fun u : HotStuff =>
          (voteViews v.trace).length < (voteViews u.trace).length)).2 (castVote_votes hv)) ?_
          fun _ _ => trivial
        intro _ u hlt _
        omega
      · unfold wp
        cases hc : castVote nd b v with
        | error e u => exact trivial
        | ok r u =>
          rintro rfl
          exact absurd hc ((castVote_silent hv).2 u)
  exact wp_ok key h rfl

/-- Once the block is through `vetBlock`, `insertAndVote` decides. -/
theorem processBlockN_sameState {fuel : ℕ} {s₀ : HotStuff} (hv : vetBlock nd b s₀ = .ok none t)
    (hvotes : voteViews t.trace = voteViews s.trace) :
    SameState s (final (processBlockN nd (fuel + 1) b s₀)) ↔
      SameState s (final (insertAndVote nd b t)) := by
  unfold processBlockN
  rw [bind_apply_ok hv]
  dsimp only
  cases hi : insertAndVote nd b t with
  | error e u => rw [bind_apply_error hi]; rfl
  | ok r u =>
    rw [bind_apply_ok hi]
    cases r with
    | some err => rfl
    | none =>
      have hlt := insertAndVote_none hi
      rw [hvotes] at hlt
      refine iff_of_false (not_sameState_of_votes ?_) (not_sameState_of_votes hlt)
      refine Nat.lt_of_lt_of_le hlt (List.IsPrefix.length_le (Grows.votes (Grows.final ?_)))
      refine .get_bind ?_
      cases u.bufferedBlocks.lookup b.view with
      | none => exact .pure trivial
      | some b' =>
        exact (processBlockN_grows fuel).bind fun _ _ _ _ =>
          .step_bind rfl (.of_eq rfl rfl rfl) (.pure trivial)

/-! ### The checks before the insertion -/

/-- The block is stale, or not from the leader of its view. -/
def Refused (nd : Node) (s : HotStuff) (b : Block) : Prop :=
  b.view < s.pm.curView ∨ nd.elec.isLeader b.proposer b.view = false

/-- `vetBlock` on a block with a certificate that is not newer than `highQC`. -/
theorem vetBlock_offered (hp : b.proposer ≠ nd.id) {ok : Bool} (hc : checkBlock nd b = .ok ok)
    (hnear : b.view ≤ s.pm.curView + 1) (hqc : b.qc = some qc) (hold : qc.view ≤ s.highQC.view) :
    vetBlock nd b s = (processCertificate nd qc >>= fun _ => do
      let hs ← get
      if b.view < hs.pm.curView then return some none
      if nd.elec.isLeader b.proposer b.view = false then
        return some (some (.invalidLeader b.view b.proposer))
      return none) { s with trace := s.trace ++ [.offered b s.highQC.view] } := by
  have hsame : updateHighQC { s with trace := s.trace ++ [.offered b s.highQC.view] } qc =
      { s with trace := s.trace ++ [.offered b s.highQC.view] } := by
    unfold updateHighQC
    rw [if_neg (by dsimp only; omega)]
  unfold vetBlock
  rw [get_bind_apply, hc, ok_bind_apply, if_neg (by omega), hqc]
  dsimp only
  rw [note, modify_bind_apply, modify_bind_apply, hsame, if_pos hp]

/-- What `vetBlock` left behind, if `processCertificate` only touched the buffered certificates. -/
theorem processBlockN_offered {fuel : ℕ} (hp : b.proposer ≠ nd.id) {ok : Bool}
    (hc : checkBlock nd b = .ok ok) (hnear : b.view ≤ s.pm.curView + 1) (hqc : b.qc = some qc)
    (hold : qc.view ≤ s.highQC.view) (hT : voteViews T = voteViews s.trace)
    (hpc : processCertificate nd qc { s with trace := s.trace ++ [.offered b s.highQC.view] } =
      .ok () { s with trace := T, bufferedQCs := m }) :
    SameState s (final (processBlockN nd (fuel + 1) b s)) ↔
      (Refused nd s b ∧ ∀ id, m.lookup id = s.bufferedQCs.lookup id) ∨
      (¬ Refused nd s b ∧
        SameState s (final (insertAndVote nd b { s with trace := T, bufferedQCs := m }))) := by
  have hvet := (vetBlock_offered hp hc hnear hqc hold).trans (bind_apply_ok hpc)
  rw [get_bind_apply] at hvet
  dsimp only at hvet
  by_cases hstale : b.view < s.pm.curView
  · rw [if_pos hstale] at hvet
    have hr : Refused nd s b := Or.inl hstale
    unfold processBlockN
    rw [bind_apply_ok hvet]
    exact (sameState_buffered hT).trans (by simp [hr])
  rw [if_neg hstale] at hvet
  by_cases hlead : nd.elec.isLeader b.proposer b.view = false
  · rw [if_pos hlead] at hvet
    have hr : Refused nd s b := Or.inr hlead
    unfold processBlockN
    rw [bind_apply_ok hvet]
    exact (sameState_buffered hT).trans (by simp [hr])
  rw [if_neg hlead] at hvet
  have hr : ¬ Refused nd s b := fun h => h.elim hstale hlead
  rw [processBlockN_sameState hvet hT]
  simp [hr]

/-! ### When `ProcessBlock` comes to nothing -/

/-- `processCertificate` ignores the certificate, or puts it where it is already. -/
def Ignores (nd : Node) (s : HotStuff) (qc : QC) : Prop :=
  Rejected nd s qc ∨ Waits nd s qc ∧ s.bufferedQCs.lookup qc.blockID = some qc

/-- The block is not added, and the certificate that waits for it makes the replica panic, or there is
none and the replica does not vote. -/
def Unmoved (nd : Node) (s : HotStuff) (b : Block) : Prop :=
  Kept s b ∧ ((∃ q, s.bufferedQCs.lookup b.id = some q ∧ CheckFaults nd s q) ∨
    s.bufferedQCs.lookup b.id = none ∧ ¬ Votes nd s b)

/-- The block's certificate and what follows it come to nothing. -/
inductive QuietQC (nd : Node) (s : HotStuff) (b : Block) (qc : QC) : Prop
  | fault (h : CheckFaults nd s qc)
  | refused (h : Ignores nd s qc) (hr : Refused nd s b)
  | unmoved (h : Ignores nd s qc) (hu : Unmoved nd s b)
  /-- the certificate is for the block itself: it is buffered, taken up after `AddBlock` and dropped -/
  | passing (hw : Waits nd s qc) (hid : qc.blockID = b.id)
      (hn : s.bufferedQCs.lookup b.id = none) (hr : ¬ Refused nd s b) (hk : Kept s b)
      (hv : ¬ Votes nd s b)

/-- `ProcessBlock` stops or runs through without an assignment that lasts. -/
inductive Quiet (nd : Node) (s : HotStuff) (b : Block) : Prop
  | fault {e : Fault} (h : checkBlock nd b = .error e)
  | buffered (hfar : s.pm.curView + 1 < b.view) (h : s.bufferedBlocks.lookup (b.view - 1) = some b)
  | noQC (hnear : b.view ≤ s.pm.curView + 1) (h : b.qc = none)
  | certified {qc : QC} (hnear : b.view ≤ s.pm.curView + 1) (hqc : b.qc = some qc)
      (hold : qc.view ≤ s.highQC.view) (h : QuietQC nd s b qc)

/-- With the buffered certificates as they were. -/
theorem insertAndVote_ignored (hf : s.bc.forrest.WF) (hT : voteViews T = voteViews s.trace)
    (hm : ∀ id, m.lookup id = s.bufferedQCs.lookup id) :
    SameState s (final (insertAndVote nd b { s with trace := T, bufferedQCs := m })) ↔
      Unmoved nd s b := by
  by_cases hk : Kept s b
  · rw [insertAndVote_sameState hT hk, Unmoved]
    -- a certificate that is dropped leaves a hole
    have hhole : ∀ (q : QC) (m' : GoMap ℕ QC), m.lookup b.id = some q →
        ¬ ∀ id, (m'.erase b.id).lookup id = s.bufferedQCs.lookup id := by
      intro q m' hq hall
      have := hall b.id
      rw [AList.lookup_erase, ← hm, hq] at this
      cases this
    constructor
    · rintro (⟨hn, -, hv⟩ | ⟨q, hq, ⟨hf, -⟩ | ⟨-, h, -⟩ | ⟨-, h, -⟩⟩)
      · exact ⟨hk, Or.inr ⟨hm b.id ▸ hn, hv⟩⟩
      · exact ⟨hk, Or.inl ⟨q, hm b.id ▸ hq, hf⟩⟩
      · exact absurd h (hhole q m hq)
      · exact absurd h (hhole q _ hq)
    · rintro ⟨-, ⟨q, hq, hf⟩ | ⟨hn, hv⟩⟩
      · exact Or.inr ⟨q, (hm b.id).trans hq, Or.inl ⟨hf, hm⟩⟩
      · exact Or.inl ⟨(hm b.id).trans hn, hm, hv⟩
  · exact iff_of_false (insertAndVote_new (t := { s with trace := T, bufferedQCs := m }) hf hk rfl rfl hT)
      fun h => hk h.1

/-- With the block's certificate newly buffered. -/
theorem insertAndVote_buffered (hf : s.bc.forrest.WF) (hT : voteViews T = voteViews s.trace)
    (hw : Waits nd s qc) (hnew : s.bufferedQCs.lookup qc.blockID ≠ some qc) :
    SameState s (final (insertAndVote nd b
        { s with trace := T, bufferedQCs := s.bufferedQCs.insert qc.blockID qc })) ↔
      qc.blockID = b.id ∧ s.bufferedQCs.lookup b.id = none ∧ Kept s b ∧ ¬ Votes nd s b := by
  by_cases hk : Kept s b
  · rw [insertAndVote_sameState hT hk]
    constructor
    · rintro (⟨-, hall, -⟩ | ⟨q, hq, ⟨-, hall⟩ | ⟨hr, hall, -⟩ | ⟨-, hall, hv⟩⟩)
      · exact absurd ((hall qc.blockID).symm.trans (AList.lookup_insert _)) hnew
      · exact absurd ((hall qc.blockID).symm.trans (AList.lookup_insert _)) hnew
      · by_cases hid : qc.blockID = b.id
        · rw [← hid, AList.lookup_insert] at hq
          cases hq
          exact absurd hr hw.1.not_rejected
        · have h := hall qc.blockID
          rw [AList.lookup_erase_ne hid, AList.lookup_insert] at h
          exact absurd h.symm hnew
      · have h := hall b.id
        rw [AList.lookup_erase] at h
        by_cases hid : qc.blockID = b.id
        · exact ⟨hid, h.symm, hk, hv⟩
        · rw [AList.lookup_insert_ne (Ne.symm hid), ← h] at hq
          cases hq
    · rintro ⟨hid, hn, -, hv⟩
      refine Or.inr ⟨qc, by rw [← hid, AList.lookup_insert], Or.inr (Or.inr ⟨hw, fun id => ?_, hv⟩)⟩
      by_cases hb : id = b.id
      · rw [hb, AList.lookup_erase, hn]
      · rw [AList.lookup_erase_ne hb, AList.lookup_insert_ne (hid ▸ hb),
          AList.lookup_insert_ne (hid ▸ hb)]
  · exact iff_of_false (insertAndVote_new (t := { s with
      trace := T, bufferedQCs := s.bufferedQCs.insert qc.blockID qc }) hf hk rfl rfl hT)
      fun h => hk h.2.2.1

/-- A certificate newer than `highQC` is an effect. -/
theorem vetBlock_newer {ok : Bool} (hc : checkBlock nd b = .ok ok)
    (hnear : b.view ≤ s.pm.curView + 1) (hqc : b.qc = some qc) (hnew : s.highQC.view < qc.view) :
    s.highQC.view < (final (vetBlock nd b s)).highQC.view := by
  have hhigh : (updateHighQC { s with trace := s.trace ++ [.offered b s.highQC.view] } qc).highQC = qc := by
    unfold updateHighQC
    rw [if_pos hnew]
  have hrest : Grows (updateHighQC { s with trace := s.trace ++ [.offered b s.highQC.view] } qc)
      (final (vetBlock nd b s)) := by
    unfold vetBlock
    rw [get_bind_apply, hc, ok_bind_apply, if_neg (by omega), hqc]
    dsimp only
    rw [note, modify_bind_apply, modify_bind_apply]
    refine Grows.final (.bind (.ite (fun _ => processCertificate_grows) fun _ => .pure trivial) ?_)
    exact fun _ t _ _ => .get_bind (.ite (fun _ => .pure trivial) fun _ =>
      .ite (fun _ => .pure trivial) fun _ => .pure trivial)
  have hle := hrest.highQC
  rw [hhigh] at hle
  omega

/-- An accepted certificate is an effect. -/
theorem vetBlock_accepts (hp : b.proposer ≠ nd.id) {ok : Bool} (hc : checkBlock nd b = .ok ok)
    (hnear : b.view ≤ s.pm.curView + 1) (hqc : b.qc = some qc) (hold : qc.view ≤ s.highQC.view)
    (ha : Accepts nd s qc) : s.pm.curView < (final (vetBlock nd b s)).pm.curView := by
  rw [vetBlock_offered hp hc hnear hqc hold]
  refine Int.lt_of_lt_of_le ?_ (Grows.bind fun _ t => .get_bind (.ite (fun _ => .pure trivial) fun _ =>
    .ite (fun _ => .pure trivial) fun _ => .pure trivial)).curView
  rw [processCertificate_accepts (s := { s with trace := s.trace ++ [.offered b s.highQC.view] }) ha]
  have := ha.1.1
  omega

theorem processBlockN_grows_vetBlock {fuel : ℕ} :
    Grows (final (vetBlock nd b s)) (final (processBlockN nd (fuel + 1) b s)) := by
  unfold processBlockN
  refine Grows.bind fun r t => ?_
  cases r with
  | some err => exact .pure trivial
  | none =>
    refine insertAndVote_grows.bind fun r' u _ _ => ?_
    cases r' with
    | some err => exact .pure trivial
    | none =>
      refine .get_bind ?_
      cases u.bufferedBlocks.lookup b.view with
      | none => exact .pure trivial
      | some b' =>
        exact (processBlockN_grows fuel).bind fun _ _ _ _ =>
          .step_bind rfl (.of_eq rfl rfl rfl) (.pure trivial)

/-- The certificate is ignored: the block is refused, or inserting it comes to nothing. -/
theorem quietQC_of_ignores (hi : Ignores nd s qc)
    (hn : qc.blockID = b.id → s.bufferedQCs.lookup b.id = none → ¬ Waits nd s qc) :
    QuietQC nd s b qc ↔ Refused nd s b ∨ ¬ Refused nd s b ∧ Unmoved nd s b := by
  constructor
  · intro h
    by_cases hr : Refused nd s b
    · exact Or.inl hr
    · refine Or.inr ⟨hr, ?_⟩
      cases h with
      | fault h =>
        rcases hi with hi | ⟨hi, -⟩
        · exact absurd h hi.not_checkFaults
        · exact absurd h hi.1.not_checkFaults
      | refused _ h => exact absurd h hr
      | unmoved _ h => exact h
      | passing hw hid hnone => exact absurd hw (hn hid hnone)
  · rintro (h | ⟨-, h⟩)
    · exact .refused hi h
    · exact .unmoved hi h

/-- `ProcessBlock` on a block with a certificate. -/
theorem processBlockN_certified {fuel : ℕ} (hf : s.bc.forrest.WF) (hp : b.proposer ≠ nd.id)
    {ok : Bool} (hc : checkBlock nd b = .ok ok) (hnear : b.view ≤ s.pm.curView + 1)
    (hqc : b.qc = some qc) :
    SameState s (final (processBlockN nd (fuel + 1) b s)) ↔
      qc.view ≤ s.highQC.view ∧ QuietQC nd s b qc := by
  by_cases hold : qc.view ≤ s.highQC.view
  · rw [and_iff_right hold]
    have hT : voteViews (s.trace ++ [.offered b s.highQC.view]) = voteViews s.trace := by
      simp [voteViews, voteView]
    rcases certificate_cases nd s qc with h | h | h | h
    · refine iff_of_false (not_sameState_of_curView ?_) ?_
      · exact Int.lt_of_lt_of_le (vetBlock_accepts hp hc hnear hqc hold h)
          processBlockN_grows_vetBlock.curView
      · rintro (hq | ⟨hq | ⟨hq, -⟩, -⟩ | ⟨hq | ⟨hq, -⟩, -⟩ | ⟨hq, -⟩)
        · exact h.1.not_checkFaults hq
        · exact h.1.not_rejected hq
        · exact h.not_waits hq
        · exact h.1.not_rejected hq
        · exact h.not_waits hq
        · exact h.not_waits hq
    · have hpc := processCertificate_waits
        (s := { s with trace := s.trace ++ [.offered b s.highQC.view] }) h
      rw [processBlockN_offered hp hc hnear hqc hold hT hpc]
      by_cases hbuf : s.bufferedQCs.lookup qc.blockID = some qc
      · -- putting it there again changes no look-up
        have hm : ∀ id, (s.bufferedQCs.insert qc.blockID qc).lookup id = s.bufferedQCs.lookup id := by
          intro id
          by_cases hid : id = qc.blockID
          · rw [hid, AList.lookup_insert, hbuf]
          · rw [AList.lookup_insert_ne hid]
        rw [insertAndVote_ignored hf hT hm, and_iff_left hm,
          quietQC_of_ignores (Or.inr ⟨h, hbuf⟩)]
        intro hid hnone
        rw [hid, hnone] at hbuf
        cases hbuf
      · rw [insertAndVote_buffered hf hT h hbuf]
        constructor
        · rintro (⟨-, hall⟩ | ⟨hr, hid, hn, hk, hv⟩)
          · exact absurd ((hall qc.blockID).symm.trans (AList.lookup_insert _)) hbuf
          · exact .passing h hid hn hr hk hv
        · rintro (hq | ⟨hq | ⟨-, hq⟩, -⟩ | ⟨hq | ⟨-, hq⟩, -⟩ | ⟨-, hid, hn, hr, hk, hv⟩)
          · exact absurd hq h.1.not_checkFaults
          · exact absurd hq h.1.not_rejected
          · exact absurd hq hbuf
          · exact absurd hq h.1.not_rejected
          · exact absurd hq hbuf
          · exact Or.inr ⟨hr, hid, hn, hk, hv⟩
    · have hpc := processCertificate_rejected
        (s := { s with trace := s.trace ++ [.offered b s.highQC.view] }) h
      rw [processBlockN_offered (m := s.bufferedQCs) hp hc hnear hqc hold hT hpc,
        insertAndVote_ignored hf hT fun _ => rfl, and_iff_left fun _ => rfl,
        quietQC_of_ignores (Or.inl h)]
      exact fun _ _ hw => hw.1.not_rejected h
    · refine iff_of_true ?_ (.fault h)
      obtain ⟨e, he⟩ := processCertificate_fault
        (s := { s with trace := s.trace ++ [.offered b s.highQC.view] }) h
      unfold processBlockN
      rw [bind_apply_error ((vetBlock_offered hp hc hnear hqc hold).trans (bind_apply_error he))]
      exact (sameState_buffered hT).2 fun _ => rfl
  · refine iff_of_false (fun hs => ?_) fun h => hold h.1
    have hlt := vetBlock_newer hc hnear hqc (by omega)
    have hle := (@processBlockN_grows_vetBlock nd s b fuel).highQC
    rw [hs.highQC] at hle
    omega

/-- **`ProcessBlock` has no effect exactly on the quiet blocks.** -/
theorem noEffect_iff_quiet (hf : s.bc.forrest.WF) (hp : b.proposer ≠ nd.id) :
    NoEffect nd s b ↔ Quiet nd s b := by
  unfold NoEffect processBlock
  rw [get_bind_apply]
  cases hc : checkBlock nd b with
  | error e =>
    have hvet : vetBlock nd b s = .error e s := by
      unfold vetBlock
      rw [get_bind_apply, hc, error_bind_apply]
    unfold processBlockN
    rw [bind_apply_error hvet]
    exact iff_of_true ⟨rfl, rfl, rfl, rfl, fun _ => rfl, fun _ => rfl, rfl, rfl, rfl⟩ (.fault hc)
  | ok ok =>
    have hok : ∀ e, checkBlock nd b ≠ .error e := fun e he => by rw [hc] at he; cases he
    by_cases hfar : s.pm.curView + 1 < b.view
    · have hvet : vetBlock nd b s = .ok (some none)
          { s with bufferedBlocks := s.bufferedBlocks.insert (b.view - 1) b } := by
        unfold vetBlock
        rw [get_bind_apply, hc, ok_bind_apply, if_pos hfar]
        rfl
      unfold processBlockN
      rw [bind_apply_ok hvet]
      constructor
      · intro h
        exact .buffered hfar ((h.bufferedBlocks _).symm.trans (AList.lookup_insert _))
      · rintro (he | ⟨-, h⟩ | ⟨hnear, -⟩ | ⟨hnear, -⟩)
        · exact absurd he (hok _)
        · refine ⟨rfl, rfl, rfl, rfl, fun _ => rfl, fun v => ?_, rfl, rfl, rfl⟩
          by_cases hv : v = b.view - 1
          · rw [hv, h]
            exact AList.lookup_insert _
          · exact AList.lookup_insert_ne hv
        · omega
        · omega
    have hnear : b.view ≤ s.pm.curView + 1 := by omega
    cases hqc : b.qc with
    | none =>
      have hvet : vetBlock nd b s = .ok (some (some .noQC)) s := by
        unfold vetBlock
        rw [get_bind_apply, hc, ok_bind_apply, if_neg hfar, hqc]
        rfl
      unfold processBlockN
      rw [bind_apply_ok hvet]
      exact iff_of_true ⟨rfl, rfl, rfl, rfl, fun _ => rfl, fun _ => rfl, rfl, rfl, rfl⟩
        (.noQC hnear hqc)
    | some qc =>
      rw [processBlockN_certified hf hp hc hnear hqc]
      constructor
      · rintro ⟨hold, h⟩
        exact .certified hnear hqc hold h
      · rintro (he | ⟨h, -⟩ | ⟨-, h⟩ | ⟨-, h, hold, hq⟩)
        · exact absurd he (hok _)
        · omega
        · rw [hqc] at h
          cases h
        · rw [hqc] at h
          cases h
          exact ⟨hold, hq⟩

/-! ### Blocks that are not the leader's -/

/-- The block is from the leader of its view, its signature is valid, and its id is that of its
contents. -/
def Authentic (nd : Node) (b : Block) : Prop :=
  nd.elec.isLeader b.proposer b.view = true ∧
    pubVerify nd.toConfig b.sig b.id b.proposer = .ok true ∧
    (b.id = nd.makeID b.raw ∨ b.id = nd.makePID b.rawP)

/-- **Unauthentic blocks.**  Where the views stay integers of the machine, a block of another node that is not
authentic has no effect exactly when `ProcessBlock` comes to nothing on it for another reason. -/
theorem unauthentic_no_effect_iff (nd : Node) (s : HotStuff) (b : Block) (hf : s.bc.forrest.WF)
    (hp : b.proposer ≠ nd.id) (_hr : (final (processBlock nd b s)).pm.InRange) :
    (¬ Authentic nd b → NoEffect nd s b) ↔ (Authentic nd b ∨ Quiet nd s b) := by
  rw [noEffect_iff_quiet hf hp]
  exact or_iff_not_imp_left.symm

/-- A block of view 1 from node 3, with a false id, a false signature and the forged certificate. -/
def impostor : Block := ⟨1, some forged, "3", [], 7, [[], []], 9, none⟩

/-- **A block that nothing speaks for changes `highQC`.** -/
theorem impostor_has_effect :
    impostor.proposer ≠ FourNodes.second.id ∧ ¬ Authentic FourNodes.second impostor ∧
      ¬ NoEffect FourNodes.second (HotStuff.new 4) impostor := by
  refine ⟨by decide, fun h => absurd h.1 (by decide), ?_⟩
  rw [noEffect_iff_quiet LevelledForest.wf_new (by decide)]
  have hc : checkBlock FourNodes.second impostor = .ok false := by decide_cbv
  rintro (he | ⟨hfar, -⟩ | ⟨-, hn⟩ | ⟨-, hq, hold, -⟩)
  · rw [hc] at he
    cases he
  · exact absurd hfar (by decide)
  · cases hn
  · cases hq
    exact absurd hold (by decide)

/-- The same block without a certificate. -/
theorem unauthentic_no_effect_iff_noQC :
    ¬ Authentic FourNodes.second { impostor with qc := none } ∧
      NoEffect FourNodes.second (HotStuff.new 4) { impostor with qc := none } := by
  have hna : ¬ Authentic FourNodes.second { impostor with qc := none } := fun h => absurd h.1 (by decide)
  refine ⟨hna, (unauthentic_no_effect_iff FourNodes.second (HotStuff.new 4) { impostor with qc := none }
    LevelledForest.wf_new (by decide) (by decide_cbv)).2 (Or.inr (.noQC (by decide) rfl)) hna⟩

end HotStuff

end Bamboo
