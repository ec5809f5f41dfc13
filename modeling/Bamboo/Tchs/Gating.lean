import Bamboo.Commits
import Bamboo.FourNodes
import Bamboo.Tchs.Handlers

/-!
# The commit before the vote

In two-chain HotStuff `ProcessBlock` tries to commit before it comes to the voting rule, and returns when
there is nothing to commit.  So a vote that the voting rule grants can be withheld.

* `storeBlock`: the insertion of a block, by itself;
* `WouldVote`: the voting rule accepts the block once it is stored and the certificate that waited for it is
  processed;
* `Passable`: no commit is asked for, or there is one that leaves the block and its parent stored;
* `vote_sent_iff`: given the first, `ProcessBlock` votes exactly in case of the second;
* `gap_withholds_vote`: a replica that does not vote because of a gap between the views of two ancestors.
-/

namespace Bamboo

namespace Tchs

open Prog

variable {nd : Node} {s t u w : Tchs} {b : Block} {p : ℕ} {q : QC}

/-- The part of `insertAndVote` that stores the block. -/
def storeBlock (block : Block) : Go Tchs Unit := do
  let th ← get
  note (.accepted block th.preferredView (th.bc.getBlockByID block.prevID))
  Prog.zoom bc (fun bc th => { th with bc := bc }) (BlockChain.addBlock block)

/-- The voting rule accepts the block, once it is stored in `t` and any certificate that waited for it has
been processed; `u` is the state in between. -/
def WouldVote (nd : Node) (b : Block) (t u : Tchs) : Prop :=
  storeBlock b t = .ok () u ∧ ∃ w, processBufferedQC nd b.id u = .ok () w ∧ w.votingRule b = some true

/-- With this certificate, of the view before, the block asks for a commit. -/
def AsksCommit (b : Block) (q : QC) : Prop := 2 ≤ q.view ∧ q.view + 1 = b.view

/-- What `ProcessBlock` asks for between storing a block with the certificate `q` and the voting rule: the
certificate is not that of the view before, or it finds a block to commit, the commit succeeds, and the block
and its parent are still stored. -/
def Passable (u : Tchs) (b : Block) (q : QC) : Prop :=
  AsksCommit b q → ∃ g res bc, u.commitRule q = some g ∧
    BlockChain.commitBlock g.id u.pm.curView u.bc = .ok (some res) bc ∧ bc.getParentBlock b.id ≠ none

/-- A call that started in `s` and ended in `t` has voted for the block. -/
def CastVote (b : Block) (s t : Tchs) : Prop := ∃ es, t.trace = s.trace ++ es ∧ .voted b ∈ es

/-- A call that started in `s` and ended in `t` has not voted for the block. -/
def Unvoted (b : Block) (s t : Tchs) : Prop := ∃ es, t.trace = s.trace ++ es ∧ .voted b ∉ es

theorem Unvoted.of_eq (h : t.trace = s.trace) : Unvoted b s t := ⟨[], by rw [h, List.append_nil], List.not_mem_nil⟩

theorem Unvoted.refl (b : Block) (s : Tchs) : Unvoted b s s := .of_eq rfl

theorem Unvoted.trans (h : Unvoted b s t) (h' : Unvoted b t u) : Unvoted b s u := by
  obtain ⟨es, ht, hn⟩ := h
  obtain ⟨es', hu, hn'⟩ := h'
  refine ⟨es ++ es', by rw [hu, ht, List.append_assoc], ?_⟩
  rw [List.mem_append, not_or]
  exact ⟨hn, hn'⟩

theorem Unvoted.not_castVote (h : Unvoted b s t) : ¬ CastVote b s t := by
  obtain ⟨es, ht, hn⟩ := h
  rintro ⟨es', ht', hm⟩
  rw [ht] at ht'
  exact hn (List.append_cancel_left ht' ▸ hm)

/-! ### What certificates leave alone -/

/-- Block chain and trace are the same. -/
structure SameChain (s t : Tchs) : Prop where
  bc : t.bc = s.bc
  trace : t.trace = s.trace
  lastVotedView : t.lastVotedView = s.lastVotedView

theorem SameChain.refl (s : Tchs) : SameChain s s := ⟨rfl, rfl, rfl⟩

theorem SameChain.trans (h : SameChain s t) (h' : SameChain t u) : SameChain s u :=
  ⟨h'.bc.trans h.bc, h'.trace.trans h.trace, h'.lastVotedView.trans h.lastVotedView⟩

theorem updateHighQC_same (s : Tchs) (p : ℕ) : SameChain s (s.updateHighQC p) := by
  obtain ⟨h, heq, -⟩ := updateHighQC_cases s p
  rw [heq]
  exact ⟨rfl, rfl, rfl⟩

theorem processCertificate_same (nd : Node) (p : ℕ) (s : Tchs) :
    wp (processCertificate nd p) (fun _ t => SameChain s t) (SameChain s) s := by
  unfold processCertificate
  refine wp_bind.2 (wp_get.2 (wp_ite.2 ⟨fun _ => .refl s, fun _ => ?_⟩))
  refine wp_bind.2 (wp_ofExcept.2 ⟨fun ok _ => wp_ite.2 ⟨fun _ => .refl s, fun _ => ?_⟩, fun _ _ => .refl s⟩)
  refine wp_ite.2 ⟨fun _ => wp_bind.2 (wp_set.2 ⟨rfl, rfl, rfl⟩), fun _ => ?_⟩
  cases hu : s.updatePreferredView (s.qcAt p) with
  | none => exact ⟨rfl, rfl, rfl⟩
  | some t =>
    obtain ⟨v, h, heq, -⟩ := certify_cases (p := p) hu
    refine wp_set.2 ?_
    rw [heq]
    exact ⟨rfl, rfl, rfl⟩

theorem vetBlock_same (nd : Node) (p : ℕ) (b : Block) (s : Tchs) :
    wp (vetBlock nd p b) (fun _ t => SameChain s t) (SameChain s) s := by
  unfold vetBlock
  refine wp_bind.2 (wp_get.2 (wp_bind.2 (wp_ofExcept.2 ⟨fun _ _ => ?_, fun _ _ => .refl s⟩)))
  refine wp_ite.2 ⟨fun _ => wp_bind.2 (wp_set.2 ⟨rfl, rfl, rfl⟩), fun _ => wp_ite.2 ⟨fun _ => .refl s, fun _ => ?_⟩⟩
  refine wp_bind.2 (wp_modify.2 (wp_bind.2 (wp_mono (Q := fun _ t => SameChain s t) ?_ (fun _ t ht => ?_)
    fun _ h => h)))
  · refine wp_ite.2 ⟨fun _ => ?_, fun _ => updateHighQC_same s p⟩
    exact wp_mono (processCertificate_same nd p _) (fun _ _ h => (updateHighQC_same s p).trans h)
      fun _ h => (updateHighQC_same s p).trans h
  · exact wp_bind.2 (wp_get.2 (wp_ite.2 ⟨fun _ => ht, fun _ => wp_ite.2 ⟨fun _ => ht, fun _ => ht⟩⟩))

theorem processBufferedQC_same (nd : Node) (id : ℕ) (s : Tchs) :
    wp (processBufferedQC nd id) (fun _ t => SameChain s t) (SameChain s) s := by
  unfold processBufferedQC
  refine wp_bind.2 (wp_get.2 ?_)
  cases s.bufferedQCs.lookup id with
  | none => exact .refl s
  | some p =>
    refine wp_bind.2 (wp_mono (processCertificate_same nd p s) (fun _ t ht => wp_modify.2 ?_) fun _ h => h)
    exact ⟨ht.bc, ht.trace, ht.lastVotedView⟩

/-! ### The trace grows at its end -/

/-- The trace has grown at its end. -/
def Grown (s t : Tchs) : Prop := s.trace <+: t.trace

instance : IsPreorder Tchs Grown where
  refl s := List.prefix_refl s.trace
  trans _ _ _ h h' := h.trans h'

theorem grown_of_same {α : Type} {m : Go Tchs α} (h : ∀ s, wp m (fun _ t => SameChain s t) (SameChain s) s) :
    Moves Grown m := by
  intro s
  refine wp_mono (h s) (fun _ t ht => ?_) fun t ht => ?_
  · rw [Grown, ht.trace]
  · rw [Grown, ht.trace]

theorem grows_note (e : Entry) : Moves Grown (note e) := .modify fun _ => List.prefix_append _ _

theorem grows_zoom {α : Type} (m : Go BlockChain α) :
    Moves Grown (Prog.zoom bc (fun bc th => { th with bc := bc }) m) := by
  apply Moves.zoom
  intro _ s
  exact List.prefix_refl s.trace

theorem grows_processVote (nd : Node) (v : Vote) : Moves Grown (processVote nd v) := by
  refine .bind (.ofExcept _) fun ok => .ite (.pure _) (.get fun s => ?_)
  obtain ⟨built, bc⟩ := s.bc.addVote nd.toConfig v
  refine wp_bind.2 (wp_set.2 ?_)
  cases built with
  | none => exact List.prefix_refl _
  | some qc =>
    refine (Moves.bind (R := Grown) (grows_note _) fun _ => .bind (m := alloc _) (fun _ => List.prefix_refl _)
      fun p => ?_) { s with bc := bc }
    cases bc.getBlockByID qc.blockID with
    | none => exact .modify fun _ => List.prefix_refl _
    | some _ => exact grown_of_same (processCertificate_same nd p)

theorem grows_castVote (nd : Node) (b : Block) : Moves Grown (castVote nd b) := by
  refine .get fun s => ?_
  cases s.votingRule b with
  | none => exact List.prefix_refl _
  | some ok =>
    cases ok with
    | false => exact List.prefix_refl _
    | true =>
      refine Moves.bind (R := Grown) (.ofExcept _) (fun v => .bind (grows_note _) fun _ =>
        .bind ?_ fun _ => .pure _) s
      exact .ite (grows_processVote nd v) (.modify fun _ => List.prefix_refl _)

theorem grows_tryCommit (b : Block) (q : QC) : Moves Grown (tryCommit b q) := by
  refine .get fun s => Moves.ite (R := Grown) (.pure _) ?_ s
  cases s.commitRule q with
  | none => exact .pure _
  | some g =>
    refine .bind (grows_zoom _) fun res => ?_
    cases res with
    | none => exact .pure _
    | some _ => exact .bind (grows_note _) fun _ => .bind (.modify fun _ => List.prefix_refl _) fun _ => .pure _

theorem grows_insertAndVote (nd : Node) (b : Block) (q : QC) : Moves Grown (insertAndVote nd b q) := by
  refine .get fun s => Moves.bind (R := Grown) (grows_note _) (fun _ => .bind (grows_zoom _) fun _ => .bind
    (grows_tryCommit b q) fun res => ?_) s
  cases res with
  | some _ => exact .pure _
  | none => exact .bind (grown_of_same (processBufferedQC_same nd b.id)) fun _ => grows_castVote nd b

/-- The buffered block that comes after a vote. -/
theorem grows_drain {next : ℕ → Go Tchs (Option BlockError)} (hnext : ∀ p, Moves Grown (next p)) (b : Block)
    (res : Option (Option BlockError)) :
    Moves Grown (match res with
      | some err => pure err
      | none => get >>= fun th => match th.bufferedBlocks.lookup b.view with
        | none => pure none
        | some p => next p) := by
  cases res with
  | some _ => exact .pure _
  | none =>
    refine .get fun t => ?_
    cases t.bufferedBlocks.lookup b.view with
    | none => exact List.prefix_refl _
    | some p => exact hnext p t

theorem grows_processBlockN (nd : Node) (fuel p : ℕ) : Moves Grown (processBlockN nd fuel p) := by
  induction fuel generalizing p with
  | zero => exact .throw _
  | succ fuel ih =>
    refine .get fun s => ?_
    cases s.heap[p]? with
    | none => exact List.prefix_refl _
    | some c =>
      cases c with
      | certificate _ => exact List.prefix_refl _
      | block b =>
        refine Moves.bind (R := Grown) (grown_of_same (vetBlock_same nd p b)) (fun res => ?_) s
        cases res with
        | some _ => exact .pure _
        | none => exact .bind (grows_insertAndVote nd b _) fun res => grows_drain ih b res

/-! ### From the stored block to the vote -/

/-- The rest of `insertAndVote`. -/
theorem insertAndVote_apply (hst : storeBlock b t = .ok () u) :
    insertAndVote nd b q t = (tryCommit b q >>= fun res => match res with
      | some err => pure (some err)
      | none => processBufferedQC nd b.id >>= fun _ => castVote nd b) u := by
  obtain ⟨_, t₁, h₁, hst⟩ := bind_eq_ok hst
  obtain ⟨_, t₂, h₂, h₃⟩ := bind_eq_ok hst
  unfold insertAndVote
  exact (bind_apply_ok h₁).trans ((bind_apply_ok h₂).trans (bind_apply_ok h₃))

theorem storeBlock_trace (hst : storeBlock b t = .ok () u) : ∃ x y, u.trace = t.trace ++ [.accepted b x y] := by
  obtain ⟨_, t₁, h₁, hst⟩ := bind_eq_ok hst
  obtain ⟨_, t₂, h₂, h₃⟩ := bind_eq_ok hst
  cases h₁
  cases h₂
  obtain ⟨_, -, rfl⟩ := zoom_eq_ok h₃
  exact ⟨_, _, rfl⟩

/-- What a commit changes: blocks are forgotten, and the commit is noted. -/
structure Thinned (u w : Tchs) : Prop where
  pm : w.pm = u.pm
  heap : w.heap = u.heap
  bufferedQCs : w.bufferedQCs = u.bufferedQCs
  preferredView : w.preferredView = u.preferredView
  lastVotedView : w.lastVotedView = u.lastVotedView
  stored : ∀ x c, w.bc.getBlockByID x = some c → u.bc.getBlockByID x = some c

theorem Thinned.refl (u : Tchs) : Thinned u u := ⟨rfl, rfl, rfl, rfl, rfl, fun _ _ h => h⟩

/-- What `tryCommit` does: it writes no vote, and if it lets the block go on there was nothing to ask for or
a commit has succeeded. -/
theorem tryCommit_spec (b : Block) (q : QC) (u : Tchs) :
    wp (tryCommit b q) (fun res w => Unvoted b u w ∧ (res = none → Thinned u w ∧ (¬ AsksCommit b q → w = u) ∧
      (AsksCommit b q → ∃ g r, u.commitRule q = some g ∧
        BlockChain.commitBlock g.id u.pm.curView u.bc = .ok (some r) w.bc))) (Unvoted b u) u := by
  unfold tryCommit
  refine wp_bind.2 (wp_get.2 (wp_ite.2 ⟨fun hn => ?_, fun hask => ?_⟩))
  · exact ⟨.refl b u, fun _ => ⟨.refl u, fun _ => rfl, fun hask => absurd hask hn⟩⟩
  have hask : AsksCommit b q := not_not.1 hask
  cases hg : u.commitRule q with
  | none => exact ⟨.refl b u, fun h => by cases h⟩
  | some g =>
    refine wp_bind.2 (wp_zoom.2 ?_)
    unfold wp
    cases hc : BlockChain.commitBlock g.id u.pm.curView u.bc with
    | error _ _ => exact .of_eq rfl
    | ok res bc =>
      cases res with
      | none => exact ⟨.of_eq rfl, fun h => by cases h⟩
      | some r =>
        refine ⟨⟨[.committed q g u.bc.forrest r.1], rfl, by simp⟩, fun _ => ⟨?_, fun hn => absurd hask hn, ?_⟩⟩
        · exact ⟨rfl, rfl, rfl, rfl, rfl, fun _ _ h => BlockChain.getBlockByID_of_commitBlock hc h⟩
        · exact fun _ => ⟨g, r, rfl, hc⟩

/-- What `ProcessBlock` asks for lets the block go on. -/
theorem tryCommit_returns (hpass : Passable u b q) : ∃ w, tryCommit b q u = .ok none w := by
  suffices h : wp (tryCommit b q) (fun res _ => res = none) (fun _ => False) u by
    obtain ⟨res, w, hw, rfl⟩ := exists_ok_of_wp h
    exact ⟨w, hw⟩
  unfold tryCommit
  refine wp_bind.2 (wp_get.2 (wp_ite.2 ⟨fun _ => rfl, fun hask => ?_⟩))
  obtain ⟨g, res, bc, hg, hc, -⟩ := hpass (not_not.1 hask)
  simp only [hg]
  exact wp_bind.2 (wp_zoom.2 (wp_of_ok hc rfl))

/-- With fewer blocks stored, `updatePreferredView` fails more often, and does the same otherwise. -/
theorem updatePreferredView_thinned (h : Thinned u w) {w' : Tchs} (hw : w.updatePreferredView q = some w') :
    ∃ u', u.updatePreferredView q = some u' ∧ u'.preferredView = w'.preferredView := by
  unfold updatePreferredView at hw ⊢
  by_cases h2 : q.view < 2
  · rw [if_pos h2] at hw ⊢
    cases hw
    exact ⟨u, rfl, h.preferredView.symm⟩
  · rw [if_neg h2] at hw ⊢
    obtain ⟨c, hc, hw⟩ := Option.bind_eq_some_iff.1 hw
    rw [h.stored _ c hc]
    rw [h.preferredView] at hw
    by_cases hlt : u.preferredView < q.view
    · rw [if_pos hlt] at hw
      cases hw
      exact ⟨_, if_pos hlt, rfl⟩
    · rw [if_neg hlt] at hw
      cases hw
      exact ⟨_, if_neg hlt, h.preferredView.symm⟩

theorem le_updatePreferredView {u' : Tchs} (h : u.updatePreferredView q = some u') :
    u.preferredView ≤ u'.preferredView := by
  unfold updatePreferredView at h
  by_cases h2 : q.view < 2
  · rw [if_pos h2] at h
    cases h
    exact le_refl _
  · rw [if_neg h2] at h
    obtain ⟨c, -, h⟩ := Option.bind_eq_some_iff.1 h
    by_cases hlt : u.preferredView < q.view
    · rw [if_pos hlt] at h
      cases h
      exact hlt.le
    · rw [if_neg hlt] at h
      cases h
      exact le_refl _

theorem preferredView_updateHighQC (u : Tchs) (p : ℕ) : (u.updateHighQC p).preferredView = u.preferredView := by
  obtain ⟨_, heq, -⟩ := updateHighQC_cases u p
  rw [heq]

/-- The certificate that waited for a block is processed after a commit as it is without one, but for the
lock, which may stay lower. -/
theorem processCertificate_thinned (h : Thinned u w) {u' : Tchs} (hr : processCertificate nd p u = .ok () u') :
    wp (processCertificate nd p) (fun _ w' => w'.preferredView ≤ u'.preferredView) (fun _ => False) w := by
  have hqc : w.qcAt p = u.qcAt p := by
    unfold qcAt
    rw [h.heap]
  unfold processCertificate at hr ⊢
  rw [get_bind_apply] at hr
  refine wp_bind.2 (wp_get.2 ?_)
  rw [hqc, h.pm]
  refine wp_ite.2 ⟨fun hs => ?_, fun hs => ?_⟩
  · rw [if_pos hs] at hr
    cases hr
    exact h.preferredView.le
  rw [if_neg hs] at hr
  obtain ⟨ok, u₁, hok, hr⟩ := bind_eq_ok hr
  cases hx : checkQC nd (u.qcAt p) with
  | error e => rw [hx] at hok; cases hok
  | ok ok' =>
    rw [hx] at hok
    cases hok
    refine wp_bind.2 (wp_ofExcept.2 ⟨fun a ha => ?_, fun e he => by cases he⟩)
    cases ha
    refine wp_ite.2 ⟨fun hv => ?_, fun hv => ?_⟩
    · rw [if_pos hv] at hr
      cases hr
      exact h.preferredView.le
    rw [if_neg hv] at hr
    refine wp_ite.2 ⟨fun hb => ?_, fun hb => ?_⟩
    · rw [if_pos hb] at hr
      cases hr
      exact h.preferredView.le
    rw [if_neg hb] at hr
    cases hw : w.updatePreferredView (u.qcAt p) with
    | none =>
      refine h.preferredView.le.trans ?_
      cases hu : u.updatePreferredView (u.qcAt p) with
      | none =>
        simp only [hu] at hr
        cases hr
        exact le_refl _
      | some v =>
        simp only [hu] at hr
        cases hr
        rw [preferredView_updateHighQC]
        exact le_updatePreferredView hu
    | some w' =>
      obtain ⟨v, hu, heq⟩ := updatePreferredView_thinned h hw
      simp only [hu] at hr
      cases hr
      show (w'.updateHighQC p).preferredView ≤ (v.updateHighQC p).preferredView
      rw [preferredView_updateHighQC, preferredView_updateHighQC, heq]

theorem processBufferedQC_thinned (h : Thinned u w) {u' : Tchs} {id : ℕ}
    (hr : processBufferedQC nd id u = .ok () u') :
    ∃ w', processBufferedQC nd id w = .ok () w' ∧ w'.preferredView ≤ u'.preferredView := by
  suffices hwp : wp (processBufferedQC nd id) (fun _ w' => w'.preferredView ≤ u'.preferredView)
      (fun _ => False) w by
    obtain ⟨_, w', hw, hle⟩ := exists_ok_of_wp hwp
    exact ⟨w', hw, hle⟩
  unfold processBufferedQC at hr ⊢
  rw [get_bind_apply] at hr
  refine wp_bind.2 (wp_get.2 ?_)
  rw [h.bufferedQCs]
  cases hl : u.bufferedQCs.lookup id with
  | none =>
    simp only [hl] at hr
    cases hr
    exact h.preferredView.le
  | some p =>
    simp only [hl] at hr
    obtain ⟨_, v, hv, hr⟩ := bind_eq_ok hr
    cases hr
    exact wp_bind.2 (wp_mono (processCertificate_thinned h hv) (fun _ _ hle => hle) fun _ hf => hf)

/-! ### The voting rule after a commit -/

/-- Once the parent of a block is known, the voting rule can only be more generous with fewer blocks and a
lower lock. -/
theorem votingRule_thinned {u' w' : Tchs} (h : Thinned u w) (hu : SameChain u u') (hw : SameChain w w')
    (hle : w'.preferredView ≤ u'.preferredView) (hr : u'.votingRule b = some true)
    (hpar : 2 < b.view → w.bc.getParentBlock b.id ≠ none) : w'.votingRule b = some true := by
  unfold votingRule BlockChain.votingRule at hr ⊢
  rw [hu.bc, hu.lastVotedView] at hr
  rw [hw.bc, hw.lastVotedView, h.lastVotedView]
  by_cases h2 : b.view ≤ 2
  · exact if_pos h2
  · rw [if_neg h2] at hr ⊢
    obtain ⟨a, ha⟩ := Option.ne_none_iff_exists'.1 (hpar (not_le.1 h2))
    have ha' : u.bc.getParentBlock b.id = some a := by
      obtain ⟨c, hc, hca⟩ := Option.bind_eq_some_iff.1 ha
      exact Option.bind_eq_some_iff.2 ⟨c, h.stored _ _ hc, h.stored _ _ hca⟩
    simp only [ha, ha'] at hr ⊢
    split_ifs at hr with hlow
    · cases hr
    · rw [if_neg]
      omega

theorem processBufferedQC_ok {id : ℕ} (h : processBufferedQC nd id s = .ok () t) : SameChain s t :=
  wp_ok (Q := fun _ t => SameChain s t) (processBufferedQC_same nd id s) h

/-! ### The vote -/

theorem castVote_voted {v : Vote} (hr : w.votingRule b = some true)
    (hkey : makeVote nd.toConfig b.view nd.id b.id = .ok v) :
    w.trace ++ [.voted b] <+: (final (castVote nd b w)).trace := by
  refine (wp_final (P := fun t : Tchs => w.trace ++ [.voted b] <+: t.trace)).1 ?_
  unfold castVote
  refine wp_bind.2 (wp_get.2 ?_)
  simp only [hr, hkey]
  refine wp_bind.2 (wp_ofExcept.2 ⟨fun v' _ => ?_, fun e he => by cases he⟩)
  refine wp_bind.2 (wp_modify.2 ?_)
  refine Moves.bind (R := Grown) ?_ (fun _ => .pure _) { w with trace := w.trace ++ [.voted b] }
  exact .ite (grows_processVote nd v') (.modify fun _ => List.prefix_refl _)

theorem castVote_unvoted
    (hno : ¬ (w.votingRule b = some true ∧ ∃ v, makeVote nd.toConfig b.view nd.id b.id = .ok v)) :
    wp (castVote nd b) (fun res w' => res ≠ none ∧ Unvoted b w w') (Unvoted b w) w := by
  unfold castVote
  refine wp_bind.2 (wp_get.2 ?_)
  cases hr : w.votingRule b with
  | none => exact ⟨Option.some_ne_none _, .refl b w⟩
  | some ok =>
    cases ok with
    | false => exact ⟨Option.some_ne_none _, .refl b w⟩
    | true => exact wp_bind.2 (wp_ofExcept.2 ⟨fun v hv => absurd ⟨hr, v, hv⟩ hno, fun _ _ => .refl b w⟩)

/-- Above view 2 the voting rule looks at the parent. -/
theorem getParentBlock_of_votingRule (hr : s.votingRule b = some true) (h2 : 2 < b.view) :
    s.bc.getParentBlock b.id ≠ none := by
  intro hp
  unfold votingRule BlockChain.votingRule at hr
  rw [if_neg (not_le.2 h2), hp] at hr
  cases hr

/-- Nothing is in the way of the vote. -/
theorem insertAndVote_voted {v : Vote} (hrule : WouldVote nd b t u) (hpass : Passable u b q)
    (hkey : makeVote nd.toConfig b.view nd.id b.id = .ok v) : CastVote b t (final (insertAndVote nd b q t)) := by
  obtain ⟨hst, u', hu', hrule⟩ := hrule
  have hsameu := processBufferedQC_ok hu'
  obtain ⟨x, y, hu⟩ := storeBlock_trace hst
  obtain ⟨w, hw⟩ := tryCommit_returns hpass
  obtain ⟨⟨es, htr, -⟩, hgo⟩ := wp_ok (tryCommit_spec b q u) hw
  obtain ⟨hthin, hskip, hcommit⟩ := hgo rfl
  obtain ⟨w', hw', hle⟩ := processBufferedQC_thinned hthin hu'
  have hsame := processBufferedQC_ok hw'
  have hpar : 2 < b.view → w.bc.getParentBlock b.id ≠ none := by
    intro h2
    by_cases hask : AsksCommit b q
    · obtain ⟨g, r, bc, hg, hc, hpar⟩ := hpass hask
      obtain ⟨g', r', hg', hc'⟩ := hcommit hask
      cases hg.symm.trans hg'
      cases hc.symm.trans hc'
      exact hpar
    · rw [hskip hask, ← hsameu.bc]
      exact getParentBlock_of_votingRule hrule h2
  obtain ⟨es', hes'⟩ := castVote_voted (votingRule_thinned hthin hsameu hsame hle hrule hpar) hkey
  rw [insertAndVote_apply hst, bind_apply_ok hw]
  refine ⟨[.accepted b x y] ++ es ++ [.voted b] ++ es', ?_, by simp⟩
  dsimp only
  rw [bind_apply_ok hw', ← hes', hsame.trace, htr, hu]
  simp

/-- Something is in the way of the vote. -/
theorem insertAndVote_unvoted (hrule : WouldVote nd b t u)
    (hno : ¬ (Passable u b q ∧ ∃ v, makeVote nd.toConfig b.view nd.id b.id = .ok v)) :
    wp (insertAndVote nd b q) (fun res w => res ≠ none ∧ Unvoted b t w) (Unvoted b t) t := by
  obtain ⟨hst, -⟩ := hrule
  obtain ⟨x, y, hu⟩ := storeBlock_trace hst
  have hacc : Unvoted b t u := ⟨[.accepted b x y], hu, by simp⟩
  unfold wp
  rw [insertAndVote_apply hst]
  refine wp_bind.2 (wp_mono (tryCommit_spec b q u) ?_ fun w hw => hacc.trans hw)
  rintro res w ⟨hw, hgo⟩
  cases res with
  | some err => exact ⟨Option.some_ne_none _, hacc.trans hw⟩
  | none =>
    obtain ⟨-, -, hcommit⟩ := hgo rfl
    refine wp_bind.2 (wp_mono (processBufferedQC_same nd b.id w) ?_ fun w' h =>
      hacc.trans (hw.trans (.of_eq h.trace)))
    intro _ w' hsame
    have hw' : Unvoted b t w' := hacc.trans (hw.trans (.of_eq hsame.trace))
    refine wp_mono (castVote_unvoted ?_) (fun res w'' h => ⟨h.1, hw'.trans h.2⟩) fun w'' h => hw'.trans h
    -- if the rule still allows the vote, the parent of the block has survived the commit
    rintro ⟨hr, hkey⟩
    refine hno ⟨fun hask => ?_, hkey⟩
    obtain ⟨g, r, hg, hc⟩ := hcommit hask
    refine ⟨g, r, w.bc, hg, hc, ?_⟩
    rw [← hsame.bc]
    refine getParentBlock_of_votingRule hr ?_
    have := hask.1
    have := hask.2
    omega

/-- **The vote and the commit before it.**  Take any state in which a block gets past the first tests of
`ProcessBlock`, and suppose that the voting rule would accept it once it is stored and the certificate that
waited for it is processed.  Then `ProcessBlock` votes for it if and only if it asks for no commit or gets one
that leaves it and its parent stored, and the replica has a key to sign with. -/
theorem vote_sent_iff (nd : Node) (fuel p : ℕ) (s t u : Tchs) (b : Block) (q : QC)
    (hp : s.heap[p]? = some (.block b)) (hq : b.qc = some q) (hvet : vetBlock nd p b s = .ok none t)
    (hrule : WouldVote nd b t u) :
    CastVote b s (final (processBlockN nd (fuel + 1) p s)) ↔
      Passable u b q ∧ ∃ v, makeVote nd.toConfig b.view nd.id b.id = .ok v := by
  have hqc : s.qcAt p = q := by
    unfold qcAt
    rw [hp]
    simp [Cell.cert, hq]
  have htrace : t.trace = s.trace :=
    (wp_ok (Q := fun _ t => SameChain s t) (vetBlock_same nd p b s) hvet).trace
  have hcast : ∀ w, CastVote b s w ↔ CastVote b t w := fun w => by
    unfold CastVote
    rw [htrace]
  rw [hcast, processBlockN, get_bind_apply, hp]
  dsimp only
  rw [bind_apply_ok hvet, hqc]
  dsimp only
  constructor
  · intro h
    by_contra hno
    refine (wp_final (P := fun w => ¬ CastVote b t w)).1 ?_ h
    refine wp_bind.2 (wp_mono (insertAndVote_unvoted hrule hno) ?_ fun w h => h.not_castVote)
    rintro res w ⟨hres, hw⟩
    obtain ⟨err, rfl⟩ := Option.ne_none_iff_exists'.1 hres
    exact hw.not_castVote
  · rintro ⟨hpass, v, hkey⟩
    obtain ⟨es, htr, hmem⟩ := insertAndVote_voted hrule hpass hkey
    obtain ⟨es', htr'⟩ := Moves.final_bind (R := Grown) (m := insertAndVote nd b q) 
      (grows_drain (grows_processBlockN nd fuel) b) t
    refine ⟨es ++ es', ?_, List.mem_append_left _ hmem⟩
    rw [← List.append_assoc, ← htr]
    exact htr'.symm

/-! ### Two runs of node 2 -/

/-- The test of `WouldVote` on a block that has just been received. -/
def wouldVote (nd : Node) (b : Block) (more : Tchs → Bool) (r : Tchs) : Bool :=
  passes (alloc (.block b)) (fun p s => decide (s.heap[p]? = some (.block b)) &&
    passes (vetBlock nd p b) (fun res t => decide (res = none) &&
      passes (storeBlock b) (fun _ u => more u &&
        passes (processBufferedQC nd b.id) (fun _ w => decide (w.votingRule b = some true)) u) t) s) r

theorem exists_wouldVote (nd : Node) (b : Block) (more : Tchs → Bool) (r : Tchs)
    (h : wouldVote nd b more r = true) :
    ∃ p s t u, alloc (.block b) r = .ok p s ∧ s.heap[p]? = some (.block b) ∧ vetBlock nd p b s = .ok none t ∧
      WouldVote nd b t u ∧ more u = true := by
  obtain ⟨p, s, hs, h⟩ := exists_ok_of_passes h
  obtain ⟨hp, h⟩ := Bool.and_eq_true_iff.1 h
  obtain ⟨res, t, ht, h⟩ := exists_ok_of_passes h
  obtain ⟨hres, h⟩ := Bool.and_eq_true_iff.1 h
  obtain rfl := of_decide_eq_true hres
  obtain ⟨_, u, hu, h⟩ := exists_ok_of_passes h
  obtain ⟨hmore, h⟩ := Bool.and_eq_true_iff.1 h
  obtain ⟨_, w, hw, h⟩ := exists_ok_of_passes h
  exact ⟨p, s, t, u, hs, of_decide_eq_true hp, ht, ⟨hu, w, hw, of_decide_eq_true h⟩, hmore⟩

/-- Node 1's block of view 4, on a certificate of view 3. -/
def fourth : Block := FourNodes.block 4 (FourNodes.certificate 3)

/-- The blocks of views 1 to 3, each on a certificate of the view before. -/
def noGap : List Safety.Input :=
  [.msg (.block (FourNodes.block 1 .initial)), .msg (.block (FourNodes.block 2 (FourNodes.certificate 1))),
    .msg (.block (FourNodes.block 3 (FourNodes.certificate 2)))]

theorem vote_sent_iff_noGap :
    ∃ p s t u, alloc (.block fourth) (runOn FourNodes.second noGap) = .ok p s ∧
      vetBlock FourNodes.second p fourth s = .ok none t ∧ WouldVote FourNodes.second fourth t u ∧
      AsksCommit fourth (FourNodes.certificate 3) ∧
      CastVote fourth s (final (processBlockN FourNodes.second 1 p s)) := by
  obtain ⟨p, s, t, u, hs, hp, ht, hrule, hmore⟩ := exists_wouldVote FourNodes.second fourth
    (fun u => (u.commitRule (FourNodes.certificate 3)).any fun g =>
      passes (BlockChain.commitBlock g.id u.pm.curView)
        (fun res bc => res.isSome && (bc.getParentBlock fourth.id).isSome) u.bc)
    (runOn FourNodes.second noGap) (by decide_cbv)
  have hpass : Passable u fourth (FourNodes.certificate 3) := by
    intro _
    cases hg : u.commitRule (FourNodes.certificate 3) with
    | none => rw [hg] at hmore; cases hmore
    | some g =>
      rw [hg] at hmore
      obtain ⟨res, bc, hc, h⟩ := exists_ok_of_passes hmore
      obtain ⟨hres, hpar⟩ := Bool.and_eq_true_iff.1 h
      obtain ⟨res, rfl⟩ := Option.isSome_iff_exists.1 hres
      exact ⟨g, res, bc, rfl, hc, Option.isSome_iff_ne_none.1 hpar⟩
  exact ⟨p, s, t, u, hs, ht, hrule, ⟨by decide, by decide⟩,
    (vote_sent_iff FourNodes.second 0 p s t u fourth _ hp rfl ht hrule).2 ⟨hpass, _, rfl⟩⟩

/-- The block of view 1, a timeout, and a block of view 3 on the first one. -/
def gap : List Safety.Input :=
  [.msg (.block (FourNodes.block 1 .initial)), .event .timer,
    .msg (.block (FourNodes.block 3 (FourNodes.certificate 1)))]

/-- **A gap withholds a vote.**  The block of view 4 extends that of view 3, whose certificate node 2 has just
locked on, and the voting rule accepts it; but between the blocks of views 1 and 3 there is nothing to
commit, and `ProcessBlock` returns without a vote. -/
theorem gap_withholds_vote :
    ∃ p s t u w, alloc (.block fourth) (runOn FourNodes.second gap) = .ok p s ∧
      vetBlock FourNodes.second p fourth s = .ok none t ∧ WouldVote FourNodes.second fourth t u ∧
      processBlock FourNodes.second fourth (runOn FourNodes.second gap) = .ok none w ∧ .voted fourth ∉ w.trace := by
  obtain ⟨p, s, t, u, hs, hp, ht, hrule, -⟩ := exists_wouldVote FourNodes.second fourth (fun _ => true)
    (runOn FourNodes.second gap) (by decide_cbv)
  have hrun : passes (processBlock FourNodes.second fourth)
      (fun res w => decide (res = none) && decide (.voted fourth ∉ w.trace)) (runOn FourNodes.second gap) = true := by
    decide_cbv
  obtain ⟨res, w, hw, h⟩ := exists_ok_of_passes hrun
  obtain ⟨hres, hvote⟩ := Bool.and_eq_true_iff.1 h
  obtain rfl := of_decide_eq_true hres
  exact ⟨p, s, t, u, w, hs, ht, hrule, hw, of_decide_eq_true hvote⟩

end Tchs

end Bamboo
