import Bamboo.HotStuff.Intake
import Bamboo.HotStuff.NoCrash

/-!
# Buffered blocks

`ProcessBlock` puts a block of a future view into `bufferedBlocks`, and after it has voted for a block it takes
the one that waits for the next view, processes it and deletes it from the buffer.  The block may have been
buffered once more while it was processed, and then it is lost.

* `SameBuffer`: what the other parts of the handlers leave alone;
* `Keyed`: a buffered block waits under the view before its own, and its signature has been checked;
* `Drains`: `ProcessBlock` goes on with a buffered block;
* `KeepsBuffered`: a step removes only blocks that got past the test for future views, and no block that was
  buffered again;
* `keepsBuffered_iff`: this is so just if the current view has been reached whenever a buffered block is taken;
* `Brings`, `buffered_kept`: so it is enough that a block with another one waiting behind it brings the replica to
  its view;
* `rebuffered_block_lost`: a run in which it does not.
-/

namespace Bamboo

namespace HotStuff

open Prog

variable {nd : Node} {s t u : HotStuff} {b c : Block} {k : ℤ}

/-! ### What leaves the buffer alone -/

/-- The buffered blocks are the same. -/
def SameBuffer (s t : HotStuff) : Prop := t.bufferedBlocks = s.bufferedBlocks

instance : IsPreorder HotStuff SameBuffer where
  refl _ := rfl
  trans _ _ _ h h' := h'.trans h

theorem zoom_buffer {α : Type} (m : Go BlockChain α) :
    Moves SameBuffer (Prog.zoom bc (fun bc hs => { hs with bc := bc }) m) := by
  apply Moves.zoom
  intro _ _
  rfl

theorem tryCommit_buffer (qc : QC) : Moves SameBuffer (tryCommit qc) := by
  refine .get fun s => ?_
  cases s.commitRule qc with
  | none => exact rfl
  | some g =>
    refine Moves.bind (R := SameBuffer) (zoom_buffer _) (fun res => ?_) s
    cases res with
    | none => exact .pure _
    | some _ => exact .bind (.modify (by intro _; rfl)) fun _ => .modify (by intro _; rfl)

theorem updateHighQC_buffer (qc : QC) (s : HotStuff) : SameBuffer s (s.updateHighQC qc) := by
  simp [SameBuffer]

theorem processCertificate_buffer (nd : Node) (qc : QC) : Moves SameBuffer (processCertificate nd qc) := by
  refine .get fun s => wp_ite.2 ⟨fun _ => rfl, fun _ => ?_⟩
  refine wp_bind.2 (wp_ofExcept.2 ⟨fun ok _ => wp_ite.2 ⟨fun _ => rfl, fun _ => ?_⟩, fun _ _ => rfl⟩)
  refine wp_ite.2 ⟨fun _ => rfl, fun _ => ?_⟩
  cases hu : s.updatePreferredView qc with
  | none => exact rfl
  | some t =>
    obtain ⟨v, rfl, -⟩ := updatePreferredView_cases hu
    refine wp_bind.2 (wp_set.2 (Moves.after (R := SameBuffer) (by simp [SameBuffer]) ?_))
    exact Moves.ite (R := SameBuffer) (.pure _) (tryCommit_buffer qc) _

theorem processVote_buffer (nd : Node) (v : Vote) : Moves SameBuffer (processVote nd v) := by
  refine .bind (.ofExcept _) fun ok => .ite (.pure _) (.get fun s => ?_)
  obtain ⟨built, bc⟩ := s.bc.addVote nd.toConfig v
  refine wp_bind.2 (wp_set.2 (Moves.after (R := SameBuffer) (t := { s with bc := bc }) rfl ?_))
  cases built with
  | none => exact rfl
  | some qc =>
    refine Moves.bind (R := SameBuffer) (.modify (by intro _; rfl)) (fun _ => ?_) { s with bc := bc }
    cases bc.getBlockByID qc.blockID with
    | none => exact .modify (by intro _; rfl)
    | some _ => exact processCertificate_buffer nd _

theorem processBufferedQC_buffer (nd : Node) (id : ℕ) : Moves SameBuffer (processBufferedQC nd id) := by
  refine .get fun s => ?_
  cases s.bufferedQCs.lookup id with
  | none => exact rfl
  | some qc =>
    exact Moves.bind (R := SameBuffer) (processCertificate_buffer nd qc) (fun _ => .modify (by intro _; rfl)) s

theorem castVote_buffer (nd : Node) (b : Block) : Moves SameBuffer (castVote nd b) := by
  refine .get fun s => ?_
  cases s.votingRule b with
  | none => exact rfl
  | some ok =>
    cases ok with
    | false => exact rfl
    | true =>
      refine Moves.bind (R := SameBuffer) (.ofExcept _) (fun v => .bind (.modify (by intro _; rfl)) fun _ =>
        .bind ?_ fun _ => .pure _) s
      exact .ite (processVote_buffer nd v) (.modify (by intro _; rfl))

theorem insertAndVote_buffer (nd : Node) (b : Block) : Moves SameBuffer (insertAndVote nd b) :=
  .get fun s => Moves.bind (R := SameBuffer) (.modify (by intro _; rfl)) (fun _ => .bind (zoom_buffer _) fun _ =>
    .bind (processBufferedQC_buffer nd b.id) fun _ => castVote_buffer nd b) s

theorem processRemoteTmo_buffer (nd : Node) (m : TMO) : Moves SameBuffer (processRemoteTmo nd m) := by
  refine .bind ?_ fun _ => .get fun s => ?_
  · cases m.highQC with
    | none => exact .throw _
    | some qc => exact processCertificate_buffer nd qc
  · obtain ⟨tc, pm⟩ := s.pm.processRemoteTmo m
    refine wp_bind.2 (wp_set.2 (Moves.after (R := SameBuffer) (t := { s with pm := pm }) rfl ?_))
    cases tc with
    | none => exact rfl
    | some tc =>
      unfold processTC
      exact wp_bind.2 (wp_get.2 (wp_ite.2 ⟨fun _ => rfl, fun _ => wp_set.2 rfl⟩))

theorem processLocalTmo_buffer (nd : Node) (view : ℤ) : Moves SameBuffer (processLocalTmo nd view) :=
  .bind (.modify (by intro _; rfl)) fun _ => .get fun s =>
    Moves.bind (R := SameBuffer) (.modify (by intro _; rfl)) (fun _ => processRemoteTmo_buffer nd _) s

theorem forkChoice_buffer (nd : Node) : Moves SameBuffer (forkChoice nd) := by
  refine .get fun s => wp_ite.2 ⟨fun _ => rfl, fun _ => ?_⟩
  cases s.bc.getBlockByID s.highQC.blockID with
  | none => exact rfl
  | some parBlock =>
    dsimp only
    cases parBlock.qc with
    | none => exact rfl
    | some parQC =>
      refine wp_ite.2 ⟨fun _ => rfl, fun _ => ?_⟩
      cases s.bc.forrest.vertices.lookup s.highQC.blockID with
      | none => exact rfl
      | some p => exact rfl

theorem makeProposals_buffer (nd : Node) (view : ℤ) (payload : List Transaction) (pBatch : PBatch) :
    Moves SameBuffer (if 1 < view then makePProposal nd view pBatch else makeProposal nd view payload) :=
  .ite (.bind (forkChoice_buffer nd) fun _ => .ofExcept _) (.bind (forkChoice_buffer nd) fun _ => .ofExcept _)

/-- The only place where a block is buffered. -/
theorem vetBlock_buffer (nd : Node) (b : Block) (s : HotStuff) :
    wp (vetBlock nd b) (fun r t =>
      (s.pm.curView + 1 < b.view → r = some none ∧
        t = { s with bufferedBlocks := s.bufferedBlocks.insert (b.view - 1) b } ∧ ∃ ok, checkBlock nd b = .ok ok) ∧
      (b.view ≤ s.pm.curView + 1 → SameBuffer s t)) (SameBuffer s) s := by
  unfold vetBlock
  refine wp_bind.2 (wp_get.2 (wp_bind.2 (wp_ofExcept.2 ⟨fun ok hok => ?_, fun _ _ => rfl⟩)))
  refine wp_ite.2 ⟨fun hfar => wp_bind.2 (wp_set.2 ⟨fun _ => ⟨rfl, rfl, ok, hok⟩, fun hle => by omega⟩),
    fun hnear => ?_⟩
  suffices h : wp _ (fun _ t => SameBuffer s t) (SameBuffer s) s from
    wp_mono h (fun _ t ht => ⟨fun hfar => absurd hfar hnear, fun _ => ht⟩) fun _ h => h
  cases b.qc with
  | none => exact rfl
  | some qc =>
    refine Moves.bind (R := SameBuffer) (.modify (by intro _; rfl)) (fun _ => .bind
      (.modify (updateHighQC_buffer qc)) fun _ => .bind ?_ fun _ => .get fun t => ?_) s
    · exact .ite (processCertificate_buffer nd qc) (.pure _)
    · exact Moves.ite (R := SameBuffer) (.pure _) (.ite (.pure _) (.pure _)) t

/-! ### What is in the buffer -/

/-- A buffered block waits under the view before its own, and its signature could be checked. -/
def Keyed (nd : Node) (s : HotStuff) : Prop :=
  ∀ k c, s.bufferedBlocks.lookup k = some c → c.view = k + 1 ∧ ∃ ok, checkBlock nd c = .ok ok

theorem Keyed.same (h : Keyed nd s) (hb : SameBuffer s t) : Keyed nd t := by
  unfold Keyed
  rw [show t.bufferedBlocks = s.bufferedBlocks from hb]
  exact h

theorem Keyed.insert (h : Keyed nd s) (hb : ∃ ok, checkBlock nd b = .ok ok) :
    Keyed nd { s with bufferedBlocks := s.bufferedBlocks.insert (b.view - 1) b } := by
  intro k c hl
  by_cases hk : k = b.view - 1
  · subst hk
    rw [AList.lookup_insert] at hl
    cases hl
    exact ⟨by omega, hb⟩
  · rw [AList.lookup_insert_ne hk] at hl
    exact h k c hl

theorem Keyed.erase (h : Keyed nd s) (k : ℤ) :
    Keyed nd { s with bufferedBlocks := s.bufferedBlocks.erase k } := by
  intro k' c hl
  by_cases hk : k' = k
  · subst hk
    rw [AList.lookup_erase] at hl
    cases hl
  · rw [AList.lookup_erase_ne hk] at hl
    exact h k' c hl

/-! ### Blocks that are taken from the buffer -/

/-- `ProcessBlock`, called in `s` on `b`, votes in its course for `b'` and comes in the state `u` to a buffered
block `c`, which it processes next. -/
def Drains (nd : Node) (s : HotStuff) (b b' : Block) (u : HotStuff) (c : Block) : Prop :=
  ∃ s' t, Rounds nd s b s' b' ∧ vetBlock nd b' s' = .ok none t ∧ insertAndVote nd b' t = .ok none u ∧
    u.bufferedBlocks.lookup b'.view = some c

/-- A block that goes on leaves the buffer alone until the next one is taken. -/
theorem buffer_of_round (hv : vetBlock nd b s = .ok none t) (hi : insertAndVote nd b t = .ok none u) :
    SameBuffer s u := by
  have h := wp_ok (vetBlock_buffer nd b s) hv
  have hnear : b.view ≤ s.pm.curView + 1 := by
    by_contra hfar
    obtain ⟨hr, -⟩ := h.1 (by omega)
    cases hr
  exact ((insertAndVote_buffer nd b).ok hi).trans (h.2 hnear)

theorem Drains.buffer {b' : Block} (h : Drains nd s b b' u c) : SameBuffer s u := by
  obtain ⟨s', t, hr, hv, hi, -⟩ := h
  induction hr with
  | first => exact buffer_of_round hv hi
  | next hv' hi' _ _ ih => exact (ih hv hi).trans (buffer_of_round hv' hi')

theorem Drains.next {b' c' : Block} {u' : HotStuff} (hv : vetBlock nd b s = .ok none t)
    (hi : insertAndVote nd b t = .ok none u) (hl : u.bufferedBlocks.lookup b.view = some c)
    (h : Drains nd u c b' u' c') : Drains nd s b b' u' c' := by
  obtain ⟨s', t', hr, hrest⟩ := h
  exact ⟨s', t', .next hv hi hl hr, hrest⟩

/-- What `ProcessBlock` does to the buffer: it stays keyed, and what it has lost was taken. -/
def BufferAfter (nd : Node) (s : HotStuff) (b : Block) (t : HotStuff) : Prop :=
  Keyed nd t ∧ ∀ k c, s.bufferedBlocks.lookup k = some c → t.bufferedBlocks.lookup k = none →
    ∃ b' u, Drains nd s b b' u c ∧ b'.view = k

theorem bufferAfter_same (h : Keyed nd s) (hb : SameBuffer s t) : BufferAfter nd s b t := by
  refine ⟨h.same hb, fun k c hl hn => ?_⟩
  rw [show t.bufferedBlocks = s.bufferedBlocks from hb, hl] at hn
  cases hn

theorem processBlockN_buffer (fuel : ℕ) (h : Keyed nd s) (b : Block) :
    wp (processBlockN nd fuel b) (fun _ t => BufferAfter nd s b t) (BufferAfter nd s b) s := by
  induction fuel generalizing s b with
  | zero => exact bufferAfter_same h rfl
  | succ fuel ih =>
    unfold processBlockN
    refine wp_bind.2 (wp_mono (wp_and (vetBlock_buffer nd b s) wp_self) ?_ fun t ht => bufferAfter_same h ht.1)
    rintro r t ⟨⟨hfar, hnear⟩, hv⟩
    cases r with
    | some err =>
      by_cases hle : b.view ≤ s.pm.curView + 1
      · exact bufferAfter_same h (hnear hle)
      · obtain ⟨-, rfl, hok⟩ := hfar (by omega)
        refine ⟨h.insert hok, fun k c hl hn => ?_⟩
        by_cases hk : k = b.view - 1
        · subst hk
          rw [AList.lookup_insert] at hn
          cases hn
        · rw [AList.lookup_insert_ne hk, hl] at hn
          cases hn
    | none =>
      have hst : SameBuffer s t := by
        by_cases hle : b.view ≤ s.pm.curView + 1
        · exact hnear hle
        · obtain ⟨hr, -⟩ := hfar (by omega)
          cases hr
      refine wp_bind.2 (wp_mono (wp_and (insertAndVote_buffer nd b t) wp_self) ?_ fun u hu =>
        bufferAfter_same h (IsTrans.trans _ _ _ hst hu.1))
      rintro r u ⟨htu, hi⟩
      have hsu : SameBuffer s u := IsTrans.trans _ _ _ hst htu
      cases r with
      | some err => exact bufferAfter_same h hsu
      | none =>
        refine wp_bind.2 (wp_get.2 ?_)
        cases hl : u.bufferedBlocks.lookup b.view with
        | none => exact bufferAfter_same h hsu
        | some c =>
          -- what the next call has lost was taken in its course
          have hnext : ∀ w, BufferAfter nd u c w → BufferAfter nd s b w := by
            rintro w ⟨hw, hlost⟩
            refine ⟨hw, fun k c' hk hn => ?_⟩
            rw [← show u.bufferedBlocks = s.bufferedBlocks from hsu] at hk
            obtain ⟨b', u', hd, hview⟩ := hlost k c' hk hn
            exact ⟨b', u', hd.next hv hi hl, hview⟩
          refine wp_bind.2 (wp_mono (ih (h.same hsu) c) (fun _ w hw => ?_) fun w hw => hnext w hw)
          refine wp_bind.2 (wp_modify.2 ⟨hw.1.erase b.view, fun k c' hk hn => ?_⟩)
          by_cases hkey : k = b.view
          · subst hkey
            rw [← show u.bufferedBlocks = s.bufferedBlocks from hsu, hl] at hk
            cases hk
            exact ⟨b, u, ⟨s, t, .first, hv, hi, hl⟩, rfl⟩
          · rw [AList.lookup_erase_ne hkey] at hn
            exact (hnext w hw).2 k c' hk hn

/-! ### A block that is buffered again -/

/-- A block of a future view is buffered. -/
theorem processBlockN_far (fuel : ℕ) (hok : ∃ ok, checkBlock nd c = .ok ok) (hfar : u.pm.curView + 1 < c.view) :
    processBlockN nd (fuel + 1) c u =
      .ok none { u with bufferedBlocks := u.bufferedBlocks.insert (c.view - 1) c } := by
  obtain ⟨ok, hok⟩ := hok
  have hv : vetBlock nd c u =
      .ok (some none) { u with bufferedBlocks := u.bufferedBlocks.insert (c.view - 1) c } := by
    unfold vetBlock
    rw [get_bind_apply, hok, ok_bind_apply, if_pos hfar]
    rfl
  unfold processBlockN
  rw [bind_apply_ok hv]
  rfl

/-- After the call on the buffered block, its entry is deleted. -/
theorem processBlockN_next {fuel : ℕ} {r : Option BlockError} {w : HotStuff} (hv : vetBlock nd b s = .ok none t)
    (hi : insertAndVote nd b t = .ok none u) (hl : u.bufferedBlocks.lookup b.view = some c)
    (hc : processBlockN nd fuel c u = .ok r w) :
    processBlockN nd (fuel + 1) b s = .ok none { w with bufferedBlocks := w.bufferedBlocks.erase b.view } := by
  conv_lhs => unfold processBlockN
  rw [bind_apply_ok hv]
  dsimp only
  rw [bind_apply_ok hi]
  dsimp only
  rw [get_bind_apply, hl]
  dsimp only
  rw [bind_apply_ok hc]
  rfl

theorem lookup_erase_eq_none {m : GoMap ℤ Block} {k : ℤ} (h : m.lookup k = none) (k' : ℤ) :
    (m.erase k').lookup k = none := by
  by_cases hk : k = k'
  · subst hk
    exact AList.lookup_erase _ _
  · rw [AList.lookup_erase_ne hk]
    exact h

/-- **A block that is taken too early is lost**: the calls return, and nothing is left under its key. -/
theorem Drains.lost {b' : Block} {fuel : ℕ} (h : Keyed nd s) (hd : Drains nd s b b' u c)
    (hfar : u.pm.curView < b'.view) (hfuel : waiting s.bufferedBlocks b.view < fuel) :
    ∃ r t, processBlockN nd fuel b s = .ok r t ∧ t.bufferedBlocks.lookup b'.view = none := by
  obtain ⟨s', t, hr, hv, hi, hl⟩ := hd
  induction hr generalizing fuel with
  | @first s b =>
    have hsu := buffer_of_round hv hi
    obtain ⟨hview, hok⟩ := h.same hsu _ _ hl
    have hwait := waiting_succ_lt hl
    rw [show u.bufferedBlocks = s.bufferedBlocks from hsu] at hwait
    obtain ⟨fuel, rfl⟩ : ∃ n, fuel = n + 1 + 1 := ⟨fuel - 2, by omega⟩
    refine ⟨none, _, processBlockN_next hv hi hl (processBlockN_far fuel hok (by omega)), ?_⟩
    exact AList.lookup_erase _ _
  | @next s t₁ u₁ s' b c₁ b' hv₁ hi₁ hl₁ _ ih =>
    have hsu := buffer_of_round hv₁ hi₁
    obtain ⟨hview, -⟩ := h.same hsu _ _ hl₁
    have hwait := waiting_succ_lt hl₁
    rw [show u₁.bufferedBlocks = s.bufferedBlocks from hsu] at hwait
    obtain ⟨fuel, rfl⟩ : ∃ n, fuel = n + 1 := ⟨fuel - 1, by omega⟩
    have hlt : waiting u₁.bufferedBlocks c₁.view < fuel := by
      rw [hview, show u₁.bufferedBlocks = s.bufferedBlocks from hsu]
      omega
    obtain ⟨r, w, hw, hnone⟩ := ih (h.same hsu) hfar hlt hv hi hl
    exact ⟨none, _, processBlockN_next hv₁ hi₁ hl₁ hw, lookup_erase_eq_none hnone _⟩

/-! ### Steps of a run -/

/-- The state after an input. -/
def after (nd : Node) (s : HotStuff) : Safety.Input → HotStuff
  | .msg m => final ((safety nd).handleMsg m s)
  | .event e => final ((safety nd).handleEvent nd e s)

/-- In the course of an input, `ProcessBlock` votes for `b` and comes in the state `u` to a buffered block `c`,
which it processes next. -/
def DrainsAt (nd : Node) (s : HotStuff) (x : Safety.Input) (b : Block) (u : HotStuff) (c : Block) : Prop :=
  ∃ s₀ b₀, Called₀ nd s x s₀ b₀ ∧ Drains nd s₀ b₀ b u c

theorem final_processBlock (nd : Node) (b : Block) (s : HotStuff) :
    final ((safety nd).processBlock b s) = final (processBlock nd b s) := by
  show final ((processBlock nd b >>= fun _ => pure ()) s) = _
  cases h : processBlock nd b s with
  | ok r t => rw [bind_apply_ok h]; rfl
  | error e t => rw [bind_apply_error h]; rfl

/-- An input that leads to a call of `ProcessBlock` does nothing after it. -/
theorem Called₀.after {x : Safety.Input} {s₀ : HotStuff} (h : Called₀ nd s x s₀ b) :
    SameBuffer s s₀ ∧ HotStuff.after nd s x = final (processBlock nd b s₀) := by
  cases h with
  | msg => exact ⟨rfl, final_processBlock nd b s⟩
  | @proposal payload pBatch v rest _ t hq hl hm =>
    have hsame := (makeProposals_buffer nd v payload pBatch).ok hm
    refine ⟨hsame, ?_⟩
    rw [← final_processBlock]
    show final ((safety nd).processNewView nd payload pBatch s) = _
    have hq' : ((safety nd).pm s).newViewChan = v :: rest := hq
    unfold Safety.processNewView Safety.proposeBlock
    rw [get_bind_apply, hq']
    dsimp only
    rw [set_bind_apply, if_neg (by simp [hl])]
    exact congrArg final (bind_apply_ok hm)

/-- An input that leads to no call leaves the buffer alone. -/
theorem after_cases (nd : Node) (s : HotStuff) (x : Safety.Input) :
    SameBuffer s (after nd s x) ∨ ∃ s₀ b₀, Called₀ nd s x s₀ b₀ := by
  cases x with
  | msg m =>
    cases m with
    | block b => exact Or.inr ⟨s, b, .msg b⟩
    | vote v => exact Or.inl ((processVote_buffer nd v).final s)
    | tmo m => exact Or.inl ((processRemoteTmo_buffer nd m).final s)
  | event e =>
    cases e with
    | txn =>
      refine Or.inl ((wp_final (P := SameBuffer s)).1 ?_)
      show wp ((safety nd).handleTxn nd) _ _ s
      unfold Safety.handleTxn
      exact wp_bind.2 (wp_get.2 (wp_ite.2 ⟨fun _ => wp_set.2 rfl, fun _ => rfl⟩))
    | timer =>
      exact Or.inl ((Moves.get (R := SameBuffer) fun s => processLocalTmo_buffer nd s.pm.curView s).final s)
    | newView payload pBatch =>
      by_cases hcall : ∃ s₀ b₀, Called₀ nd s (.event (.newView payload pBatch)) s₀ b₀
      · exact Or.inr hcall
      refine Or.inl ((wp_final (P := SameBuffer s)).1 ?_)
      show wp ((safety nd).processNewView nd payload pBatch) _ _ s
      unfold Safety.processNewView
      refine wp_bind.2 (wp_get.2 ?_)
      cases hq : ((safety nd).pm s).newViewChan with
      | nil => exact rfl
      | cons v rest =>
        refine wp_bind.2 (wp_set.2 (wp_ite.2 ⟨fun _ => rfl, fun hl => ?_⟩))
        unfold Safety.proposeBlock
        refine wp_bind.2 (wp_mono (wp_and (makeProposals_buffer nd v payload pBatch _) wp_self) ?_
          fun t ht => ht.1)
        rintro b t ⟨-, hm⟩
        exact absurd ⟨_, b, .proposal hq (by simpa using hl) hm⟩ hcall

theorem bufferAfter_processBlock (h : Keyed nd s) (b : Block) : BufferAfter nd s b (final (processBlock nd b s)) :=
  wp_final.1 (wp_bind.2 (wp_get.2 (processBlockN_buffer _ h b)))

/-- One input. -/
theorem Keyed.after (h : Keyed nd s) (x : Safety.Input) : Keyed nd (HotStuff.after nd s x) := by
  rcases after_cases nd s x with hs | ⟨s₀, b₀, hc⟩
  · exact h.same hs
  · obtain ⟨hs, ha⟩ := hc.after
    rw [ha]
    exact (bufferAfter_processBlock (h.same hs) b₀).1

/-- The replica is up after the inputs. -/
def Up (nd : Node) (inputs : List Safety.Input) : Prop := ((safety nd).run nd (HotStuff.new nd.n) inputs).up = true

theorem runOn_concat {inputs : List Safety.Input} (h : Up nd inputs) (x : Safety.Input) :
    runOn nd (inputs ++ [x]) = after nd (runOn nd inputs) x := by
  unfold runOn
  rw [Safety.run_concat]
  refine (congrArg Net.Proc.st (if_pos h)).trans ?_
  cases x with
  | msg m => exact Net.Proc.run_st _ _
  | event e => exact Net.Proc.run_st _ _

/-- A replica that is down takes no step. -/
theorem runOn_concat_down {inputs : List Safety.Input} (h : ¬Up nd inputs) (x : Safety.Input) :
    runOn nd (inputs ++ [x]) = runOn nd inputs := by
  unfold runOn
  rw [Safety.run_concat]
  exact congrArg Net.Proc.st (if_neg h)

/-- **Run lemma**: in every run, the buffered blocks are under their keys. -/
theorem keyed_runOn (nd : Node) (inputs : List Safety.Input) : Keyed nd (runOn nd inputs) := by
  induction inputs using List.reverseRecOn with
  | nil =>
    intro k c hl
    simp [runOn, Safety.run, HotStuff.new] at hl
  | append_singleton inputs x ih =>
    by_cases hup : Up nd inputs
    · rw [runOn_concat hup]
      exact ih.after x
    · rw [runOn_concat_down hup]
      exact ih

/-- No buffered block is lost when the input `x` takes the replica from `s` to `t`: a block whose entry is gone was
handed to `ProcessBlock` and passed the test for future views, and a block that did not pass it, and so was
buffered again, is still there. -/
def KeepsBuffered (nd : Node) (s t : HotStuff) (x : Safety.Input) : Prop :=
  (∀ k c, s.bufferedBlocks.lookup k = some c → t.bufferedBlocks.lookup k = none →
    ∃ b u, DrainsAt nd s x b u c ∧ c.view ≤ u.pm.curView + 1) ∧
  ∀ b u c, DrainsAt nd s x b u c → u.pm.curView + 1 < c.view → t.bufferedBlocks.lookup (c.view - 1) = some c

theorem DrainsAt.view {x : Safety.Input} (h : Keyed nd s) (hd : DrainsAt nd s x b u c) : c.view = b.view + 1 := by
  obtain ⟨s₀, b₀, hc, hd⟩ := hd
  have hu := (h.same hc.after.1).same hd.buffer
  obtain ⟨-, -, -, -, -, hl⟩ := hd
  exact (hu _ _ hl).1

/-- An input that takes buffered blocks only when their view has come keeps them. -/
theorem keepsBuffered_of_reached {x : Safety.Input} (h : Keyed nd s)
    (hreached : ∀ b u c, DrainsAt nd s x b u c → b.view ≤ u.pm.curView) : KeepsBuffered nd s (after nd s x) x := by
  constructor
  · intro k c hl hn
    rcases after_cases nd s x with hs | ⟨s₀, b₀, hc⟩
    · rw [show (after nd s x).bufferedBlocks = s.bufferedBlocks from hs, hl] at hn
      cases hn
    · obtain ⟨hs, ha⟩ := hc.after
      rw [ha] at hn
      rw [← show s₀.bufferedBlocks = s.bufferedBlocks from hs] at hl
      obtain ⟨b, u, hd, hview⟩ := (bufferAfter_processBlock (h.same hs) b₀).2 k c hl hn
      have hdrains : DrainsAt nd s x b u c := ⟨s₀, b₀, hc, hd⟩
      have hcome := hreached b u c hdrains
      have := hdrains.view h
      exact ⟨b, u, hdrains, by omega⟩
  · intro b u c hd hfar
    have hcome := hreached b u c hd
    have := hd.view h
    omega

/-- A block that is taken too early is lost by the input. -/
theorem DrainsAt.lost {x : Safety.Input} (h : Keyed nd s) (hd : DrainsAt nd s x b u c)
    (hfar : u.pm.curView < b.view) : (after nd s x).bufferedBlocks.lookup b.view = none := by
  obtain ⟨s₀, b₀, hc, hd⟩ := hd
  obtain ⟨hs, ha⟩ := hc.after
  obtain ⟨r, t, ht, hn⟩ := hd.lost (h.same hs) hfar (waiting_lt _ _)
  have hcall : processBlock nd b₀ s₀ = .ok r t := ht
  rw [ha, hcall]
  exact hn

/-- HotStuff keeps its buffered blocks in a run just when each block is taken from the buffer with its view
reached: whenever `ProcessBlock` has voted for a block `b` and finds another buffered under its view, the
replica has come to the view of `b`.  A block that is taken earlier is buffered again under the same key, which
the caller then deletes. -/
theorem keepsBuffered_iff (nd : Node) (inputs : List Safety.Input) :
    (∀ before x later, inputs = before ++ x :: later → Up nd before →
      KeepsBuffered nd (runOn nd before) (runOn nd (before ++ [x])) x) ↔
    ∀ before x later, inputs = before ++ x :: later → Up nd before →
      ∀ b u c, DrainsAt nd (runOn nd before) x b u c → b.view ≤ u.pm.curView := by
  constructor
  · intro hkeeps before x later hin hup b u c hd
    by_contra hfar
    have hview := hd.view (keyed_runOn nd before)
    have hstill := (hkeeps before x later hin hup).2 b u c hd (by omega)
    rw [runOn_concat hup, hview, Int.add_sub_cancel] at hstill
    have hgone := hd.lost (keyed_runOn nd before) (by omega)
    rw [hgone] at hstill
    cases hstill
  · intro hreached before x later hin hup
    rw [runOn_concat hup]
    exact keepsBuffered_of_reached (keyed_runOn nd before) (hreached before x later hin hup)

/-! ### Blocks that bring the replica to their view -/

/-- A block that another one waits for is of the replica's view, or it comes from another node with a certificate
that `processCertificate` accepts in the state before the call and that leads to the block's view. -/
def Brings (nd : Node) (s : HotStuff) (b : Block) : Prop :=
  s.bufferedBlocks.lookup b.view = none ∨ b.view ≤ s.pm.curView ∨
    b.proposer ≠ nd.id ∧ ∃ qc, b.qc = some qc ∧ b.view ≤ qc.view + 1 ∧ Accepts nd s qc

/-- `updateHighQC` has no influence on what is accepted. -/
theorem Accepts.offered {qc : QC} (h : Accepts nd s qc) (trace : List Entry) :
    Accepts nd (updateHighQC { s with trace := trace } qc) qc := by
  unfold Accepts Passed Traceable at *
  simpa using h

theorem curView_of_accepts {qc : QC} (hp : b.proposer ≠ nd.id) (hqc : b.qc = some qc) (ha : Accepts nd s qc)
    (hv : vetBlock nd b s = .ok none t) : qc.view + 1 ≤ t.pm.curView := by
  suffices h : wp (vetBlock nd b) (fun r t => r = none → qc.view + 1 ≤ t.pm.curView) (fun _ => True) s from
    wp_ok h hv rfl
  unfold vetBlock
  refine wp_bind.2 (wp_get.2 (wp_bind.2 (wp_ofExcept.2 ⟨fun _ _ => ?_, fun _ _ => trivial⟩)))
  refine wp_ite.2 ⟨fun _ => wp_bind.2 (wp_set.2 fun hn => by cases hn), fun _ => ?_⟩
  rw [hqc]
  refine wp_bind.2 (wp_modify.2 (wp_bind.2 (wp_modify.2 (wp_bind.2 (wp_ite.2 ⟨fun _ => ?_, fun hn => absurd hp hn⟩)))))
  -- the view that the certificate leads to stays until the end
  have hat := processCertificate_accepts (ha.offered (s.trace ++ [.offered b s.highQC.view]))
  have hview := (wp_final (P := fun t : HotStuff => t.pm.curView = qc.view + 1)).2 hat
  refine wp_mono hview (fun _ t ht => ?_) fun _ _ => trivial
  refine wp_bind.2 (wp_get.2 (wp_ite.2 ⟨fun _ => wp_pure.2 fun hn => ?_, fun _ => wp_ite.2 ⟨fun _ =>
    wp_pure.2 fun hn => ?_, fun _ => wp_pure.2 fun _ => ht.ge⟩⟩))
  · cases hn
  · cases hn

theorem curView_le_of_ok {α : Type} {m : Go HotStuff α} {r : α} (h : Steps Grows m (fun _ _ => True) s)
    (hr : m s = .ok r t) : s.pm.curView ≤ t.pm.curView := by
  have hgrows := Grows.final h
  rw [hr] at hgrows
  exact hgrows.curView

/-- A block that brings the replica to its view lets the next one in. -/
theorem Brings.reached (h : Brings nd s b) (hv : vetBlock nd b s = .ok none t)
    (hi : insertAndVote nd b t = .ok none u) (hl : u.bufferedBlocks.lookup b.view = some c) :
    b.view ≤ u.pm.curView := by
  have hvet := curView_le_of_ok vetBlock_grows hv
  have hins := curView_le_of_ok insertAndVote_grows hi
  rcases h with hnone | hview | ⟨hp, qc, hqc, hnext, ha⟩
  · rw [show u.bufferedBlocks = s.bufferedBlocks from buffer_of_round hv hi, hnone] at hl
    cases hl
  · omega
  · have := curView_of_accepts hp hqc ha hv
    omega

/-- **HotStuff keeps its buffered blocks** in every run whose views stay integers of the machine, if each block on
which `ProcessBlock` is called brings the replica to its view when another block waits for it. -/
theorem buffered_kept (nd : Node) (inputs : List Safety.Input) (_hr : (runOn nd inputs).pm.InRange)
    (hbrings : ∀ s b, Called nd inputs s b → Brings nd s b) :
    ∀ before x later, inputs = before ++ x :: later → Up nd before →
      KeepsBuffered nd (runOn nd before) (runOn nd (before ++ [x])) x := by
  refine (keepsBuffered_iff nd inputs).2 fun before x later hin _ b u c hd => ?_
  obtain ⟨s₀, b₀, hc, s, t, hrounds, hv, hi, hl⟩ := hd
  exact (hbrings s b ⟨before, x, later, s₀, b₀, hin, hc, hrounds⟩).reached hv hi hl

/-- Node 2 votes for the block of view 1 and buffers that of view 3. -/
def twoBlocks : List Safety.Input :=
  [.msg (.block (FourNodes.block 1 .initial)), .msg (.block (FourNodes.block 3 (FourNodes.certificate 2)))]

/-- `Brings` as a test, for all calls in the course of one, `fuel` deep at most. -/
def brings (nd : Node) : ℕ → HotStuff → Block → Bool
  | 0, _, _ => false
  | fuel + 1, s, b =>
    ((s.bufferedBlocks.lookup b.view).isNone || decide (b.view ≤ s.pm.curView) ||
      decide (b.proposer ≠ nd.id) && b.qc.any fun qc => decide (b.view ≤ qc.view + 1 ∧ s.pm.curView ≤ qc.view ∧
        checkQC nd qc = .ok true ∧ qc.view ≤ 2)) &&
    match vetBlock nd b s with
    | .ok none t =>
      match insertAndVote nd b t with
      | .ok none u =>
        match u.bufferedBlocks.lookup b.view with
        | some c => brings nd fuel u c
        | none => true
      | _ => true
    | _ => true

theorem brings_of_test {fuel : ℕ} {s' : HotStuff} {b' : Block} (h : brings nd fuel s b = true)
    (hr : Rounds nd s b s' b') : Brings nd s' b' := by
  induction hr generalizing fuel with
  | first =>
    cases fuel with
    | zero => cases h
    | succ fuel =>
      simp only [brings, Bool.and_eq_true, Bool.or_eq_true, Option.isNone_iff_eq_none, decide_eq_true_eq,
        Option.any_eq_true] at h
      rcases h.1 with (hn | hv) | ⟨hp, qc, hqc, hnext, hcur, hcheck, h2⟩
      · exact Or.inl hn
      · exact Or.inr (Or.inl hv)
      · exact Or.inr (Or.inr ⟨hp, qc, hqc, hnext, ⟨hcur, hcheck⟩, Or.inr (Or.inl h2)⟩)
  | next hv hi hl _ ih =>
    cases fuel with
    | zero => cases h
    | succ fuel =>
      simp only [brings, hv, hi, hl, Bool.and_eq_true] at h
      exact ih h.2

/-- The block of view 2 with the certificate of view 1 comes after that of view 3: it is followed by the block that
waited for it, which leaves the buffer. -/
theorem buffered_kept_late :
    let late : Safety.Input := .msg (.block (FourNodes.block 2 (FourNodes.certificate 1)))
    (runOn FourNodes.second twoBlocks).bufferedBlocks.lookup 2 =
        some (FourNodes.block 3 (FourNodes.certificate 2)) ∧
      (runOn FourNodes.second (twoBlocks ++ [late])).bufferedBlocks.lookup 2 = none ∧
      KeepsBuffered FourNodes.second (runOn FourNodes.second twoBlocks)
        (runOn FourNodes.second (twoBlocks ++ [late])) late := by
  intro late
  refine ⟨by decide_cbv, by decide_cbv, buffered_kept FourNodes.second (twoBlocks ++ [late]) (by decide_cbv) ?_
    twoBlocks late [] rfl (by unfold Up; decide_cbv)⟩
  intro s b hcall
  let blocks := [FourNodes.block 1 .initial, FourNodes.block 3 (FourNodes.certificate 2),
    FourNodes.block 2 (FourNodes.certificate 1)]
  have hmsgs : Called FourNodes.second ((blocks.map Msg.block).map .msg) s b := hcall
  obtain ⟨k, b₀, hk, hr⟩ := called_msgs hmsgs
  have hall : (List.range 3).all (fun k => (blocks[k]?).all fun b =>
      brings FourNodes.second 2 (runOn FourNodes.second (((blocks.map Msg.block).take k).map .msg)) b) = true := by
    decide_cbv
  rw [List.getElem?_map, Option.map_eq_some_iff] at hk
  obtain ⟨_, hk, he⟩ := hk
  cases he
  have hlt : k < 3 := (List.getElem?_eq_some_iff.1 hk).1
  have htest := List.all_eq_true.1 hall k (List.mem_range.2 hlt)
  rw [hk] at htest
  exact brings_of_test htest hr

/-- The block of view 2 with the certificate of the genesis block, which brings nobody to view 2. -/
def staleBlock : Block := FourNodes.block 2 .initial

/-- **A block that is buffered again is lost**: node 2 votes for the block of view 2 while it is in view 1, takes the
buffered block of view 3, buffers it again as one of a future view, and deletes it. -/
theorem rebuffered_block_lost : ∃ b u c,
    Up FourNodes.second twoBlocks ∧
    DrainsAt FourNodes.second (runOn FourNodes.second twoBlocks) (.msg (.block staleBlock)) b u c ∧
    (runOn FourNodes.second twoBlocks).bufferedBlocks.lookup (c.view - 1) = some c ∧
    u.pm.curView + 1 < c.view ∧
    (runOn FourNodes.second (twoBlocks ++ [.msg (.block staleBlock)])).bufferedBlocks.lookup (c.view - 1) = none ∧
    ¬KeepsBuffered FourNodes.second (runOn FourNodes.second twoBlocks)
      (runOn FourNodes.second (twoBlocks ++ [.msg (.block staleBlock)])) (.msg (.block staleBlock)) := by
  have hup : Up FourNodes.second twoBlocks := by
    unfold Up
    decide_cbv
  have hvote : passes (vetBlock FourNodes.second staleBlock) (fun r t => r.isNone &&
      passes (insertAndVote FourNodes.second staleBlock) (fun r u => r.isNone && u.pm.curView == 1) t)
      (runOn FourNodes.second twoBlocks) = true := by
    decide_cbv
  obtain ⟨r, t, hv, h⟩ := exists_ok_of_passes hvote
  rw [Bool.and_eq_true, Option.isNone_iff_eq_none] at h
  obtain ⟨rfl, h⟩ := h
  obtain ⟨r, u, hi, h⟩ := exists_ok_of_passes h
  rw [Bool.and_eq_true, Option.isNone_iff_eq_none, beq_iff_eq] at h
  obtain ⟨rfl, hview⟩ := h
  have hl : (runOn FourNodes.second twoBlocks).bufferedBlocks.lookup 2 =
      some (FourNodes.block 3 (FourNodes.certificate 2)) := by
    decide_cbv
  have hsame := buffer_of_round hv hi
  have hd : DrainsAt FourNodes.second (runOn FourNodes.second twoBlocks) (.msg (.block staleBlock)) staleBlock u
      (FourNodes.block 3 (FourNodes.certificate 2)) := by
    refine ⟨_, _, .msg _, _, t, .first, hv, hi, ?_⟩
    rw [show u.bufferedBlocks = _ from hsame]
    exact hl
  have hfar : u.pm.curView + 1 < (FourNodes.block 3 (FourNodes.certificate 2)).view := by
    rw [hview]
    decide
  have hgone := hd.lost (keyed_runOn FourNodes.second twoBlocks) (hview ▸ by decide)
  rw [← runOn_concat hup] at hgone
  refine ⟨_, u, _, hup, hd, hl, hfar, hgone, fun hkeeps => ?_⟩
  have hstill := hkeeps.2 _ u _ hd hfar
  exact absurd (hgone.symm.trans hstill) (by simp)

end HotStuff

end Bamboo
