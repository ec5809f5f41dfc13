import Bamboo.Tchs.Gating

/-!
# Buffered blocks

A block of a future view is buffered under the view before its own, as the address of its cell.  Nothing is taken
out of the buffer, and what is written to a cell later is the view of its certificate only.

* `Stowed`: the buffer is the same, and the cells of blocks still hold blocks of their views;
* `Keyed`: a buffered block waits under the view before its own;
* `keyed_runOn`: this is so in every run, of honest and of other replicas.
-/

namespace Bamboo

namespace Tchs

open Prog

variable {nd : Node} {s t u : Tchs} {b : Block} {p : ℕ}

/-- The cell holds a block of this view. -/
def BlockAt (s : Tchs) (p : ℕ) (view : ℤ) : Prop := ∃ b, s.heap[p]? = some (.block b) ∧ b.view = view

/-- The buffer is the same, and blocks have stayed in their cells. -/
structure Stowed (s t : Tchs) : Prop where
  buffer : t.bufferedBlocks = s.bufferedBlocks
  stays : ∀ p view, s.BlockAt p view → t.BlockAt p view

instance : IsPreorder Tchs Stowed where
  refl _ := ⟨rfl, fun _ _ h => h⟩
  trans _ _ _ h h' := ⟨h'.buffer.trans h.buffer, fun p view hb => h'.stays p view (h.stays p view hb)⟩

/-- A step that changes neither the buffer nor the cells. -/
theorem Stowed.of_eq (hb : t.bufferedBlocks = s.bufferedBlocks) (hh : t.heap = s.heap) : Stowed s t := by
  refine ⟨hb, fun p view h => ?_⟩
  unfold BlockAt
  rw [hh]
  exact h

theorem alloc_stowed (c : Cell) : Moves Stowed (alloc c) := by
  intro s
  refine ⟨rfl, fun p view h => ?_⟩
  obtain ⟨b, hb, hv⟩ := h
  exact ⟨b, by rw [List.getElem?_append_left (List.getElem?_eq_some_iff.1 hb).1]; exact hb, hv⟩

theorem zoom_stowed {α : Type} (m : Go BlockChain α) :
    Moves Stowed (Prog.zoom bc (fun bc th => { th with bc := bc }) m) := by
  apply Moves.zoom
  intro _ _
  exact .of_eq rfl rfl

theorem note_stowed (e : Entry) : Moves Stowed (note e) := .modify fun _ => .of_eq rfl rfl

theorem updateHighQC_stowed (p : ℕ) (s : Tchs) : Stowed s (s.updateHighQC p) := by
  obtain ⟨h, heq, -⟩ := updateHighQC_cases s p
  rw [heq]
  exact .of_eq rfl rfl

theorem processCertificate_stowed (nd : Node) (p : ℕ) : Moves Stowed (processCertificate nd p) := by
  refine .get fun s => wp_ite.2 ⟨fun _ => .of_eq rfl rfl, fun _ => ?_⟩
  refine wp_bind.2 (wp_ofExcept.2 ⟨fun ok _ => wp_ite.2 ⟨fun _ => .of_eq rfl rfl, fun _ => ?_⟩,
    fun _ _ => .of_eq rfl rfl⟩)
  refine wp_ite.2 ⟨fun _ => .of_eq rfl rfl, fun _ => ?_⟩
  cases hu : s.updatePreferredView (s.qcAt p) with
  | none => exact .of_eq rfl rfl
  | some t =>
    obtain ⟨v, h, heq, -⟩ := certify_cases (p := p) hu
    refine wp_set.2 ?_
    rw [heq]
    exact .of_eq rfl rfl

theorem processVote_stowed (nd : Node) (v : Vote) : Moves Stowed (processVote nd v) := by
  refine .bind (.ofExcept _) fun ok => .ite (.pure _) (.get fun s => ?_)
  obtain ⟨built, bc⟩ := s.bc.addVote nd.toConfig v
  refine wp_bind.2 (wp_set.2 (Moves.after (R := Stowed) (t := { s with bc := bc }) (.of_eq rfl rfl) ?_))
  cases built with
  | none => exact .of_eq rfl rfl
  | some qc =>
    refine Moves.bind (R := Stowed) (note_stowed _) (fun _ => .bind (alloc_stowed _) fun p => ?_) { s with bc := bc }
    cases bc.getBlockByID qc.blockID with
    | none => exact .modify fun _ => .of_eq rfl rfl
    | some _ => exact processCertificate_stowed nd p

theorem processBufferedQC_stowed (nd : Node) (id : ℕ) : Moves Stowed (processBufferedQC nd id) := by
  refine .get fun s => ?_
  cases s.bufferedQCs.lookup id with
  | none => exact .of_eq rfl rfl
  | some p =>
    exact Moves.bind (R := Stowed) (processCertificate_stowed nd p)
      (fun _ => .modify (by intro _; exact .of_eq rfl rfl)) s

theorem castVote_stowed (nd : Node) (b : Block) : Moves Stowed (castVote nd b) := by
  refine .get fun s => ?_
  cases s.votingRule b with
  | none => exact .of_eq rfl rfl
  | some ok =>
    cases ok with
    | false => exact .of_eq rfl rfl
    | true =>
      refine Moves.bind (R := Stowed) (.ofExcept _) (fun v => .bind (note_stowed _) fun _ =>
        .bind ?_ fun _ => .pure _) s
      exact .ite (processVote_stowed nd v) (.modify fun _ => .of_eq rfl rfl)

theorem tryCommit_stowed (b : Block) (q : QC) : Moves Stowed (tryCommit b q) := by
  refine .get fun s => Moves.ite (R := Stowed) (.pure _) ?_ s
  cases s.commitRule q with
  | none => exact .pure _
  | some g =>
    refine .bind (zoom_stowed _) fun res => ?_
    cases res with
    | none => exact .pure _
    | some _ => exact .bind (note_stowed _) fun _ => .bind (.modify fun _ => .of_eq rfl rfl) fun _ => .pure _

theorem insertAndVote_stowed (nd : Node) (b : Block) (q : QC) : Moves Stowed (insertAndVote nd b q) := by
  refine .get fun s => Moves.bind (R := Stowed) (note_stowed _) (fun _ => .bind (zoom_stowed _) fun _ => .bind
    (tryCommit_stowed b q) fun res => ?_) s
  cases res with
  | some _ => exact .pure _
  | none => exact .bind (processBufferedQC_stowed nd b.id) fun _ => castVote_stowed nd b

theorem processRemoteTmo_stowed (m : TMO) : Moves Stowed (processRemoteTmo m) := by
  refine .get fun s => wp_ite.2 ⟨fun _ => .of_eq rfl rfl, fun _ => ?_⟩
  obtain ⟨tc, pm⟩ := s.pm.processRemoteTmo m
  refine wp_bind.2 (wp_set.2 ?_)
  cases tc with
  | none => exact .of_eq rfl rfl
  | some tc =>
    unfold processTC
    exact wp_bind.2 (wp_get.2 (wp_ite.2 ⟨fun _ => .of_eq rfl rfl, fun _ => wp_set.2 (.of_eq rfl rfl)⟩))

theorem processLocalTmo_stowed (nd : Node) (view : ℤ) : Moves Stowed (processLocalTmo nd view) :=
  .bind (.modify fun _ => .of_eq rfl rfl) fun _ => .get fun s =>
    Moves.bind (R := Stowed) (.modify (by intro _; exact .of_eq rfl rfl)) (fun _ => processRemoteTmo_stowed _) s

/-- The stamp on `highQC` leaves the view of the block around it alone. -/
theorem forkChoice_stowed : Moves Stowed forkChoice := by
  refine .bind (.modify fun s => ⟨rfl, fun p view h => ?_⟩) fun _ => .get fun _ => .of_eq rfl rfl
  obtain ⟨b, hb, hv⟩ := h
  unfold BlockAt
  rw [List.getElem?_modify, hb]
  by_cases hp : s.highQC = p
  · exact ⟨b.stamp (s.pm.curView - 1), by simp [hp, Cell.setView], hv⟩
  · exact ⟨b, by simp [hp], hv⟩

theorem makeProposals_stowed (nd : Node) (view : ℤ) (payload : List Transaction) (pBatch : PBatch) :
    Moves Stowed (if 1 < view then makePProposal nd view pBatch else makeProposal nd view payload) :=
  .ite (.bind forkChoice_stowed fun _ => .ofExcept _) (.bind forkChoice_stowed fun _ => .ofExcept _)

/-! ### What is in the buffer -/

/-- A buffered block waits under the view before its own. -/
def Keyed (s : Tchs) : Prop := ∀ k p, s.bufferedBlocks.lookup k = some p → s.BlockAt p (k + 1)

theorem Keyed.stowed (h : Keyed s) (hs : Stowed s t) : Keyed t := by
  intro k p hl
  rw [hs.buffer] at hl
  exact hs.stays p (k + 1) (h k p hl)

theorem Keyed.insert (h : Keyed s) (hp : s.BlockAt p b.view) :
    Keyed { s with bufferedBlocks := s.bufferedBlocks.insert (b.view - 1) p } := by
  intro k q hl
  by_cases hk : k = b.view - 1
  · subst hk
    rw [AList.lookup_insert] at hl
    cases hl
    rw [Int.sub_add_cancel]
    exact hp
  · rw [AList.lookup_insert_ne hk] at hl
    exact h k q hl

/-- The only place where a block is buffered. -/
theorem vetBlock_stowed (nd : Node) (p : ℕ) (b : Block) (s : Tchs) :
    wp (vetBlock nd p b) (fun r t => Stowed s t ∨ r = some none ∧
      t = { s with bufferedBlocks := s.bufferedBlocks.insert (b.view - 1) p }) (Stowed s) s := by
  unfold vetBlock
  refine wp_bind.2 (wp_get.2 (wp_bind.2 (wp_ofExcept.2 ⟨fun _ _ => ?_, fun _ _ => .of_eq rfl rfl⟩)))
  refine wp_ite.2 ⟨fun _ => wp_bind.2 (wp_set.2 (Or.inr ⟨rfl, rfl⟩)), fun _ => ?_⟩
  suffices h : wp _ (fun _ t => Stowed s t) (Stowed s) s from wp_mono h (fun _ _ => Or.inl) fun _ h => h
  refine wp_ite.2 ⟨fun _ => .of_eq rfl rfl, fun _ => ?_⟩
  refine Moves.bind (R := Stowed) (.modify (updateHighQC_stowed p)) (fun _ => .bind ?_ fun _ => .get fun t => ?_) s
  · exact .ite (processCertificate_stowed nd p) (.pure _)
  · exact Moves.ite (R := Stowed) (.pure _) (.ite (.pure _) (.pure _)) t

/-- A block that goes on leaves the buffer alone until the next one is taken. -/
theorem stowed_of_round {q : QC} (hv : vetBlock nd p b s = .ok none t) (hi : insertAndVote nd b q t = .ok none u) :
    Stowed s u := by
  rcases wp_ok (vetBlock_stowed nd p b s) hv with hst | ⟨hr, -⟩
  · exact IsTrans.trans _ _ _ hst ((insertAndVote_stowed nd b q).ok hi)
  · cases hr

theorem processBlockN_keyed (fuel : ℕ) (h : Keyed s) (p : ℕ) :
    wp (processBlockN nd fuel p) (fun _ t => Keyed t) Keyed s := by
  induction fuel generalizing s p with
  | zero => exact h
  | succ fuel ih =>
    unfold processBlockN
    refine wp_bind.2 (wp_get.2 ?_)
    cases hp : s.heap[p]? with
    | none => exact h
    | some c =>
      cases c with
      | certificate _ => exact h
      | block b =>
        refine wp_bind.2 (wp_mono (vetBlock_stowed nd p b s) ?_ fun t ht => h.stowed ht)
        intro r t ht
        have hkey : Keyed t := by
          rcases ht with hst | ⟨-, rfl⟩
          · exact h.stowed hst
          · exact h.insert ⟨b, hp, rfl⟩
        cases r with
        | some err => exact hkey
        | none =>
          refine wp_bind.2 (wp_mono (insertAndVote_stowed nd b _ t) ?_ fun u hu => hkey.stowed hu)
          intro r u hu
          cases r with
          | some err => exact hkey.stowed hu
          | none =>
            refine wp_bind.2 (wp_get.2 ?_)
            cases u.bufferedBlocks.lookup b.view with
            | none => exact hkey.stowed hu
            | some p' => exact ih (hkey.stowed hu) p'

/-! ### Steps of a run -/

/-- A program that keeps the buffer keyed. -/
def Keys {α : Type} (m : Go Tchs α) : Prop := ∀ s, Keyed s → wp m (fun _ t => Keyed t) Keyed s

theorem Keys.of_moves {α : Type} {m : Go Tchs α} (h : Moves Stowed m) : Keys m := fun s hs =>
  wp_mono (h s) (fun _ _ ht => hs.stowed ht) fun _ ht => hs.stowed ht

theorem Keys.bind {α β : Type} {m : Go Tchs α} {f : α → Go Tchs β} (hm : Keys m) (hf : ∀ a, Keys (f a)) :
    Keys (m >>= f) := fun s hs =>
  wp_bind.2 (wp_mono (hm s hs) (fun a t ht => hf a t ht) fun _ ht => ht)

theorem keys_processBlock (nd : Node) (b : Block) : Keys ((safety nd).processBlock b) :=
  .bind (.bind (.of_moves (alloc_stowed _)) fun p => fun _ hs =>
    wp_bind.2 (wp_get.2 (processBlockN_keyed _ hs p))) fun _ => .of_moves (.pure _)

theorem keys_processNewView (nd : Node) (payload : List Transaction) (pBatch : PBatch) :
    Keys ((safety nd).processNewView nd payload pBatch) := by
  intro s hs
  unfold Safety.processNewView
  refine wp_bind.2 (wp_get.2 ?_)
  cases ((safety nd).pm s).newViewChan with
  | nil => exact hs
  | cons v rest =>
    have hset : Keyed ((safety nd).setPm { (safety nd).pm s with newViewChan := rest } s) :=
      hs.stowed (.of_eq rfl rfl)
    refine wp_bind.2 (wp_set.2 (wp_ite.2 ⟨fun _ => hset, fun _ => ?_⟩))
    refine Keys.bind (.of_moves (makeProposals_stowed nd v payload pBatch)) (fun b => ?_) _ hset
    exact .bind (.of_moves (.modify fun _ => .of_eq rfl rfl)) fun _ => keys_processBlock nd b

theorem keys_handleMsg (nd : Node) (m : Msg) : Keys ((safety nd).handleMsg m) := by
  cases m with
  | block b => exact keys_processBlock nd b
  | vote v => exact .of_moves (processVote_stowed nd v)
  | tmo m => exact .of_moves (processRemoteTmo_stowed m)

theorem keys_handleEvent (nd : Node) (e : Event) : Keys ((safety nd).handleEvent nd e) := by
  cases e with
  | txn =>
    refine .of_moves ?_
    show Moves Stowed ((safety nd).handleTxn nd)
    unfold Safety.handleTxn
    exact .get fun s => wp_ite.2 ⟨fun _ => .of_eq rfl rfl, fun _ => .of_eq rfl rfl⟩
  | timer => exact .of_moves (.get fun s => processLocalTmo_stowed nd s.pm.curView s)
  | newView payload pBatch => exact keys_processNewView nd payload pBatch

/-- **Run lemma**: in every run, the buffered blocks are under their keys. -/
theorem keyed_runOn (nd : Node) (inputs : List Safety.Input) : Keyed (runOn nd inputs) := by
  refine (safety nd).run_keeps nd ?_ (fun m s _ hs => wp_final.1 (keys_handleMsg nd m s hs))
    fun e s hs => wp_final.1 (keys_handleEvent nd e s hs)
  intro k p hl
  simp [Tchs.new] at hl

end Tchs

end Bamboo
