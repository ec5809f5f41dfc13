import Bamboo.Shelves
import Bamboo.Streamlet.Handlers

/-!
# What the handlers of Streamlet leave alone

The handlers write the forest where a block is stored and where one is committed, and the outbox where a
block or a vote is passed on or cast.  A property of the forest, the buffered blocks and the outbox that
these places keep is kept by the handlers, however deep they call each other.

* `Kept`, `Kept.process`: what the parts of the three handlers keep, the handlers keep;
* `Stable`: properties of forest, buffered blocks and outbox that are kept by handlers that work on blocks with
  ids in a given set;
* `Visited`: the states of one replica, whatever it receives;
* `Regular`, `regular_of_visited`: in all of them the indices of the forest agree, a block is buffered under
  the id of its parent, and each level of the notarized chain has one block.
-/

namespace Bamboo

namespace Streamlet

open Prog

variable {nd : Node} {s t : Streamlet} {B : ℕ → Prop} {J : Streamlet → Prop}

/-! ### Properties that the handlers keep -/

/-- A property that the parts of the handlers keep, where these work on blocks in `B` and on votes in `V`. -/
structure Kept (nd : Node) (B : Block → Prop) (V : Streamlet → Vote → Prop) (J : Streamlet → Prop) : Prop where
  certify : ∀ {s : Streamlet} (qc : QC), J s → wp (certify nd qc) (fun _ t => J t) J s
  recordVote : ∀ {s : Streamlet} {v : Vote}, J s → V s v → wp (recordVote nd v) (fun _ t => J t) J s
  /-- the tests before `AddBlock` and what follows up to the vote are taken together -/
  insert : ∀ {s : Streamlet} {x : Block}, J s → B x → wp (vetBlock nd x) (fun r t => (r ≠ none → J t) ∧
    (r = none → wp (insertBlock x) (fun _ u => J u ∧ ∀ v, makeVote nd.toConfig x.view nd.id x.id = .ok v →
      V (looked u [.voted x u.pm.curView u.notarizedChain]) v) J t)) J s
  voted : ∀ {s : Streamlet} (x : Block), J s → J (looked s [.voted x s.pm.curView s.notarizedChain])
  sendVote : ∀ {s : Streamlet} {x : Block} {v : Vote}, J s → B x →
    makeVote nd.toConfig x.view nd.id x.id = .ok v → J (send ⟨none, .vote v⟩ s)
  waiting : ∀ {s : Streamlet} {k : ℕ} {x : Block}, J s → s.bufferedBlocks.lookup k = some x → B x
  dropBlock : ∀ {s : Streamlet} (k : ℕ), J s → J { s with bufferedBlocks := s.bufferedBlocks.erase k }
  dropQC : ∀ {s : Streamlet} (k : ℕ), J s → J { s with bufferedQCs := s.bufferedQCs.erase k }

/-- The buffers that `processCertificate` looks at after the commit. -/
theorem Kept.buffers {B : Block → Prop} {V : Streamlet → Vote → Prop} (hJ : Kept nd B V J) {depth : ℕ} {qc : QC}
    (hblock : ∀ {s : Streamlet} {x : Block}, J s → B x → wp (processBlock nd depth x) (fun _ t => J t) J s)
    (hqc : ∀ {s : Streamlet} {qc : QC}, J s → wp (processCertificate nd depth qc) (fun _ t => J t) J s)
    (h : wp (Streamlet.certify nd qc) (fun _ t => J t) J s) :
    wp (processCertificate nd (depth + 1) qc) (fun _ t => J t) J s := by
  unfold processCertificate
  refine wp_bind.2 (wp_mono h (fun r t ht => ?_) fun _ h => h)
  refine wp_ite.2 ⟨fun _ => ht, fun _ => wp_bind.2 (wp_get.2 (wp_bind.2 (wp_mono
    (Q := fun _ t => J t) ?_ (fun _ u hu => ?_) fun _ h => h)))⟩
  · cases hl : t.bufferedBlocks.lookup qc.blockID with
    | none => exact ht
    | some x =>
      refine wp_bind.2 (wp_mono (hblock ht (hJ.waiting ht hl)) (fun _ u hu => ?_) fun _ h => h)
      exact wp_modify.2 (hJ.dropBlock _ hu)
  · refine wp_bind.2 (wp_get.2 ?_)
    cases u.bufferedNotarizedBlock.lookup qc.blockID with
    | none => exact hu
    | some qc' => exact wp_bind.2 (wp_mono (hqc hu) (fun _ y hy => wp_modify.2 (hJ.dropQC _ hy)) fun _ h => h)

/-- **The handlers keep the property**, by induction on the depth of their calls. -/
theorem Kept.process {B : Block → Prop} {V : Streamlet → Vote → Prop} (hJ : Kept nd B V J) (depth : ℕ) :
    (∀ {s : Streamlet} {x : Block}, J s → B x → wp (processBlock nd depth x) (fun _ t => J t) J s) ∧
    (∀ {s : Streamlet} {v : Vote}, J s → V s v → wp (processVote nd depth v) (fun _ t => J t) J s) ∧
    ∀ {s : Streamlet} {qc : QC}, J s → wp (processCertificate nd depth qc) (fun _ t => J t) J s := by
  induction depth with
  | zero => exact ⟨fun h _ => h, fun h _ => h, fun h => h⟩
  | succ depth ih =>
    obtain ⟨ihb, ihv, ihq⟩ := ih
    refine ⟨fun {s x} h hx => ?_, fun {s v} h hv => ?_, fun {s qc} h => ?_⟩
    · unfold processBlock
      refine wp_bind.2 (wp_mono (hJ.insert h hx) (fun r t ht => ?_) fun _ h => h)
      cases r with
      | some err => exact ht.1 (Option.some_ne_none _)
      | none =>
        refine wp_bind.2 (wp_mono (ht.2 rfl) (fun r u hu => ?_) fun _ h => h)
        refine wp_ite.2 ⟨fun _ => hu.1, fun _ => wp_bind.2 (wp_ofExcept.2 ⟨fun v hv => ?_, fun _ _ => hu.1⟩)⟩
        refine wp_bind.2 (wp_get.2 (wp_bind.2 (wp_modify.2 (wp_bind.2 (wp_mono
          (ihv (hJ.voted x hu.1) (hu.2 v hv)) (fun _ y hy => ?_) fun _ h => h)))))
        have hy' := hJ.sendVote hy hx hv
        refine wp_bind.2 (wp_modify.2 (wp_bind.2 (wp_get.2 (wp_bind.2 (wp_mono (Q := fun _ t => J t) ?_
          (fun _ z hz => ?_) fun _ h => h)))))
        · cases (send ⟨none, .vote v⟩ y).bufferedQCs.lookup x.id with
          | none => exact hy'
          | some qc => exact ihq hy'
        refine wp_bind.2 (wp_get.2 (wp_bind.2 (wp_mono (Q := fun _ t => J t) ?_ (fun _ _ h => h) fun _ h => h)))
        cases hl : z.bufferedBlocks.lookup x.id with
        | none => exact hz
        | some x' => exact wp_bind.2 (wp_mono (ihb hz (hJ.waiting hz hl)) (fun _ _ h => h) fun _ h => h)
    · unfold processVote
      refine wp_bind.2 (wp_mono (hJ.recordVote h hv) (fun r t ht => ?_) fun _ h => h)
      cases r with
      | none => exact ht
      | some qc => exact ihq ht
    · exact hJ.buffers ihb ihq (hJ.certify qc h)

section Events

variable {B : Block → Prop} {V : Streamlet → Vote → Prop} (hJ : Kept nd B V J)
  (hpm : ∀ {s : Streamlet} (pm : Pacemaker) (pending : List ℤ), J s → J { s with pm := pm, pending := pending })
include hJ hpm

/-- The handling of a message. -/
theorem Kept.handleMsg (h : J s) (depth : ℕ) (m : Msg) (hb : ∀ b, m = .block b → B b)
    (hv : ∀ v, m = .vote v → V s v) : wp ((safety nd depth).handleMsg m) (fun _ t => J t) J s := by
  cases m with
  | block b => exact wp_bind.2 (wp_mono ((hJ.process depth).1 h (hb b rfl)) (fun _ _ h => h) fun _ h => h)
  | vote v => exact (hJ.process depth).2.1 h (hv v rfl)
  | tmo m =>
    exact wp_of_ok (processRemoteTmo_eq ..) (hpm _ _ h)

/-- The handling of an event. -/
theorem Kept.handleEvent (htmo : ∀ {s : Streamlet} (m : TMO), J s → J (send ⟨none, .tmo m⟩ s))
    (hprop : ∀ {s : Streamlet} (view : ℤ) (payload : List Transaction) (pBatch : PBatch), J s →
      wp (if 1 < view then makePProposal nd view pBatch else makeProposal nd view payload)
        (fun b t => J (send ⟨none, .block b⟩ t) ∧ B b) J s)
    (h : J s) (depth : ℕ) (e : Event) : wp (handleEvent nd depth e) (fun _ t => J t) J s := by
  cases e with
  | task k =>
    show wp (runPending k) _ _ s
    unfold runPending
    refine wp_bind.2 (wp_get.2 ?_)
    cases s.pending[k]? with
    | none => exact h
    | some view => exact hpm _ _ h
  | replica e =>
    cases e with
    | txn =>
      show wp ((safety nd depth).handleTxn nd) _ _ s
      unfold Safety.handleTxn
      exact wp_bind.2 (wp_get.2 (wp_ite.2 ⟨fun _ => hpm _ s.pending h, fun _ => h⟩))
    | timer =>
      refine wp_bind.2 (wp_get.2 (wp_bind.2 (wp_modify.2 ?_)))
      exact wp_of_ok (processRemoteTmo_eq ..) (hpm _ _ (htmo _ h))
    | newView payload pBatch =>
      show wp ((safety nd depth).processNewView nd payload pBatch) _ _ s
      unfold Safety.processNewView
      refine wp_bind.2 (wp_get.2 ?_)
      cases ((safety nd depth).pm s).newViewChan with
      | nil => exact h
      | cons v rest =>
        have h' : J ((safety nd depth).setPm { (safety nd depth).pm s with newViewChan := rest } s) :=
          hpm _ s.pending h
        refine wp_bind.2 (wp_set.2 (wp_ite.2 ⟨fun _ => h', fun _ => ?_⟩))
        unfold Safety.proposeBlock
        refine wp_bind.2 (wp_mono (hprop v payload pBatch h') (fun b t ht => ?_) fun _ h => h)
        refine wp_bind.2 (wp_modify.2 ?_)
        exact wp_bind.2 (wp_mono ((hJ.process depth).1 ht.1 ht.2) (fun _ _ h => h) fun _ h => h)

end Events

/-- A property of forest, buffered blocks and outbox that the handlers keep while they work on blocks with
ids in `B`. -/
structure Stable (B : ℕ → Prop) (J : Streamlet → Prop) : Prop where
  congr : ∀ {s t : Streamlet}, J s → t.bc.forrest = s.bc.forrest →
    t.bufferedBlocks = s.bufferedBlocks → t.sent = s.sent → J t
  waiting : ∀ {s : Streamlet} {k : ℕ} {x : Block}, J s → s.bufferedBlocks.lookup k = some x → B x.id
  buffer : ∀ {s : Streamlet} {x : Block}, J s → B x.id →
    J { s with bufferedBlocks := s.bufferedBlocks.insert x.prevID x }
  drop : ∀ {s : Streamlet} (k : ℕ), J s → J { s with bufferedBlocks := s.bufferedBlocks.erase k }
  block : ∀ {s : Streamlet} {x : Block}, J s → B x.id → J (send ⟨none, .block x⟩ s)
  vote : ∀ {s : Streamlet} {v : Vote}, J s → B v.blockID → J (send ⟨none, .vote v⟩ s)
  add : ∀ {s : Streamlet} {x : Block}, J s → B x.id → wp (LevelledForest.addVertex x)
    (fun _ f => J { s with bc := { s.bc with forrest := f } })
    (fun f => J { s with bc := { s.bc with forrest := f } }) s.bc.forrest
  commit : ∀ {s : Streamlet} (id : ℕ) (view : ℤ), J s → wp (BlockChain.commitBlock id view)
    (fun _ bc => J { s with bc := bc }) (fun bc => J { s with bc := bc }) s.bc

/-! ### Access to the chain -/

/-- A program that only leaves accesses in the trace. -/
def Looks {α : Type} (m : Go Streamlet α) : Prop :=
  ∀ s, wp m (fun _ t => ∃ es, t = looked s es) (fun t => ∃ es, t = looked s es) s

theorem Looks.pure {α : Type} (a : α) : Looks (pure a) := fun s => ⟨[], by simp [looked]⟩

theorem Looks.bind {α β : Type} {m : Go Streamlet α} {f : α → Go Streamlet β} (hm : Looks m)
    (hf : ∀ a, Looks (f a)) : Looks (m >>= f) := by
  intro s
  refine wp_bind.2 (wp_mono (hm s) ?_ fun _ h => h)
  rintro a _ ⟨es, rfl⟩
  refine wp_mono (hf a _) ?_ ?_
  · rintro _ _ ⟨es', rfl⟩
    exact ⟨_, looked_looked _ _ _⟩
  · rintro _ ⟨es', rfl⟩
    exact ⟨_, looked_looked _ _ _⟩

theorem Looks.ite {α : Type} {p : Prop} [Decidable p] {m n : Go Streamlet α} (hm : Looks m) (hn : Looks n) :
    Looks (if p then m else n) := fun s => wp_ite.2 ⟨fun _ => hm s, fun _ => hn s⟩

/-- Nothing but accesses to the chain has been noted. -/
def Glanced (s t : Streamlet) : Prop := ∃ es, (∀ e ∈ es, IsIndex e) ∧ t = looked s es

instance : IsPreorder Streamlet Glanced where
  refl s := ⟨[], by simp, by simp [looked]⟩
  trans := by
    rintro s _ _ ⟨es, hes, rfl⟩ ⟨es', hes', rfl⟩
    exact ⟨es ++ es', fun e he => (List.mem_append.1 he).elim (hes e) (hes' e), looked_looked s es es'⟩

theorem looks_of_glances {α : Type} {m : Go Streamlet α} (h : Moves Glanced m) : Looks m := by
  intro s
  refine wp_mono (h s) ?_ ?_
  · rintro _ _ ⟨es, -, rfl⟩
    exact ⟨es, rfl⟩
  · rintro _ ⟨es, -, rfl⟩
    exact ⟨es, rfl⟩

theorem glances_index {α : Type} (l : List α) (i : ℤ) : Moves Glanced (index l i) :=
  fun _ => index_wp (fun _ _ _ => ⟨_, by simp [IsIndex], rfl⟩) ⟨_, by simp [IsIndex], rfl⟩

theorem glances_votingRule (x : Block) : Moves Glanced (votingRule x) :=
  .get fun s => Moves.ite (R := Glanced) (.pure _) (.bind (glances_index _ _) fun _ => .pure _) s

theorem glances_findParent (chain : List (List Block)) (prevID k : ℕ) :
    Moves Glanced (findParent chain prevID k) := by
  induction k with
  | zero => exact .ite (.bind (glances_index _ _) fun _ => .pure _) (.pure _)
  | succ k ih => exact .bind (glances_index _ _) fun _ => .ite (.pure _) ih

theorem glances_commitRule : Moves Glanced commitRule :=
  .get fun s => Moves.ite (R := Glanced) (.pure _) (.bind (glances_index _ _) fun _ => .ite (.pure _) <|
    .bind (glances_index _ _) fun _ => .bind (glances_index _ _) fun _ => .ite (.pure _) <|
    .bind (glances_index _ _) fun _ => .bind (glances_index _ _) fun _ => .ite (.pure _) <|
    .bind (glances_index _ _) fun _ => .ite (.pure _) (.pure _)) s

theorem glances_forkChoice (nd : Node) : Moves Glanced (forkChoice nd) :=
  .get fun s => Moves.ite (R := Glanced) (.pure _) (.bind (glances_index _ _) fun _ =>
    .bind (glances_index _ _) fun _ => .pure _) s

theorem looks_ofExcept {α : Type} (x : Except Fault α) : Looks (Prog.ofExcept x : Go Streamlet α) :=
  fun _ => wp_ofExcept.2 ⟨fun _ _ => ⟨[], by simp [looked]⟩, fun _ _ => ⟨[], by simp [looked]⟩⟩

theorem looks_note (e : Entry) : Looks (note e) := fun _ => ⟨[e], rfl⟩

theorem looks_makeProposals (nd : Node) (view : ℤ) (payload : List Transaction) (pBatch : PBatch) :
    Looks (if 1 < view then makePProposal nd view pBatch else makeProposal nd view payload) :=
  have hfork := looks_of_glances (glances_forkChoice nd)
  .ite (.bind hfork fun _ => .bind (looks_ofExcept _) fun _ => .bind (looks_note _) fun _ => .pure _)
    (.bind hfork fun _ => .bind (looks_ofExcept _) fun _ => .bind (looks_note _) fun _ => .pure _)

namespace Stable

variable (hJ : Stable B J)
include hJ

theorem looked (h : J s) (es : List Entry) : J (looked s es) := hJ.congr h rfl rfl rfl

/-- Access to the chain keeps the property. -/
theorem looks {α : Type} {m : Go Streamlet α} (hm : Looks m) (h : J s) : wp m (fun _ t => J t) J s := by
  refine wp_mono (hm s) ?_ ?_
  · rintro _ _ ⟨es, rfl⟩
    exact hJ.looked h es
  · rintro _ ⟨es, rfl⟩
    exact hJ.looked h es

/-! ### Certificates -/

theorem updateNotarizedChain (h : J s) (qc : QC) :
    wp (updateNotarizedChain qc) (fun _ t => J t) J s := by
  unfold Streamlet.updateNotarizedChain
  refine wp_bind.2 (wp_get.2 ?_)
  cases s.bc.getBlockByID qc.blockID with
  | none => exact h
  | some x =>
    have h' := hJ.looked h [.notarizing x s.notarizedChain]
    refine wp_bind.2 (wp_modify.2 (wp_bind.2 (wp_mono (hJ.looks ?_ h') (fun r t ht => ?_) fun _ h => h)))
    · exact .ite (.pure _) (looks_of_glances (glances_findParent _ _ _))
    · exact wp_ite.2 ⟨fun _ => hJ.congr ht rfl rfl rfl, fun _ => hJ.congr ht rfl rfl rfl⟩

theorem tryCommit (h : J s) : wp tryCommit (fun _ t => J t) J s := by
  unfold Streamlet.tryCommit
  refine wp_bind.2 (wp_mono (hJ.looks (looks_of_glances glances_commitRule) h) (fun r t ht => ?_) fun _ h => h)
  cases r with
  | none => exact ht
  | some g =>
    refine wp_bind.2 (wp_get.2 (wp_bind.2 (wp_zoom.2 (wp_mono (hJ.commit _ _ ht) (fun res bc hbc => ?_)
      fun _ h => h))))
    cases res with
    | none => exact hbc
    | some res => exact wp_bind.2 (wp_modify.2 (wp_bind.2 (wp_modify.2 (hJ.congr hbc rfl rfl rfl))))

theorem certify (h : J s) (qc : QC) : wp (certify nd qc) (fun _ t => J t) J s := by
  unfold Streamlet.certify
  refine wp_bind.2 (wp_get.2 (wp_ite.2 ⟨fun _ => h, fun _ => wp_ite.2 ⟨fun _ => ?_, fun _ => ?_⟩⟩))
  · exact wp_bind.2 (wp_set.2 (hJ.congr h rfl rfl rfl))
  refine wp_bind.2 (wp_ofExcept.2 ⟨fun ok _ => wp_ite.2 ⟨fun _ => h, fun _ => ?_⟩, fun _ _ => h⟩)
  refine wp_bind.2 (wp_mono (hJ.updateNotarizedChain h qc) (fun r t ht => ?_) fun _ h => h)
  refine wp_ite.2 ⟨fun _ => ht, fun _ => wp_bind.2 (wp_modify.2 (wp_ite.2
    ⟨fun _ => ?_, fun _ => hJ.tryCommit ?_⟩))⟩
  · exact hJ.congr ht rfl rfl rfl
  · exact hJ.congr ht rfl rfl rfl

/-! ### Votes and blocks -/

theorem echo (h : J s) (k : ℕ) {m : Msg} (hm : ∀ {s}, J s → J (send ⟨none, m⟩ s)) :
    wp (echo k m) (fun _ t => J t) J s := by
  unfold Streamlet.echo
  refine wp_bind.2 (wp_get.2 (wp_ite.2 ⟨fun _ => wp_set.2 (hm ?_), fun _ => h⟩))
  exact hJ.congr h rfl rfl rfl

theorem recordVote (h : J s) {v : Vote} (hv : B v.blockID) :
    wp (recordVote nd v) (fun _ t => J t) J s := by
  unfold Streamlet.recordVote
  refine wp_bind.2 (wp_ofExcept.2 ⟨fun ok _ => wp_ite.2 ⟨fun _ => h, fun _ => ?_⟩, fun _ _ => h⟩)
  refine wp_bind.2 (wp_mono (hJ.echo h v.blockID fun h => hJ.vote h hv) (fun _ t ht => ?_) fun _ h => h)
  refine wp_bind.2 (wp_get.2 ?_)
  have hcount : J { t with bc := (t.bc.addVote nd.toConfig v).2 } := hJ.congr ht rfl rfl rfl
  generalize t.bc.addVote nd.toConfig v = r at hcount ⊢
  obtain ⟨built, bc⟩ := r
  cases built with
  | none => exact wp_bind.2 (wp_set.2 hcount)
  | some qc => exact wp_bind.2 (wp_set.2 (wp_bind.2 (wp_modify.2 (hJ.congr hcount rfl rfl rfl))))

theorem vetBlock (h : J s) {x : Block} (hx : B x.id) : wp (vetBlock nd x) (fun _ t => J t) J s := by
  unfold Streamlet.vetBlock
  refine wp_bind.2 (wp_get.2 (wp_ite.2 ⟨fun _ => h, fun _ => wp_ite.2 ⟨fun _ => h, fun _ => wp_ite.2
    ⟨fun _ => wp_bind.2 (wp_set.2 (hJ.buffer h hx)), fun _ => wp_ite.2 ⟨fun _ => h, fun _ => ?_⟩⟩⟩⟩))
  refine wp_bind.2 (wp_ofExcept.2 ⟨fun ok _ => ?_, fun _ _ => h⟩)
  exact wp_bind.2 (wp_mono (hJ.echo h x.id fun h => hJ.block h hx) (fun _ t ht => ht) fun _ h => h)

theorem insertBlock (h : J s) {x : Block} (hx : B x.id) : wp (insertBlock x) (fun _ t => J t) J s := by
  unfold Streamlet.insertBlock
  have h' := hJ.looked h [.accepted x s.notarizedChain]
  refine wp_bind.2 (wp_get.2 (wp_bind.2 (wp_modify.2 (wp_bind.2 (wp_zoom.2 (wp_zoom.2 (wp_mono
    (hJ.add h' hx) (fun _ f hf => ?_) fun _ h => h)))))))
  refine wp_bind.2 (wp_mono (hJ.looks (looks_of_glances (glances_votingRule x)) hf) (fun r t ht => ?_)
    fun _ h => h)
  exact wp_bind.2 (wp_ite.2 ⟨fun _ => wp_modify.2 (hJ.buffer ht hx), fun _ => ht⟩)

theorem kept (nd : Node) : Kept nd (fun x => B x.id) (fun _ v => B v.blockID) J where
  certify qc h := hJ.certify h qc
  recordVote h hv := hJ.recordVote h hv
  insert {s x} h hx := by
    refine wp_mono (hJ.vetBlock h hx) (fun r t ht => ⟨fun _ => ht, fun _ => ?_⟩) fun _ h => h
    refine wp_mono (hJ.insertBlock ht hx) (fun _ u hu => ⟨hu, fun v hv => ?_⟩) fun _ h => h
    rw [(makeVote_eq_ok hv).2.2.1]
    exact hx
  voted x h := hJ.looked h _
  sendVote {s x v} h hx hv := by
    refine hJ.vote h ?_
    rw [(makeVote_eq_ok hv).2.2.1]
    exact hx
  waiting h hl := hJ.waiting h hl
  dropBlock k h := hJ.drop k h
  dropQC _ h := hJ.congr h rfl rfl rfl

/-- The three handlers. -/
theorem process (nd : Node) (depth : ℕ) :
    (∀ {s : Streamlet} {x : Block}, J s → B x.id →
      wp (processBlock nd depth x) (fun _ t => J t) J s) ∧
    (∀ {s : Streamlet} {v : Vote}, J s → B v.blockID →
      wp (processVote nd depth v) (fun _ t => J t) J s) ∧
    ∀ {s : Streamlet} {qc : QC}, J s → wp (processCertificate nd depth qc) (fun _ t => J t) J s :=
  (hJ.kept nd).process depth

omit hJ in
/-- The handlers of the events and messages keep it too, if it does not depend on what is sent. -/
theorem handleMsg (hJ : Stable (fun _ => True) J) (h : J s) (nd : Node) (depth : ℕ) (m : Msg) :
    wp ((safety nd depth).handleMsg m) (fun _ t => J t) J s :=
  (hJ.kept nd).handleMsg (fun _ _ h => hJ.congr h rfl rfl rfl) h depth m (fun _ _ => trivial) fun _ _ => trivial

omit hJ in
theorem handleEvent (hJ : Stable (fun _ => True) J) (hsend : ∀ {s} e, J s → J (send e s)) (h : J s)
    (nd : Node) (depth : ℕ) (e : Event) :
    wp (handleEvent nd depth e) (fun _ t => J t) J s := by
  refine (hJ.kept nd).handleEvent (fun _ _ h => hJ.congr h rfl rfl rfl) (fun _ h => hsend _ h) ?_ h depth e
  intro s view payload pBatch h
  exact wp_mono (hJ.looks (looks_makeProposals nd view payload pBatch) h) (fun b t ht => ⟨hsend _ ht, trivial⟩)
    fun _ h => h

end Stable

/-! ### The states of a replica -/

/-- The states that one replica goes through, whatever it receives and whenever. -/
inductive Visited (nd : Node) (depth : ℕ) : Streamlet → Prop
  | new : Visited nd depth (Streamlet.new nd.n)
  | msg {s : Streamlet} (h : Visited nd depth s) (m : Msg) :
      Visited nd depth (final ((safety nd depth).handleMsg m s))
  | event {s : Streamlet} (h : Visited nd depth s) (e : Event) :
      Visited nd depth (final (Streamlet.handleEvent nd depth e s))

/-- The indices of the forest agree, and blocks are buffered under the id of their parent. -/
structure Filed (s : Streamlet) : Prop where
  forrest : s.bc.forrest.Sound
  keyed : ∀ k x, s.bufferedBlocks.lookup k = some x → x.prevID = k

theorem stable_filed : Stable (fun _ => True) Filed where
  congr h hf hb _ := ⟨hf ▸ h.forrest, hb ▸ h.keyed⟩
  waiting _ _ := trivial
  buffer {s x} h _ := by
    refine ⟨h.forrest, fun k y hy => ?_⟩
    by_cases hk : k = x.prevID
    · subst hk
      rw [AList.lookup_insert] at hy
      cases hy
      rfl
    · rw [AList.lookup_insert_ne hk] at hy
      exact h.keyed k y hy
  drop k h := ⟨h.forrest, fun k' y hy => h.keyed k' y (lookup_of_erase hy)⟩
  block h _ := ⟨h.forrest, h.keyed⟩
  vote h _ := ⟨h.forrest, h.keyed⟩
  add {s x} h _ := wp_mono (h.forrest.addVertex x) (fun _ f hf => ⟨hf.1, h.keyed⟩) fun f hf => ⟨hf, h.keyed⟩
  commit {s} id view h := by
    refine wp_mono (wp_and wp_self (BlockChain.commitBlock_spec h.forrest.indexed.wf id view))
      (fun r bc ⟨hr, _⟩ => ⟨?_, h.keyed⟩) fun bc hd => ⟨?_, h.keyed⟩
    · obtain ⟨_, hpruned⟩ := BlockChain.exists_prunedTo h.forrest hr
      exact hpruned.sound
    · have hf : bc.forrest = s.bc.forrest := hd.2.forrest
      exact hf ▸ h.forrest

/-- What holds in all states of a replica. -/
structure Regular (s : Streamlet) : Prop extends Filed s where
  quorum : s.bc.quorum.WF
  levels : ∀ l ∈ s.notarizedChain, ∃ x, l = [x]

/-- **Every state is regular**, whatever the replica receives. -/
theorem regular_of_visited {depth : ℕ} (h : Visited nd depth s) : Regular s := by
  have hok : Ok nd (fun _ => True) s := by
    induction h with
    | new => exact ok_new nd _
    | msg _ m ih => exact ih.acts (handleMsg_steps ih depth trivial).final
    | event _ e ih => exact ih.acts (handleEvent_steps ih depth e).final
  have hfiled : Filed s := by
    clear hok
    induction h with
    | new => exact ⟨LevelledForest.sound_new, fun k x hx => by simp [Streamlet.new] at hx⟩
    | msg _ m ih => exact wp_final.1 (stable_filed.handleMsg ih nd depth m)
    | event _ e ih => exact wp_final.1 (stable_filed.handleEvent (fun _ h => ⟨h.forrest, h.keyed⟩) ih nd depth e)
  exact ⟨hfiled, hok.quorum, hok.levels⟩

end Streamlet

end Bamboo
