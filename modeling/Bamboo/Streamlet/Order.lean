import Bamboo.FourNodes
import Bamboo.Streamlet.Frames

/-!
# A block before or after the certificate of its parent

A block that comes before its parent is notarized is stored without a vote and put into `bufferedBlocks`
under its parent's id.  `processCertificate` looks there only after a commit, and `ProcessBlock` returns at
once on a stored block.

* `blockThenCertificate`, `certificateThenBlock`: the two orders;
* `SameVotes`: the replica votes for the block in both orders, and sends the same votes;
* `Forgotten`: the certificate causes a commit that removes the block from the forest and keeps its parent;
* `vote_in_both_orders`: the replica votes in both orders only if the block is forgotten, and then it does,
  if nothing else waits for the two blocks.
-/

namespace Bamboo

namespace Streamlet

open Prog

variable {nd : Node} {s t : Streamlet} {p q b : Block} {qc : QC}

/-! ### The two orders -/

/-- The block, then the certificate. -/
def blockThenCertificate (nd : Node) (depth : ℕ) (b : Block) (qc : QC) : Go Streamlet Unit := do
  let _ ← processBlock nd depth b
  processCertificate nd depth qc

/-- The certificate, then the block. -/
def certificateThenBlock (nd : Node) (depth : ℕ) (b : Block) (qc : QC) : Go Streamlet Unit := do
  processCertificate nd depth qc
  let _ ← processBlock nd depth b

/-- The replica's own votes among what it sent. -/
def ownVotes (nd : Node) (sent : List Envelope) : List Vote :=
  sent.filterMap fun e => match e.body with
    | .vote v => if v.voter = nd.id then some v else none
    | _ => none

/-- The own votes sent between two states. -/
def newVotes (nd : Node) (s t : Streamlet) : List Vote := ownVotes nd (t.sent.drop s.sent.length)

/-- The replica votes for the block in both orders, and sends the same votes. -/
def SameVotes (nd : Node) (depth : ℕ) (s : Streamlet) (b : Block) (qc : QC) : Prop :=
  (∀ v, v ∈ newVotes nd s (final (certificateThenBlock nd depth b qc s)) ↔
    v ∈ newVotes nd s (final (blockThenCertificate nd depth b qc s))) ∧
  ∃ v ∈ newVotes nd s (final (blockThenCertificate nd depth b qc s)), v.blockID = b.id

/-- The stored block `p` is about to be notarized by its certificate, on top of the last block `q` of the
chain, and `b` is a child of `p`.  Ids identify blocks. -/
structure Setting (nd : Node) (s : Streamlet) (p q b : Block) (qc : QC) : Prop where
  stored : s.bc.getBlockByID p.id = some p
  last : s.notarizedChain.getLast? = some [q]
  parent : p.prevID = q.id
  fresh : ¬ InChain s.notarizedChain p.id
  current : s.pm.curView ≤ p.view
  child : b.prevID = p.id
  later : p.view < b.view
  three : 2 < b.view
  leader : nd.elec.isLeader b.proposer b.view = true
  qcView : qc.view = p.view
  qcBlock : qc.blockID = p.id
  passes : checkQC nd qc = .ok true
  named : ∀ k x, s.bufferedBlocks.lookup k = some x → x.id = b.id → x = b
  named_last : q.id = b.id → q = b
  stored_last : ∀ c, s.bc.getBlockByID q.id = some c → c = q

/-- The certificate of `p` commits `q`; this removes `b` from the forest, or `b` never gets into it, but `p`
stays. -/
structure Forgotten (s : Streamlet) (p q b : Block) : Prop where
  rule : ∃ before x, s.notarizedChain = before ++ [[x], [q]] ∧ x.view + 1 = q.view
  next : q.view + 1 = p.view
  three : 3 ≤ p.view
  stored : s.bc.getBlockByID q.id = some q
  above : s.bc.forrest.lowestLevel ≤ q.level
  /-- a block that is stored already has to be in the buffer -/
  waits : s.bc.getBlockByID b.id = none ∨ s.bufferedBlocks.lookup p.id = some b
  /-- the container of `b`, if there is none the one that `AddBlock` makes, is below the level of `q` -/
  lost : (s.bc.getBlockByID b.id = none ∧ b.level < s.bc.forrest.lowestLevel) ∨
    ∃ l, (s.bc.forrest.FiledAt b.id l ∨ s.bc.forrest.vertices.lookup b.id = none ∧ l = b.level) ∧
      l < q.level
  kept : ∃ l, s.bc.forrest.FiledAt p.id l ∧ q.level ≤ l

theorem Setting.inChain (h : Setting nd s p q b qc) : InChain s.notarizedChain p.prevID :=
  ⟨[q], List.mem_of_getLast? h.last, q, List.mem_singleton_self q, h.parent.symm⟩

theorem Setting.ne (h : Setting nd s p q b qc) : p.id ≠ q.id := fun he =>
  h.fresh ⟨[q], List.mem_of_getLast? h.last, q, List.mem_singleton_self q, he.symm⟩

/-! ### No vote for the block -/

theorem ownVotes_append (sent sent' : List Envelope) :
    ownVotes nd (sent ++ sent') = ownVotes nd sent ++ ownVotes nd sent' := List.filterMap_append ..

/-- What was sent after `before` has no own vote for the block `id`. -/
def Voteless (nd : Node) (id : ℕ) (before sent : List Envelope) : Prop :=
  ∃ new, sent = before ++ new ∧ ∀ v ∈ ownVotes nd new, v.blockID ≠ id

variable {id : ℕ} {before sent : List Envelope}

theorem Voteless.refl (nd : Node) (id : ℕ) (before : List Envelope) : Voteless nd id before before :=
  ⟨[], (List.append_nil _).symm, fun _ h => by cases h⟩

theorem Voteless.append (h : Voteless nd id before sent) {new : List Envelope}
    (hn : ∀ v ∈ ownVotes nd new, v.blockID ≠ id) : Voteless nd id before (sent ++ new) := by
  obtain ⟨new', rfl, hv⟩ := h
  refine ⟨new' ++ new, List.append_assoc .., fun v hm => ?_⟩
  rw [ownVotes_append, List.mem_append] at hm
  exact hm.elim (hv v) (hn v)

/-- No new vote for the block. -/
theorem Voteless.newVotes (h : Voteless nd id s.sent t.sent) : ∀ v ∈ newVotes nd s t, v.blockID ≠ id := by
  obtain ⟨new, hnew, hv⟩ := h
  intro v hm
  rw [Streamlet.newVotes, hnew, List.drop_left] at hm
  exact hv v hm

/-- No vote for the block `id`, and no block with this id waits. -/
structure Silent (nd : Node) (id : ℕ) (before : List Envelope) (t : Streamlet) : Prop where
  sent : Voteless nd id before t.sent
  blocks : ∀ k x, t.bufferedBlocks.lookup k = some x → x.id ≠ id

/-- Work on other blocks keeps silent about the block. -/
theorem stable_silent (nd : Node) (id : ℕ) (before : List Envelope) :
    Stable (· ≠ id) (Silent nd id before) where
  congr h _ hb hs := ⟨hs ▸ h.sent, hb ▸ h.blocks⟩
  waiting h hl := h.blocks _ _ hl
  buffer {s x} h hx := by
    refine ⟨h.sent, fun k y hy => ?_⟩
    rcases lookup_insert_cases hy with rfl | hy
    · exact hx
    · exact h.blocks k y hy
  drop k h := ⟨h.sent, fun k' y hy => h.blocks k' y (lookup_of_erase hy)⟩
  block h _ := ⟨h.sent.append fun v hv => (by cases hv), h.blocks⟩
  vote {s v} h hv := by
    refine ⟨h.sent.append fun w hw => ?_, h.blocks⟩
    simp only [ownVotes, List.filterMap_cons, List.filterMap_nil] at hw
    split_ifs at hw
    · rw [List.mem_singleton.1 hw]
      exact hv
    · cases hw
  add {s x} h _ := wp_mono (wp_final (P := fun _ => True).2 trivial) (fun _ _ _ => ⟨h.sent, h.blocks⟩)
    fun _ _ => ⟨h.sent, h.blocks⟩
  commit {s} _ _ h := wp_mono (wp_final (P := fun _ => True).2 trivial) (fun _ _ _ => ⟨h.sent, h.blocks⟩)
    fun _ _ => ⟨h.sent, h.blocks⟩

/-! ### The parts of the handlers -/

theorem votingRule_wp {l : List Block} (hl : s.notarizedChain.getLast? = some l) (h2 : 2 < b.view) :
    wp (votingRule b) (fun r t => r = (l.any fun x => decide (b.prevID = x.id)) ∧ ∃ es, t = looked s es)
      (fun _ => False) s := by
  have hne : s.notarizedChain ≠ [] := by
    rintro he
    rw [he] at hl
    cases hl
  have hpos := List.length_pos_iff.2 hne
  rw [List.getLast?_eq_getElem?] at hl
  have hk : (s.notarizedChain.length : ℤ) - 1 = (s.notarizedChain.length - 1 : ℕ) := by omega
  unfold votingRule wp
  rw [get_bind_apply, if_neg (by omega), bind_apply_ok (index_eq hk hl)]
  exact ⟨rfl, _, rfl⟩

/-- The forest once the block has been passed to `AddBlock`. -/
structure Stored (f : LevelledForest) (b : Block) (f' : LevelledForest) : Prop where
  run : LevelledForest.addVertex b f = .ok () f'
  added : f.Added b f'
  sound : f'.Sound
  keeps : f.Keeps f'
  filed : f.lowestLevel ≤ b.level → f.vertices.lookup b.id = none → f'.FiledAt b.id b.level

/-- `AddBlock` and the voting rule, where the last level is known. -/
theorem insertBlock_wp (hs : s.bc.forrest.Sound) {l : List Block} (hl : s.notarizedChain.getLast? = some l)
    (h2 : 2 < b.view) :
    wp (insertBlock b)
      (fun r t => r = (l.any fun x => decide (b.prevID = x.id)) ∧ ∃ f tr, Stored s.bc.forrest b f ∧
        t = { s with
          bc := { s.bc with forrest := f }
          trace := tr
          bufferedBlocks := if r = false then s.bufferedBlocks.insert b.prevID b else s.bufferedBlocks })
      (fun t => t.sent = s.sent ∧ b.qc = none) s := by
  unfold insertBlock
  refine wp_bind.2 (wp_get.2 (wp_bind.2 (wp_modify.2 (wp_bind.2 (wp_zoom.2 (wp_zoom.2 (wp_mono
    (wp_and (wp_and (hs.addVertex b) (LevelledForest.addVertex_spec hs.indexed.wf b))
      (wp_and (LevelledForest.addVertex_wp hs.indexed.wf b) wp_self)) ?_ fun f hf => ⟨rfl, hf.2.1⟩)))))))
  rintro _ f ⟨⟨⟨hsound, hkeeps, hfiled⟩, hadded⟩, -, hrun⟩
  refine wp_bind.2 (wp_mono (votingRule_wp hl h2) ?_ fun _ h => h.elim)
  rintro _ _ ⟨rfl, es, rfl⟩
  have hst : Stored s.bc.forrest b f := ⟨hrun, hadded, hsound, hkeeps, hfiled⟩
  refine wp_bind.2 (wp_ite.2 ⟨fun hf => wp_modify.2 ?_, fun ht => ?_⟩)
  · refine ⟨rfl, f, s.trace ++ [.accepted b s.notarizedChain] ++ es, hst, ?_⟩
    rw [if_pos hf]
    rfl
  · refine ⟨rfl, f, s.trace ++ [.accepted b s.notarizedChain] ++ es, hst, ?_⟩
    rw [if_neg ht]
    rfl

theorem echo_wp (k : ℕ) (m : Msg) :
    wp (echo k m) (fun _ t => ∃ new echoed, (new = [] ∨ new = [⟨none, m⟩]) ∧
      t = { s with sent := s.sent ++ new, echoedBlock := echoed }) (fun _ => False) s := by
  unfold echo
  refine wp_bind.2 (wp_get.2 (wp_ite.2 ⟨fun _ => ?_, fun _ => ?_⟩))
  · exact wp_set.2 ⟨[⟨none, m⟩], _, Or.inr rfl, rfl⟩
  · exact ⟨[], s.echoedBlock, Or.inl rfl, by rw [List.append_nil]⟩

/-- The checks before `AddBlock`, for a new block of the leader whose parent is stored. -/
theorem vetBlock_wp (hnew : s.bc.exists_ b.id = false) (hcur : s.pm.curView ≤ b.view)
    (hpar : s.bc.getBlockByID b.prevID ≠ none) (hlead : nd.elec.isLeader b.proposer b.view = true) :
    wp (vetBlock nd b) (fun r t => r = none ∧ ∃ new echoed, (new = [] ∨ new = [⟨none, .block b⟩]) ∧
      t = { s with sent := s.sent ++ new, echoedBlock := echoed })
      (fun t => t.sent = s.sent ∧ ∃ e, checkBlock nd b = .error e) s := by
  unfold vetBlock
  refine wp_bind.2 (wp_get.2 (wp_ite.2 ⟨fun h => (by rw [hnew] at h; cases h), fun _ => wp_ite.2
    ⟨fun h => (by omega), fun _ => wp_ite.2 ⟨fun h => absurd h.1 hpar, fun _ => wp_ite.2
    ⟨fun h => (by rw [hlead] at h; cases h), fun _ => ?_⟩⟩⟩⟩))
  refine wp_bind.2 (wp_ofExcept.2 ⟨fun _ _ => ?_, fun e he => ⟨rfl, e, he⟩⟩)
  refine wp_bind.2 (wp_mono (echo_wp b.id (.block b)) (fun _ t ht => ⟨rfl, ht⟩) fun _ h => h.elim)

/-! ### The certificate -/

/-- The certificate of `p`, up to the commit rule. -/
theorem certify_eq (hcur : s.pm.curView ≤ qc.view) (hst : s.bc.getBlockByID qc.blockID = some p)
    (hpass : checkQC nd qc = .ok true) (hpar : InChain s.notarizedChain p.prevID) :
    ∃ es, certify nd qc s = (if qc.view < 3 then pure false else tryCommit : Go Streamlet Bool)
      { looked s es with
        notarizedChain := s.notarizedChain ++ [[p]]
        pm := s.pm.advanceView qc.view } := by
  obtain ⟨es, -, hes⟩ := updateNotarizedChain_eq hst
  rw [if_pos (Or.inr hpar)] at hes
  refine ⟨[.notarizing p s.notarizedChain] ++ es, ?_⟩
  unfold certify
  rw [get_bind_apply, if_neg (by omega), if_neg (by simp [hst]), hpass, ok_bind_apply, if_neg (by simp),
    bind_apply_ok hes, if_neg (by simp), modify_bind_apply]
  rfl

/-- The last part of `processCertificate`: the block that waits for the certified one. -/
def drainBlocks (nd : Node) (depth id : ℕ) : Go Streamlet Unit := do
  let sl ← get
  match sl.bufferedBlocks.lookup id with
  | none => pure ()
  | some b => do
    let _ ← processBlock nd depth b
    modify fun sl => { sl with bufferedBlocks := sl.bufferedBlocks.erase id }

/-- The last part of `processCertificate`: the certificate that waits for the certified block. -/
def drainNotarized (nd : Node) (depth id : ℕ) : Go Streamlet Unit := do
  let sl ← get
  match sl.bufferedNotarizedBlock.lookup id with
  | none => pure ()
  | some qc => do
    processCertificate nd depth qc
    modify fun sl => { sl with bufferedQCs := sl.bufferedQCs.erase qc.blockID }

theorem drainBlocks_none {depth : ℕ} (h : s.bufferedBlocks.lookup id = none) :
    drainBlocks nd depth id s = .ok () s := by
  unfold drainBlocks
  rw [get_bind_apply, h]
  rfl

theorem drainNotarized_none {depth : ℕ} (h : s.bufferedNotarizedBlock.lookup id = none) :
    drainNotarized nd depth id s = .ok () s := by
  unfold drainNotarized
  rw [get_bind_apply, h]
  rfl

theorem processCertificate_succ (depth : ℕ) : processCertificate nd (depth + 1) qc = (do
    if (← certify nd qc) = false then return
    drainBlocks nd depth qc.blockID
    drainNotarized nd depth qc.blockID) := by
  conv_lhs => unfold processCertificate
  rfl

/-- A certificate that no one waits for. -/
theorem processCertificate_idle {depth : ℕ} (hc : certify nd qc s = .ok true t)
    (hb : t.bufferedBlocks.lookup qc.blockID = none)
    (hn : t.bufferedNotarizedBlock.lookup qc.blockID = none) :
    processCertificate nd (depth + 1) qc s = .ok () t := by
  rw [processCertificate_succ, bind_apply_ok hc, if_neg (by simp), bind_apply_ok (drainBlocks_none hb),
    drainNotarized_none hn]

/-- `t` is `s` after a commit that turned the block chain into `bc`. -/
structure CommittedTo (s : Streamlet) (bc : BlockChain) (t : Streamlet) : Prop where
  bc_eq : t.bc = bc
  notarizedChain : t.notarizedChain = s.notarizedChain
  pm : t.pm = s.pm
  bufferedBlocks : t.bufferedBlocks = s.bufferedBlocks
  bufferedQCs : t.bufferedQCs = s.bufferedQCs
  bufferedNotarizedBlock : t.bufferedNotarizedBlock = s.bufferedNotarizedBlock
  sent : t.sent = s.sent

theorem CommittedTo.of_eq (s : Streamlet) (bc : BlockChain) (tr : List Entry) (com forked : List Block)
    (echoed : GoMap ℕ Unit) : CommittedTo s bc { s with
      bc := bc, trace := tr, committedBlocks := com, forkedBlocks := forked, echoedBlock := echoed } :=
  ⟨rfl, rfl, rfl, rfl, rfl, rfl, rfl⟩

/-- The commit rule and the commit: the answer is `true` only if the rule names a block and `CommitBlock`
returns no error. -/
theorem tryCommit_wp (s : Streamlet) :
    wp tryCommit (fun r t => ∃ bc, CommittedTo s bc t ∧ (r = true → ∃ g res, Rule s.notarizedChain g ∧
      BlockChain.commitBlock g.id s.pm.curView s.bc = .ok (some res) bc))
      (fun t => ∃ bc, CommittedTo s bc t) s := by
  unfold tryCommit
  obtain ⟨r, es, hr, -, hg⟩ := commitRule_eq s
  refine wp_bind.2 (wp_of_ok hr ?_)
  cases r with
  | none => exact ⟨s.bc, .of_eq s _ _ _ _ _, fun h => by cases h⟩
  | some g =>
    have hrule : Rule s.notarizedChain g := (hg g).1 rfl
    refine wp_bind.2 (wp_get.2 (wp_bind.2 (wp_zoom.2 (wp_mono wp_self (fun res bc hres => ?_)
      fun bc _ => ⟨bc, .of_eq s _ _ _ _ _⟩))))
    cases res with
    | none => exact ⟨bc, .of_eq s _ _ _ _ _, fun h => by cases h⟩
    | some res =>
      refine wp_bind.2 (wp_modify.2 (wp_bind.2 (wp_modify.2 ⟨bc, .of_eq s _ _ _ _ _, fun _ => ?_⟩)))
      exact ⟨g, res, hrule, hres⟩

/-- Where the rule names a block that can be committed. -/
theorem tryCommit_eq {g : Block} (hg : Rule s.notarizedChain g) {res : List Block × List Block} {bc : BlockChain}
    (hc : BlockChain.commitBlock g.id s.pm.curView s.bc = .ok (some res) bc) :
    ∃ t, tryCommit s = .ok true t ∧ CommittedTo s bc t := by
  unfold tryCommit
  obtain ⟨r, es, hr, -, hiff⟩ := commitRule_eq s
  have hr' : r = some g := (hiff g).2 hg
  subst hr'
  rw [bind_apply_ok hr]
  dsimp only
  have hc' : BlockChain.commitBlock g.id (looked s es).pm.curView (looked s es).bc = .ok (some res) bc := hc
  rw [get_bind_apply, bind_apply_ok (zoom_apply_ok hc')]
  exact ⟨_, rfl, .of_eq s _ _ _ _ _⟩

/-! ### The block first -/

/-- What `ProcessBlock` does with a block whose parent is not notarized: nothing, if it is stored already;
else the block is stored and put into the buffer. -/
inductive Parked (s : Streamlet) (b : Block) : Streamlet → Prop
  | stored (h : s.bc.getBlockByID b.id ≠ none) : Parked s b s
  | added {f : LevelledForest} (tr : List Entry) (new : List Envelope) (echoed : GoMap ℕ Unit)
      (h : s.bc.getBlockByID b.id = none) (hf : Stored s.bc.forrest b f)
      (hnew : new = [] ∨ new = [⟨none, .block b⟩]) :
      Parked s b { s with
        bc := { s.bc with forrest := f }
        trace := tr
        sent := s.sent ++ new
        echoedBlock := echoed
        bufferedBlocks := s.bufferedBlocks.insert b.prevID b }

theorem exists_eq_false_iff {bc : BlockChain} {x : ℕ} : bc.exists_ x = false ↔ bc.getBlockByID x = none := by
  simp [BlockChain.exists_, BlockChain.getBlockByID, LevelledForest.hasVertex]

theorem ownVotes_echo {new : List Envelope} (hnew : new = [] ∨ new = [⟨none, .block b⟩]) (v : Vote) :
    v ∉ ownVotes nd new := by
  rcases hnew with rfl | rfl
  · exact List.not_mem_nil
  · exact List.not_mem_nil

/-- `ProcessBlock` on a block of the leader whose parent `p` is stored and not last in the chain. -/
theorem processBlock_parked (h : Setting nd s p q b qc) (hr : Regular s) (depth : ℕ) :
    wp (processBlock nd (depth + 1) b) (fun _ t => Parked s b t)
      (fun t => Voteless nd b.id s.sent t.sent ∧ (b.qc = none ∨ ∃ e, checkBlock nd b = .error e)) s := by
  unfold processBlock
  have hpar : s.bc.getBlockByID b.prevID ≠ none := by
    rw [h.child, h.stored]
    simp
  cases hex : s.bc.exists_ b.id with
  | true =>
    have hst : s.bc.getBlockByID b.id ≠ none := fun hn => by
      rw [exists_eq_false_iff.2 hn] at hex
      cases hex
    refine wp_bind.2 ?_
    unfold vetBlock
    exact wp_bind.2 (wp_get.2 (wp_ite.2 ⟨fun _ => .stored hst, fun hne => (hne hex).elim⟩))
  | false =>
    have hcur : s.pm.curView ≤ b.view := by
      have := h.current
      have := h.later
      omega
    refine wp_bind.2 (wp_mono (vetBlock_wp hex hcur hpar h.leader) ?_ ?_)
    · rintro _ _ ⟨rfl, new, echoed, hnew, rfl⟩
      dsimp only
      refine wp_bind.2 (wp_mono (insertBlock_wp (s := { s with sent := s.sent ++ new, echoedBlock := echoed })
        hr.forrest h.last h.three) ?_ ?_)
      · rintro r _ ⟨hrv, f, tr, hf, rfl⟩
        have hfalse : r = false := by
          rw [hrv, List.any_eq_false]
          intro x hx
          rw [List.mem_singleton.1 hx, h.child]
          simpa using h.ne
        subst hfalse
        refine wp_ite.2 ⟨fun _ => ?_, fun hne => (hne rfl).elim⟩
        exact .added tr new echoed (exists_eq_false_iff.1 hex) hf hnew
      · rintro t ⟨hsent, hqc⟩
        rw [hsent]
        exact ⟨(Voteless.refl nd b.id s.sent).append (fun v hv => absurd hv (ownVotes_echo hnew v)), Or.inl hqc⟩
    · rintro t ⟨hsent, hcheck⟩
      rw [hsent]
      exact ⟨Voteless.refl nd b.id s.sent, Or.inr hcheck⟩

namespace Parked

variable (ht : Parked s b t)
include ht

theorem notarizedChain : t.notarizedChain = s.notarizedChain := by cases ht <;> rfl

theorem pm : t.pm = s.pm := by cases ht <;> rfl

theorem sound (hr : Regular s) : t.bc.forrest.Sound := by
  cases ht with
  | stored => exact hr.forrest
  | added tr new echoed h hf hnew => exact hf.sound

theorem voteless (nd : Node) : Voteless nd b.id s.sent t.sent := by
  cases ht with
  | stored => exact Voteless.refl nd b.id s.sent
  | added tr new echoed h hf hnew =>
    exact (Voteless.refl nd b.id s.sent).append (fun v hv => absurd hv (ownVotes_echo hnew v))

/-- Other blocks are stored as before. -/
theorem stored_of_ne {x : ℕ} (hx : x ≠ b.id) : t.bc.getBlockByID x = s.bc.getBlockByID x := by
  cases ht with
  | stored => rfl
  | @added f tr new echoed h hf hnew =>
    show f.getVertex x = s.bc.forrest.getVertex x
    rw [hf.added.stored, if_neg fun hc => hx hc.1]

theorem stored_parent (h : Setting nd s p q b qc) : t.bc.getBlockByID p.id = some p := by
  cases ht with
  | stored => exact h.stored
  | @added f tr new echoed hnone hf hnew =>
    have hne : p.id ≠ b.id := by
      intro he
      rw [← he, h.stored] at hnone
      cases hnone
    exact (stored_of_ne (.added tr new echoed hnone hf hnew) hne).trans h.stored

/-- The block waits under its parent's id only. -/
theorem waiting (h : Setting nd s p q b qc) (hr : Regular s) {k : ℕ} {x : Block}
    (hx : t.bufferedBlocks.lookup k = some x) (hid : x.id = b.id) : k = p.id ∧ x = b := by
  have hold : ∀ {k x}, s.bufferedBlocks.lookup k = some x → x.id = b.id → k = p.id ∧ x = b := by
    intro k x hx hid
    have hxb := h.named k x hx hid
    subst hxb
    exact ⟨(hr.keyed k x hx).symm.trans h.child, rfl⟩
  cases ht with
  | stored => exact hold hx hid
  | added tr new echoed hnone hf hnew =>
    dsimp only at hx
    by_cases hk : k = b.prevID
    · subst hk
      rw [AList.lookup_insert] at hx
      cases hx
      exact ⟨h.child, rfl⟩
    · rw [AList.lookup_insert_ne hk] at hx
      exact hold hx hid

end Parked

/-- The rule after `p` has been added to the chain. -/
theorem rule_append (hl : s.notarizedChain.getLast? = some [q]) {g : Block}
    (hg : Rule (s.notarizedChain ++ [[p]]) g) :
    g = q ∧ q.view + 1 = p.view ∧ ∃ before x, s.notarizedChain = before ++ [[x], [q]] ∧ x.view + 1 = q.view := by
  obtain ⟨before, x, l, hch, hx, hv⟩ := hg
  have hch' : s.notarizedChain ++ [[p]] = (before ++ [[x], [g]]) ++ [[l]] := by
    rw [hch, List.append_assoc]
    rfl
  obtain ⟨hinit, hlast⟩ := List.append_inj' hch' rfl
  simp only [List.cons.injEq, and_true] at hlast
  subst hlast
  rw [hinit] at hl
  have hgq : g = q := by simpa using hl
  subst hgq
  exact ⟨rfl, hv, before, x, hinit, hx⟩

/-- The certificate of a stored block that extends the chain. -/
theorem certify_wp (hcur : t.pm.curView ≤ qc.view) (hst : t.bc.getBlockByID qc.blockID = some p)
    (hpass : checkQC nd qc = .ok true) (hpar : InChain t.notarizedChain p.prevID) :
    wp (certify nd qc) (fun r u => u.bufferedBlocks = t.bufferedBlocks ∧ u.sent = t.sent ∧
      u.notarizedChain = t.notarizedChain ++ [[p]] ∧
      (r = true → 3 ≤ qc.view ∧ ∃ g res, Rule (t.notarizedChain ++ [[p]]) g ∧
        BlockChain.commitBlock g.id (qc.view + 1) t.bc = .ok (some res) u.bc))
      (fun u => u.sent = t.sent ∧ u.notarizedChain = t.notarizedChain ++ [[p]]) t := by
  obtain ⟨es, hes⟩ := certify_eq hcur hst hpass hpar
  unfold wp
  rw [hes]
  refine wp_ite.2 ⟨fun _ => ⟨rfl, rfl, rfl, fun h => by cases h⟩, fun h3 => ?_⟩
  refine wp_mono (tryCommit_wp _) ?_ fun u ⟨bc, hu⟩ => ⟨hu.sent, hu.notarizedChain⟩
  rintro r u ⟨bc, hu, hr⟩
  refine ⟨hu.bufferedBlocks, hu.sent, hu.notarizedChain, fun hrt => ⟨by omega, ?_⟩⟩
  obtain ⟨g, res, hrule, hres⟩ := hr hrt
  dsimp only at hres
  rw [Pacemaker.advanceView_of_le hcur] at hres
  exact ⟨g, res, hrule, hu.bc_eq ▸ hres⟩

/-- `ProcessBlock` on a block that is stored, or whose parent is not. -/
theorem processBlock_blocked (hb : t.bc.getBlockByID b.id ≠ none ∨ t.bc.getBlockByID b.prevID = none)
    (h2 : 2 < b.view) (depth : ℕ) :
    wp (processBlock nd depth b)
      (fun _ u => u = t ∨ u = { t with bufferedBlocks := t.bufferedBlocks.insert b.prevID b })
      (fun u => u = t) t := by
  cases depth with
  | zero => exact rfl
  | succ depth =>
    unfold processBlock
    refine wp_bind.2 ?_
    unfold vetBlock
    refine wp_bind.2 (wp_get.2 (wp_ite.2 ⟨fun _ => Or.inl rfl, fun hne => wp_ite.2 ⟨fun _ => Or.inl rfl,
      fun _ => wp_ite.2 ⟨fun _ => wp_bind.2 (wp_set.2 (Or.inr rfl)), fun hpar => ?_⟩⟩⟩))
    exfalso
    rcases hb with hst | hnone
    · exact hst (exists_eq_false_iff.1 (by simpa using hne))
    · exact hpar ⟨hnone, by omega⟩

/-- A block that a commit removes was filed below the committed level. -/
theorem lt_of_lost {f f' : LevelledForest} (hf : f.Sound) {l : ℕ} (hp : f.PrunedTo l f') {x : ℕ} {c : Block}
    (hst : f.getVertex x = some c) (hlost : f'.getVertex x = none) : ∃ k, f.FiledAt x k ∧ k < l := by
  obtain ⟨k, hk, -⟩ := hf.filedAt hst
  refine ⟨k, hk, ?_⟩
  by_contra hle
  have := hp.stored_iff.2 ⟨hst, k, hk, by omega⟩
  rw [hlost] at this
  cases this

/-- The container that a block without one on record gets. -/
theorem Parked.lost (ht : Parked s b t) (hr : Regular s) {l : ℕ} {f : LevelledForest}
    (hp : t.bc.forrest.PrunedTo l f) (hlost : f.getVertex b.id = none) :
    (s.bc.getBlockByID b.id = none ∧ b.level < s.bc.forrest.lowestLevel) ∨
      ∃ k, (s.bc.forrest.FiledAt b.id k ∨ s.bc.forrest.vertices.lookup b.id = none ∧ k = b.level) ∧ k < l := by
  cases ht with
  | stored hst =>
    obtain ⟨c, hc⟩ := Option.ne_none_iff_exists'.1 hst
    obtain ⟨k, hk, hlt⟩ := lt_of_lost hr.forrest hp hc hlost
    exact Or.inr ⟨k, Or.inl hk, hlt⟩
  | @added f' tr new echoed hnone hf hnew =>
    by_cases hlow : b.level < s.bc.forrest.lowestLevel
    · exact Or.inl ⟨hnone, hlow⟩
    have hst : f'.getVertex b.id = some b := by
      rw [hf.added.stored, if_pos ⟨rfl, by omega, hnone⟩]
    obtain ⟨k, hk, hlt⟩ := lt_of_lost hf.sound hp hst hlost
    refine Or.inr ⟨k, ?_, hlt⟩
    cases hlk : s.bc.forrest.vertices.lookup b.id with
    | none => exact Or.inr ⟨rfl, hk.unique (hf.filed (by omega) hlk)⟩
    | some a =>
      -- a container that was there stays where it was
      obtain ⟨c, hc, -⟩ := hr.forrest.indexed b.id a hlk
      have hs : s.bc.forrest.FiledAt b.id c.level := ⟨a, c, hlk, hc, rfl⟩
      exact Or.inl (hk.unique (hf.keeps b.id c.level hs) ▸ hs)

/-- If the commit leaves the waiting block to be inserted anew, it was forgotten. -/
theorem forgotten_of_commit (h : Setting nd s p q b qc) (hr : Regular s) (ht : Parked s b t)
    (h3 : 3 ≤ qc.view) {g : Block} {res : List Block × List Block} {view : ℤ} {bc : BlockChain}
    (hrule : Rule (t.notarizedChain ++ [[p]]) g)
    (hc : BlockChain.commitBlock g.id view t.bc = .ok (some res) bc)
    (hw : t.bufferedBlocks.lookup p.id = some b) (hb : bc.getBlockByID b.id = none)
    (hp : bc.getBlockByID p.id ≠ none) : Forgotten s p q b := by
  rw [ht.notarizedChain] at hrule
  obtain ⟨rfl, hnext, before, x, hch, hx⟩ := rule_append h.last hrule
  have hne : g.id ≠ b.id := by
    intro he
    have hview := congrArg Block.view (h.named_last he)
    have := h.later
    omega
  have hsound := ht.sound hr
  obtain ⟨c, hcst, -, hlow, -⟩ := (Prog.wp_ok (BlockChain.commitBlock_spec hsound.indexed.wf _ _) hc).done _ _ rfl
  have hstored : s.bc.getBlockByID g.id = some c := (ht.stored_of_ne hne).symm.trans hcst
  have hcg : c = g := h.stored_last c hstored
  subst hcg
  have hpr := BlockChain.commitBlock_prunedTo hsound hc hcst
  have hlowest : t.bc.forrest.lowestLevel = s.bc.forrest.lowestLevel := by
    cases ht with
    | stored => rfl
    | added tr new echoed hnone hf hnew => exact hf.added.lowest
  have hkeeps : s.bc.forrest.Keeps t.bc.forrest := by
    cases ht with
    | stored => exact fun _ _ h => h
    | added tr new echoed hnone hf hnew => exact hf.keeps
  refine ⟨⟨before, x, hch, hx⟩, hnext, h.qcView ▸ h3, hstored, hlowest ▸ hlow, ?_, ht.lost hr hpr hb, ?_⟩
  · cases ht with
    | stored => exact Or.inr hw
    | added tr new echoed hnone hf hnew => exact Or.inl hnone
  · obtain ⟨c', hc'⟩ := Option.ne_none_iff_exists'.1 hp
    obtain ⟨-, l, hl, hle⟩ := hpr.stored_iff.1 hc'
    obtain ⟨l', hl', -⟩ := hr.forrest.filedAt h.stored
    exact ⟨l', hl', hl.unique (hkeeps _ _ hl') ▸ hle⟩

/-- **After the block has been parked, its parent's certificate leads to no vote for it**, unless the block is
forgotten. -/
theorem processCertificate_voteless (h : Setting nd s p q b qc) (hr : Regular s) (ht : Parked s b t)
    (hf : ¬ Forgotten s p q b) (depth : ℕ) :
    wp (processCertificate nd depth qc) (fun _ u => Voteless nd b.id s.sent u.sent)
      (fun u => Voteless nd b.id s.sent u.sent) t := by
  have hvt := ht.voteless nd
  cases depth with
  | zero => exact hvt
  | succ depth =>
    rw [processCertificate_succ]
    have hcert : wp (certify nd qc) _ _ t := certify_wp (by rw [ht.pm, h.qcView]; exact h.current)
      (by rw [h.qcBlock]; exact ht.stored_parent h) h.passes (ht.notarizedChain ▸ h.inChain)
    refine wp_bind.2 (wp_mono hcert ?_ fun u hu => by rw [hu.1]; exact hvt)
    rintro r u ⟨hbuf, hsent, -, hr'⟩
    have hvu : Voteless nd b.id s.sent u.sent := by
      rw [hsent]
      exact hvt
    refine wp_ite.2 ⟨fun _ => hvu, fun hrt => ?_⟩
    obtain ⟨h3, g, res, hrule, hc⟩ := hr' (by simpa using hrt)
    have hstable := (stable_silent nd b.id s.sent).process nd depth
    have hwait : ∀ {k x}, u.bufferedBlocks.lookup k = some x → x.id = b.id → k = p.id ∧ x = b :=
      fun hx hid => ht.waiting h hr (hbuf ▸ hx) hid
    -- once the entry under the parent's id is gone, no one is left to vote for the block
    have hrest : ∀ u : Streamlet, Silent nd b.id s.sent u →
        wp (drainNotarized nd depth qc.blockID) (fun _ u => Voteless nd b.id s.sent u.sent)
          (fun u => Voteless nd b.id s.sent u.sent) u := by
      intro u hu
      unfold drainNotarized
      refine wp_bind.2 (wp_get.2 ?_)
      cases u.bufferedNotarizedBlock.lookup qc.blockID with
      | none => exact hu.sent
      | some qc' =>
        exact wp_bind.2 (wp_mono (hstable.2.2 hu) (fun _ u hu => wp_modify.2 hu.sent) fun _ hu => hu.sent)
    refine wp_bind.2 (wp_mono (Q := fun _ u => Silent nd b.id s.sent u) ?_ (fun _ u hu => hrest u hu)
      fun _ h => h)
    unfold drainBlocks
    refine wp_bind.2 (wp_get.2 ?_)
    cases hlk : u.bufferedBlocks.lookup qc.blockID with
    | none =>
      refine ⟨hvu, fun k x hx hid => ?_⟩
      obtain ⟨rfl, -⟩ := hwait hx hid
      rw [h.qcBlock, hx] at hlk
      cases hlk
    | some x =>
      by_cases hxb : x.id = b.id
      · obtain ⟨-, rfl⟩ := hwait hlk hxb
        rw [h.qcBlock] at hlk ⊢
        have hblocked : u.bc.getBlockByID x.id ≠ none ∨ u.bc.getBlockByID x.prevID = none := by
          by_contra hno
          rw [not_or, not_not, h.child] at hno
          exact hf (forgotten_of_commit h hr ht h3 hrule hc (hbuf ▸ hlk) hno.1 hno.2)
        refine wp_bind.2 (wp_mono (processBlock_blocked hblocked h.three depth) ?_ ?_)
        · rintro _ v (rfl | rfl)
          · refine wp_modify.2 ⟨hvu, fun k y hy hid => ?_⟩
            obtain ⟨rfl, -⟩ := hwait (lookup_of_erase hy) hid
            simp at hy
          · refine wp_modify.2 ⟨hvu, fun k y hy hid => ?_⟩
            dsimp only at hy
            by_cases hk : k = p.id
            · subst hk
              simp at hy
            · rw [AList.lookup_erase_ne hk, h.child, AList.lookup_insert_ne hk] at hy
              exact hk (hwait hy hid).1
        · rintro v rfl
          exact hvu
      · have hsil : Silent nd b.id s.sent u := by
          refine ⟨hvu, fun k y hy hid => ?_⟩
          obtain ⟨rfl, -⟩ := hwait hy hid
          rw [h.qcBlock, hy] at hlk
          cases hlk
          exact hxb hid
        refine wp_bind.2 (wp_mono (hstable.1 hsil hxb) (fun _ v hv => ?_) fun _ hv => hv.sent)
        exact wp_modify.2 ((stable_silent nd b.id s.sent).drop _ hv)

/-! ### A vote for the block -/

/-- Between the two states the replica sent the vote `v`, maybe twice, and no other. -/
def Casts (nd : Node) (v : Vote) (s t : Streamlet) : Prop :=
  ∃ new, t.sent = s.sent ++ new ∧ (∀ w ∈ ownVotes nd new, w = v) ∧ v ∈ ownVotes nd new

theorem Casts.mem_newVotes {v : Vote} (h : Casts nd v s t) (w : Vote) : w ∈ newVotes nd s t ↔ w = v := by
  obtain ⟨new, hsent, honly, hmem⟩ := h
  rw [newVotes, hsent, List.drop_left]
  exact ⟨honly w, fun hw => hw ▸ hmem⟩

theorem ownVotes_vote {v : Vote} (hv : v.voter = nd.id) : ownVotes nd [⟨none, .vote v⟩] = [v] := by
  simp [ownVotes, hv]

/-- The first vote for a block makes no certificate. -/
theorem addVote_alone (cf : Config) {bc : BlockChain} (hq : bc.quorum.WF) {v : Vote}
    (hnone : ∀ w, bc.quorum.Has w → w.blockID ≠ v.blockID) (h2 : 2 ≤ bc.quorum.total) :
    ∃ r, bc.addVote cf v = (none, { bc with quorum := r }) := by
  rcases BlockChain.addVote_cases cf hq v with h | h | ⟨qc, -, hc⟩
  · exact ⟨bc.quorum, h⟩
  · exact ⟨_, h⟩
  · exfalso
    -- all signers would be the one voter
    have hone : ∀ i ∈ qc.signers, i = v.voter := by
      intro i hi
      obtain ⟨k, hk, rfl⟩ := List.getElem_of_mem hi
      have hlen := hc.signed.length_eq
      obtain ⟨w, hw, hwb, hwv, -⟩ := (List.forall₂_iff_get.1 hc.signed).2 k (by omega) hk
      rcases Quorum.has_record hw with rfl | hw
      · exact hwv.symm
      · exact absurd hwb (hnone w hw)
    have hsub : qc.signers ⊆ [v.voter] := fun i hi => List.mem_singleton.2 (hone i hi)
    have hle := (hc.nodup.subperm hsub).length_le
    have hlt := hc.quorum
    have htot : (bc.quorum.record v).total = bc.quorum.total := rfl
    rw [htot] at hlt
    simp only [List.length_singleton] at hle
    omega

theorem recordVote_alone {v : Vote} (hv : v.voter = nd.id) (hq : s.bc.quorum.WF)
    (hnone : ∀ w, s.bc.quorum.Has w → w.blockID ≠ v.blockID) (h2 : 2 ≤ s.bc.quorum.total) :
    wp (recordVote nd v) (fun r t => r = none ∧ ∃ new echoed q, (new = [] ∨ new = [⟨none, .vote v⟩]) ∧
      t = { s with sent := s.sent ++ new, echoedBlock := echoed, bc := { s.bc with quorum := q } })
      (fun _ => False) s := by
  have hcheck : checkVote nd v = .ok true := by simp [checkVote, hv]
  obtain ⟨q, hadd⟩ := addVote_alone nd.toConfig hq hnone h2
  unfold recordVote
  rw [hcheck]
  refine wp_bind.2 (wp_ofExcept.2 ⟨fun ok hok => ?_, fun _ h => by cases h⟩)
  cases hok
  refine wp_ite.2 ⟨fun h => absurd h (by simp), fun _ => ?_⟩
  refine wp_bind.2 (wp_mono (echo_wp v.blockID (.vote v)) ?_ fun _ h => h)
  rintro _ _ ⟨new, echoed, hnew, rfl⟩
  refine wp_bind.2 (wp_get.2 ?_)
  dsimp only
  rw [hadd]
  exact wp_bind.2 (wp_set.2 ⟨rfl, new, echoed, q, hnew, rfl⟩)

/-- `ProcessBlock` on a new block whose parent is the last block of the chain, where no one waits for the
block: the replica votes. -/
theorem processBlock_casts (hs : s.bc.forrest.Sound) (hq : s.bc.quorum.WF)
    (hnew : s.bc.getBlockByID b.id = none) (hpar : s.bc.getBlockByID b.prevID ≠ none)
    (hcur : s.pm.curView ≤ b.view) (hlead : nd.elec.isLeader b.proposer b.view = true)
    (hlast : s.notarizedChain.getLast? = some [p]) (hchild : b.prevID = p.id) (h3 : 2 < b.view)
    (hqc : b.qc ≠ none) (hcheck : ∃ r, checkBlock nd b = .ok r) {v : Vote}
    (hv : makeVote nd.toConfig b.view nd.id b.id = .ok v)
    (hnone : ∀ w, s.bc.quorum.Has w → w.blockID ≠ b.id) (h2 : 2 ≤ s.bc.quorum.total)
    (hqcs : s.bufferedQCs.lookup b.id = none) (hblocks : s.bufferedBlocks.lookup b.id = none) (depth : ℕ) :
    wp (processBlock nd (depth + 2) b)
      (fun _ t => Casts nd v s t ∧ t.bufferedNotarizedBlock = s.bufferedNotarizedBlock) (fun _ => False) s := by
  obtain ⟨-, hvoter, hvid, -⟩ := makeVote_eq_ok hv
  unfold processBlock
  refine wp_bind.2 (wp_mono (vetBlock_wp (exists_eq_false_iff.2 hnew) hcur hpar hlead) ?_ ?_)
  · rintro _ _ ⟨rfl, new, echoed, hnew', rfl⟩
    refine wp_bind.2 (wp_mono (insertBlock_wp (s := { s with sent := s.sent ++ new, echoedBlock := echoed })
      hs hlast h3) ?_ fun _ h => hqc h.2)
    rintro r _ ⟨hr, f, tr, hf, rfl⟩
    have htrue : r = true := by
      rw [hr]
      simp [hchild]
    subst htrue
    refine wp_ite.2 ⟨fun h => absurd h (by simp), fun _ => ?_⟩
    rw [hv]
    refine wp_bind.2 (wp_ofExcept.2 ⟨fun v' hv' => ?_, fun _ h => by cases h⟩)
    cases hv'
    refine wp_bind.2 (wp_get.2 (wp_bind.2 (wp_modify.2 (wp_bind.2 ?_))))
    unfold processVote
    refine wp_bind.2 (wp_mono (recordVote_alone hvoter hq (fun w hw => hvid ▸ hnone w hw) h2) ?_ fun _ h => h)
    rintro _ _ ⟨rfl, new', echoed', r, hnew'', rfl⟩
    refine wp_bind.2 (wp_modify.2 (wp_bind.2 (wp_get.2 (wp_bind.2 ?_))))
    dsimp only [send]
    rw [hqcs]
    refine wp_bind.2 (wp_get.2 (wp_bind.2 ?_))
    dsimp only
    rw [if_neg (by simp), hblocks]
    refine ⟨⟨new ++ new' ++ [⟨none, .vote v⟩], by simp, ?_, ?_⟩, rfl⟩
    · intro w hw
      rw [ownVotes_append, ownVotes_append, List.mem_append, List.mem_append, ownVotes_vote hvoter,
        List.mem_singleton] at hw
      rcases hw with (hw | hw) | hw
      · exact absurd hw (ownVotes_echo hnew' w)
      · rcases hnew'' with rfl | rfl
        · cases hw
        · rw [ownVotes_vote hvoter] at hw
          exact List.mem_singleton.1 hw
      · exact hw
    · rw [ownVotes_append, ownVotes_vote hvoter]
      simp
  · rintro t ⟨-, e, he⟩
    obtain ⟨r, hr⟩ := hcheck
    rw [hr] at he
    cases he

/-! ### A forgotten block -/

/-- Nothing else waits for the two blocks, the replica can vote for `b`, and the commit of `q` goes through,
with `b` in the forest and without. -/
structure Quiet (nd : Node) (s : Streamlet) (p q b : Block) : Prop where
  fresh : s.bc.getBlockByID b.id = none
  cert : b.qc ≠ none
  checked : ∃ r, checkBlock nd b = .ok r
  signs : ∃ v, makeVote nd.toConfig b.view nd.id b.id = .ok v
  votes : ∀ w, s.bc.quorum.Has w → w.blockID ≠ b.id
  nodes : 2 ≤ s.bc.quorum.total
  qcs : s.bufferedQCs.lookup b.id = none
  blocks : s.bufferedBlocks.lookup b.id = none
  waiting : s.bufferedBlocks.lookup p.id = none
  notarized : s.bufferedNotarizedBlock.lookup p.id = none
  commits : ∀ f, f = s.bc.forrest ∨ LevelledForest.addVertex b s.bc.forrest = .ok () f →
    ∃ res bc, BlockChain.commitBlock q.id (p.view + 1) { s.bc with forrest := f } = .ok (some res) bc

/-- The certificate of a block that makes the commit rule hold. -/
theorem certify_commits {g : Block} (hcur : s.pm.curView ≤ qc.view)
    (hst : s.bc.getBlockByID qc.blockID = some p) (hpass : checkQC nd qc = .ok true)
    (hpar : InChain s.notarizedChain p.prevID) (h3 : 3 ≤ qc.view) (hrule : Rule (s.notarizedChain ++ [[p]]) g)
    {res : List Block × List Block} {bc : BlockChain}
    (hc : BlockChain.commitBlock g.id (qc.view + 1) s.bc = .ok (some res) bc) :
    ∃ t, certify nd qc s = .ok true t ∧ CommittedTo { s with
      notarizedChain := s.notarizedChain ++ [[p]], pm := s.pm.advanceView qc.view } bc t := by
  obtain ⟨es, hes⟩ := certify_eq hcur hst hpass hpar
  rw [hes, if_neg (by omega)]
  have hview : (s.pm.advanceView qc.view).curView = qc.view + 1 := by
    rw [Pacemaker.advanceView_of_le hcur]
  obtain ⟨t, ht, hu⟩ := tryCommit_eq (s := { looked s es with
    notarizedChain := s.notarizedChain ++ [[p]], pm := s.pm.advanceView qc.view }) hrule (by
      dsimp only [looked]
      rw [hview]
      exact hc)
  exact ⟨t, ht, hu.bc_eq, hu.notarizedChain, hu.pm, hu.bufferedBlocks, hu.bufferedQCs,
    hu.bufferedNotarizedBlock, hu.sent⟩

/-- After the commit a block that is not stored gets the vote. -/
theorem casts_after_commit (h : Setting nd s p q b qc) (hr : Regular s) (hq : Quiet nd s p q b) {v : Vote}
    (hv : makeVote nd.toConfig b.view nd.id b.id = .ok v) {f : LevelledForest} (hs : f.Sound)
    (hqst : f.getVertex q.id = some q) {res : List Block × List Block} {view : ℤ}
    (hc : BlockChain.commitBlock q.id view { s.bc with forrest := f } = .ok (some res) t.bc)
    (hb : t.bc.getBlockByID b.id = none) (hp : t.bc.getBlockByID p.id ≠ none)
    (hchain : t.notarizedChain = s.notarizedChain ++ [[p]]) (hpm : t.pm = s.pm.advanceView qc.view)
    (hqcs : t.bufferedQCs = s.bufferedQCs) (hblocks : t.bufferedBlocks.lookup b.id = none) (depth : ℕ) :
    wp (processBlock nd (depth + 2) b)
      (fun _ u => Casts nd v t u ∧ u.bufferedNotarizedBlock = t.bufferedNotarizedBlock) (fun _ => False) t := by
  have hcur : t.pm.curView = p.view + 1 := by
    have hle : s.pm.curView ≤ qc.view := h.qcView ▸ h.current
    rw [hpm, Pacemaker.advanceView_of_le hle, h.qcView]
  have hwf : { s.bc with forrest := f }.forrest.WF := hs.indexed.wf
  have hcom := Prog.wp_ok (BlockChain.commitBlock_spec hwf _ _) hc
  have hpruned := BlockChain.commitBlock_prunedTo hs hc hqst
  have hlater := h.later
  refine processBlock_casts (p := p) hpruned.sound (hcom.wf hr.quorum) hb (h.child ▸ hp) (by omega) h.leader
    (by rw [hchain]; simp) h.child h.three hq.cert hq.checked hv (fun w hw => hq.votes w (hcom.has w hw)) ?_
    (by rw [hqcs]; exact hq.qcs) hblocks depth
  rw [hcom.total]
  exact hq.nodes

theorem Forgotten.rule_append (hf : Forgotten s p q b) : Rule (s.notarizedChain ++ [[p]]) q := by
  obtain ⟨before, x, hch, hx⟩ := hf.rule
  exact ⟨before, x, p, by rw [hch, List.append_assoc]; rfl, hx, hf.next⟩

/-- The certificate first: the replica votes once the block comes. -/
theorem certificateThenBlock_casts (h : Setting nd s p q b qc) (hr : Regular s) (hq : Quiet nd s p q b)
    (hf : Forgotten s p q b) {v : Vote} (hv : makeVote nd.toConfig b.view nd.id b.id = .ok v) (depth : ℕ) :
    Casts nd v s (final (certificateThenBlock nd (depth + 2) b qc s)) := by
  obtain ⟨res, bc, hc⟩ := hq.commits s.bc.forrest (Or.inl rfl)
  rw [← h.qcView] at hc
  obtain ⟨t, ht, hu⟩ := certify_commits (h.qcView ▸ h.current) (h.qcBlock ▸ h.stored) h.passes h.inChain
    (h.qcView ▸ hf.three) hf.rule_append hc
  have hbc := hu.bc_eq
  subst hbc
  have hcom := Prog.wp_ok (BlockChain.commitBlock_spec hr.forrest.indexed.wf _ _) hc
  have hpruned := BlockChain.commitBlock_prunedTo hr.forrest hc hf.stored
  have hwp : wp (certificateThenBlock nd (depth + 2) b qc) (fun _ u => Casts nd v s u) (Casts nd v s) s := by
    unfold certificateThenBlock wp
    rw [bind_apply_ok (processCertificate_idle ht (by rw [hu.bufferedBlocks, h.qcBlock]; exact hq.waiting)
      (by rw [hu.bufferedNotarizedBlock, h.qcBlock]; exact hq.notarized))]
    have hlost : t.bc.getBlockByID b.id = none := by
      cases hb : t.bc.forrest.getVertex b.id with
      | none => exact hb
      | some c => exact absurd (hq.fresh.symm.trans (hcom.stored _ _ hb)) (by simp)
    have hkept : t.bc.getBlockByID p.id ≠ none := by
      obtain ⟨l, hl, hle⟩ := hf.kept
      exact fun hn => absurd (hn.symm.trans (hpruned.stored_iff.2 ⟨h.stored, l, hl, hle⟩)) (by simp)
    refine wp_bind.2 (wp_mono (casts_after_commit h hr hq hv hr.forrest hf.stored hc hlost hkept
      hu.notarizedChain hu.pm hu.bufferedQCs (by rw [hu.bufferedBlocks]; exact hq.blocks) depth) ?_
      fun _ hfalse => hfalse.elim)
    rintro _ u ⟨⟨new, hsent, hcasts⟩, -⟩
    exact ⟨new, by rw [hsent, hu.sent], hcasts⟩
  exact wp_final.1 hwp

/-- The commit removes the block that was added. -/
theorem Forgotten.lost_of_commit (hf : Forgotten s p q b)
    (hfresh : s.bc.getBlockByID b.id = none) {f f' : LevelledForest} (hst : Stored s.bc.forrest b f)
    (hp : f.PrunedTo q.level f') : f'.getVertex b.id = none := by
  cases hx : f'.getVertex b.id with
  | none => rfl
  | some c =>
    exfalso
    obtain ⟨hc, l, hl, hle⟩ := hp.stored_iff.1 hx
    have hlow : s.bc.forrest.lowestLevel ≤ b.level := by
      by_contra hlt
      rw [hst.added.stored, if_neg fun h => hlt h.2.1] at hc
      exact absurd (hfresh.symm.trans hc) (by simp)
    rcases hf.lost with ⟨-, hlt⟩ | ⟨k, hk | ⟨hnone, rfl⟩, hlt⟩
    · omega
    · have := hl.unique (hst.keeps _ _ hk)
      omega
    · have := hl.unique (hst.filed hlow hnone)
      omega

/-- The block first: it is inserted anew after the commit, and the replica votes. -/
theorem blockThenCertificate_casts (h : Setting nd s p q b qc) (hr : Regular s) (hq : Quiet nd s p q b)
    (hf : Forgotten s p q b) {v : Vote} (hv : makeVote nd.toConfig b.view nd.id b.id = .ok v) (depth : ℕ) :
    Casts nd v s (final (blockThenCertificate nd (depth + 3) b qc s)) := by
  have hwp : wp (blockThenCertificate nd (depth + 3) b qc) (fun _ u => Casts nd v s u) (Casts nd v s) s := by
    unfold blockThenCertificate
    refine wp_bind.2 (wp_mono (processBlock_parked h hr (depth + 2)) ?_ ?_)
    · intro _ t ht
      have hsound := ht.sound hr
      have hparent := ht.stored_parent h
      cases ht with
      | stored hst => exact absurd hq.fresh hst
      | @added f tr new echoed hnone hst hnew =>
        have hne : b.id ≠ p.id := by
          intro he
          rw [he, h.stored] at hnone
          cases hnone
        have hneq : q.id ≠ b.id := by
          intro he
          have hview := congrArg Block.view (h.named_last he)
          have := h.later
          have := hf.next
          omega
        have hqst : f.getVertex q.id = some q := by
          rw [hst.added.stored, if_neg fun hc => hneq hc.1]
          exact hf.stored
        obtain ⟨res, bc, hc⟩ := hq.commits f (Or.inr hst.run)
        have hpruned := BlockChain.commitBlock_prunedTo hst.sound hc hqst
        rw [← h.qcView] at hc
        obtain ⟨t, ht, hu⟩ := certify_commits (s := { s with
          bc := { s.bc with forrest := f }
          trace := tr
          sent := s.sent ++ new
          echoedBlock := echoed
          bufferedBlocks := s.bufferedBlocks.insert b.prevID b }) (h.qcView ▸ h.current)
          (h.qcBlock ▸ hparent) h.passes h.inChain (h.qcView ▸ hf.three) hf.rule_append hc
        have hbc := hu.bc_eq
        subst hbc
        have hbuf : t.bufferedBlocks = s.bufferedBlocks.insert p.id b := h.child ▸ hu.bufferedBlocks
        have hkept : t.bc.getBlockByID p.id ≠ none := by
          obtain ⟨l, hl, hle⟩ := hf.kept
          exact fun hn => absurd (hn.symm.trans
            (hpruned.stored_iff.2 ⟨hparent, l, hst.keeps _ _ hl, hle⟩)) (by simp)
        unfold wp
        rw [processCertificate_succ, bind_apply_ok ht, if_neg (by simp)]
        refine wp_bind.2 (wp_mono (Q := fun _ u => Casts nd v s u ∧
          u.bufferedNotarizedBlock = s.bufferedNotarizedBlock) (E := fun _ => False) ?_ ?_ fun _ h => h.elim)
        · unfold drainBlocks
          refine wp_bind.2 (wp_get.2 ?_)
          rw [h.qcBlock, hbuf, AList.lookup_insert]
          refine wp_bind.2 (wp_mono (casts_after_commit h hr hq hv hst.sound hqst hc
            (hf.lost_of_commit hq.fresh hst hpruned) hkept hu.notarizedChain hu.pm hu.bufferedQCs
            (by rw [hbuf, AList.lookup_insert_ne hne]; exact hq.blocks) depth) ?_ fun _ h => h)
          rintro _ u ⟨⟨new', hsent, honly, hmem⟩, hnot⟩
          refine wp_modify.2 ⟨⟨new ++ new', ?_, ?_, ?_⟩, hnot.trans hu.bufferedNotarizedBlock⟩
          · show u.sent = _
            rw [hsent, hu.sent, List.append_assoc]
          · intro w hw
            rw [ownVotes_append] at hw
            exact (List.mem_append.1 hw).elim (fun hw => absurd hw (ownVotes_echo hnew w)) (honly w)
          · rw [ownVotes_append]
            exact List.mem_append_right _ hmem
        · rintro _ u ⟨hcasts, hnot⟩
          rw [h.qcBlock]
          exact wp_of_ok (drainNotarized_none (by rw [hnot]; exact hq.notarized)) hcasts
    · rintro t ⟨-, hqc | ⟨e, he⟩⟩
      · exact absurd hqc hq.cert
      · obtain ⟨r, hr⟩ := hq.checked
        rw [hr] at he
        cases he
  exact wp_final.1 hwp

/-! ### The two orders compared -/

/-- A block that comes first gets no vote, unless it is forgotten. -/
theorem forgotten_of_vote (h : Setting nd s p q b qc) (hr : Regular s) {depth : ℕ} {v : Vote}
    (hv : v ∈ newVotes nd s (final (blockThenCertificate nd depth b qc s))) (hid : v.blockID = b.id) :
    Forgotten s p q b := by
  by_contra hf
  have hwp : wp (blockThenCertificate nd depth b qc) (fun _ u => Voteless nd b.id s.sent u.sent)
      (fun u => Voteless nd b.id s.sent u.sent) s := by
    unfold blockThenCertificate
    cases depth with
    | zero => exact Voteless.refl nd b.id s.sent
    | succ depth =>
      refine wp_bind.2 (wp_mono (processBlock_parked h hr depth) (fun _ t ht => ?_) fun t ht => ht.1)
      exact processCertificate_voteless h hr ht hf (depth + 1)
  exact (wp_final.1 hwp).newVotes v hv hid

/-! ### Concrete states -/

/-- A test for `Setting`. -/
def isSetting (nd : Node) (s : Streamlet) (p q b : Block) (qc : QC) : Bool :=
  decide (s.bc.getBlockByID p.id = some p ∧ s.notarizedChain.getLast? = some [q] ∧ p.prevID = q.id ∧
    (∀ l ∈ s.notarizedChain, ∀ x ∈ l, x.id ≠ p.id) ∧ s.pm.curView ≤ p.view ∧ b.prevID = p.id ∧
    p.view < b.view ∧ 2 < b.view ∧ nd.elec.isLeader b.proposer b.view = true ∧ qc.view = p.view ∧
    qc.blockID = p.id ∧ s.bufferedBlocks.entries = [] ∧ q.id ≠ b.id ∧
    s.bc.getBlockByID q.id = some q) &&
  match checkQC nd qc with
  | .ok r => r
  | .error _ => false

theorem setting_of_test (h : isSetting nd s p q b qc = true) : Setting nd s p q b qc := by
  simp only [isSetting, Bool.and_eq_true, decide_eq_true_eq] at h
  obtain ⟨⟨hst, hl, hpar, hfresh, hcur, hchild, hlater, h3, hlead, hqv, hqb, hnone, hne, hq⟩, hpass⟩ := h
  refine ⟨hst, hl, hpar, ?_, hcur, hchild, hlater, h3, hlead, hqv, hqb, ?_, ?_, fun he => absurd he hne, ?_⟩
  · rintro ⟨l, hmem, x, hx, hid⟩
    exact hfresh l hmem x hx hid
  · cases hc : checkQC nd qc with
    | ok r => rw [hc] at hpass; exact congrArg _ hpass
    | error e => rw [hc] at hpass; cases hpass
  · intro k x hx
    have hmem := (AList.mem_lookup_iff (s := s.bufferedBlocks)).1 hx
    rw [hnone] at hmem
    cases hmem
  · intro c hc
    rw [hq] at hc
    cases hc
    rfl

/-- `CommitBlock` returns no error. -/
def commits (bc : BlockChain) (id : ℕ) (view : ℤ) : Bool :=
  match BlockChain.commitBlock id view bc with
  | .ok (some _) _ => true
  | _ => false

theorem exists_of_commits {bc : BlockChain} {id : ℕ} {view : ℤ} (h : commits bc id view = true) :
    ∃ res bc', BlockChain.commitBlock id view bc = .ok (some res) bc' := by
  unfold commits at h
  split at h
  · exact ⟨_, _, ‹_›⟩
  · cases h

/-- A test for `Quiet`. -/
def isQuiet (nd : Node) (s : Streamlet) (p q b : Block) : Bool :=
  decide (s.bc.getBlockByID b.id = none ∧ b.qc ≠ none ∧ s.bc.quorum.votes.lookup b.id = none ∧
    2 ≤ s.bc.quorum.total ∧ s.bufferedQCs.lookup b.id = none ∧ s.bufferedBlocks.lookup b.id = none ∧
    s.bufferedBlocks.lookup p.id = none ∧ s.bufferedNotarizedBlock.lookup p.id = none) &&
  (match checkBlock nd b with | .ok _ => true | .error _ => false) &&
  (match makeVote nd.toConfig b.view nd.id b.id with | .ok _ => true | .error _ => false) &&
  commits s.bc q.id (p.view + 1) &&
  match LevelledForest.addVertex b s.bc.forrest with
  | .ok _ f => commits { s.bc with forrest := f } q.id (p.view + 1)
  | .error _ _ => true

theorem quiet_of_test (h : isQuiet nd s p q b = true) : Quiet nd s p q b := by
  simp only [isQuiet, Bool.and_eq_true, decide_eq_true_eq] at h
  obtain ⟨⟨⟨⟨⟨hfresh, hqc, hvotes, htotal, hqcs, hb, hp, hn⟩, hcheck⟩, hmake⟩, hc⟩, hc'⟩ := h
  refine ⟨hfresh, hqc, ?_, ?_, ?_, htotal, hqcs, hb, hp, hn, ?_⟩
  · split at hcheck
    · exact ⟨_, ‹_›⟩
    · cases hcheck
  · split at hmake
    · exact ⟨_, ‹_›⟩
    · cases hmake
  · rintro w hw hid
    rw [Quorum.Has, hid, Quorum.votesFor, hvotes] at hw
    simp at hw
  · rintro f (rfl | hf)
    · exact exists_of_commits hc
    · rw [hf] at hc'
      exact exists_of_commits hc'

/-- A test for `Forgotten`. -/
def isForgotten (s : Streamlet) (before : List (List Block)) (x p q b : Block) (k l : ℕ) : Bool :=
  decide (s.notarizedChain = before ++ [[x], [q]] ∧ x.view + 1 = q.view ∧ q.view + 1 = p.view ∧ 3 ≤ p.view ∧
    s.bc.getBlockByID q.id = some q ∧ s.bc.forrest.lowestLevel ≤ q.level ∧
    s.bc.getBlockByID b.id = none ∧ s.bc.forrest.FiledAt b.id k ∧ k < q.level ∧
    s.bc.forrest.FiledAt p.id l ∧ q.level ≤ l)

theorem forgotten_of_test {chain : List (List Block)} (x : Block) (k l : ℕ)
    (h : isForgotten s chain x p q b k l = true) : Forgotten s p q b := by
  obtain ⟨hch, hx, hq, h3, hst, hlow, hb, hk, hlt, hl, hle⟩ := of_decide_eq_true h
  exact ⟨⟨chain, x, hch, hx⟩, hq, h3, hst, hlow, Or.inl hb, Or.inr ⟨k, Or.inl hk, hlt⟩, l, hl, hle⟩

/-- The state after some messages. -/
def visit (nd : Node) (depth : ℕ) (ms : List Msg) : Streamlet :=
  ms.foldl (fun s m => final ((safety nd depth).handleMsg m s)) (Streamlet.new nd.n)

theorem visited_visit (nd : Node) (depth : ℕ) (ms : List Msg) : Visited nd depth (visit nd depth ms) := by
  unfold visit
  induction ms using List.reverseRecOn with
  | nil => exact .new
  | append_singleton ms m ih =>
    rw [List.foldl_append]
    exact .msg ih m

/-- The block that node 1 proposes in a view on the one of the view before. -/
def chained (view : ℕ) : Block := FourNodes.block view (parentQC (view - 1))

/-- The votes of nodes 1 and 3 for the block of a view. -/
def votesOf (view : ℕ) : List Msg :=
  [.vote ⟨view, "1", view, FourNodes.signature 0 view⟩, .vote ⟨view, "3", view, FourNodes.signature 2 view⟩]

/-- Blocks of views 1 and 2 with their votes, and the block of view 3. -/
def threeBlocks : List Msg :=
  .block (chained 1) :: votesOf 1 ++ .block (chained 2) :: votesOf 2 ++ [.block (chained 3)]

/-- **The vote depends on the order.**  In every state of a replica: if it votes for the block in both orders,
the block is one that a commit removes from the forest between its two insertions; and then it does vote in
both orders, and sends the same votes, if nothing else waits for the two blocks. -/
theorem vote_in_both_orders {d depth : ℕ} (hs : Visited nd d s) (h : Setting nd s p q b qc) :
    (SameVotes nd depth s b qc → Forgotten s p q b) ∧
      (Quiet nd s p q b → 3 ≤ depth → Forgotten s p q b → SameVotes nd depth s b qc) := by
  have hr := regular_of_visited hs
  constructor
  · rintro ⟨-, v, hv, hid⟩
    exact forgotten_of_vote h hr hv hid
  · intro hq hdepth hf
    obtain ⟨v, hv⟩ := hq.signs
    obtain ⟨k, rfl⟩ : ∃ k, depth = k + 3 := ⟨depth - 3, by omega⟩
    have hfirst := (blockThenCertificate_casts h hr hq hf hv k).mem_newVotes
    have hlast := (certificateThenBlock_casts h hr hq hf hv (k + 1)).mem_newVotes
    exact ⟨fun w => (hlast w).trans (hfirst w).symm, v, (hfirst v).2 rfl, (makeVote_eq_ok hv).2.2.1⟩

/-- A block of view 1 that names the block of view 4 as its parent, and then as above: the block of view 4 has
a container at level 0 before it comes. -/
def misfiled : List Msg :=
  .block { chained 1 with id := 100, prevID := 4, qc := some (parentQC 4) } :: threeBlocks

theorem vote_in_both_orders_misfiled :
    Visited FourNodes.second 9 (visit FourNodes.second 9 misfiled) ∧
    Setting FourNodes.second (visit FourNodes.second 9 misfiled) (chained 3) (chained 2) (chained 4)
      (FourNodes.certificate 3) ∧
    Quiet FourNodes.second (visit FourNodes.second 9 misfiled) (chained 3) (chained 2) (chained 4) ∧
    Forgotten (visit FourNodes.second 9 misfiled) (chained 3) (chained 2) (chained 4) ∧
    SameVotes FourNodes.second 9 (visit FourNodes.second 9 misfiled) (chained 4)
      (FourNodes.certificate 3) := by
  have hv := visited_visit FourNodes.second 9 misfiled
  have htest : (fun s => isSetting FourNodes.second s (chained 3) (chained 2) (chained 4) (FourNodes.certificate 3) &&
      isQuiet FourNodes.second s (chained 3) (chained 2) (chained 4) &&
      isForgotten s [] (chained 1) (chained 3) (chained 2) (chained 4) 0 3)
      (visit FourNodes.second 9 misfiled) = true := by
    decide_cbv
  simp only [Bool.and_eq_true] at htest
  obtain ⟨⟨hset, hquiet⟩, hforgot⟩ := htest
  have hs := setting_of_test hset
  have hq := quiet_of_test hquiet
  have hf := forgotten_of_test (chained 1) 0 3 hforgot
  exact ⟨hv, hs, hq, hf, (vote_in_both_orders hv hs).2 hq (by omega) hf⟩

/-- **The replica votes in one order only.**  The certificate of the block of view 3 and then the block of
view 4 give a vote for the latter, and the other way round there is none. -/
theorem vote_lost :
    Visited FourNodes.second 9 (visit FourNodes.second 9 threeBlocks) ∧
    Setting FourNodes.second (visit FourNodes.second 9 threeBlocks) (chained 3) (chained 2) (chained 4)
      (FourNodes.certificate 3) ∧
    (newVotes FourNodes.second (visit FourNodes.second 9 threeBlocks) (final (certificateThenBlock
      FourNodes.second 9 (chained 4) (FourNodes.certificate 3) (visit FourNodes.second 9 threeBlocks)))).map
      Vote.blockID = [4] ∧
    newVotes FourNodes.second (visit FourNodes.second 9 threeBlocks) (final (blockThenCertificate
      FourNodes.second 9 (chained 4) (FourNodes.certificate 3) (visit FourNodes.second 9 threeBlocks))) = [] ∧
    ¬ SameVotes FourNodes.second 9 (visit FourNodes.second 9 threeBlocks) (chained 4)
      (FourNodes.certificate 3) := by
  have hnone : newVotes FourNodes.second (visit FourNodes.second 9 threeBlocks) (final (blockThenCertificate
      FourNodes.second 9 (chained 4) (FourNodes.certificate 3) (visit FourNodes.second 9 threeBlocks))) = [] := by
    decide_cbv
  refine ⟨visited_visit _ _ _, setting_of_test (by decide_cbv), by decide_cbv, hnone, ?_⟩
  rintro ⟨-, v, hv, -⟩
  rw [hnone] at hv
  cases hv

end Streamlet

end Bamboo
