import Bamboo.Commits
import Bamboo.Streamlet.Order
import Bamboo.Streamlet.Shape

/-!
# Certificates of a block and its child

The certificate of a block that comes before the one of its parent is parked in `bufferedNotarizedBlock` under
the parent's id.  When the parent is notarized, `processCertificate` comes back to it only after a commit.

* `Grows`: nothing is taken from the notarized chain;
* `Family`: a stored block whose parent is notarized, its child, and certificates for the two;
* `InBothOrders`: the two blocks are notarized whichever of the certificates comes first;
* `Settles`: the parent's certificate commits a block, and `Undisturbed`: nothing else waits for the parent;
* `notarized_in_both_orders`: the first is necessary, and together with the second sufficient;
* `parked_certificate_lost`: a certificate that is not picked up.
-/

namespace Bamboo

namespace Streamlet

open Prog

variable {nd : Node} {s t u : Streamlet} {p c : Block} {qp qc : QC} {depth : ℕ}

/-! ### The chain grows -/

/-- Nothing is taken from the notarized chain. -/
def Grows (s t : Streamlet) : Prop := s.notarizedChain <+: t.notarizedChain

instance : IsPreorder Streamlet Grows where
  refl _ := List.prefix_refl _
  trans _ _ _ h h' := h.trans h'

theorem Grows.of_eq (h : t.notarizedChain = s.notarizedChain) : Grows s t := by
  unfold Grows
  rw [h]

theorem Grows.inChain (h : Grows s t) {id : ℕ} (hs : InChain s.notarizedChain id) : InChain t.notarizedChain id := by
  obtain ⟨l, hl, hx⟩ := hs
  exact ⟨l, h.subset hl, hx⟩

theorem grows_of_glances {α : Type} {m : Go Streamlet α} (h : Moves Glanced m) : Moves Grows m := by
  refine h.mono ?_
  rintro s _ ⟨es, -, rfl⟩
  exact .of_eq rfl

theorem grows_modify {f : Streamlet → Streamlet} (hf : ∀ s, (f s).notarizedChain = s.notarizedChain) :
    Moves Grows (modify f : Go Streamlet PUnit) := .modify fun s => .of_eq (hf s)

theorem grows_zoom {α : Type} (m : Go BlockChain α) :
    Moves Grows (Prog.zoom bc (fun bc sl => { sl with bc := bc }) m) := by
  apply Moves.zoom
  intro _ _
  exact .of_eq rfl

theorem updateNotarizedChain_grows (qc : QC) : Moves Grows (updateNotarizedChain qc) := by
  refine .get fun s => ?_
  cases s.bc.getBlockByID qc.blockID with
  | none => exact .of_eq rfl
  | some b =>
    refine Moves.bind (R := Grows) (grows_modify (by intro _; rfl)) (fun _ => .bind ?_ fun _ => .ite ?_ ?_) s
    · exact .ite (.pure _) (grows_of_glances (glances_findParent _ _ _))
    · exact .bind (.modify fun _ => List.prefix_append _ _) fun _ => .pure _
    · exact .bind (grows_modify (by intro _; rfl)) fun _ => .pure _

theorem tryCommit_grows : Moves Grows tryCommit := by
  refine .bind (grows_of_glances glances_commitRule) fun r => ?_
  cases r with
  | none => exact .pure _
  | some g =>
    refine .get fun s => Moves.bind (R := Grows) (grows_zoom _) (fun res => ?_) s
    cases res with
    | none => exact .pure _
    | some _ =>
      exact .bind (grows_modify (by intro _; rfl)) fun _ => .bind (grows_modify (by intro _; rfl)) fun _ => .pure _

theorem certify_grows (nd : Node) (qc : QC) : Moves Grows (certify nd qc) := by
  refine .get fun s => wp_ite.2 ⟨fun _ => .of_eq rfl, fun _ => wp_ite.2 ⟨fun _ => ?_, fun _ => ?_⟩⟩
  · exact wp_bind.2 (wp_set.2 (.of_eq rfl))
  · refine Moves.bind (R := Grows) (.ofExcept _) (fun _ => .ite (.pure _) (.bind (updateNotarizedChain_grows qc)
      fun _ => .ite (.pure _) (.bind (grows_modify (by intro _; rfl)) fun _ => ?_))) s
    exact .ite (.pure _) tryCommit_grows

theorem echo_grows (id : ℕ) (m : Msg) : Moves Grows (echo id m) :=
  .get fun _ => wp_ite.2 ⟨fun _ => wp_set.2 (.of_eq rfl), fun _ => .of_eq rfl⟩

theorem recordVote_grows (nd : Node) (v : Vote) : Moves Grows (recordVote nd v) := by
  refine .bind (.ofExcept _) fun _ => .ite (.pure _) (.bind (echo_grows _ _) fun _ => .get fun s => ?_)
  obtain ⟨built, bc⟩ := s.bc.addVote nd.toConfig v
  refine wp_bind.2 (wp_set.2 (Moves.after (R := Grows) (t := { s with bc := bc }) (.of_eq rfl) ?_))
  cases built with
  | none => exact .of_eq rfl
  | some qc => exact Moves.bind (R := Grows) (grows_modify (by intro _; rfl)) (fun _ => .pure _) { s with bc := bc }

theorem vetBlock_grows (nd : Node) (b : Block) : Moves Grows (vetBlock nd b) := by
  refine .get fun s => wp_ite.2 ⟨fun _ => .of_eq rfl, fun _ => wp_ite.2 ⟨fun _ => .of_eq rfl, fun _ => wp_ite.2
    ⟨fun _ => wp_bind.2 (wp_set.2 (.of_eq rfl)), fun _ => ?_⟩⟩⟩
  exact Moves.ite (R := Grows) (.pure _) (.bind (.ofExcept _) fun _ => .bind (echo_grows _ _) fun _ => .pure _) s

theorem insertBlock_grows (b : Block) : Moves Grows (insertBlock b) := by
  refine .get fun s => Moves.bind (R := Grows) (grows_modify (by intro _; rfl)) (fun _ => .bind (grows_zoom _)
    fun _ => .bind (grows_of_glances (glances_votingRule b)) fun _ => .bind ?_ fun _ => .pure _) s
  exact .ite (grows_modify (by intro _; rfl)) (.pure _)

/-- **What cannot be lost while the chain grows** is kept by the handlers. -/
theorem kept_of_grows {J : Streamlet → Prop} (hJ : ∀ {s t}, Grows s t → J s → J t) (nd : Node) :
    Kept nd (fun _ => True) (fun _ _ => True) J where
  certify {s} qc h := wp_mono (certify_grows nd qc s) (fun _ _ ht => hJ ht h) fun _ ht => hJ ht h
  recordVote {s v} h _ := wp_mono (recordVote_grows nd v s) (fun _ _ ht => hJ ht h) fun _ ht => hJ ht h
  insert {s x} h _ := by
    refine wp_mono (vetBlock_grows nd x s) (fun r t ht => ⟨fun _ => hJ ht h, fun _ => ?_⟩) fun _ ht => hJ ht h
    exact wp_mono (insertBlock_grows x t) (fun _ u hu => ⟨hJ hu (hJ ht h), fun _ _ => trivial⟩)
      fun _ hu => hJ hu (hJ ht h)
  voted {s} _ h := hJ (s := s) (.of_eq rfl) h
  sendVote {s _ _} h _ _ := hJ (s := s) (.of_eq rfl) h
  waiting _ _ := trivial
  dropBlock {s} _ h := hJ (s := s) (.of_eq rfl) h
  dropQC {s} _ h := hJ (s := s) (.of_eq rfl) h

/-! ### The two orders -/

/-- One certificate, then another. -/
def twoCertificates (nd : Node) (depth : ℕ) (first second : QC) : Go Streamlet Unit := do
  processCertificate nd depth first
  processCertificate nd depth second

/-- Both blocks are in the notarized chain. -/
def Notarized (p c : Block) (t : Streamlet) : Prop :=
  InChain t.notarizedChain p.id ∧ InChain t.notarizedChain c.id

/-- The blocks are notarized in both orders. -/
def InBothOrders (nd : Node) (depth : ℕ) (s : Streamlet) (p c : Block) (qp qc : QC) : Prop :=
  Notarized p c (final (twoCertificates nd depth qc qp s)) ∧ Notarized p c (final (twoCertificates nd depth qp qc s))

/-- The certificate is one for the block, and passes verification. -/
structure Certifies (nd : Node) (qc : QC) (b : Block) : Prop where
  view : qc.view = b.view
  blockID : qc.blockID = b.id
  passes : checkQC nd qc = .ok true

/-- A stored block `p` that is not notarized, whose parent is, and its stored child `c`, with certificates for
both; the chain has three levels. -/
structure Family (nd : Node) (s : Streamlet) (p c : Block) (qp qc : QC) : Prop where
  levels : 3 ≤ s.notarizedChain.length
  stored : s.bc.getBlockByID p.id = some p
  stored_child : s.bc.getBlockByID c.id = some c
  child : c.prevID = p.id
  current : s.pm.curView ≤ p.view
  later : p.view < c.view
  parent : InChain s.notarizedChain p.prevID
  fresh : ¬InChain s.notarizedChain p.id
  fresh_child : ¬InChain s.notarizedChain c.id
  certificate : Certifies nd qp p
  certificate_child : Certifies nd qc c

/-- The certificate of `p` completes three consecutive views, and the commit goes through. -/
structure Settles (s : Streamlet) (p : Block) : Prop where
  three : 3 ≤ p.view
  commits : ∃ g res bc, Rule (s.notarizedChain ++ [[p]]) g ∧
    BlockChain.commitBlock g.id (p.view + 1) s.bc = .ok (some res) bc

/-- Besides the certificate of `c`, nothing waits for `p` that would have an effect, and the commit leaves `c` in
the forest. -/
structure Undisturbed (nd : Node) (s : Streamlet) (p c : Block) : Prop where
  certificates : ∀ q, s.bufferedNotarizedBlock.lookup p.id = some q → q.view ≤ p.view ∨ Certifies nd q c
  commit : ∀ g res bc, Rule (s.notarizedChain ++ [[p]]) g →
    BlockChain.commitBlock g.id (p.view + 1) s.bc = .ok (some res) bc →
    bc.exists_ c.id = true ∧ ∀ b, s.bufferedBlocks.lookup p.id = some b → b.view ≤ p.view ∨ bc.exists_ b.id = true

theorem notarized_of_grows (h : Grows s t) (hs : Notarized p c s) : Notarized p c t :=
  ⟨h.inChain hs.1, h.inChain hs.2⟩

/-! ### The child's certificate first -/

theorem certify_parked (h : Family nd s p c qp qc) :
    ∃ es, certify nd qc s =
      .ok false { looked s es with bufferedNotarizedBlock := s.bufferedNotarizedBlock.insert p.id qc } := by
  have hst : s.bc.getBlockByID qc.blockID = some c := h.certificate_child.blockID ▸ h.stored_child
  have hcur : s.pm.curView ≤ qc.view := by
    have := h.current
    have := h.later
    have := h.certificate_child.view
    omega
  have hlevels := h.levels
  have hpar : ¬(s.notarizedChain = [] ∨ InChain s.notarizedChain c.prevID) := by
    rintro (hnil | hin)
    · simp [hnil] at hlevels
    · exact h.fresh (h.child ▸ hin)
  obtain ⟨es, -, hes⟩ := updateNotarizedChain_eq hst
  rw [if_neg hpar, if_pos hlevels] at hes
  refine ⟨[.notarizing c s.notarizedChain] ++ es, ?_⟩
  unfold certify
  rw [get_bind_apply, if_neg (by omega), if_neg (by simp [hst]), h.certificate_child.passes, ok_bind_apply,
    if_neg (by simp), bind_apply_ok hes, if_pos rfl, h.child]
  rfl

/-- The state in which the certificate of the child is parked. -/
theorem processCertificate_parked (h : Family nd s p c qp qc) (depth : ℕ) :
    ∃ es, processCertificate nd (depth + 1) qc s =
      .ok () { looked s es with bufferedNotarizedBlock := s.bufferedNotarizedBlock.insert p.id qc } := by
  obtain ⟨es, hes⟩ := certify_parked h
  refine ⟨es, ?_⟩
  rw [processCertificate_succ, bind_apply_ok hes, if_pos rfl]
  rfl

theorem Family.ne (h : Family nd s p c qp qc) : p.id ≠ c.id := by
  intro he
  have hst := h.stored_child
  rw [← he, h.stored] at hst
  cases hst
  exact absurd h.later (Int.lt_irrefl _)

theorem Family.notarized_parent (h : Family nd s p c qp qc) : ¬InChain (s.notarizedChain ++ [[p]]) c.id := by
  rintro ⟨l, hl, x, hx, hid⟩
  rcases List.mem_append.1 hl with hl | hl
  · exact h.fresh_child ⟨l, hl, x, hx, hid⟩
  · rw [List.mem_singleton.1 hl, List.mem_singleton] at hx
    exact h.ne (hx ▸ hid)

/-- **The parked certificate is picked up only after a commit.** -/
theorem Family.settles (h : Family nd s p c qp qc)
    (hn : Notarized p c (final (twoCertificates nd depth qc qp s))) : Settles s p := by
  by_contra hns
  cases depth with
  | zero => exact h.fresh hn.1
  | succ depth =>
    obtain ⟨es, hes⟩ := processCertificate_parked h depth
    unfold twoCertificates at hn
    rw [bind_apply_ok hes] at hn
    have hrest : wp (processCertificate nd (depth + 1) qp) (fun _ t => t.notarizedChain = s.notarizedChain ++ [[p]])
        (fun t => t.notarizedChain = s.notarizedChain ++ [[p]])
        { looked s es with bufferedNotarizedBlock := s.bufferedNotarizedBlock.insert p.id qc } := by
      rw [processCertificate_succ]
      refine wp_bind.2 (wp_mono (certify_wp (p := p) (h.certificate.view ▸ h.current)
        (h.certificate.blockID ▸ h.stored) h.certificate.passes h.parent) ?_ fun t ht => ht.2)
      rintro r t ⟨-, -, hch, hr⟩
      refine wp_ite.2 ⟨fun _ => hch, fun hrt => absurd ?_ hns⟩
      obtain ⟨h3, g, res, hrule, hc⟩ := hr (by simpa using hrt)
      rw [h.certificate.view] at h3 hc
      exact ⟨h3, g, res, t.bc, hrule, hc⟩
    have hch := wp_final.1 hrest
    rw [Notarized, hch] at hn
    exact h.notarized_parent hn.2

/-! ### The parent's certificate -/

/-- The replica is in the view after that of `p`, which is notarized, and `c` is stored. -/
structure Ready (p c : Block) (t : Streamlet) : Prop where
  view : t.pm.curView = p.view + 1
  stored : t.bc.getBlockByID c.id = some c
  parent : InChain t.notarizedChain p.id

/-- Then a certificate of `c` notarizes it. -/
theorem Ready.certificate (ht : Ready p c t) (hchild : c.prevID = p.id) (hlater : p.view < c.view) {q : QC}
    (hq : Certifies nd q c) (depth : ℕ) :
    wp (processCertificate nd (depth + 1) q) (fun _ u => Notarized p c u) (Notarized p c) t := by
  have hJ := kept_of_grows (J := Notarized p c) notarized_of_grows nd
  refine hJ.buffers (hJ.process depth).1 (hJ.process depth).2.2 ?_
  have hcur : t.pm.curView ≤ q.view := by
    rw [ht.view, hq.view]
    omega
  have hnew : ∀ u : Streamlet, u.notarizedChain = t.notarizedChain ++ [[c]] → Notarized p c u := by
    intro u hu
    obtain ⟨l, hl, hx⟩ := ht.parent
    rw [Notarized, hu]
    exact ⟨⟨l, List.mem_append_left _ hl, hx⟩, [c], by simp, c, by simp, rfl⟩
  exact wp_mono (certify_wp hcur (hq.blockID ▸ ht.stored) hq.passes (hchild ▸ ht.parent))
    (fun r u hu => hnew u hu.2.2.1) fun u hu => hnew u hu.2

/-- The buffered block is stored already, or of an old view. -/
theorem drainBlocks_idle {id : ℕ} (h : ∀ b, t.bufferedBlocks.lookup id = some b →
    b.view < t.pm.curView ∨ t.bc.exists_ b.id = true) (depth : ℕ) :
    ∃ m, drainBlocks nd (depth + 1) id t = .ok () { t with bufferedBlocks := m } := by
  unfold drainBlocks
  rw [get_bind_apply]
  cases hl : t.bufferedBlocks.lookup id with
  | none => exact ⟨_, rfl⟩
  | some b =>
    have hb : ∃ r, processBlock nd (depth + 1) b t = .ok r t := by
      unfold processBlock vetBlock
      by_cases hex : t.bc.exists_ b.id = true
      · rw [bind_apply_ok (a := some none) (t := t) (by rw [get_bind_apply, if_pos hex]; rfl)]
        exact ⟨_, rfl⟩
      · have hold := (h b hl).resolve_right hex
        rw [bind_apply_ok (a := some (some .stale)) (t := t)
          (by rw [get_bind_apply, if_neg hex, if_pos hold]; rfl)]
        exact ⟨_, rfl⟩
    obtain ⟨r, hr⟩ := hb
    exact ⟨_, bind_apply_ok hr⟩

/-- **The certificate of `p` with its commit**, up to the certificate that waits for `p`. -/
theorem Family.ready (h : Family nd s p c qp qc) (hset : Settles s p) (hu : Undisturbed nd s p c)
    (es : List Entry) (waiting : GoMap ℕ QC) (depth : ℕ) :
    ∃ t, Ready p c t ∧ t.bufferedNotarizedBlock = waiting ∧
      processCertificate nd (depth + 2) qp { looked s es with bufferedNotarizedBlock := waiting } =
        drainNotarized nd (depth + 1) p.id t := by
  obtain ⟨g, res, bc, hrule, hc⟩ := hset.commits
  obtain ⟨hkept, hblocks⟩ := hu.commit g res bc hrule hc
  have h3 : 3 ≤ qp.view := h.certificate.view ▸ hset.three
  have hcur : s.pm.curView ≤ qp.view := h.certificate.view ▸ h.current
  rw [← h.certificate.view] at hc
  obtain ⟨t, ht, hto⟩ := certify_commits (s := { looked s es with bufferedNotarizedBlock := waiting }) hcur
    (h.certificate.blockID ▸ h.stored) h.certificate.passes h.parent h3 hrule hc
  have hview : t.pm.curView = p.view + 1 := by
    rw [hto.pm, ← h.certificate.view]
    show (s.pm.advanceView qp.view).curView = _
    rw [Pacemaker.advanceView_of_le hcur]
  have hready : Ready p c t := by
    refine ⟨hview, ?_, ?_⟩
    · rw [hto.bc_eq]
      cases hx : bc.getBlockByID c.id with
      | none =>
        rw [exists_eq_false_iff.2 hx] at hkept
        cases hkept
      | some x =>
        have hst := BlockChain.getBlockByID_of_commitBlock hc hx
        exact hst.symm.trans h.stored_child
    · rw [hto.notarizedChain]
      exact ⟨[p], by simp, p, by simp, rfl⟩
  have hidle : ∀ b, t.bufferedBlocks.lookup p.id = some b → b.view < t.pm.curView ∨ t.bc.exists_ b.id = true := by
    intro b hb
    rw [hto.bufferedBlocks] at hb
    rw [hto.bc_eq, hview]
    exact (hblocks b hb).imp_left fun hle => by omega
  obtain ⟨m, hm⟩ := drainBlocks_idle hidle depth
  refine ⟨{ t with bufferedBlocks := m }, ⟨hready.view, hready.stored, hready.parent⟩,
    hto.bufferedNotarizedBlock, ?_⟩
  rw [processCertificate_succ, bind_apply_ok ht, if_neg (by simp), h.certificate.blockID, bind_apply_ok hm]

/-- The parked certificate is processed. -/
theorem Family.child_first (h : Family nd s p c qp qc) (hset : Settles s p) (hu : Undisturbed nd s p c)
    (depth : ℕ) : Notarized p c (final (twoCertificates nd (depth + 2) qc qp s)) := by
  obtain ⟨es, hes⟩ := processCertificate_parked h (depth + 1)
  obtain ⟨t, hready, hwait, heq⟩ := h.ready hset hu es (s.bufferedNotarizedBlock.insert p.id qc) depth
  unfold twoCertificates
  rw [bind_apply_ok hes, heq]
  refine wp_final.1 ?_
  unfold drainNotarized
  refine wp_bind.2 (wp_get.2 ?_)
  rw [hwait, AList.lookup_insert]
  exact wp_bind.2 (wp_mono (hready.certificate h.child h.later h.certificate_child depth)
    (fun _ u hu => wp_modify.2 hu) fun _ hu => hu)

/-- A certificate of an old view. -/
theorem processCertificate_stale {q : QC} (h : q.view < t.pm.curView) (depth : ℕ) :
    processCertificate nd (depth + 1) q t = .ok () t := by
  have hc : certify nd q t = .ok false t := by
    unfold certify
    rw [get_bind_apply, if_pos h]
    rfl
  rw [processCertificate_succ, bind_apply_ok hc, if_pos rfl]
  rfl

/-- The child's certificate finds its parent in the chain, or was there before. -/
theorem Family.parent_first (h : Family nd s p c qp qc) (hset : Settles s p) (hu : Undisturbed nd s p c)
    (depth : ℕ) : Notarized p c (final (twoCertificates nd (depth + 2) qp qc s)) := by
  obtain ⟨t, hready, hwait, heq⟩ := h.ready hset hu [] s.bufferedNotarizedBlock depth
  have hs : { looked s [] with bufferedNotarizedBlock := s.bufferedNotarizedBlock } = s := by simp [looked]
  rw [hs] at heq
  have hJ := (kept_of_grows (J := Notarized p c) notarized_of_grows nd).process (depth + 2)
  suffices hwp : wp (drainNotarized nd (depth + 1) p.id) (fun _ u => Notarized p c u ∨ Ready p c u) (Notarized p c) t by
    refine wp_final.1 (wp_bind.2 ?_)
    unfold wp
    rw [heq]
    refine wp_mono hwp (fun _ u hu => ?_) fun _ hu => hu
    rcases hu with hu | hu
    · exact hJ.2.2 hu
    · exact hu.certificate h.child h.later h.certificate_child (depth + 1)
  unfold drainNotarized
  refine wp_bind.2 (wp_get.2 ?_)
  rw [hwait]
  cases hl : s.bufferedNotarizedBlock.lookup p.id with
  | none => exact Or.inr hready
  | some q =>
    rcases hu.certificates q hl with hold | hq
    · refine wp_bind.2 ?_
      unfold wp
      rw [processCertificate_stale (by rw [hready.view]; omega) depth]
      exact Or.inr ⟨hready.view, hready.stored, hready.parent⟩
    · exact wp_bind.2 (wp_mono (hready.certificate h.child h.later hq depth)
        (fun _ u hu => wp_modify.2 (Or.inl hu)) fun _ hu => hu)

/-- **The certificates of a block and its child.**  In every state: if both blocks are notarized in both orders of
the certificates, the parent's certificate leads to a commit; and if it does and nothing else waits for the parent,
they are notarized in both orders. -/
theorem notarized_in_both_orders (nd : Node) (depth : ℕ) (s : Streamlet) (p c : Block) (qp qc : QC)
    (h : Family nd s p c qp qc) :
    (InBothOrders nd depth s p c qp qc → Settles s p) ∧
      (Undisturbed nd s p c → 2 ≤ depth → Settles s p → InBothOrders nd depth s p c qp qc) := by
  constructor
  · intro hn
    exact h.settles hn.1
  · intro hu hdepth hset
    obtain ⟨k, rfl⟩ : ∃ k, depth = k + 2 := ⟨depth - 2, by omega⟩
    exact ⟨h.child_first hset hu k, h.parent_first hset hu k⟩

/-- The test of a certificate for a block. -/
def certifies (nd : Node) (qc : QC) (b : Block) : Bool :=
  decide (qc.view = b.view ∧ qc.blockID = b.id) &&
  match checkQC nd qc with
  | .ok r => r
  | .error _ => false

theorem certifies_of_test {b : Block} (h : certifies nd qc b = true) : Certifies nd qc b := by
  rw [certifies, Bool.and_eq_true, decide_eq_true_eq] at h
  refine ⟨h.1.1, h.1.2, ?_⟩
  cases hc : checkQC nd qc with
  | ok r => simpa [hc] using h.2
  | error e => simp [hc] at h

/-- `Family` as a test. -/
def isFamily (nd : Node) (s : Streamlet) (p c : Block) (qp qc : QC) : Bool :=
  decide (3 ≤ s.notarizedChain.length ∧ s.bc.getBlockByID p.id = some p ∧ s.bc.getBlockByID c.id = some c ∧
    c.prevID = p.id ∧ s.pm.curView ≤ p.view ∧ p.view < c.view ∧
    (∃ l ∈ s.notarizedChain, ∃ x ∈ l, x.id = p.prevID) ∧ ∀ l ∈ s.notarizedChain, ∀ x ∈ l, x.id ≠ p.id ∧ x.id ≠ c.id) &&
  certifies nd qp p && certifies nd qc c

theorem family_of_test (h : isFamily nd s p c qp qc = true) : Family nd s p c qp qc := by
  simp only [isFamily, Bool.and_eq_true, decide_eq_true_eq] at h
  obtain ⟨⟨⟨hlen, hp, hc, hchild, hcur, hlater, hpar, hfresh⟩, hqp⟩, hqc⟩ := h
  refine ⟨hlen, hp, hc, hchild, hcur, hlater, hpar, ?_, ?_, certifies_of_test hqp, certifies_of_test hqc⟩
  · rintro ⟨l, hl, x, hx, hid⟩
    exact (hfresh l hl x hx).1 hid
  · rintro ⟨l, hl, x, hx, hid⟩
    exact (hfresh l hl x hx).2 hid

/-- A test for a commit of `g` that the certificate of `p` leads to, with no one else waiting for `p` than `c`. -/
def isSettled (s : Streamlet) (before : List (List Block)) (x g p c : Block) : Bool :=
  decide (s.notarizedChain = before ++ [[x], [g]] ∧ x.view + 1 = g.view ∧ g.view + 1 = p.view ∧ 3 ≤ p.view ∧
    s.bufferedNotarizedBlock.lookup p.id = none ∧ s.bufferedBlocks.lookup p.id = some c) &&
  match BlockChain.commitBlock g.id (p.view + 1) s.bc with
  | .ok (some _) bc => bc.exists_ c.id
  | _ => false

theorem settled_of_test {before : List (List Block)} {x g : Block} (nd : Node)
    (h : isSettled s before x g p c = true) : Settles s p ∧ Undisturbed nd s p c := by
  rw [isSettled, Bool.and_eq_true, decide_eq_true_eq] at h
  obtain ⟨⟨hch, hx, hg, h3, hqcs, hblocks⟩, hcommit⟩ := h
  have hrule : Rule (s.notarizedChain ++ [[p]]) g := ⟨before, x, p, by simp [hch], hx, hg⟩
  have hlast : s.notarizedChain.getLast? = some [g] := by simp [hch]
  cases hc : BlockChain.commitBlock g.id (p.view + 1) s.bc with
  | error e bc => simp [hc] at hcommit
  | ok r bc =>
    cases r with
    | none => simp [hc] at hcommit
    | some res =>
      rw [hc] at hcommit
      refine ⟨⟨h3, g, res, bc, hrule, hc⟩, by simp [hqcs], fun g' res' bc' hrule' hc' => ?_⟩
      obtain ⟨rfl, -⟩ := rule_append hlast hrule'
      rw [hc] at hc'
      cases hc'
      refine ⟨hcommit, fun b hb => Or.inr ?_⟩
      rw [hblocks] at hb
      cases hb
      exact hcommit

/-- The blocks of views 4 and 5 are stored, and those of views 1 to 3 are notarized. -/
def fiveInARow : List Given :=
  inARow ++ [.msg (.block (FourNodes.block 4 (FourNodes.certificate 3))),
    .msg (.block (FourNodes.block 5 (FourNodes.certificate 4)))]

theorem notarized_in_both_orders_fiveInARow :
    InBothOrders FourNodes.second 9 (feed FourNodes.second 9 fiveInARow)
      (FourNodes.block 4 (FourNodes.certificate 3)) (FourNodes.block 5 (FourNodes.certificate 4))
      (FourNodes.certificate 4) (FourNodes.certificate 5) := by
  have htest : (fun s => isFamily FourNodes.second s (FourNodes.block 4 (FourNodes.certificate 3))
        (FourNodes.block 5 (FourNodes.certificate 4)) (FourNodes.certificate 4) (FourNodes.certificate 5) &&
      isSettled s [[FourNodes.block 1 .initial]] (FourNodes.block 2 (FourNodes.certificate 1))
        (FourNodes.block 3 (FourNodes.certificate 2)) (FourNodes.block 4 (FourNodes.certificate 3))
        (FourNodes.block 5 (FourNodes.certificate 4))) (feed FourNodes.second 9 fiveInARow) = true := by
    decide_cbv
  obtain ⟨hfamily, hsettled⟩ := Bool.and_eq_true_iff.1 htest
  obtain ⟨hset, hu⟩ := settled_of_test FourNodes.second hsettled
  exact (notarized_in_both_orders FourNodes.second 9 _ _ _ _ _ (family_of_test hfamily)).2 hu (by omega) hset

/-- The blocks of views 1 to 3 are notarized, and there is none of view 4. -/
def skipFour : List Given :=
  inARow ++ [.msg (.block (FourNodes.block 5 (FourNodes.certificate 3))),
    .msg (.block (FourNodes.block 6 (FourNodes.certificate 5)))]

/-- **The parked certificate is lost**: after the certificate of the block of view 6 and that of its parent, the
block of view 6 is not notarized; in the other order it is. -/
theorem parked_certificate_lost :
    Family FourNodes.second (feed FourNodes.second 9 skipFour)
      (FourNodes.block 5 (FourNodes.certificate 3)) (FourNodes.block 6 (FourNodes.certificate 5))
      (FourNodes.certificate 5) (FourNodes.certificate 6) ∧
    (final (twoCertificates FourNodes.second 9 (FourNodes.certificate 6) (FourNodes.certificate 5)
      (feed FourNodes.second 9 skipFour))).notarizedChain.map (·.map Block.view) = [[1], [2], [3], [5]] ∧
    (final (twoCertificates FourNodes.second 9 (FourNodes.certificate 5) (FourNodes.certificate 6)
      (feed FourNodes.second 9 skipFour))).notarizedChain.map (·.map Block.view) = [[1], [2], [3], [5], [6]] ∧
    ¬InBothOrders FourNodes.second 9 (feed FourNodes.second 9 skipFour)
      (FourNodes.block 5 (FourNodes.certificate 3)) (FourNodes.block 6 (FourNodes.certificate 5))
      (FourNodes.certificate 5) (FourNodes.certificate 6) := by
  have htest : (fun s => isFamily FourNodes.second s (FourNodes.block 5 (FourNodes.certificate 3))
        (FourNodes.block 6 (FourNodes.certificate 5)) (FourNodes.certificate 5) (FourNodes.certificate 6) &&
      (fun u : Streamlet => decide (u.notarizedChain.map (·.map Block.view) = [[1], [2], [3], [5]] ∧
        ∀ l ∈ u.notarizedChain, ∀ x ∈ l, x.id ≠ 6)) (final (twoCertificates FourNodes.second 9
          (FourNodes.certificate 6) (FourNodes.certificate 5) s)) &&
      decide ((final (twoCertificates FourNodes.second 9 (FourNodes.certificate 5) (FourNodes.certificate 6)
        s)).notarizedChain.map (·.map Block.view) = [[1], [2], [3], [5], [6]]))
      (feed FourNodes.second 9 skipFour) = true := by
    decide_cbv
  simp only [Bool.and_eq_true, decide_eq_true_eq] at htest
  obtain ⟨⟨hfamily, hviews, hlost⟩, hviews'⟩ := htest
  refine ⟨family_of_test hfamily, hviews, hviews', ?_⟩
  rintro ⟨⟨-, l, hl, x, hx, hid⟩, -⟩
  exact hlost l hl x hx hid

end Streamlet

end Bamboo
