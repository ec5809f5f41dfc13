import Bamboo.Tchs.Model

/-!
# Two-chain HotStuff in small steps

The handlers of an honest replica of two-chain HotStuff, cut into the assignments they are made of.

* `Copy`: a block in memory and the block that was sent, which may differ in the view of the certificate;
* `Act`: one small step, with the tests under which the handlers reach it;
* `Act.cell_cases`, `Act.mem_trace`, `Act.mem_sent`, …: what a small step can do to each part of the
  state;
* `Ok`: what the small steps preserve in any environment.
-/

namespace Bamboo

/-- `b` is `b₀`, but for the view of the certificate. -/
def Copy (b b₀ : Block) : Prop := b = b₀ ∨ ∃ v, b = b₀.stamp v

namespace Copy

variable {b b₀ : Block}

theorem refl (b : Block) : Copy b b := Or.inl rfl

theorem stamp (h : Copy b b₀) (v : ℤ) : Copy (b.stamp v) b₀ := by
  rcases h with rfl | ⟨u, rfl⟩
  · exact Or.inr ⟨v, rfl⟩
  · refine Or.inr ⟨v, ?_⟩
    simp only [Block.stamp, Option.map_map]
    rfl

theorem id (h : Copy b b₀) : b.id = b₀.id := by rcases h with rfl | ⟨v, rfl⟩ <;> rfl

theorem view (h : Copy b b₀) : b.view = b₀.view := by rcases h with rfl | ⟨v, rfl⟩ <;> rfl

theorem prevID (h : Copy b b₀) : b.prevID = b₀.prevID := by rcases h with rfl | ⟨v, rfl⟩ <;> rfl

theorem proposer (h : Copy b b₀) : b.proposer = b₀.proposer := by rcases h with rfl | ⟨v, rfl⟩ <;> rfl

/-- The certificates agree in all but the view. -/
theorem qc (h : Copy b b₀) {q₀ : QC} (hq : b₀.qc = some q₀) :
    ∃ v, b.qc = some { q₀ with view := v } := by
  rcases h with rfl | ⟨v, rfl⟩
  · exact ⟨q₀.view, hq⟩
  · exact ⟨v, by simp [Block.stamp, hq]⟩

end Copy

namespace Tchs

/-- The replica can have seen the message: it was received, or it is one of its own. -/
def Heard (In : Msg → Prop) (s : Tchs) (m : Msg) : Prop := In m ∨ ∃ e ∈ s.sent, e.body = m

/-- Where a block `b` in memory comes from: `b₀` was received, or the replica made it, and then its
certificate is of a view that is over. -/
def Source (In : Msg → Prop) (s : Tchs) (b b₀ : Block) : Prop :=
  In (.block b₀) ∨
    (∃ e ∈ s.sent, e.body = .block b₀) ∧ ∀ q, b.qc = some q → q.view < s.pm.curView

/-- The address holds the certificate `q`. -/
def Holds (s : Tchs) (p : ℕ) (q : QC) : Prop := ∃ c, s.heap[p]? = some c ∧ c.cert = some q

/-- The replica's own vote for a block it voted for, when it leads the next view. -/
def OwnVote (nd : Node) (s : Tchs) (v : Vote) : Prop :=
  ∃ b, .voted b ∈ s.trace ∧ makeVote nd.toConfig b.view nd.id b.id = .ok v ∧
    nd.elec.findLeaderFor (b.view + 1) = nd.id

/-- A vote that `ProcessVote` counts. -/
def Counts (nd : Node) (In : Msg → Prop) (s : Tchs) (v : Vote) : Prop :=
  (In (.vote v) ∨ OwnVote nd s v) ∧
    (v.voter = nd.id ∨ pubVerify nd.toConfig v.signature v.blockID v.voter = .ok true)

/-- A block the replica may propose in view `v`: its certificate, that of `highQC`, has been stamped. -/
structure Proposal (nd : Node) (s : Tchs) (v : ℤ) (b : Block) : Prop where
  view : b.view = v
  qc : b.qc = some (s.qcAt s.highQC)
  proposer : b.proposer = nd.id
  prevID : b.prevID = (s.qcAt s.highQC).blockID
  stamped : (s.qcAt s.highQC).view = s.pm.curView - 1

/-- `processCertificate` has left a block's certificate behind: it is not called on the replica's own
proposals, drops a certificate that does not pass or is of a view that is over, and keeps back one whose
block is not stored. -/
def Taken (nd : Node) (In : Msg → Prop) (s : Tchs) (q : QC) : Prop :=
  (∃ b, In (.block b) ∧ b.proposer = nd.id) ∨ ¬ Passes nd q ∨ q.view < s.pm.curView ∨
    s.bc.getBlockByID q.blockID = none

/-- The block at an address passes the checks before `AddBlock`. -/
structure Admitted (nd : Node) (In : Msg → Prop) (s : Tchs) (p : ℕ) (b : Block) : Prop where
  cell : s.heap[p]? = some (.block b)
  lower : s.pm.curView ≤ b.view
  upper : b.view ≤ s.pm.curView + 1
  leader : nd.elec.isLeader b.proposer b.view = true
  taken : ∃ q, b.qc = some q ∧ Taken nd In s q

/-- A vote comes after the commit that the block's certificate asks for. -/
def Gate (s : Tchs) (b : Block) : Prop :=
  ∀ q, b.qc = some q → 2 ≤ q.view → q.view + 1 = b.view →
    ∃ g f batch, .committed q g f batch ∈ s.trace

/-- One small step of an honest replica that has received the messages `In`. -/
inductive Act (nd : Node) (In : Msg → Prop) (s : Tchs) : Tchs → Prop
  /-- `AdvanceView` -/
  | advance (view : ℤ) : Act nd In s { s with pm := s.pm.advanceView view }
  /-- `Pacemaker.ProcessRemoteTmo` -/
  | timeouts (tcl : TimeoutController) :
      Act nd In s { s with pm := { s.pm with timeoutController := tcl } }
  /-- a view event that leads to no proposal -/
  | pop {v : ℤ} {rest : List ℤ} (h : s.pm.newViewChan = v :: rest) :
      Act nd In s { s with pm := { s.pm with newViewChan := rest } }
  /-- `forkChoice`, for the view event that is handled next -/
  | stamp {v : ℤ} {rest : List ℤ} (h : s.pm.newViewChan = v :: rest)
      (hl : nd.elec.isLeader nd.id v = true) :
      Act nd In s { s with heap := s.heap.modify s.highQC (Cell.setView (s.pm.curView - 1)) }
  /-- a view event and the proposal for it -/
  | propose {v : ℤ} {rest : List ℤ} {b : Block} (h : s.pm.newViewChan = v :: rest)
      (hl : nd.elec.isLeader nd.id v = true) (hb : Proposal nd s v b) :
      Act nd In s { s with
        pm := { s.pm with newViewChan := rest }
        sent := s.sent ++ [⟨none, .block b⟩] }
  /-- a block comes into memory -/
  | load {b : Block} (hb : Source In s b b) : Act nd In s { s with heap := s.heap ++ [.block b] }
  /-- the block of a view too far ahead -/
  | bufferBlock {p : ℕ} {b : Block} (hp : s.heap[p]? = some (.block b)) :
      Act nd In s { s with bufferedBlocks := s.bufferedBlocks.insert (b.view - 1) p }
  /-- `ProcessBlock` hands a certificate to `updateHighQC` that `processCertificate` then leaves behind -/
  | offer {p : ℕ} {b : Block} {q : QC} (hp : s.heap[p]? = some (.block b)) (hq : b.qc = some q)
      (hu : b.view ≤ s.pm.curView + 1) (ht : Taken nd In s q) : Act nd In s (s.updateHighQC p)
  | bufferQC {p : ℕ} {q : QC} (hp : s.Holds p q) :
      Act nd In s { s with bufferedQCs := s.bufferedQCs.insert q.blockID p }
  | dropQC (id : ℕ) : Act nd In s { s with bufferedQCs := s.bufferedQCs.erase id }
  /-- a certificate passes: lock, `highQC` and view -/
  | certify {p : ℕ} {q : QC} {t : Tchs} (hp : s.Holds p q) (hv : s.pm.curView ≤ q.view)
      (hpass : Passes nd q) (ht : s.updatePreferredView q = some t) :
      Act nd In s { t.updateHighQC p with pm := t.pm.advanceView q.view }
  | accept {p : ℕ} {b : Block} {f : LevelledForest} (hb : Admitted nd In s p b)
      (hf : s.bc.forrest.Added b f) :
      Act nd In s { s with
        bc := { s.bc with forrest := f }
        trace := s.trace ++ [.accepted b s.preferredView (s.bc.getBlockByID b.prevID)] }
  | commit {b : Block} {q : QC} {g : Block} {batch forked : List Block} {bc : BlockChain}
      (hb : pending s.trace = some b) (hq : b.qc = some q) (h2 : 2 ≤ q.view)
      (hv : q.view + 1 = b.view) (hg : s.commitRule q = some g)
      (hc : s.bc.Committed g.id (some (batch, forked)) bc) :
      Act nd In s { s with
        bc := bc
        committedBlocks := s.committedBlocks ++ batch
        forkedBlocks := s.forkedBlocks ++ forked
        trace := s.trace ++ [.committed q g s.bc.forrest batch] }
  /-- a commit that fails half-way -/
  | commitFailed {bc : BlockChain} (hd : s.bc.Deleted bc) : Act nd In s { s with bc := bc }
  | vote {b : Block} {v : Vote} (hp : pending s.trace = some b) (hg : Gate s b)
      (hr : s.votingRule b = some true) (hv : makeVote nd.toConfig b.view nd.id b.id = .ok v) :
      Act nd In s { s with
        trace := s.trace ++ [.voted b]
        sent := if nd.elec.findLeaderFor (b.view + 1) = nd.id then s.sent
          else s.sent ++ [⟨some (nd.elec.findLeaderFor (b.view + 1)), .vote v⟩] }
  | count {v : Vote} (hv : Counts nd In s v) :
      Act nd In s { s with bc := { s.bc with quorum := s.bc.quorum.record v } }
  /-- a vote completes a quorum -/
  | build {v : Vote} {qc : QC} (hv : Counts nd In s v)
      (hc : Quorum.Certifies nd.toConfig (s.bc.quorum.record v) v qc) :
      Act nd In s { s with
        bc := { s.bc with quorum := s.bc.quorum.record v }
        heap := s.heap ++ [.certificate { qc with leader := nd.id }]
        trace := s.trace ++ [.built { qc with leader := nd.id }] }
  | sendTmo (t : TMO) : Act nd In s { s with sent := s.sent ++ [⟨none, .tmo t⟩] }

/-! ### What a small step can do -/

section Cases

variable {nd : Node} {In In' : Msg → Prop} {s t : Tchs}

theorem updateHighQC_cases (s : Tchs) (p : ℕ) :
    ∃ h, s.updateHighQC p = { s with highQC := h } ∧ (h = p ∨ h = s.highQC) := by
  unfold updateHighQC
  split_ifs
  · exact ⟨p, rfl, Or.inl rfl⟩
  · exact ⟨s.highQC, rfl, Or.inr rfl⟩

/-- What `updatePreferredView` does: nothing but raise the lock. -/
theorem updatePreferredView_cases {q : QC} (h : s.updatePreferredView q = some t) :
    ∃ v, t = { s with preferredView := v } := by
  unfold updatePreferredView at h
  by_cases h2 : q.view < 2
  · rw [if_pos h2] at h
    cases h
    exact ⟨s.preferredView, rfl⟩
  · rw [if_neg h2] at h
    obtain ⟨b, -, h⟩ := Option.bind_eq_some_iff.1 h
    by_cases hlt : s.preferredView < q.view
    · rw [if_pos hlt] at h
      cases h
      exact ⟨q.view, rfl⟩
    · rw [if_neg hlt] at h
      cases h
      exact ⟨s.preferredView, rfl⟩

theorem certify_cases {p : ℕ} {q : QC} (ht : s.updatePreferredView q = some t) :
    ∃ v h, { t.updateHighQC p with pm := t.pm.advanceView q.view } =
      { s with preferredView := v, highQC := h, pm := s.pm.advanceView q.view } ∧
      (h = p ∨ h = s.highQC) := by
  obtain ⟨v, rfl⟩ := updatePreferredView_cases ht
  obtain ⟨h, heq, hor⟩ := updateHighQC_cases { s with preferredView := v } p
  exact ⟨v, h, by rw [heq], hor⟩

/-- What `commitRule` found: the certified block and its parent, of the view before the certificate's. -/
theorem commitRule_cases {q : QC} {g : Block} (h : s.commitRule q = some g) :
    ∃ b, s.bc.forrest.getVertex q.blockID = some b ∧ s.bc.forrest.getVertex b.prevID = some g ∧
      g.view + 1 = q.view := by
  simp only [commitRule, BlockChain.getParentBlock, Option.bind_eq_bind, Option.bind_eq_some_iff] at h
  obtain ⟨p, ⟨b, hb, hp⟩, h⟩ := h
  split_ifs at h with hv
  cases h
  exact ⟨b, hb, hp, hv⟩

/-- Outbox and trace only grow. -/
theorem Act.subset (h : Act nd In s t) : s.sent ⊆ t.sent ∧ s.trace ⊆ t.trace := by
  cases h with
  | @offer p =>
    obtain ⟨h, heq, -⟩ := updateHighQC_cases s p
    rw [heq]
    exact ⟨List.Subset.refl _, List.Subset.refl _⟩
  | @certify p q u hp hv hpass ht =>
    obtain ⟨v, h, heq, -⟩ := certify_cases (p := p) ht
    rw [heq]
    exact ⟨List.Subset.refl _, List.Subset.refl _⟩
  | vote hp hg hr hv =>
    refine ⟨?_, List.subset_append_left _ _⟩
    dsimp only
    split_ifs
    · exact List.Subset.refl _
    · exact List.subset_append_left _ _
  | _ => simp

/-- The current view never goes back. -/
theorem Act.curView_le (h : Act nd In s t) : s.pm.curView ≤ t.pm.curView := by
  cases h with
  | advance v => exact s.pm.curView_le_advanceView v
  | @offer p =>
    obtain ⟨h, heq, -⟩ := updateHighQC_cases s p
    exact Int.le_of_eq (by rw [heq])
  | @certify p q u hp hv hpass ht =>
    obtain ⟨v, h, heq, -⟩ := certify_cases (p := p) ht
    rw [heq]
    exact s.pm.curView_le_advanceView q.view
  | _ => exact Int.le_refl _

/-- A cell that a small step adds: a block that was received or made, or a certificate that was built. -/
inductive NewCell (nd : Node) (In : Msg → Prop) (s t : Tchs) : Cell → Prop
  | block {b : Block} (hb : Source In s b b) (hpm : t.pm = s.pm) : NewCell nd In s t (.block b)
  | certificate {v : Vote} {qc : QC} (hv : Counts nd In s v)
      (hc : Quorum.Certifies nd.toConfig (s.bc.quorum.record v) v qc)
      (ht : .built { qc with leader := nd.id } ∈ t.trace) :
      NewCell nd In s t (.certificate { qc with leader := nd.id })

/-- The memory stays as it is, or a cell is added, or the certificate of `highQC` is stamped. -/
theorem Act.heap_cases (h : Act nd In s t) :
    t.heap = s.heap ∨
      (∃ c, t.heap = s.heap ++ [c] ∧ t.highQC = s.highQC ∧ NewCell nd In s t c) ∨
      (∃ v rest, s.pm.newViewChan = v :: rest ∧ nd.elec.isLeader nd.id v = true ∧
        t = { s with heap := s.heap.modify s.highQC (Cell.setView (s.pm.curView - 1)) }) := by
  cases h with
  | stamp h hl => exact Or.inr (Or.inr ⟨_, _, h, hl, rfl⟩)
  | load hb => exact Or.inr (Or.inl ⟨_, rfl, rfl, .block hb rfl⟩)
  | build hv hc =>
    exact Or.inr (Or.inl ⟨_, rfl, rfl, .certificate hv hc (List.mem_append_right _ (by simp))⟩)
  | @offer p =>
    obtain ⟨h, heq, -⟩ := updateHighQC_cases s p
    exact Or.inl (by rw [heq])
  | @certify p q u hp hv hpass ht =>
    obtain ⟨v, h, heq, -⟩ := certify_cases (p := p) ht
    exact Or.inl (by rw [heq])
  | _ => exact Or.inl rfl

/-- A cell was there before, or is the stamped one of `highQC`, or is new. -/
theorem Act.cell_cases (h : Act nd In s t) {p : ℕ} {c : Cell} (hc : t.heap[p]? = some c) :
    s.heap[p]? = some c ∨
      (∃ c₀ v rest, p = s.highQC ∧ s.heap[p]? = some c₀ ∧ c = c₀.setView (s.pm.curView - 1) ∧
        s.pm.newViewChan = v :: rest ∧ nd.elec.isLeader nd.id v = true ∧
        t = { s with heap := s.heap.modify s.highQC (Cell.setView (s.pm.curView - 1)) }) ∨
      (p = s.heap.length ∧ t.highQC = s.highQC ∧ NewCell nd In s t c) := by
  rcases h.heap_cases with hh | ⟨c', hh, hq, hn⟩ | ⟨v, rest, hv, hl, rfl⟩
  · exact Or.inl (hh ▸ hc)
  · rw [hh, List.getElem?_append] at hc
    split_ifs at hc with hlt
    · exact Or.inl hc
    · obtain ⟨hp, hcell⟩ := List.getElem?_eq_some_iff.1 hc
      have hp0 : p = s.heap.length := by simp only [List.length_singleton] at hp; omega
      subst hp0
      have hcc : c' = c := by simpa using hcell
      exact Or.inr (Or.inr ⟨rfl, hq, hcc ▸ hn⟩)
  · dsimp only at hc
    rw [List.getElem?_modify] at hc
    cases hs : s.heap[p]? with
    | none => simp [hs] at hc
    | some c₀ =>
      simp only [hs, Option.map_eq_map, Option.map_some, Option.some.injEq] at hc
      by_cases hp : s.highQC = p
      · rw [if_pos hp] at hc
        exact Or.inr (Or.inl ⟨c₀, v, rest, hp.symm, rfl, hc.symm, hv, hl, rfl⟩)
      · rw [if_neg hp] at hc
        exact Or.inl (congrArg some hc)

/-- A cell stays, but for the view of its certificate. -/
theorem Act.cell_stays (h : Act nd In s t) {p : ℕ} {c : Cell} (hc : s.heap[p]? = some c) :
    t.heap[p]? = some c ∨ p = s.highQC ∧ t.heap[p]? = some (c.setView (s.pm.curView - 1)) := by
  have hlt : p < s.heap.length := (List.getElem?_eq_some_iff.1 hc).1
  rcases h.heap_cases with hh | ⟨c', hh, -⟩ | ⟨v, rest, -, -, rfl⟩
  · exact Or.inl (hh ▸ hc)
  · exact Or.inl (by rw [hh, List.getElem?_append_left hlt, hc])
  · dsimp only
    rw [List.getElem?_modify, hc]
    by_cases hp : s.highQC = p
    · exact Or.inr ⟨hp.symm, by simp [hp]⟩
    · exact Or.inl (by simp [hp])

theorem Cell.cert_setView (c : Cell) (v : ℤ) :
    (c.setView v).cert = c.cert.map fun q => { q with view := v } := by
  cases c <;> rfl

theorem Act.holds (h : Act nd In s t) {p : ℕ} {q : QC} (hq : s.Holds p q) :
    ∃ v, t.Holds p { q with view := v } := by
  obtain ⟨c, hc, hcert⟩ := hq
  rcases h.cell_stays hc with hc' | ⟨-, hc'⟩
  · exact ⟨q.view, c, hc', hcert⟩
  · exact ⟨s.pm.curView - 1, _, hc', by rw [Cell.cert_setView, hcert]; rfl⟩

/-- `highQC` was that before, or comes from a block, or from a certificate that passed. -/
theorem Act.highQC_cases (h : Act nd In s t) :
    t.highQC = s.highQC ∨
      (∃ b q, s.heap[t.highQC]? = some (.block b) ∧ b.qc = some q ∧ b.view ≤ s.pm.curView + 1 ∧
        Taken nd In s q ∧ t = { s with highQC := t.highQC }) ∨
      ∃ q, s.Holds t.highQC q ∧ s.pm.curView ≤ q.view ∧ t.pm.curView = q.view + 1 := by
  cases h with
  | @offer p b q hp hq hu ht =>
    obtain ⟨h, heq, rfl | rfl⟩ := updateHighQC_cases s p
    · rw [heq]
      exact Or.inr (Or.inl ⟨b, q, hp, hq, hu, ht, rfl⟩)
    · rw [heq]
      exact Or.inl rfl
  | @certify p q u hp hv hpass ht =>
    obtain ⟨v, h, heq, rfl | rfl⟩ := certify_cases (p := p) ht
    · rw [heq]
      exact Or.inr (Or.inr ⟨q, hp, hv, by rw [Pacemaker.advanceView_of_le hv]⟩)
    · rw [heq]
      exact Or.inl rfl
  | _ => exact Or.inl rfl

/-- The circumstances under which a small step writes an entry of the trace. -/
def NewEntry (nd : Node) (In : Msg → Prop) (s : Tchs) : Entry → Prop
  | .offered _ _ => False
  | .accepted b lock parent =>
    (∃ p, Admitted nd In s p b) ∧ lock = s.preferredView ∧ parent = s.bc.getBlockByID b.prevID
  | .voted b => pending s.trace = some b ∧ Gate s b ∧ s.votingRule b = some true
  | .built qc => ∃ v qc', Counts nd In s v ∧
      Quorum.Certifies nd.toConfig (s.bc.quorum.record v) v qc' ∧ qc = { qc' with leader := nd.id }
  | .committed q g f batch =>
    (∃ b, pending s.trace = some b ∧ b.qc = some q ∧ q.view + 1 = b.view) ∧ 2 ≤ q.view ∧
      s.commitRule q = some g ∧ f = s.bc.forrest ∧
      ∃ forked bc, s.bc.Committed g.id (some (batch, forked)) bc

/-- A small step extends the trace by one entry at most. -/
theorem Act.trace_cases (h : Act nd In s t) :
    t.trace = s.trace ∨ ∃ e, t.trace = s.trace ++ [e] ∧ NewEntry nd In s e := by
  cases h with
  | @offer p =>
    obtain ⟨h, heq, -⟩ := updateHighQC_cases s p
    exact Or.inl (by rw [heq])
  | @certify p q u hp hv hpass ht =>
    obtain ⟨v, h, heq, -⟩ := certify_cases (p := p) ht
    exact Or.inl (by rw [heq])
  | accept hb hf => exact Or.inr ⟨_, rfl, ⟨_, hb⟩, rfl, rfl⟩
  | vote hp hg hr hv => exact Or.inr ⟨_, rfl, hp, hg, hr⟩
  | build hv hc => exact Or.inr ⟨_, rfl, _, _, hv, hc, rfl⟩
  | commit hb hq h2 hv hg hc => exact Or.inr ⟨_, rfl, ⟨_, hb, hq, hv⟩, h2, hg, rfl, _, _, hc⟩
  | _ => exact Or.inl rfl

theorem Act.mem_trace (h : Act nd In s t) {e : Entry} (he : e ∈ t.trace) :
    e ∈ s.trace ∨ NewEntry nd In s e := by
  rcases h.trace_cases with ht | ⟨e', ht, hn⟩
  · exact Or.inl (ht ▸ he)
  · rw [ht, List.mem_append, List.mem_singleton] at he
    rcases he with he | rfl
    · exact Or.inl he
    · exact Or.inr hn

/-- A small step writes to the channel of committed blocks only what its commit delivers. -/
theorem Act.mem_committedBlocks (h : Act nd In s t) {x : Block} (hx : x ∈ t.committedBlocks) :
    x ∈ s.committedBlocks ∨ ∃ q g f batch, .committed q g f batch ∈ t.trace ∧ x ∈ batch := by
  cases h with
  | @offer p =>
    obtain ⟨h, heq, -⟩ := updateHighQC_cases s p
    exact Or.inl (by rw [heq] at hx; exact hx)
  | @certify p q u hp hv hpass ht =>
    obtain ⟨v, h, heq, -⟩ := certify_cases (p := p) ht
    exact Or.inl (by rw [heq] at hx; exact hx)
  | commit hb hq h2 hv hg hc =>
    rcases List.mem_append.1 hx with hx | hx
    · exact Or.inl hx
    · exact Or.inr ⟨_, _, _, _, List.mem_append_right _ (List.mem_singleton.2 rfl), hx⟩
  | _ => exact Or.inl hx

/-- What a small step sends: a proposal, a vote it has just noted, or a timeout. -/
theorem Act.mem_sent (h : Act nd In s t) {e : Envelope} (he : e ∈ t.sent) :
    e ∈ s.sent ∨
      (∃ v rest b, s.pm.newViewChan = v :: rest ∧ nd.elec.isLeader nd.id v = true ∧
        Proposal nd s v b ∧ e = ⟨none, .block b⟩) ∨
      (∃ b v, .voted b ∈ t.trace ∧ makeVote nd.toConfig b.view nd.id b.id = .ok v ∧
        e.body = .vote v) ∨
      ∃ m : TMO, e.body = .tmo m := by
  cases h with
  | @offer p =>
    obtain ⟨h, heq, -⟩ := updateHighQC_cases s p
    exact Or.inl (by rw [heq] at he; exact he)
  | @certify p q u hp hv hpass ht =>
    obtain ⟨v, h, heq, -⟩ := certify_cases (p := p) ht
    exact Or.inl (by rw [heq] at he; exact he)
  | propose hq hl hb =>
    rcases List.mem_append.1 he with he | he
    · exact Or.inl he
    · exact Or.inr (Or.inl ⟨_, _, _, hq, hl, hb, List.mem_singleton.1 he⟩)
  | @vote b v hp hg hr hv =>
    dsimp only at he
    split_ifs at he
    · exact Or.inl he
    · rcases List.mem_append.1 he with he | he
      · exact Or.inl he
      · rw [List.mem_singleton.1 he]
        exact Or.inr (Or.inr (Or.inl ⟨b, v, by simp, hv, rfl⟩))
  | sendTmo m =>
    rcases List.mem_append.1 he with he | he
    · exact Or.inl he
    · rw [List.mem_singleton.1 he]
      exact Or.inr (Or.inr (Or.inr ⟨m, rfl⟩))
  | _ => exact Or.inl he

/-- The small steps that touch the block chain. -/
theorem Act.bc_cases (h : Act nd In s t) :
    t.bc = s.bc ∨
      (∃ p b f, Admitted nd In s p b ∧ s.bc.forrest.Added b f ∧ t.bc = { s.bc with forrest := f } ∧
        pending t.trace = some b) ∨
      (∃ v, Counts nd In s v ∧ t.bc = { s.bc with quorum := s.bc.quorum.record v }) ∨
      s.bc.Deleted t.bc ∨
      ∃ q g batch forked,
        ((∃ b, pending s.trace = some b ∧ q.view + 1 = b.view) ∧ 2 ≤ q.view ∧ s.commitRule q = some g) ∧
        s.bc.Committed g.id (some (batch, forked)) t.bc := by
  cases h with
  | @offer p =>
    obtain ⟨h, heq, -⟩ := updateHighQC_cases s p
    exact Or.inl (by rw [heq])
  | @certify p q u hp hv hpass ht =>
    obtain ⟨v, h, heq, -⟩ := certify_cases (p := p) ht
    exact Or.inl (by rw [heq])
  | accept hb hf => exact Or.inr (Or.inl ⟨_, _, _, hb, hf, rfl, by simp [pendingNext]⟩)
  | count hv => exact Or.inr (Or.inr (Or.inl ⟨_, hv, rfl⟩))
  | build hv => exact Or.inr (Or.inr (Or.inl ⟨_, hv, rfl⟩))
  | commitFailed hd => exact Or.inr (Or.inr (Or.inr (Or.inl hd)))
  | commit hb _ h2 hv hg hc =>
    exact Or.inr (Or.inr (Or.inr (Or.inr ⟨_, _, _, _, ⟨⟨_, hb, hv⟩, h2, hg⟩, hc⟩)))
  | _ => exact Or.inl rfl

/-- A stored block was stored before, or is the one just admitted. -/
theorem Act.stored (h : Act nd In s t) {x : ℕ} {b : Block} (hx : t.bc.forrest.getVertex x = some b) :
    s.bc.forrest.getVertex x = some b ∨
      b.id = x ∧ (∃ p, Admitted nd In s p b) ∧ pending t.trace = some b := by
  rcases h.bc_cases with hb | ⟨p, b', f, hb', hf, hb, hpend⟩ | ⟨v, -, hb⟩ | hd | ⟨q, g, l, fl, -, hc⟩
  · exact Or.inl (hb ▸ hx)
  · rw [hb] at hx
    rw [hf.stored] at hx
    split_ifs at hx with hcond
    · cases hx
      exact Or.inr ⟨hcond.1.symm, ⟨p, hb'⟩, hpend⟩
    · exact Or.inl hx
  · rw [hb] at hx
    exact Or.inl hx
  · exact Or.inl (hd.forrest ▸ hx)
  · exact Or.inl (hc.stored x b hx)

/-- A vote on record was on record, or is the one just counted. -/
theorem Act.has (h : Act nd In s t) {v : Vote} (hv : t.bc.quorum.Has v) :
    s.bc.quorum.Has v ∨ Counts nd In s v := by
  rcases h.bc_cases with hb | ⟨p, b, f, -, hf, hb, -⟩ | ⟨v', hc, hb⟩ | hd | ⟨q, g, l, fl, -, hc⟩
  · exact Or.inl (hb ▸ hv)
  · rw [hb] at hv
    exact Or.inl hv
  · rw [hb] at hv
    rcases Quorum.has_record hv with rfl | hv
    · exact Or.inr hc
    · exact Or.inl hv
  · exact Or.inl (hd.has v hv)
  · exact Or.inl (hc.has v hv)

end Cases

/-! ### What the small steps preserve -/

section Preserved

variable {nd : Node} {In In' : Msg → Prop} {s t : Tchs} {b b₀ : Block}

theorem Heard.mono {m : Msg} (h : Heard In s m) (hI : ∀ m, In m → In' m) (hs : s.sent ⊆ t.sent) :
    Heard In' t m := by
  rcases h with h | ⟨e, he, rfl⟩
  · exact Or.inl (hI m h)
  · exact Or.inr ⟨e, hs he, rfl⟩

theorem Source.heard (h : Source In s b b₀) : Heard In s (.block b₀) := h.imp_right And.left

theorem Source.mono (h : Source In s b b₀) (hI : ∀ m, In m → In' m) (hs : s.sent ⊆ t.sent)
    (hc : s.pm.curView ≤ t.pm.curView) : Source In' t b b₀ := by
  rcases h with h | ⟨⟨e, he, hbody⟩, hq⟩
  · exact Or.inl (hI _ h)
  · exact Or.inr ⟨⟨e, hs he, hbody⟩, fun q hq' => Int.lt_of_lt_of_le (hq q hq') hc⟩

theorem Source.act (h : Source In s b b₀) (ha : Act nd In s t) : Source In t b b₀ :=
  h.mono (fun _ h => h) ha.subset.1 ha.curView_le

/-- A stamp is of a view that is over. -/
theorem Source.stamp (h : Source In s b b₀) : Source In s (b.stamp (s.pm.curView - 1)) b₀ := by
  refine h.imp_right fun h => ⟨h.1, fun q hq => ?_⟩
  obtain ⟨q₀, -, rfl⟩ := Option.map_eq_some_iff.1 hq
  dsimp only
  omega

/-- What holds at a replica in any environment: its indices are truthful, and all it keeps comes from
what it has seen. -/
structure Ok (nd : Node) (In : Msg → Prop) (s : Tchs) : Prop where
  forrest : s.bc.forrest.WF
  quorum : s.bc.quorum.WF
  total : s.bc.quorum.total = nd.n
  block : ∀ (p : ℕ) (b : Block), s.heap[p]? = some (.block b) → ∃ b₀, Copy b b₀ ∧ Source In s b b₀
  certificate : ∀ (p : ℕ) (q : QC), s.heap[p]? = some (.certificate q) →
    ∃ q₀ v, q = { q₀ with view := v } ∧ (q₀ = .initial ∨ .built q₀ ∈ s.trace)
  high : ∃ q, s.Holds s.highQC q
  bufferedQC : ∀ id p, s.bufferedQCs.lookup id = some p → ∃ q, s.Holds p q
  bufferedBlock : ∀ v p, s.bufferedBlocks.lookup v = some p → ∃ b, s.heap[p]? = some (.block b)
  stored : ∀ x b, s.bc.forrest.getVertex x = some b →
    b.id = x ∧ ∃ b₀, Copy b b₀ ∧ Heard In s (.block b₀)

theorem ok_new (nd : Node) (In : Msg → Prop) : Ok nd In (Tchs.new nd.n) where
  forrest := LevelledForest.wf_new
  quorum := Quorum.wf_new _
  total := rfl
  block := fun p b h => by
    cases p with
    | zero => simp [Tchs.new] at h
    | succ p => simp [Tchs.new] at h
  certificate := fun p q h => by
    cases p with
    | zero =>
      have hq : QC.initial = q := by simpa [Tchs.new] using h
      exact ⟨.initial, 0, hq.symm, Or.inl rfl⟩
    | succ p => simp [Tchs.new] at h
  high := ⟨.initial, .certificate .initial, rfl, rfl⟩
  bufferedQC := fun _ _ h => by simp [Tchs.new] at h
  bufferedBlock := fun _ _ h => by simp [Tchs.new] at h
  stored := fun _ _ h => by
    simp [Tchs.new, BlockChain.new, LevelledForest.new, LevelledForest.getVertex] at h

theorem Ok.mono (h : Ok nd In s) (hI : ∀ m, In m → In' m) : Ok nd In' s where
  forrest := h.forrest
  quorum := h.quorum
  total := h.total
  block := fun p b hb => (h.block p b hb).imp fun _ hc =>
    ⟨hc.1, hc.2.mono hI (List.Subset.refl _) (Int.le_refl _)⟩
  certificate := h.certificate
  high := h.high
  bufferedQC := h.bufferedQC
  bufferedBlock := h.bufferedBlock
  stored := fun x b hx => ⟨(h.stored x b hx).1, (h.stored x b hx).2.imp fun _ hc =>
    ⟨hc.1, hc.2.mono hI (List.Subset.refl _)⟩⟩

/-- The addresses in the buffers were there, or lead to a cell. -/
theorem Act.bufferedQC_cases (h : Act nd In s t) {id p : ℕ} (hl : t.bufferedQCs.lookup id = some p) :
    s.bufferedQCs.lookup id = some p ∨ ∃ q, s.Holds p q := by
  cases h with
  | @offer p' =>
    obtain ⟨h, heq, -⟩ := updateHighQC_cases s p'
    exact Or.inl (by rw [heq] at hl; exact hl)
  | @certify p' q u hp hv hpass ht =>
    obtain ⟨v, h, heq, -⟩ := certify_cases (p := p') ht
    exact Or.inl (by rw [heq] at hl; exact hl)
  | @bufferQC p' q hp =>
    dsimp only at hl
    by_cases hid : id = q.blockID
    · subst hid
      rw [AList.lookup_insert] at hl
      cases hl
      exact Or.inr ⟨q, hp⟩
    · rw [AList.lookup_insert_ne hid] at hl
      exact Or.inl hl
  | dropQC id' =>
    dsimp only at hl
    by_cases hid : id = id'
    · subst hid
      simp at hl
    · rw [AList.lookup_erase_ne hid] at hl
      exact Or.inl hl
  | _ => exact Or.inl hl

theorem Act.bufferedBlock_cases (h : Act nd In s t) {v : ℤ} {p : ℕ}
    (hl : t.bufferedBlocks.lookup v = some p) :
    s.bufferedBlocks.lookup v = some p ∨ ∃ b, s.heap[p]? = some (.block b) := by
  cases h with
  | @offer p' =>
    obtain ⟨h, heq, -⟩ := updateHighQC_cases s p'
    exact Or.inl (by rw [heq] at hl; exact hl)
  | @certify p' q u hp hv hpass ht =>
    obtain ⟨w, h, heq, -⟩ := certify_cases (p := p') ht
    exact Or.inl (by rw [heq] at hl; exact hl)
  | @bufferBlock p' b hp =>
    dsimp only at hl
    by_cases hv : v = b.view - 1
    · subst hv
      rw [AList.lookup_insert] at hl
      cases hl
      exact Or.inr ⟨b, hp⟩
    · rw [AList.lookup_insert_ne hv] at hl
      exact Or.inl hl
  | _ => exact Or.inl hl

theorem Act.block_stays (h : Act nd In s t) {p : ℕ} (hb : ∃ b, s.heap[p]? = some (.block b)) :
    ∃ b, t.heap[p]? = some (.block b) := by
  obtain ⟨b, hb⟩ := hb
  rcases h.cell_stays hb with hb' | ⟨-, hb'⟩
  · exact ⟨b, hb'⟩
  · exact ⟨_, hb'⟩

theorem Act.holds_stays (h : Act nd In s t) {p : ℕ} (hq : ∃ q, s.Holds p q) : ∃ q, t.Holds p q := by
  obtain ⟨q, hq⟩ := hq
  obtain ⟨v, hq'⟩ := h.holds hq
  exact ⟨_, hq'⟩

theorem Ok.act (h : Ok nd In s) (ha : Act nd In s t) : Ok nd In t where
  forrest := by
    rcases ha.bc_cases with hb | ⟨p, b, f, -, hf, hb, -⟩ | ⟨v, -, hb⟩ | hd | ⟨q, g, l, fl, -, hc⟩
    · exact hb ▸ h.forrest
    · rw [hb]; exact hf.wf
    · rw [hb]; exact h.forrest
    · exact hd.forrest ▸ h.forrest
    · exact hc.forrest
  quorum := by
    rcases ha.bc_cases with hb | ⟨p, b, f, -, hf, hb, -⟩ | ⟨v, -, hb⟩ | hd | ⟨q, g, l, fl, -, hc⟩
    · exact hb ▸ h.quorum
    · rw [hb]; exact h.quorum
    · rw [hb]; exact Quorum.wf_record h.quorum v
    · exact hd.wf h.quorum
    · exact hc.wf h.quorum
  total := by
    rcases ha.bc_cases with hb | ⟨p, b, f, -, hf, hb, -⟩ | ⟨v, -, hb⟩ | hd | ⟨q, g, l, fl, -, hc⟩
    · exact hb ▸ h.total
    · rw [hb]; exact h.total
    · rw [hb]; exact h.total
    · exact hd.total.trans h.total
    · exact hc.total.trans h.total
  block := by
    intro p b hb
    rcases ha.cell_cases hb with hb | ⟨c₀, v, rest, -, hc₀, hc, -, -, rfl⟩ | ⟨-, -, hn⟩
    · exact (h.block p b hb).imp fun _ hc => ⟨hc.1, hc.2.act ha⟩
    · cases c₀ with
      | block b' =>
        cases hc
        obtain ⟨b₀, hcopy, hsrc⟩ := h.block p b' hc₀
        exact ⟨b₀, hcopy.stamp _, hsrc.stamp⟩
      | certificate q => cases hc
    · cases hn with
      | block hsrc => exact ⟨b, .refl b, hsrc.act ha⟩
  certificate := by
    intro p q hq
    have hmono : ∀ q₀ : QC, (q₀ = .initial ∨ .built q₀ ∈ s.trace) → q₀ = .initial ∨ .built q₀ ∈ t.trace :=
      fun q₀ h => h.imp_right fun h => ha.subset.2 h
    rcases ha.cell_cases hq with hq | ⟨c₀, v, rest, -, hc₀, hc, -, -, -⟩ | ⟨-, -, hn⟩
    · obtain ⟨q₀, v, heq, hor⟩ := h.certificate p q hq
      exact ⟨q₀, v, heq, hmono q₀ hor⟩
    · cases c₀ with
      | block b => cases hc
      | certificate q' =>
        cases hc
        obtain ⟨q₀, v', rfl, hor⟩ := h.certificate p q' hc₀
        exact ⟨q₀, _, rfl, hmono q₀ hor⟩
    · cases hn with
      | certificate hv hc ht => exact ⟨_, _, rfl, Or.inr ht⟩
  high := by
    rcases ha.highQC_cases with hq | ⟨b, q, hb, hq, -⟩ | ⟨q, hq, -⟩
    · rw [hq]
      exact ha.holds_stays h.high
    · exact ha.holds_stays ⟨q, _, hb, hq⟩
    · exact ha.holds_stays ⟨q, hq⟩
  bufferedQC := by
    intro id p hl
    rcases ha.bufferedQC_cases hl with hl | hq
    · exact ha.holds_stays (h.bufferedQC id p hl)
    · exact ha.holds_stays hq
  bufferedBlock := by
    intro v p hl
    rcases ha.bufferedBlock_cases hl with hl | hb
    · exact ha.block_stays (h.bufferedBlock v p hl)
    · exact ha.block_stays hb
  stored := by
    intro x b hx
    rcases ha.stored hx with hs | ⟨hid, ⟨p, hadm⟩, -⟩
    · obtain ⟨hid, b₀, hc, hh⟩ := h.stored x b hs
      exact ⟨hid, b₀, hc, hh.mono (fun _ h => h) ha.subset.1⟩
    · obtain ⟨b₀, hc, hsrc⟩ := h.block p b hadm.cell
      exact ⟨hid, b₀, hc, hsrc.heard.mono (fun _ h => h) ha.subset.1⟩

end Preserved

end Tchs

end Bamboo
