import Bamboo.HotStuff.Model

/-!
# HotStuff in small steps

The handlers of an honest HotStuff replica, cut into the assignments they are made of.  `Act` lists
these with the tests under which the handlers reach them.

* `Heard`, `Known`: the messages and the certificates a replica can have come across;
* `Act.highQC_cases`, `Act.mem_trace`, `Act.mem_sent`, …: what a small step can do to each part of the
  state;
* `Ok`: what the small steps preserve in any environment.
-/

namespace Bamboo

namespace HotStuff

/-- The replica can have seen the message: it was received, or it is one of its own. -/
def Heard (In : Msg → Prop) (s : HotStuff) (m : Msg) : Prop := In m ∨ ∃ e ∈ s.sent, e.body = m

/-- The replica can have come across the certificate. -/
inductive Known (In : Msg → Prop) (s : HotStuff) (qc : QC) : Prop
  | initial (h : qc = .initial)
  | block (b : Block) (hb : Heard In s (.block b)) (h : b.qc = some qc)
  | tmo (t : TMO) (ht : Heard In s (.tmo t)) (h : t.highQC = some qc)
  | built (h : .built qc ∈ s.trace)

/-- The replica's own vote for a block it voted for. -/
def OwnVote (nd : Node) (s : HotStuff) (v : Vote) : Prop :=
  ∃ b, .voted b ∈ s.trace ∧ makeVote nd.toConfig b.view nd.id b.id = .ok v

/-- A vote that `ProcessVote` counts. -/
def Counts (nd : Node) (In : Msg → Prop) (s : HotStuff) (v : Vote) : Prop :=
  (Heard In s (.vote v) ∨ OwnVote nd s v) ∧
    (v.voter = nd.id ∨ pubVerify nd.toConfig v.signature v.blockID v.voter = .ok true)

/-- A block the replica may propose in view `v`. -/
structure Proposal (nd : Node) (s : HotStuff) (v : ℤ) (b : Block) : Prop where
  view : b.view = v
  qc : b.qc = some s.highQC
  proposer : b.proposer = nd.id
  prevID : b.prevID = s.highQC.blockID

/-- A block that passes the checks before `AddBlock`. -/
structure Admitted (nd : Node) (In : Msg → Prop) (s : HotStuff) (b : Block) : Prop where
  heard : Heard In s (.block b)
  lower : s.pm.curView ≤ b.view
  upper : b.view ≤ s.pm.curView + 1
  leader : nd.elec.isLeader b.proposer b.view = true

/-- One small step of an honest replica that has received the messages `In`. -/
inductive Act (nd : Node) (In : Msg → Prop) (s : HotStuff) : HotStuff → Prop
  /-- `AdvanceView` -/
  | advance (view : ℤ) : Act nd In s { s with pm := s.pm.advanceView view }
  /-- `Pacemaker.ProcessRemoteTmo` -/
  | timeouts (tcl : TimeoutController) :
      Act nd In s { s with pm := { s.pm with timeoutController := tcl } }
  /-- a view event that leads to no proposal -/
  | pop {v : ℤ} {rest : List ℤ} (h : s.pm.newViewChan = v :: rest) :
      Act nd In s { s with pm := { s.pm with newViewChan := rest } }
  /-- a view event and the proposal for it -/
  | propose {v : ℤ} {rest : List ℤ} {b : Block} (h : s.pm.newViewChan = v :: rest)
      (hl : nd.elec.isLeader nd.id v = true) (hb : Proposal nd s v b) :
      Act nd In s { s with
        pm := { s.pm with newViewChan := rest }
        sent := s.sent ++ [⟨none, .block b⟩] }
  /-- the block of a view too far ahead -/
  | bufferBlock {b : Block} (hb : Heard In s (.block b)) (h : s.pm.curView + 1 < b.view) :
      Act nd In s { s with bufferedBlocks := s.bufferedBlocks.insert (b.view - 1) b }
  | dropBlock (view : ℤ) : Act nd In s { s with bufferedBlocks := s.bufferedBlocks.erase view }
  /-- `ProcessBlock` hands the block's certificate to `updateHighQC` -/
  | offer {b : Block} {qc : QC} (hb : Heard In s (.block b)) (hqc : b.qc = some qc) :
      Act nd In s ({ s with trace := s.trace ++ [Entry.offered b s.highQC.view] }.updateHighQC qc)
  | bufferQC {qc : QC} (hk : Known In s qc) :
      Act nd In s { s with bufferedQCs := s.bufferedQCs.insert qc.blockID qc }
  | dropQC (id : ℕ) : Act nd In s { s with bufferedQCs := s.bufferedQCs.erase id }
  /-- a certificate passes: lock, view and `highQC` -/
  | certify {qc : QC} {t : HotStuff} (hk : Known In s qc) (hv : s.pm.curView ≤ qc.view)
      (hp : Passes nd qc) (ht : s.updatePreferredView qc = some t) :
      Act nd In s ({ t with pm := t.pm.advanceView qc.view }.updateHighQC qc)
  | commit {qc : QC} {g : Block} {batch forked : List Block} {bc : BlockChain} (hk : Known In s qc)
      (hp : Passes nd qc) (h3 : 3 ≤ qc.view) (hg : s.commitRule qc = some g)
      (hc : s.bc.Committed g.id (some (batch, forked)) bc) :
      Act nd In s { s with
        bc := bc
        committedBlocks := s.committedBlocks ++ batch
        forkedBlocks := s.forkedBlocks ++ forked
        trace := s.trace ++ [.committed qc g s.bc.forrest batch] }
  /-- a commit that fails half-way -/
  | commitFailed {bc : BlockChain} (hd : s.bc.Deleted bc) : Act nd In s { s with bc := bc }
  | accept {b : Block} {f : LevelledForest} (hb : Admitted nd In s b) (hf : s.bc.forrest.Added b f) :
      Act nd In s { s with
        bc := { s.bc with forrest := f }
        trace := s.trace ++ [.accepted b s.preferredView (s.bc.getBlockByID b.prevID)] }
  | vote {b : Block} {v : Vote} (hp : pending s.trace = some b) (hr : s.votingRule b = some true)
      (hv : makeVote nd.toConfig b.view nd.id b.id = .ok v) :
      Act nd In s { s with
        trace := s.trace ++ [.voted b]
        sent := if nd.elec.findLeaderFor (b.view + 1) = nd.id then s.sent
          else s.sent ++ [⟨some (nd.elec.findLeaderFor (b.view + 1)), .vote v⟩] }
  | count {v : Vote} (hv : Counts nd In s v) :
      Act nd In s { s with bc := { s.bc with quorum := s.bc.quorum.record v } }
  /-- a vote completes a quorum -/
  | build {v : Vote} {qc : QC} (hv : Counts nd In s v)
      (hc : Quorum.Certifies nd.toConfig (s.bc.quorum.record v) v qc) :
      Act nd In s { s with
        bc := { s.bc with quorum := s.bc.quorum.record v }
        trace := s.trace ++ [.built { qc with leader := nd.id }] }
  | sendTmo {t : TMO} (hv : t.view = s.pm.curView) (hi : t.nodeID = nd.id)
      (hq : t.highQC = some s.highQC) :
      Act nd In s { s with sent := s.sent ++ [⟨none, .tmo t⟩] }

/-! ### What the small steps preserve -/

section Preserved

variable {nd : Node} {In In' : Msg → Prop} {s t : HotStuff}

@[simp] theorem updateHighQC_sent (qc : QC) : (s.updateHighQC qc).sent = s.sent := by
  unfold updateHighQC; split_ifs <;> rfl

@[simp] theorem updateHighQC_trace (qc : QC) : (s.updateHighQC qc).trace = s.trace := by
  unfold updateHighQC; split_ifs <;> rfl

@[simp] theorem updateHighQC_pm (qc : QC) : (s.updateHighQC qc).pm = s.pm := by
  unfold updateHighQC; split_ifs <;> rfl

@[simp] theorem updateHighQC_preferredView (qc : QC) :
    (s.updateHighQC qc).preferredView = s.preferredView := by
  unfold updateHighQC; split_ifs <;> rfl

@[simp] theorem updateHighQC_bc (qc : QC) : (s.updateHighQC qc).bc = s.bc := by
  unfold updateHighQC; split_ifs <;> rfl

@[simp] theorem updateHighQC_bufferedQCs (qc : QC) :
    (s.updateHighQC qc).bufferedQCs = s.bufferedQCs := by
  unfold updateHighQC; split_ifs <;> rfl

@[simp] theorem updateHighQC_bufferedBlocks (qc : QC) :
    (s.updateHighQC qc).bufferedBlocks = s.bufferedBlocks := by
  unfold updateHighQC; split_ifs <;> rfl

@[simp] theorem updateHighQC_committedBlocks (qc : QC) :
    (s.updateHighQC qc).committedBlocks = s.committedBlocks := by
  unfold updateHighQC; split_ifs <;> rfl

@[simp] theorem updateHighQC_lastVotedView (qc : QC) :
    (s.updateHighQC qc).lastVotedView = s.lastVotedView := by
  unfold updateHighQC; split_ifs <;> rfl

theorem updateHighQC_highQC (qc : QC) :
    (s.updateHighQC qc).highQC = qc ∧ s.highQC.view < qc.view ∨
      (s.updateHighQC qc).highQC = s.highQC ∧ qc.view ≤ s.highQC.view := by
  unfold updateHighQC
  split_ifs with h
  · exact Or.inl ⟨rfl, h⟩
  · exact Or.inr ⟨rfl, by omega⟩

/-- What `updatePreferredView` does: nothing but raise the lock, to the view of the parent of the
certified block. -/
theorem updatePreferredView_cases {qc : QC} (h : s.updatePreferredView qc = some t) :
    ∃ v, t = { s with preferredView := v } ∧ s.preferredView ≤ v ∧
      (qc.view ≤ 2 ∧ v = s.preferredView ∨
        ∃ p g, 2 < qc.view ∧ s.bc.getBlockByID qc.blockID = some p ∧
          s.bc.getParentBlock qc.blockID = some g ∧ v = max s.preferredView g.view) := by
  unfold updatePreferredView at h
  split_ifs at h with h2
  · cases h
    exact ⟨s.preferredView, rfl, Int.le_refl _, Or.inl ⟨h2, rfl⟩⟩
  · cases hp : s.bc.getBlockByID qc.blockID with
    | none => simp [hp] at h
    | some p =>
      cases hg : s.bc.getParentBlock qc.blockID with
      | none => simp [hp, hg] at h
      | some g =>
        simp only [hp, hg, Option.bind_eq_bind, Option.bind_some] at h
        have h2 : 2 < qc.view := by omega
        split_ifs at h with hlt
        · cases h
          exact ⟨g.view, rfl, by omega, Or.inr ⟨p, g, h2, rfl, rfl, by omega⟩⟩
        · cases h
          exact ⟨s.preferredView, rfl, Int.le_refl _, Or.inr ⟨p, g, h2, rfl, rfl, by omega⟩⟩

/-- What `commitRule` found: two stored parents, with consecutive views below the certificate's. -/
theorem commitRule_cases {qc : QC} {g : Block} (h : s.commitRule qc = some g) :
    ∃ b p p', s.bc.forrest.getVertex qc.blockID = some b ∧
      s.bc.forrest.getVertex b.prevID = some p ∧ s.bc.forrest.getVertex p.id = some p' ∧
      s.bc.forrest.getVertex p'.prevID = some g ∧ g.view + 1 = p.view ∧ p.view + 1 = qc.view := by
  simp only [commitRule, BlockChain.getParentBlock, Option.bind_eq_bind, Option.bind_eq_some_iff] at h
  obtain ⟨p, ⟨b, hb, hp⟩, g', ⟨p', hp', hg⟩, h⟩ := h
  split_ifs at h with hv
  cases h
  exact ⟨b, p, p', hb, hp, hp', hg, hv.1, hv.2⟩

/-- Outbox and trace only grow. -/
theorem Act.subset (h : Act nd In s t) : s.sent ⊆ t.sent ∧ s.trace ⊆ t.trace := by
  cases h with
  | certify hk hv hp ht =>
    obtain ⟨v, rfl, -⟩ := updatePreferredView_cases ht
    simp
  | vote hp hr hv =>
    refine ⟨?_, List.subset_append_left _ _⟩
    dsimp only
    split_ifs
    · exact List.Subset.refl _
    · exact List.subset_append_left _ _
  | _ => simp

theorem Heard.mono {m : Msg} (h : Heard In s m) (hI : ∀ m, In m → In' m) (hs : s.sent ⊆ t.sent) :
    Heard In' t m := by
  rcases h with h | ⟨e, he, rfl⟩
  · exact Or.inl (hI m h)
  · exact Or.inr ⟨e, hs he, rfl⟩

theorem Known.mono {qc : QC} (h : Known In s qc) (hI : ∀ m, In m → In' m) (hs : s.sent ⊆ t.sent)
    (ht : s.trace ⊆ t.trace) : Known In' t qc := by
  cases h with
  | initial h => exact .initial h
  | block b hb h => exact .block b (hb.mono hI hs) h
  | tmo m hm h => exact .tmo m (hm.mono hI hs) h
  | built h => exact .built (ht h)

theorem Heard.act {m : Msg} (h : Heard In s m) (ha : Act nd In s t) : Heard In t m :=
  h.mono (fun _ h => h) ha.subset.1

theorem Known.act {qc : QC} (h : Known In s qc) (ha : Act nd In s t) : Known In t qc :=
  h.mono (fun _ h => h) ha.subset.1 ha.subset.2

/-- What holds at a replica in any environment: its indices are truthful, and all it keeps comes from
what it has seen. -/
structure Ok (nd : Node) (In : Msg → Prop) (s : HotStuff) : Prop where
  forrest : s.bc.forrest.WF
  quorum : s.bc.quorum.WF
  total : s.bc.quorum.total = nd.n
  lastVoted : s.lastVotedView = 0
  high : Known In s s.highQC
  bufferedQC : ∀ id qc, s.bufferedQCs.lookup id = some qc → Known In s qc
  bufferedBlock : ∀ v b, s.bufferedBlocks.lookup v = some b → Heard In s (.block b)
  stored : ∀ x b, s.bc.forrest.getVertex x = some b → b.id = x ∧ Heard In s (.block b)

theorem ok_new (nd : Node) (In : Msg → Prop) : Ok nd In (HotStuff.new nd.n) where
  forrest := LevelledForest.wf_new
  quorum := Quorum.wf_new _
  total := rfl
  lastVoted := rfl
  high := .initial rfl
  bufferedQC := fun _ _ h => by simp [HotStuff.new] at h
  bufferedBlock := fun _ _ h => by simp [HotStuff.new] at h
  stored := fun _ _ h => by
    simp [HotStuff.new, BlockChain.new, LevelledForest.new, LevelledForest.getVertex] at h

theorem Ok.mono (h : Ok nd In s) (hI : ∀ m, In m → In' m) : Ok nd In' s where
  forrest := h.forrest
  quorum := h.quorum
  total := h.total
  lastVoted := h.lastVoted
  high := h.high.mono hI (List.Subset.refl _) (List.Subset.refl _)
  bufferedQC := fun id qc hq =>
    (h.bufferedQC id qc hq).mono hI (List.Subset.refl _) (List.Subset.refl _)
  bufferedBlock := fun v b hb => (h.bufferedBlock v b hb).mono hI (List.Subset.refl _)
  stored := fun x b hx => ⟨(h.stored x b hx).1, (h.stored x b hx).2.mono hI (List.Subset.refl _)⟩

/-- The small steps that touch the block chain. -/
theorem Act.bc_cases (h : Act nd In s t) :
    t.bc = s.bc ∨
      (∃ b f, Admitted nd In s b ∧ s.bc.forrest.Added b f ∧ t.bc = { s.bc with forrest := f }) ∨
      (∃ v, Counts nd In s v ∧ t.bc = { s.bc with quorum := s.bc.quorum.record v }) ∨
      s.bc.Deleted t.bc ∨
      ∃ qc g batch forked, s.commitRule qc = some g ∧
        s.bc.Committed g.id (some (batch, forked)) t.bc := by
  cases h with
  | certify hk hv hp ht =>
    obtain ⟨v, rfl, -⟩ := updatePreferredView_cases ht
    exact Or.inl (by simp)
  | offer => exact Or.inl (by simp)
  | accept hb hf => exact Or.inr (Or.inl ⟨_, _, hb, hf, rfl⟩)
  | count hv => exact Or.inr (Or.inr (Or.inl ⟨_, hv, rfl⟩))
  | build hv => exact Or.inr (Or.inr (Or.inl ⟨_, hv, rfl⟩))
  | commitFailed hd => exact Or.inr (Or.inr (Or.inr (Or.inl hd)))
  | commit _ _ _ hg hc => exact Or.inr (Or.inr (Or.inr (Or.inr ⟨_, _, _, _, hg, hc⟩)))
  | _ => exact Or.inl rfl

/-- A stored block was stored before, or is the one just admitted. -/
theorem Act.stored (h : Act nd In s t) {x : ℕ} {b : Block} (hx : t.bc.forrest.getVertex x = some b) :
    s.bc.forrest.getVertex x = some b ∨ b.id = x ∧ Admitted nd In s b := by
  rcases h.bc_cases with hb | ⟨b', f, hb', hf, hb⟩ | ⟨v, -, hb⟩ | hd | ⟨qc, g, l, fl, -, hc⟩
  · exact Or.inl (hb ▸ hx)
  · rw [hb] at hx
    rw [hf.stored] at hx
    split_ifs at hx with hcond
    · cases hx
      exact Or.inr ⟨hcond.1.symm, hb'⟩
    · exact Or.inl hx
  · rw [hb] at hx
    exact Or.inl hx
  · exact Or.inl (hd.forrest ▸ hx)
  · exact Or.inl (hc.stored x b hx)

/-- The highest certificate was that before, or is one the replica has come across. -/
theorem Act.highQC_cases (h : Act nd In s t) :
    t.highQC = s.highQC ∨
      (∃ b, Heard In s (.block b) ∧ b.qc = some t.highQC ∧ s.highQC.view < t.highQC.view ∧
        t.trace = s.trace ++ [.offered b s.highQC.view]) ∨
      Known In s t.highQC ∧ Passes nd t.highQC := by
  cases h with
  | @offer b qc hb hqc =>
    rcases updateHighQC_highQC (s := { s with trace := s.trace ++ [.offered b s.highQC.view] }) qc
      with ⟨h, hlt⟩ | ⟨h, -⟩
    · exact Or.inr (Or.inl ⟨b, hb, h.symm ▸ hqc, h.symm ▸ hlt, by simp⟩)
    · exact Or.inl h
  | @certify qc u hk hv hp ht =>
    obtain ⟨v, rfl, -⟩ := updatePreferredView_cases ht
    rcases updateHighQC_highQC (s := { s with
      pm := s.pm.advanceView qc.view, preferredView := v }) qc with ⟨h, -⟩ | ⟨h, -⟩
    · exact Or.inr (Or.inr (by rw [h]; exact ⟨hk, hp⟩))
    · exact Or.inl h
  | _ => exact Or.inl rfl

/-- The circumstances under which a small step writes an entry of the trace. -/
def NewEntry (nd : Node) (In : Msg → Prop) (s : HotStuff) : Entry → Prop
  | .offered b high => Heard In s (.block b) ∧ high = s.highQC.view
  | .accepted b lock parent =>
    Admitted nd In s b ∧ lock = s.preferredView ∧ parent = s.bc.getBlockByID b.prevID
  | .voted b => pending s.trace = some b ∧ s.votingRule b = some true
  | .built qc => ∃ v qc', Counts nd In s v ∧
      Quorum.Certifies nd.toConfig (s.bc.quorum.record v) v qc' ∧ qc = { qc' with leader := nd.id }
  | .committed qc g f batch =>
    Known In s qc ∧ Passes nd qc ∧ 3 ≤ qc.view ∧ s.commitRule qc = some g ∧ f = s.bc.forrest ∧
      ∃ forked bc, s.bc.Committed g.id (some (batch, forked)) bc

/-- A small step extends the trace by one entry at most. -/
theorem Act.trace_cases (h : Act nd In s t) :
    t.trace = s.trace ∨ ∃ e, t.trace = s.trace ++ [e] ∧ NewEntry nd In s e := by
  cases h with
  | certify hk hv hp ht =>
    obtain ⟨v, rfl, -⟩ := updatePreferredView_cases ht
    exact Or.inl (by simp)
  | @offer b qc hb hqc => exact Or.inr ⟨.offered b s.highQC.view, by simp, hb, rfl⟩
  | accept hb hf => exact Or.inr ⟨_, rfl, hb, rfl, rfl⟩
  | vote hp hr hv => exact Or.inr ⟨_, rfl, hp, hr⟩
  | build hv hc => exact Or.inr ⟨_, rfl, _, _, hv, hc, rfl⟩
  | commit hk hp h3 hg hc => exact Or.inr ⟨_, rfl, hk, hp, h3, hg, rfl, _, _, hc⟩
  | _ => exact Or.inl rfl

theorem Act.mem_trace (h : Act nd In s t) {e : Entry} (he : e ∈ t.trace) :
    e ∈ s.trace ∨ NewEntry nd In s e := by
  rcases h.trace_cases with ht | ⟨e', ht, hn⟩
  · exact Or.inl (ht ▸ he)
  · rw [ht, List.mem_append, List.mem_singleton] at he
    rcases he with he | rfl
    · exact Or.inl he
    · exact Or.inr hn

/-- A small step writes to the channel of committed blocks only what its commit delivers. -/
theorem Act.mem_committedBlocks (h : Act nd In s t) {x : Block} (hx : x ∈ t.committedBlocks) :
    x ∈ s.committedBlocks ∨ ∃ qc g f batch,
      .committed qc g f batch ∈ t.trace ∧ x ∈ batch := by
  cases h with
  | certify hk hv hp ht =>
    obtain ⟨v, rfl, -⟩ := updatePreferredView_cases ht
    exact Or.inl (by simpa using hx)
  | offer => exact Or.inl (by simpa using hx)
  | commit hk hp h3 hg hc =>
    rcases List.mem_append.1 hx with hx | hx
    · exact Or.inl hx
    · exact Or.inr ⟨_, _, _, _, List.mem_append_right _ (List.mem_singleton.2 rfl), hx⟩
  | _ => exact Or.inl hx

/-- What a small step sends: a proposal, a vote it has just noted, or a timeout. -/
theorem Act.mem_sent (h : Act nd In s t) {e : Envelope} (he : e ∈ t.sent) :
    e ∈ s.sent ∨
      (∃ v b, nd.elec.isLeader nd.id v = true ∧ Proposal nd s v b ∧ e.body = .block b) ∨
      (∃ b v, .voted b ∈ t.trace ∧ makeVote nd.toConfig b.view nd.id b.id = .ok v ∧
        e.body = .vote v) ∨
      ∃ m : TMO, m.highQC = some s.highQC ∧ e.body = .tmo m := by
  cases h with
  | certify hk hv hp ht =>
    obtain ⟨v, rfl, -⟩ := updatePreferredView_cases ht
    exact Or.inl (by simpa using he)
  | offer hb hqc => exact Or.inl (by simpa using he)
  | propose hq hl hb =>
    rcases List.mem_append.1 he with he | he
    · exact Or.inl he
    · rw [List.mem_singleton.1 he]
      exact Or.inr (Or.inl ⟨_, _, hl, hb, rfl⟩)
  | @vote b v hp hr hv =>
    dsimp only at he
    split_ifs at he
    · exact Or.inl he
    · rcases List.mem_append.1 he with he | he
      · exact Or.inl he
      · rw [List.mem_singleton.1 he]
        exact Or.inr (Or.inr (Or.inl ⟨b, v, by simp, hv, rfl⟩))
  | sendTmo hv hi hq =>
    rcases List.mem_append.1 he with he | he
    · exact Or.inl he
    · rw [List.mem_singleton.1 he]
      exact Or.inr (Or.inr (Or.inr ⟨_, hq, rfl⟩))
  | _ => exact Or.inl he

/-- A vote on record was on record, or is the one just counted. -/
theorem Act.has (h : Act nd In s t) {v : Vote} (hv : t.bc.quorum.Has v) :
    s.bc.quorum.Has v ∨ Counts nd In s v := by
  rcases h.bc_cases with hb | ⟨b, f, -, hf, hb⟩ | ⟨v', hc, hb⟩ | hd | ⟨qc, g, l, fl, -, hc⟩
  · exact Or.inl (hb ▸ hv)
  · rw [hb] at hv
    exact Or.inl hv
  · rw [hb] at hv
    rcases Quorum.has_record hv with rfl | hv
    · exact Or.inr hc
    · exact Or.inl hv
  · exact Or.inl (hd.has v hv)
  · exact Or.inl (hc.has v hv)

theorem Ok.act (h : Ok nd In s) (ha : Act nd In s t) : Ok nd In t where
  forrest := by
    rcases ha.bc_cases with hb | ⟨b, f, -, hf, hb⟩ | ⟨v, -, hb⟩ | hd | ⟨qc, g, l, fl, -, hc⟩
    · exact hb ▸ h.forrest
    · rw [hb]; exact hf.wf
    · rw [hb]; exact h.forrest
    · exact hd.forrest ▸ h.forrest
    · exact hc.forrest
  quorum := by
    rcases ha.bc_cases with hb | ⟨b, f, -, hf, hb⟩ | ⟨v, -, hb⟩ | hd | ⟨qc, g, l, fl, -, hc⟩
    · exact hb ▸ h.quorum
    · rw [hb]; exact h.quorum
    · rw [hb]; exact Quorum.wf_record h.quorum v
    · exact hd.wf h.quorum
    · exact hc.wf h.quorum
  total := by
    rcases ha.bc_cases with hb | ⟨b, f, -, hf, hb⟩ | ⟨v, -, hb⟩ | hd | ⟨qc, g, l, fl, -, hc⟩
    · exact hb ▸ h.total
    · rw [hb]; exact h.total
    · rw [hb]; exact h.total
    · exact hd.total.trans h.total
    · exact hc.total.trans h.total
  lastVoted := by
    cases ha with
    | certify hk hv hp ht =>
      obtain ⟨v, rfl, -⟩ := updatePreferredView_cases ht
      simpa using h.lastVoted
    | offer => simpa using h.lastVoted
    | _ => exact h.lastVoted
  high := by
    rcases ha.highQC_cases with hq | ⟨b, hb, hq, -, -⟩ | ⟨hk, -⟩
    · exact hq ▸ h.high.act ha
    · exact .block b (hb.act ha) hq
    · exact hk.act ha
  bufferedQC := by
    intro id qc hl
    refine Known.act ?_ ha
    cases ha with
    | certify hk hv hp ht =>
      obtain ⟨v, rfl, -⟩ := updatePreferredView_cases ht
      exact h.bufferedQC id qc (by simpa using hl)
    | offer => exact h.bufferedQC id qc (by simpa using hl)
    | @bufferQC qc' hk =>
      dsimp only at hl
      by_cases hid : id = qc'.blockID
      · subst hid
        rw [AList.lookup_insert] at hl
        cases hl
        exact hk
      · rw [AList.lookup_insert_ne hid] at hl
        exact h.bufferedQC id qc hl
    | dropQC id' =>
      dsimp only at hl
      by_cases hid : id = id'
      · subst hid
        simp at hl
      · rw [AList.lookup_erase_ne hid] at hl
        exact h.bufferedQC id qc hl
    | _ => exact h.bufferedQC id qc hl
  bufferedBlock := by
    intro v b hl
    refine Heard.act ?_ ha
    cases ha with
    | certify hk hv hp ht =>
      obtain ⟨w, rfl, -⟩ := updatePreferredView_cases ht
      exact h.bufferedBlock v b (by simpa using hl)
    | offer => exact h.bufferedBlock v b (by simpa using hl)
    | @bufferBlock b' hb' hlt =>
      dsimp only at hl
      by_cases hv : v = b'.view - 1
      · subst hv
        rw [AList.lookup_insert] at hl
        cases hl
        exact hb'
      · rw [AList.lookup_insert_ne hv] at hl
        exact h.bufferedBlock v b hl
    | dropBlock v' =>
      dsimp only at hl
      by_cases hv : v = v'
      · subst hv
        simp at hl
      · rw [AList.lookup_erase_ne hv] at hl
        exact h.bufferedBlock v b hl
    | _ => exact h.bufferedBlock v b hl
  stored := by
    intro x b hx
    rcases ha.stored hx with hs | ⟨hid, hb⟩
    · exact ⟨(h.stored x b hs).1, (h.stored x b hs).2.act ha⟩
    · exact ⟨hid, hb.heard.act ha⟩

end Preserved

end HotStuff

end Bamboo
