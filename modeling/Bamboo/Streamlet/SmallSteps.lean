import Bamboo.Streamlet.Model

/-!
# Streamlet in small steps

The handlers of an honest Streamlet replica, cut into the assignments they are made of.  `Act` lists these
with the tests under which the handlers reach them.

* `Heard`, `Known`: the messages and the certificates a replica can have come across;
* `Act`: one small step;
* `Ok`: what the small steps preserve in any environment.
-/

namespace Bamboo

namespace Streamlet

/-- The replica can have seen the message: it was received, or it is one of its own. -/
def Heard (In : Msg → Prop) (s : Streamlet) (m : Msg) : Prop := In m ∨ ∃ e ∈ s.sent, e.body = m

/-- The replica's own proposals, as messages. -/
def proposals (trace : List Entry) : List Envelope :=
  trace.filterMap fun
    | .proposed b => some ⟨none, .block b⟩
    | _ => none

/-- The replica can have come across the certificate: it built it. -/
def Known (s : Streamlet) (qc : QC) : Prop := .built qc ∈ s.trace

/-- The replica's own vote for a block it voted for. -/
def OwnVote (nd : Node) (s : Streamlet) (v : Vote) : Prop :=
  ∃ b view chain, .voted b view chain ∈ s.trace ∧ makeVote nd.toConfig b.view nd.id b.id = .ok v

/-- A vote that `ProcessVote` counts. -/
def Counts (nd : Node) (In : Msg → Prop) (s : Streamlet) (v : Vote) : Prop :=
  (Heard In s (.vote v) ∨ OwnVote nd s v) ∧
    (v.voter = nd.id ∨ pubVerify nd.toConfig v.signature v.blockID v.voter = .ok true)

/-- What `forkChoice` returns. -/
def tailID (nd : Node) (s : Streamlet) : ℕ :=
  match s.notarizedChain.getLast? with
  | some (b :: _) => b.id
  | _ => nd.genesisID

/-- A block the replica may propose in view `v`. -/
structure Proposal (nd : Node) (s : Streamlet) (v : ℤ) (b : Block) : Prop where
  view : b.view = v
  proposer : b.proposer = nd.id
  prevID : b.prevID = tailID nd s

/-- A block that passes the checks before `AddBlock`. -/
structure Admitted (nd : Node) (In : Msg → Prop) (s : Streamlet) (b : Block) : Prop where
  heard : Heard In s (.block b)
  lower : s.pm.curView ≤ b.view
  parent : 1 < b.view → s.bc.forrest.getVertex b.prevID ≠ none
  leader : nd.elec.isLeader b.proposer b.view = true

/-- One of the blocks of the chain is the one with this id. -/
def InChain (chain : List (List Block)) (id : ℕ) : Prop := ∃ l ∈ chain, ∃ b ∈ l, b.id = id

instance (chain : List (List Block)) (id : ℕ) : Decidable (InChain chain id) :=
  inferInstanceAs (Decidable (∃ l ∈ chain, ∃ b ∈ l, b.id = id))

theorem inChain_concat {chain : List (List Block)} {l : List Block} {id : ℕ} :
    InChain (chain ++ [l]) id ↔ InChain chain id ∨ ∃ b ∈ l, b.id = id := by
  simp [InChain, or_and_right, exists_or]

/-- What `votingRule` asks for. -/
def MayVote (chain : List (List Block)) (b : Block) : Prop :=
  b.view ≤ 2 ∨ ∃ l, chain.getLast? = some l ∧ ∃ x ∈ l, b.prevID = x.id

/-- An access inside the bounds of the slice, or no access at all. -/
def InRange : Entry → Prop
  | .index i len => 0 ≤ i ∧ i < len
  | _ => True

/-- An access to a slice. -/
def IsIndex : Entry → Prop
  | .index _ _ => True
  | _ => False

/-- The state in which `ProcessRemoteTmo` has counted a timeout. -/
def tmoState (s : Streamlet) (tmo : TMO) : Streamlet :=
  { s with
    pm := (s.pm.processRemoteTmo tmo).2
    pending := s.pending ++ (s.pm.processRemoteTmo tmo).1.toList.map TC.view }

/-- One small step of an honest replica that has received the messages `In`. -/
inductive Act (nd : Node) (In : Msg → Prop) (s : Streamlet) : Streamlet → Prop
  /-- a goroutine runs `AdvanceView` -/
  | advance {k : ℕ} {view : ℤ} (h : s.pending[k]? = some view) :
      Act nd In s { s with pm := s.pm.advanceView view, pending := s.pending.eraseIdx k }
  /-- `handleTxn` -/
  | kickOff (h : s.pm.curView = 0) : Act nd In s { s with pm := s.pm.advanceView 0 }
  /-- `ProcessRemoteTmo` -/
  | timeout {tmo : TMO} (ht : Heard In s (.tmo tmo)) : Act nd In s (tmoState s tmo)
  | sendTmo {tmo : TMO} (hv : tmo.view = s.pm.curView) (hi : tmo.nodeID = nd.id) :
      Act nd In s { s with sent := s.sent ++ [⟨none, .tmo tmo⟩] }
  /-- a view event that leads to no proposal -/
  | pop {v : ℤ} {rest : List ℤ} (h : s.pm.newViewChan = v :: rest) :
      Act nd In s { s with pm := { s.pm with newViewChan := rest } }
  /-- a view event and the proposal for it -/
  | propose {v : ℤ} {rest : List ℤ} {b : Block} {es : List Entry} (h : s.pm.newViewChan = v :: rest)
      (hl : nd.elec.isLeader nd.id v = true) (hb : Proposal nd s v b)
      (hes : ∀ e ∈ es, IsIndex e ∧ InRange e) :
      Act nd In s { s with
        pm := { s.pm with newViewChan := rest }
        sent := s.sent ++ [⟨none, .block b⟩]
        trace := s.trace ++ (es ++ [.proposed b]) }
  /-- accesses to the notarized chain -/
  | look {es : List Entry} (hes : ∀ e ∈ es, IsIndex e ∧ InRange e) :
      Act nd In s { s with trace := s.trace ++ es }
  /-- `votingRule` reads the last level -/
  | lookLast {b : Block} (hb : .accepted b s.notarizedChain ∈ s.trace) (h2 : 2 < b.view) :
      Act nd In s { s with
        trace := s.trace ++ [.index (s.notarizedChain.length - 1) s.notarizedChain.length] }
  /-- `updateNotarizedChain` goes on below the first level -/
  | lookBelow {b : Block} (hb : .notarizing b s.notarizedChain ∈ s.trace) (hne : s.notarizedChain ≠ [])
      (h3 : s.notarizedChain.length < 3) (hno : ¬ InChain s.notarizedChain b.prevID) :
      Act nd In s { s with trace := s.trace ++ [.index (-1) s.notarizedChain.length] }
  | bufferBlock {b : Block} (hb : Heard In s (.block b)) :
      Act nd In s { s with bufferedBlocks := s.bufferedBlocks.insert b.prevID b }
  | dropBlock (id : ℕ) : Act nd In s { s with bufferedBlocks := s.bufferedBlocks.erase id }
  | bufferQC {qc : QC} (hk : Known s qc) :
      Act nd In s { s with bufferedQCs := s.bufferedQCs.insert qc.blockID qc }
  | dropQC (id : ℕ) : Act nd In s { s with bufferedQCs := s.bufferedQCs.erase id }
  | bufferNotarized {qc : QC} (hk : Known s qc) (id : ℕ) :
      Act nd In s { s with bufferedNotarizedBlock := s.bufferedNotarizedBlock.insert id qc }
  /-- a block or a vote is passed on to the others -/
  | echo {m : Msg} {id : ℕ} (hm : Heard In s m ∨ ∃ v, m = .vote v ∧ OwnVote nd s v)
      (ht : ∀ tmo, m ≠ .tmo tmo) :
      Act nd In s { s with sent := s.sent ++ [⟨none, m⟩], echoedBlock := s.echoedBlock.insert id () }
  | accept {b : Block} {f : LevelledForest} (hb : Admitted nd In s b) (hf : s.bc.forrest.Added b f) :
      Act nd In s { s with
        bc := { s.bc with forrest := f }
        trace := s.trace ++ [.accepted b s.notarizedChain] }
  | vote {b : Block} (hb : Heard In s (.block b)) (hcur : s.pm.curView ≤ b.view)
      (hr : MayVote s.notarizedChain b) :
      Act nd In s { s with trace := s.trace ++ [.voted b s.pm.curView s.notarizedChain] }
  | sendVote {v : Vote} (hv : OwnVote nd s v) :
      Act nd In s { s with sent := s.sent ++ [⟨none, .vote v⟩] }
  | count {v : Vote} (hv : Counts nd In s v) :
      Act nd In s { s with bc := { s.bc with quorum := s.bc.quorum.record v } }
  /-- a vote completes a quorum -/
  | build {v : Vote} {qc : QC} (hv : Counts nd In s v)
      (hc : Quorum.Certifies nd.toConfig (s.bc.quorum.record v) v qc) :
      Act nd In s { s with
        bc := { s.bc with quorum := s.bc.quorum.record v }
        trace := s.trace ++ [.built qc] }
  /-- `updateNotarizedChain` has found the block -/
  | found {qc : QC} {b : Block} (hk : Known s qc) (hb : s.bc.forrest.getVertex qc.blockID = some b) :
      Act nd In s { s with trace := s.trace ++ [.notarizing b s.notarizedChain] }
  /-- the block is notarized and the next view entered -/
  | notarize {qc : QC} {b : Block} (hk : Known s qc) (hb : s.bc.forrest.getVertex qc.blockID = some b)
      (hcur : s.pm.curView ≤ qc.view)
      (hp : s.notarizedChain = [] ∨ InChain s.notarizedChain b.prevID) :
      Act nd In s { s with
        notarizedChain := s.notarizedChain ++ [[b]]
        pm := s.pm.advanceView qc.view }
  | commit {before : List (List Block)} {x g l : Block} {batch forked : List Block} {bc : BlockChain}
      {echoed : GoMap ℕ Unit} (hch : s.notarizedChain = before ++ [[x], [g], [l]])
      (hx : x.view + 1 = g.view) (hg : g.view + 1 = l.view)
      (hc : s.bc.Committed g.id (some (batch, forked)) bc) :
      Act nd In s { s with
        bc := bc
        committedBlocks := s.committedBlocks ++ batch
        forkedBlocks := s.forkedBlocks ++ forked
        echoedBlock := echoed
        trace := s.trace ++ [.committed g s.notarizedChain batch] }
  /-- a commit that fails half-way -/
  | commitFailed {bc : BlockChain} (hd : s.bc.Deleted bc) : Act nd In s { s with bc := bc }

/-! ### What the small steps preserve -/

section Preserved

variable {nd : Node} {In In' : Msg → Prop} {s t : Streamlet}

/-- Outbox and trace only grow. -/
theorem Act.subset (h : Act nd In s t) : s.sent ⊆ t.sent ∧ s.trace ⊆ t.trace := by
  cases h with
  | propose h hl hb hes => exact ⟨List.subset_append_left _ _, List.subset_append_left _ _⟩
  | timeout ht => exact ⟨List.Subset.refl _, List.Subset.refl _⟩
  | _ => simp

theorem Heard.mono {m : Msg} (h : Heard In s m) (hI : ∀ m, In m → In' m) (hs : s.sent ⊆ t.sent) :
    Heard In' t m := by
  rcases h with h | ⟨e, he, rfl⟩
  · exact Or.inl (hI m h)
  · exact Or.inr ⟨e, hs he, rfl⟩

theorem OwnVote.mono {v : Vote} (h : OwnVote nd s v) (ht : s.trace ⊆ t.trace) : OwnVote nd t v := by
  obtain ⟨b, view, chain, hb, hv⟩ := h
  exact ⟨b, view, chain, ht hb, hv⟩

theorem Heard.act {m : Msg} (h : Heard In s m) (ha : Act nd In s t) : Heard In t m :=
  h.mono (fun _ h => h) ha.subset.1

/-- What holds at a replica in any environment: its indices are truthful, each level of the notarized
chain has one block, and all it keeps comes from what it has seen. -/
structure Ok (nd : Node) (In : Msg → Prop) (s : Streamlet) : Prop where
  forrest : s.bc.forrest.WF
  quorum : s.bc.quorum.WF
  total : s.bc.quorum.total = nd.n
  levels : ∀ l ∈ s.notarizedChain, ∃ b, l = [b]
  bufferedQC : ∀ id qc, s.bufferedQCs.lookup id = some qc → Known s qc
  bufferedNotarized : ∀ id qc, s.bufferedNotarizedBlock.lookup id = some qc → Known s qc
  bufferedBlock : ∀ id b, s.bufferedBlocks.lookup id = some b → Heard In s (.block b)
  stored : ∀ x b, s.bc.forrest.getVertex x = some b → b.id = x ∧ Heard In s (.block b)

theorem ok_new (nd : Node) (In : Msg → Prop) : Ok nd In (Streamlet.new nd.n) where
  forrest := LevelledForest.wf_new
  quorum := Quorum.wf_new _
  total := rfl
  levels := fun _ h => by simp [Streamlet.new] at h
  bufferedQC := fun _ _ h => by simp [Streamlet.new] at h
  bufferedNotarized := fun _ _ h => by simp [Streamlet.new] at h
  bufferedBlock := fun _ _ h => by simp [Streamlet.new] at h
  stored := fun _ _ h => by
    simp [Streamlet.new, BlockChain.new, LevelledForest.new, LevelledForest.getVertex] at h

theorem Ok.mono (h : Ok nd In s) (hI : ∀ m, In m → In' m) : Ok nd In' s where
  forrest := h.forrest
  quorum := h.quorum
  total := h.total
  levels := h.levels
  bufferedQC := h.bufferedQC
  bufferedNotarized := h.bufferedNotarized
  bufferedBlock := fun v b hb => (h.bufferedBlock v b hb).mono hI (List.Subset.refl _)
  stored := fun x b hx => ⟨(h.stored x b hx).1, (h.stored x b hx).2.mono hI (List.Subset.refl _)⟩

/-- The small steps that touch the block chain. -/
theorem Act.bc_cases (h : Act nd In s t) :
    t.bc = s.bc ∨
      (∃ b f, Admitted nd In s b ∧ s.bc.forrest.Added b f ∧ t.bc = { s.bc with forrest := f }) ∨
      (∃ v, Counts nd In s v ∧ t.bc = { s.bc with quorum := s.bc.quorum.record v }) ∨
      s.bc.Deleted t.bc ∨ ∃ id batch forked, s.bc.Committed id (some (batch, forked)) t.bc := by
  cases h with
  | accept hb hf => exact Or.inr (Or.inl ⟨_, _, hb, hf, rfl⟩)
  | count hv => exact Or.inr (Or.inr (Or.inl ⟨_, hv, rfl⟩))
  | build hv => exact Or.inr (Or.inr (Or.inl ⟨_, hv, rfl⟩))
  | commitFailed hd => exact Or.inr (Or.inr (Or.inr (Or.inl hd)))
  | commit _ _ _ hc => exact Or.inr (Or.inr (Or.inr (Or.inr ⟨_, _, _, hc⟩)))
  | _ => exact Or.inl rfl

/-- A stored block was stored before, or is the one just admitted. -/
theorem Act.stored (h : Act nd In s t) {x : ℕ} {b : Block} (hx : t.bc.forrest.getVertex x = some b) :
    s.bc.forrest.getVertex x = some b ∨ b.id = x ∧ Admitted nd In s b := by
  rcases h.bc_cases with hb | ⟨b', f, hb', hf, hb⟩ | ⟨v, -, hb⟩ | hd | ⟨id, l, fl, hc⟩
  · exact Or.inl (hb ▸ hx)
  · rw [hb] at hx
    rw [hf.stored] at hx
    split_ifs at hx with hcond
    · cases hx
      exact Or.inr ⟨hcond.1.symm, hb'⟩
    · exact Or.inl hx
  · rw [hb] at hx
    exact Or.inl hx
  · exact Or.inl (hd.forrest ▸ hx)
  · exact Or.inl (hc.stored x b hx)

/-- The notarized chain grows at its end, by a stored block that is known to be certified. -/
theorem Act.chain_cases (h : Act nd In s t) :
    t.notarizedChain = s.notarizedChain ∨
      ∃ qc b, Known s qc ∧ s.bc.forrest.getVertex qc.blockID = some b ∧ s.pm.curView ≤ qc.view ∧
        (s.notarizedChain = [] ∨ InChain s.notarizedChain b.prevID) ∧
        t = { s with notarizedChain := s.notarizedChain ++ [[b]], pm := s.pm.advanceView qc.view } := by
  cases h with
  | @notarize qc b hk hb hcur hp => exact Or.inr ⟨qc, b, hk, hb, hcur, hp, rfl⟩
  | _ => exact Or.inl rfl

/-- An entry of a buffer was there before, or is the one just put there. -/
theorem lookup_insert_cases {α : Type} {m : GoMap ℕ α} {k id : ℕ} {x y : α}
    (h : (m.insert k x).lookup id = some y) : y = x ∨ m.lookup id = some y := by
  by_cases hid : id = k
  · subst hid
    rw [AList.lookup_insert] at h
    cases h
    exact Or.inl rfl
  · rw [AList.lookup_insert_ne hid] at h
    exact Or.inr h

theorem lookup_of_erase {α : Type} {m : GoMap ℕ α} {k id : ℕ} {y : α}
    (h : (m.erase k).lookup id = some y) : m.lookup id = some y := by
  by_cases hid : id = k
  · subst hid
    simp at h
  · rwa [AList.lookup_erase_ne hid] at h

theorem Ok.act (h : Ok nd In s) (ha : Act nd In s t) : Ok nd In t where
  forrest := by
    rcases ha.bc_cases with hb | ⟨b, f, -, hf, hb⟩ | ⟨v, -, hb⟩ | hd | ⟨id, l, fl, hc⟩
    · exact hb ▸ h.forrest
    · rw [hb]; exact hf.wf
    · rw [hb]; exact h.forrest
    · exact hd.forrest ▸ h.forrest
    · exact hc.forrest
  quorum := by
    rcases ha.bc_cases with hb | ⟨b, f, -, hf, hb⟩ | ⟨v, -, hb⟩ | hd | ⟨id, l, fl, hc⟩
    · exact hb ▸ h.quorum
    · rw [hb]; exact h.quorum
    · rw [hb]; exact Quorum.wf_record h.quorum v
    · exact hd.wf h.quorum
    · exact hc.wf h.quorum
  total := by
    rcases ha.bc_cases with hb | ⟨b, f, -, hf, hb⟩ | ⟨v, -, hb⟩ | hd | ⟨id, l, fl, hc⟩
    · exact hb ▸ h.total
    · rw [hb]; exact h.total
    · rw [hb]; exact h.total
    · exact hd.total.trans h.total
    · exact hc.total.trans h.total
  levels := by
    intro l hl
    rcases ha.chain_cases with hc | ⟨qc, b, -, -, -, -, rfl⟩
    · exact h.levels l (hc ▸ hl)
    · rcases List.mem_append.1 hl with hl | hl
      · exact h.levels l hl
      · exact ⟨b, List.mem_singleton.1 hl⟩
  bufferedQC := by
    intro id qc hl
    refine ha.subset.2 ?_
    cases ha with
    | bufferQC hk =>
      rcases lookup_insert_cases hl with rfl | hl
      · exact hk
      · exact h.bufferedQC id qc hl
    | dropQC id' => exact h.bufferedQC id qc (lookup_of_erase hl)
    | _ => exact h.bufferedQC id qc hl
  bufferedNotarized := by
    intro id qc hl
    refine ha.subset.2 ?_
    cases ha with
    | bufferNotarized hk id' =>
      rcases lookup_insert_cases hl with rfl | hl
      · exact hk
      · exact h.bufferedNotarized id qc hl
    | _ => exact h.bufferedNotarized id qc hl
  bufferedBlock := by
    intro id b hl
    refine Heard.act ?_ ha
    cases ha with
    | bufferBlock hb =>
      rcases lookup_insert_cases hl with rfl | hl
      · exact hb
      · exact h.bufferedBlock id b hl
    | dropBlock id' => exact h.bufferedBlock id b (lookup_of_erase hl)
    | _ => exact h.bufferedBlock id b hl
  stored := by
    intro x b hx
    rcases ha.stored hx with hs | ⟨hid, hb⟩
    · exact ⟨(h.stored x b hs).1, (h.stored x b hs).2.act ha⟩
    · exact ⟨hid, hb.heard.act ha⟩

end Preserved

end Streamlet

end Bamboo
