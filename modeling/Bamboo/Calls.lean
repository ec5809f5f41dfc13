import Bamboo.Ballots
import Bamboo.BlockChain

/-!
# Sequences of calls to a block chain

A `BlockChain` as its users see it: `AddVote`, `AddBlock` and `CommitBlock` in any order, and the answers.

* `Call`, `Answer`, `call`, `calls`: a call, what it answers, a sequence of calls;
* `calls_induction`: what every call keeps holds after all of them;
* `one_certificate_per_block`: a block is certified at most once, although a commit forgets the votes for
  the blocks it commits.
-/

namespace Bamboo

namespace BlockChain

/-- A call to a block chain. -/
inductive Call
  | addVote (vote : Vote)
  | addBlock (block : Block)
  | commitBlock (id : ℕ) (view : ℤ)
  deriving DecidableEq

/-- What a call returns: the certificate, if any, of `AddVote`; the committed and the forked blocks of
`CommitBlock`, or its error. -/
inductive Answer
  | vote (qc : Option QC)
  | block
  | commit (res : Option (List Block × List Block))
  deriving DecidableEq

variable (cf : Config)

/-- One call. -/
def call : Call → Go BlockChain Answer
  | .addVote vote => do
    let bc ← get
    let (qc, bc) := bc.addVote cf vote
    set bc
    return .vote qc
  | .addBlock block => do
    addBlock block
    return .block
  | .commitBlock id view => do
    let res ← commitBlock id view
    return .commit res

/-- One call after the other. -/
def calls : List Call → Go BlockChain (List Answer)
  | [] => return []
  | c :: cs => do
    let a ← call cf c
    let as ← calls cs
    return a :: as

/-- The answers of a sequence of calls to a new block chain, if all of them return. -/
def answers (n : ℕ) (cs : List Call) : Option (List Answer) :=
  match calls cf cs (new n) with
  | .ok as _ => some as
  | .error _ _ => none

/-- The votes that are added. -/
def Call.votes (cs : List Call) : List Vote :=
  cs.filterMap fun | .addVote vote => some vote | _ => none

/-- The blocks that are added. -/
def Call.blocks (cs : List Call) : List Block :=
  cs.filterMap fun | .addBlock block => some block | _ => none

/-- The certificates that are returned. -/
def Answer.certificates (as : List Answer) : List QC :=
  as.filterMap fun | .vote qc => qc | _ => none

/-- The blocks that are returned as committed. -/
def Answer.committedBlocks (as : List Answer) : List Block :=
  as.flatMap fun | .commit (some (committed, _)) => committed | _ => []

/-- The blocks that are returned as forked. -/
def Answer.forkedBlocks (as : List Answer) : List Block :=
  as.flatMap fun | .commit (some (_, forked)) => forked | _ => []

variable {cf} {cs : List Call} {as : List Answer} {bc t : BlockChain}

theorem Answer.committedBlocks_append (as as' : List Answer) :
    Answer.committedBlocks (as ++ as') = Answer.committedBlocks as ++ Answer.committedBlocks as' :=
  List.flatMap_append

theorem Answer.forkedBlocks_append (as as' : List Answer) :
    Answer.forkedBlocks (as ++ as') = Answer.forkedBlocks as ++ Answer.forkedBlocks as' :=
  List.flatMap_append

theorem Call.blocks_append (cs cs' : List Call) :
    Call.blocks (cs ++ cs') = Call.blocks cs ++ Call.blocks cs' :=
  List.filterMap_append

/-- The cases of a sequence that returns. -/
theorem calls_cons {c : Call} (h : calls cf (c :: cs) bc = .ok as t) :
    ∃ a as' s, call cf c bc = .ok a s ∧ calls cf cs s = .ok as' t ∧ as = a :: as' := by
  obtain ⟨a, s, hc, h⟩ := Prog.bind_eq_ok h
  obtain ⟨as', t', hcs, h⟩ := Prog.bind_eq_ok h
  cases h
  exact ⟨a, as', s, hc, hcs, rfl⟩

theorem exists_of_answers {n : ℕ} (h : answers cf n cs = some as) :
    ∃ t, calls cf cs (new n) = .ok as t := by
  unfold answers at h
  cases hc : calls cf cs (new n) with
  | ok as' t =>
    rw [hc] at h
    cases h
    exact ⟨t, rfl⟩
  | error e t =>
    rw [hc] at h
    cases h

/-- What a call that returns has done. -/
theorem call_cases {c : Call} {a : Answer} (h : call cf c bc = .ok a t) :
    (∃ v, c = .addVote v ∧ a = .vote (bc.addVote cf v).1 ∧ t = (bc.addVote cf v).2) ∨
      (∃ b, c = .addBlock b ∧ a = .block ∧ addBlock b bc = .ok () t) ∨
      ∃ id view r, c = .commitBlock id view ∧ a = .commit r ∧ commitBlock id view bc = .ok r t := by
  cases c with
  | addVote v =>
    cases h
    exact Or.inl ⟨v, rfl, rfl, rfl⟩
  | addBlock b =>
    obtain ⟨u, s, hb, h⟩ := Prog.bind_eq_ok h
    cases h
    exact Or.inr (Or.inl ⟨b, rfl, rfl, hb⟩)
  | commitBlock id view =>
    obtain ⟨r, s, hb, h⟩ := Prog.bind_eq_ok h
    cases h
    exact Or.inr (Or.inr ⟨id, view, r, rfl, rfl, hb⟩)

theorem calls_append {cs' : List Call} {as' : List Answer} {s : BlockChain}
    (h : calls cf cs bc = .ok as s) (h' : calls cf cs' s = .ok as' t) :
    calls cf (cs ++ cs') bc = .ok (as ++ as') t := by
  induction cs generalizing bc as with
  | nil =>
    cases h
    exact h'
  | cons c cs ih =>
    obtain ⟨a, as₁, s₁, hc, hcs, rfl⟩ := calls_cons h
    show (call cf c >>= fun a => calls cf (cs ++ cs') >>= fun as => pure (a :: as)) bc = _
    rw [Prog.bind_apply_ok hc, Prog.bind_apply_ok (ih hcs)]
    rfl

/-- **What every call keeps holds after all of them.**  The invariant may speak of the calls so far and of
their answers. -/
theorem calls_induction {I : List Call → List Answer → BlockChain → Prop}
    (step : ∀ cs as s c a t, calls cf cs bc = .ok as s → I cs as s → call cf c s = .ok a t →
      I (cs ++ [c]) (as ++ [a]) t)
    (h0 : I [] [] bc) (h : calls cf cs bc = .ok as t) : I cs as t := by
  suffices hgen : ∀ before answers s, calls cf before bc = .ok answers s → I before answers s →
      calls cf cs s = .ok as t → I (before ++ cs) (answers ++ as) t from hgen [] [] bc rfl h0 h
  clear h0 h
  induction cs generalizing as with
  | nil =>
    intro before answers s _ hI h
    cases h
    simpa using hI
  | cons c cs ih =>
    intro before answers s hb hI h
    obtain ⟨a, as', s', hc, hcs, rfl⟩ := calls_cons h
    have hone : calls cf [c] s = .ok [a] s' := by
      unfold calls
      rw [Prog.bind_apply_ok hc]
      rfl
    simpa using ih _ _ _ (calls_append hb hone) (step _ _ _ _ _ _ hb hI hc) hcs

/-- What every addition keeps of the forest holds after all of them. -/
theorem forrest_induction {P : LevelledForest → Prop} {bs : List Block}
    (step : ∀ f b f', P f → LevelledForest.addVertex b f = .ok () f' → P f')
    (h : calls cf (bs.map .addBlock) bc = .ok as t) (h0 : P bc.forrest) : P t.forrest := by
  induction bs generalizing bc as with
  | nil =>
    cases h
    exact h0
  | cons b bs ih =>
    obtain ⟨a, as', s, hc, hcs, rfl⟩ := calls_cons h
    obtain ⟨_, s', hb, hc⟩ := Prog.bind_eq_ok hc
    cases hc
    obtain ⟨f, hf, rfl⟩ := Prog.zoom_eq_ok hb
    exact ih hcs (step _ b f h0 hf)

/-! ### Votes and certificates -/

/-- A certificate made of the given votes: one more than two thirds of the nodes sign it, each once, and
the signature at the place of a signer is that of its vote for the block. -/
structure Made (n : ℕ) (votes : List Vote) (qc : QC) : Prop where
  length : qc.signers.length = n * 2 / 3 + 1
  nodup : qc.signers.Nodup
  signed : List.Forall₂ (fun sig i => ∃ v ∈ votes, v.blockID = qc.blockID ∧ v.voter = i ∧
    v.signature = sig) qc.aggSig qc.signers

theorem Made.mono {n : ℕ} {votes votes' : List Vote} {qc : QC} (h : Made n votes qc)
    (hsub : votes ⊆ votes') : Made n votes' qc where
  length := h.length
  nodup := h.nodup
  signed := h.signed.imp fun _ _ ⟨v, hv, hrest⟩ => ⟨v, hsub hv, hrest⟩

/-- A commit changes the votes by deletions only. -/
def Deletes (q q' : Quorum) : Prop := ∃ ids : List ℕ, q' = ids.foldl Quorum.delete q

theorem commitLoop_deletes (view : ℤ) (fuel : ℕ) (block : Block) (acc : List Block) :
    Prog.wp (commitLoop view fuel block acc) (fun _ t => Deletes bc.quorum t.quorum)
      (fun t => Deletes bc.quorum t.quorum) bc := by
  induction fuel generalizing bc block acc with
  | zero => exact ⟨[], rfl⟩
  | succ fuel ih =>
    unfold commitLoop
    simp only [Prog.wp_bind, Prog.wp_get, Prog.wp_ite, Prog.wp_set]
    refine ⟨fun _ => ?_, fun _ => ⟨[], rfl⟩⟩
    cases bc.forrest.getVertex block.prevID with
    | none => exact ⟨[block.id], rfl⟩
    | some parent =>
      have hcons : ∀ t : BlockChain, Deletes (bc.quorum.delete block.id) t.quorum →
          Deletes bc.quorum t.quorum := by
        rintro t ⟨ids, h⟩
        exact ⟨block.id :: ids, h⟩
      exact Prog.wp_mono (ih parent (acc ++ [block])) (fun _ t => hcons t) hcons

theorem commitBlock_deletes (id : ℕ) (view : ℤ) :
    Prog.wp (commitBlock id view) (fun _ t => Deletes bc.quorum t.quorum)
      (fun t => Deletes bc.quorum t.quorum) bc := by
  unfold commitBlock
  simp only [Prog.wp_bind, Prog.wp_get]
  cases bc.forrest.getVertex id with
  | none => exact ⟨[], rfl⟩
  | some block =>
    simp only [Prog.wp_bind, Prog.wp_set]
    refine Prog.wp_mono (commitLoop_deletes view _ block []) ?_ fun t h => h
    intro l t h
    simp only [Prog.wp_zoom]
    refine (Prog.wp_mono (m := LevelledForest.pruneUpToLevel (uint64 block.view)) (s := t.forrest)
      (Q := fun _ _ => True) (E := fun _ => True) ?_ ?_ fun _ _ => h)
    · exact Prog.wp_final.2 trivial
    · intro r f _
      cases r with
      | none => exact h
      | some res => exact h

/-- After calls with the given answers: the votes on record are among those added, no block has been
certified twice, and the certificates are well made. -/
structure Counted (n : ℕ) (cs : List Call) (as : List Answer) (bc : BlockChain) : Prop where
  wf : bc.quorum.WF
  total : bc.quorum.total = n
  has : ∀ v, bc.quorum.Has v → v ∈ Call.votes cs
  once : ∀ id, Tally.Once id (Quorum.voters id (Call.votes cs))
    (id ∈ (Answer.certificates as).map QC.blockID) bc.quorum.tally
  nodup : ((Answer.certificates as).map QC.blockID).Nodup
  made : ∀ qc ∈ Answer.certificates as, Made n (Call.votes cs) qc

theorem Counted.new (n : ℕ) : Counted n [] [] (new n) where
  wf := Quorum.wf_new n
  total := rfl
  has := fun v h => by
    have hnone : (((Quorum.new n).votesFor v.blockID).lookup v.voter) = none := by
      simp [Quorum.new, Quorum.votesFor]
    have hv : ((Quorum.new n).votesFor v.blockID).lookup v.voter = some v := h
    rw [hnone] at hv
    cases hv
  once := fun id => (Tally.Once.new (n := n)).mono (List.Subset.refl _) (by simp [Answer.certificates])
  nodup := List.nodup_nil
  made := fun qc h => by cases h

theorem Deletes.wf {q q' : Quorum} (h : Deletes q q') (hq : q.WF) : q'.WF := by
  obtain ⟨ids, rfl⟩ := h
  induction ids generalizing q with
  | nil => exact hq
  | cons id ids ih => exact ih (Quorum.wf_delete hq id)

theorem Deletes.has {q q' : Quorum} (h : Deletes q q') {v : Vote} (hv : q'.Has v) : q.Has v := by
  obtain ⟨ids, rfl⟩ := h
  induction ids generalizing q with
  | nil => exact hv
  | cons id ids ih => exact Quorum.has_delete (ih hv)

theorem Deletes.total {q q' : Quorum} (h : Deletes q q') : q'.total = q.total := by
  obtain ⟨ids, rfl⟩ := h
  induction ids generalizing q with
  | nil => rfl
  | cons id ids ih => exact ih

theorem Deletes.once {q q' : Quorum} (h : Deletes q q') {id : ℕ} {seen : List NodeID} {done : Prop}
    (ho : Tally.Once id seen done q.tally) : Tally.Once id seen done q'.tally := by
  obtain ⟨ids, rfl⟩ := h
  induction ids generalizing q with
  | nil => exact ho
  | cons x ids ih => exact ih (ho.discard x)

/-- A call that deletes votes only. -/
theorem Counted.deletes {n : ℕ} {c : Call} {a : Answer} (h : Counted n cs as bc)
    (hd : Deletes bc.quorum t.quorum) (hc : Call.votes [c] = []) (ha : Answer.certificates [a] = []) :
    Counted n (cs ++ [c]) (as ++ [a]) t := by
  have hvotes : Call.votes (cs ++ [c]) = Call.votes cs := by
    rw [Call.votes, List.filterMap_append]
    exact (congrArg (Call.votes cs ++ ·) hc).trans (List.append_nil _)
  have hcert : Answer.certificates (as ++ [a]) = Answer.certificates as := by
    rw [Answer.certificates, List.filterMap_append]
    exact (congrArg (Answer.certificates as ++ ·) ha).trans (List.append_nil _)
  constructor
  · exact hd.wf h.wf
  · exact hd.total.trans h.total
  · exact fun v hv => hvotes ▸ h.has v (hd.has hv)
  · intro id
    rw [hvotes, hcert]
    exact hd.once (h.once id)
  · rw [hcert]
    exact h.nodup
  · rw [hvotes, hcert]
    exact h.made

/-- A vote by a node that has not voted for the block. -/
theorem Counted.addVote {ids : List NodeID} (h : Counted ids.length cs as bc) {v : Vote}
    (hnew : v.voter ∉ Quorum.voters v.blockID (Call.votes cs))
    (hids : v.voter :: Quorum.voters v.blockID (Call.votes cs) ⊆ ids) :
    Counted ids.length (cs ++ [.addVote v]) (as ++ [.vote (bc.addVote cf v).1]) (bc.addVote cf v).2 := by
  have hvotes : Call.votes (cs ++ [.addVote v]) = Call.votes cs ++ [v] := by
    rw [Call.votes, List.filterMap_append]
    rfl
  have hcert : Answer.certificates (as ++ [.vote (bc.addVote cf v).1]) =
      Answer.certificates as ++ (bc.quorum.add cf v).1.toList := by
    rw [Answer.certificates, List.filterMap_append]
    show _ ++ [Answer.vote (bc.quorum.add cf v).1].filterMap _ = _
    cases (bc.quorum.add cf v).1 <;> rfl
  have htally : (bc.addVote cf v).2.quorum.tally = (bc.quorum.tally.cast v.blockID v.voter v).2 :=
    Quorum.tally_add cf bc.quorum v
  obtain ⟨hfirst, honce⟩ := (h.once v.blockID).cast (i := v.voter) (Nat.le_of_eq h.total.symm) hnew hids v
  have hsub : Call.votes cs ⊆ Call.votes cs ++ [v] := List.subset_append_left _ _
  -- a new certificate is for the block of the vote
  have hmem : ∀ qc ∈ Answer.certificates as ++ (bc.quorum.add cf v).1.toList,
      qc ∈ Answer.certificates as ∨ (bc.quorum.add cf v).1 = some qc := fun qc hqc =>
    (List.mem_append.1 hqc).imp_right fun h => Option.mem_toList.1 h
  have hid : ∀ qc, (bc.quorum.add cf v).1 = some qc → qc.blockID = v.blockID := fun qc hqc =>
    (Quorum.signers_perm h.wf hqc).1
  constructor
  · exact Quorum.wf_add h.wf v
  · exact (congrArg Tally.total htally).trans (Tally.total_cast.trans h.total)
  · intro w hw
    rw [hvotes, List.mem_append, List.mem_singleton]
    have hw' : (bc.quorum.add cf v).2.Has w := hw
    rcases Quorum.add_cases cf h.wf v with he | he | ⟨qc, he, -⟩
    · rw [he] at hw'
      exact Or.inl (h.has w hw')
    · rw [he] at hw'
      exact (Quorum.has_record hw').symm.imp_left (h.has w)
    · rw [he] at hw'
      exact (Quorum.has_record hw').symm.imp_left (h.has w)
  · intro id
    rw [hvotes, hcert, htally]
    by_cases hne : id = v.blockID
    · subst hne
      refine honce.mono ?_ fun hd => ?_
      · intro i hi
        rw [Quorum.voters, List.filter_append, List.map_append, List.mem_append]
        exact (List.mem_cons.1 hi).symm.imp_right fun h => by simp [h]
      · obtain ⟨qc, hqc, hqid⟩ := List.mem_map.1 hd
        refine (hmem qc hqc).imp (fun hm => List.mem_map.2 ⟨qc, hm, hqid⟩) fun hm => ?_
        exact Quorum.add_eq_some_iff.1 ⟨qc, hm⟩
    · refine ((h.once id).congr (Tally.box_cast_of_ne hne) Tally.total_cast).mono ?_ fun hd => ?_
      · intro i hi
        rw [Quorum.voters, List.filter_append, List.map_append]
        exact List.mem_append_left _ hi
      · obtain ⟨qc, hqc, hqid⟩ := List.mem_map.1 hd
        rcases hmem qc hqc with hm | hm
        · exact List.mem_map.2 ⟨qc, hm, hqid⟩
        · exact absurd (hqid.symm.trans (hid qc hm)) hne
  · rw [hcert, List.map_append]
    cases hadd : (bc.quorum.add cf v).1 with
    | none => simpa using h.nodup
    | some qc =>
      have hnot := hfirst (Quorum.add_eq_some_iff.1 ⟨qc, hadd⟩)
      rw [← hid qc hadd] at hnot
      exact List.nodup_append'.2 ⟨h.nodup, by simp, by simpa using hnot⟩
  · rw [hvotes, hcert]
    intro qc hqc
    rcases hmem qc hqc with hm | hm
    · exact (h.made qc hm).mono hsub
    · rcases Quorum.add_cases cf h.wf v with he | he | ⟨qc', he, hc⟩
      · rw [he] at hm
        cases hm
      · rw [he] at hm
        cases hm
      · have hlen := Quorum.length_signers h.wf hm
        rw [he] at hm
        cases hm
        refine ⟨h.total ▸ hlen, hc.nodup, hc.signed.imp fun sig i ⟨w, hw, hwid, hrest⟩ => ?_⟩
        refine ⟨w, ?_, hwid.trans hc.blockID.symm, hrest⟩
        rcases Quorum.has_record hw with rfl | hw
        · exact List.mem_append_right _ (List.mem_singleton_self _)
        · exact hsub (h.has w hw)

/-- **One certificate per block.**  However votes, blocks and commits are interleaved, if the voters are
among `n` nodes and no node's vote for a block is added twice, a block is certified at most once, by one
more than two thirds of the nodes, with the signatures of their votes. -/
theorem one_certificate_per_block (cf : Config) (n : ℕ) (ids : List NodeID) (hn : ids.length = n)
    (cs : List Call) (as : List Answer) (t : BlockChain) (hrun : calls cf cs (new n) = .ok as t)
    (hids : ∀ v ∈ Call.votes cs, v.voter ∈ ids)
    (honce : ((Call.votes cs).map fun v => (v.blockID, v.voter)).Nodup) :
    ((Answer.certificates as).map QC.blockID).Nodup ∧
      ∀ qc ∈ Answer.certificates as, Made n (Call.votes cs) qc := by
  subst hn
  suffices h : Counted ids.length cs as t from ⟨h.nodup, h.made⟩
  revert hids honce
  refine calls_induction (I := fun cs as t => (∀ v ∈ Call.votes cs, v.voter ∈ ids) →
    ((Call.votes cs).map fun v => (v.blockID, v.voter)).Nodup → Counted ids.length cs as t)
    ?_ (fun _ _ => .new _) hrun
  intro cs as s c a t _ ih hc hids honce
  have hsplit : Call.votes (cs ++ [c]) = Call.votes cs ++ Call.votes [c] := by
    rw [Call.votes, List.filterMap_append]
    rfl
  rw [hsplit] at hids honce
  rw [List.map_append] at honce
  have hI := ih (fun v hv => hids v (List.mem_append_left _ hv)) honce.of_append_left
  rcases call_cases hc with ⟨v, rfl, rfl, rfl⟩ | ⟨b, rfl, rfl, hb⟩ | ⟨id, view, r, rfl, rfl, hr⟩
  · have hsub : Quorum.voters v.blockID (Call.votes cs) ⊆ ids := by
      intro i hi
      obtain ⟨w, hw, rfl⟩ := List.mem_map.1 hi
      exact hids w (List.mem_append_left _ (List.mem_filter.1 hw).1)
    refine hI.addVote (fun hmem => ?_) (List.cons_subset.2 ⟨hids v (by simp [Call.votes]), hsub⟩)
    obtain ⟨w, hw, hwv⟩ := List.mem_map.1 hmem
    obtain ⟨hw, hwid⟩ := List.mem_filter.1 hw
    refine (List.nodup_append'.1 honce).2.2 (List.mem_map.2 ⟨w, hw, ?_⟩)
      (List.mem_map.2 ⟨v, by simp [Call.votes], rfl⟩)
    rw [hwv, of_decide_eq_true hwid]
  · refine hI.deletes ⟨[], ?_⟩ rfl rfl
    have hq : Prog.wp (addBlock b) (fun _ t => t.quorum = s.quorum) (fun _ => True) s := by
      unfold addBlock
      rw [Prog.wp_zoom]
      exact Prog.wp_mono (Prog.wp_final (P := fun _ => True).2 trivial) (fun _ _ _ => rfl)
        fun _ _ => trivial
    have hsame := Prog.wp_ok hq hb
    exact hsame
  · have hd := Prog.wp_ok (commitBlock_deletes id view) hr
    exact hI.deletes hd rfl rfl

/-- Votes of four nodes for the block of view 1, which is committed before the last of them comes. -/
def lateVote : List Call :=
  [.addBlock (FourNodes.block 1 .initial), .addVote ⟨1, "1", 1, [[1]]⟩, .addVote ⟨1, "2", 1, [[2]]⟩,
    .addVote ⟨1, "3", 1, [[3]]⟩, .commitBlock 1 2, .addVote ⟨1, "4", 1, [[4]]⟩]

theorem one_certificate_per_block_lateVote :
    ∃ as t, calls (FourNodes.config fun _ => "1") lateVote (new 4) = .ok as t ∧
      (Answer.certificates as).map QC.signers = [["3", "2", "1"]] ∧
      ((Answer.certificates as).map QC.blockID).Nodup := by
  have hsome : (answers (FourNodes.config fun _ => "1") 4 lateVote).map (fun as =>
      (Answer.certificates as).map QC.signers) = some [["3", "2", "1"]] := by decide_cbv
  obtain ⟨as, has, hsigners⟩ := Option.map_eq_some_iff.1 hsome
  obtain ⟨t, hrun⟩ := exists_of_answers has
  exact ⟨as, t, hrun, hsigners, (one_certificate_per_block _ 4 FourNodes.members rfl lateVote as t hrun
    (by decide) (by decide)).1⟩

end BlockChain

end Bamboo
