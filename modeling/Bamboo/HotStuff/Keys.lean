import Bamboo.FourNodes
import Bamboo.HotStuff.Frames

/-!
# Votes and keys

A replica files votes under the string in `Voter` and verifies them under the key whose number the
string spells.  Different strings can spell one number, and a vote that bears the replica's own name is
not verified at all.

* `Countable`: the votes a replica can count;
* `ballots_of_run`: a certificate is made of such votes, whatever the replica is sent, and also if it is
  Byzantine;
* `one_key_one_vote`, and `one_key_makes_quorum`, a certificate made under one key.
-/

namespace Bamboo

namespace HotStuff

variable {nd : Node} {In : Msg → Prop} {s t : HotStuff}

/-- A vote the replica can count: one it received, which passes its check, or its own. -/
def Countable (nd : Node) (In : Msg → Prop) (v : Vote) : Prop :=
  (In (.vote v) ∧ checkVote nd v = .ok true) ∨
    ∃ view id, makeVote nd.toConfig view nd.id id = .ok v

/-- The votes on record are countable ones, and the certificates built are made of such votes. -/
structure Ballots (nd : Node) (In : Msg → Prop) (s : HotStuff) : Prop where
  wf : s.bc.quorum.WF
  total : s.bc.quorum.total = nd.n
  has : ∀ v, s.bc.quorum.Has v → Countable nd In v
  built : ∀ qc, .built qc ∈ s.trace → qc.signers.Nodup ∧ nd.n * 2 / 3 < qc.signers.length ∧
    List.Forall₂ (fun sig i => ∃ v, Countable nd In v ∧ v.blockID = qc.blockID ∧ v.voter = i ∧
      v.signature = sig) qc.aggSig qc.signers

theorem ballots_new (nd : Node) (In : Msg → Prop) : Ballots nd In (HotStuff.new nd.n) where
  wf := Quorum.wf_new _
  total := rfl
  has := fun v h => by
    simp [HotStuff.new, BlockChain.new, Quorum.new, Quorum.Has, Quorum.votesFor] at h
  built := fun qc h => by cases h

/-- Deletions and entries other than certificates do not matter. -/
theorem ballots_stable : Stable (Ballots nd In) where
  wf := fun h => h.wf
  congr := fun h hq ht => ⟨hq ▸ h.wf, hq ▸ h.total, hq ▸ h.has, ht ▸ h.built⟩
  deletes := fun h hd => ⟨hd.wf h.wf, hd.total.trans h.total, fun v hv => h.has v (hd.has hv), h.built⟩
  note := fun {s e} h he => by
    refine ⟨h.wf, h.total, h.has, fun qc hqc => ?_⟩
    rcases List.mem_append.1 hqc with hqc | hqc
    · exact h.built qc hqc
    · rw [← List.mem_singleton.1 hqc] at he
      exact he.elim

theorem ballots_counting {v : Vote} (hv : Countable nd In v) : Counting nd (Ballots nd In) v := by
  have hrec : ∀ {s}, Ballots nd In s →
      Ballots nd In { s with bc := { s.bc with quorum := s.bc.quorum.record v } } := by
    intro s h
    refine ⟨Quorum.wf_record h.wf v, h.total, fun w hw => ?_, h.built⟩
    rcases Quorum.has_record hw with rfl | hw
    · exact hv
    · exact h.has w hw
  refine ⟨hrec, fun {s qc} h hcert => ?_⟩
  refine ⟨(hrec h).wf, h.total, (hrec h).has, fun qc' hqc => ?_⟩
  rcases List.mem_append.1 hqc with hqc | hqc
  · exact h.built qc' hqc
  · cases List.mem_singleton.1 hqc
    refine ⟨hcert.nodup, h.total ▸ hcert.quorum, hcert.signed.imp fun sig i => ?_⟩
    rintro ⟨w, hw, hid, hrest⟩
    exact ⟨w, (hrec h).has w hw, hid.trans hcert.blockID.symm, hrest⟩

/-- **A replica counts countable votes only**, in every run. -/
theorem ballots_of_run (nd : Node) (inputs : List Safety.Input) :
    Ballots nd (Safety.Received inputs) (runOn nd inputs) := by
  have hkept : VoteStable nd (Ballots nd (Safety.Received inputs)) := by
    refine ⟨ballots_stable, fun {s b} h => ?_, fun hv => ballots_counting (Or.inr ⟨_, _, hv⟩)⟩
    refine ⟨h.wf, h.total, h.has, fun qc hqc => h.built qc ?_⟩
    simpa using hqc
  exact hkept.runOn (ballots_new nd _) fun v hin hc => ballots_counting (Or.inl ⟨hin, hc⟩)

/-! ### Keys -/

/-- A certificate is signed under more than two thirds of the keys: its signers stand for different
entries of the key table, and the signature at the place of each verifies under its key. -/
structure SignedByKeys (cf : Config) (qc : QC) : Prop where
  quorum : cf.n * 2 / 3 < qc.signers.length
  apart : qc.signers.Pairwise fun i j => keyIndex cf i ≠ keyIndex cf j
  signed : List.Forall₂ (fun sig i => pubVerify cf sig qc.blockID i = .ok true) qc.aggSig qc.signers

/-- No two countable votes for one block spell the number of their key in different ways. -/
def OneName (nd : Node) (In : Msg → Prop) : Prop :=
  ∀ v v', Countable nd In v → Countable nd In v' → v.blockID = v'.blockID →
    node v.voter = node v'.voter → v.voter = v'.voter

/-- Received votes in the name of the replica carry its signature. -/
def OwnNameSigned (nd : Node) (In : Msg → Prop) : Prop :=
  ∀ v, In (.vote v) → v.voter = nd.id →
    pubVerify nd.toConfig v.signature v.blockID v.voter = .ok true

theorem node_eq_of_keyIndex {cf : Config} {i j : NodeID} {k : ℕ} (hi : keyIndex cf i = .ok k)
    (hj : keyIndex cf j = .ok k) : node i = node j := by
  unfold keyIndex at hi hj
  split_ifs at hi hj
  injection hi with hi
  injection hj with hj
  omega

theorem keyIndex_of_pubVerify {cf : Config} {sig : Signature} {data : ℕ} {i : NodeID}
    (h : pubVerify cf sig data i = .ok true) : ∃ k, keyIndex cf i = .ok k := by
  unfold pubVerify at h
  cases hk : keyIndex cf i with
  | ok k => exact ⟨k, rfl⟩
  | error e => simp [hk, bind, Except.bind] at h

theorem Countable.verifies (hsv : nd.SignaturesVerify) (hown : OwnNameSigned nd In) {v : Vote}
    (h : Countable nd In v) : pubVerify nd.toConfig v.signature v.blockID v.voter = .ok true := by
  rcases h with ⟨hin, hc⟩ | ⟨view, id, hv⟩
  · rcases verified_of_checkVote hc with hself | hver
    · exact hown v hin hself
    · exact hver
  · obtain ⟨-, hvoter, rfl, hsig⟩ := makeVote_eq_ok hv
    rw [hvoter]
    exact pubVerify_privSign hsv hsig

/-- Every signer has a signature. -/
theorem exists_signature {R : Signature → NodeID → Prop} {sigs : List Signature} {signers : List NodeID}
    (h : List.Forall₂ R sigs signers) {i : NodeID} (hi : i ∈ signers) : ∃ sig, R sig i := by
  induction h with
  | nil => cases hi
  | cons hr _ ih =>
    rcases List.mem_cons.1 hi with rfl | hi
    · exact ⟨_, hr⟩
    · exact ih hi

/-- **One key, one vote**: in a run in which each key votes for a block under one name only, and votes
in the replica's own name carry its signature. -/
theorem one_key_one_vote (nd : Node) (hsv : nd.SignaturesVerify) (inputs : List Safety.Input)
    (hone : OneName nd (Safety.Received inputs)) (hown : OwnNameSigned nd (Safety.Received inputs)) :
    ∀ qc, .built qc ∈ (runOn nd inputs).trace → SignedByKeys nd.toConfig qc := by
  intro qc hqc
  obtain ⟨hnd, hlen, hsig⟩ := (ballots_of_run nd inputs).built qc hqc
  refine ⟨hlen, ?_, hsig.imp ?_⟩
  · -- two signers have countable votes for the block, so one key would have one name
    have hvote : ∀ i ∈ qc.signers, ∃ v, Countable nd (Safety.Received inputs) v ∧
        v.blockID = qc.blockID ∧ v.voter = i := by
      intro i hi
      obtain ⟨sig, v, hv, hid, hvi, -⟩ := exists_signature hsig hi
      exact ⟨v, hv, hid, hvi⟩
    refine hnd.imp_of_mem fun {i j} hi hj hne heq => ?_
    obtain ⟨v, hv, hid, rfl⟩ := hvote i hi
    obtain ⟨v', hv', hid', rfl⟩ := hvote j hj
    obtain ⟨k, hk⟩ := keyIndex_of_pubVerify (hv.verifies hsv hown)
    exact hne (hone v v' hv hv' (hid.trans hid'.symm) (node_eq_of_keyIndex hk (heq ▸ hk)))
  · rintro sig i ⟨v, hv, hid, rfl, rfl⟩
    rw [← hid]
    exact hv.verifies hsv hown

/-- Votes of nodes 1, 3 and 4 for the block with id 1, passed to node 2. -/
def threeVotes : List Safety.Input :=
  [.msg (.vote ⟨1, "1", 1, FourNodes.signature 0 1⟩), .msg (.vote ⟨1, "3", 1, FourNodes.signature 2 1⟩),
    .msg (.vote ⟨1, "4", 1, FourNodes.signature 3 1⟩)]

/-- The votes of three nodes make a certificate signed under three keys. -/
theorem one_key_one_vote_threeVotes :
    ∃ qc, .built qc ∈ (runOn FourNodes.second threeVotes).trace ∧
      SignedByKeys FourNodes.second.toConfig qc := by
  have hbuilt : .built ⟨"2", 1, 1, ["4", "3", "1"],
      [FourNodes.signature 3 1, FourNodes.signature 2 1, FourNodes.signature 0 1], []⟩ ∈
      (runOn FourNodes.second threeVotes).trace := by decide_cbv
  have hin : ∀ v, Safety.Received threeVotes (.vote v) → v.voter = "1" ∨ v.voter = "3" ∨ v.voter = "4" := by
    intro v hv
    simp only [Safety.Received, threeVotes, List.mem_cons, Safety.Input.msg.injEq, Msg.vote.injEq,
      List.not_mem_nil, or_false] at hv
    rcases hv with rfl | rfl | rfl <;> simp
  have hnames : ∀ v, Countable FourNodes.second (Safety.Received threeVotes) v →
      v.voter ∈ FourNodes.members := by
    rintro v (⟨hv, -⟩ | ⟨view, id, hv⟩)
    · rcases hin v hv with h | h | h <;> simp [FourNodes.members, h]
    · rw [(makeVote_eq_ok hv).2.1]
      decide
  have hnode : ∀ i ∈ FourNodes.members, ∀ j ∈ FourNodes.members, node i = node j → i = j := by decide_cbv
  refine ⟨_, hbuilt, one_key_one_vote _ (FourNodes.signaturesVerify _) _ ?_ ?_ _ hbuilt⟩
  · exact fun v v' hv hv' _ hn => hnode _ (hnames v hv) _ (hnames v' hv') hn
  · intro v hv hself
    exact absurd hself (by rcases hin v hv with h | h | h <;> rw [h] <;> decide)

/-- One vote of node 1 for the block with id 1, passed to node 2 under three names. -/
def threeNames : List Safety.Input :=
  [.msg (.vote ⟨1, "1", 1, FourNodes.signature 0 1⟩), .msg (.vote ⟨1, "01", 1, FourNodes.signature 0 1⟩),
    .msg (.vote ⟨1, "001", 1, FourNodes.signature 0 1⟩)]

/-- **One key makes a quorum**: a certificate of three signers, all with the same key. -/
theorem one_key_makes_quorum :
    ∃ qc, .built qc ∈ (runOn FourNodes.second threeNames).trace ∧
      ¬ SignedByKeys FourNodes.second.toConfig qc := by
  have hbuilt : .built ⟨"2", 1, 1, ["001", "01", "1"],
      [FourNodes.signature 0 1, FourNodes.signature 0 1, FourNodes.signature 0 1], []⟩ ∈
      (runOn FourNodes.second threeNames).trace := by decide_cbv
  refine ⟨_, hbuilt, fun h => ?_⟩
  have hne := List.rel_of_pairwise_cons h.apart (List.mem_cons_self (a := "01"))
  exact hne (by decide_cbv)

end HotStuff

end Bamboo
