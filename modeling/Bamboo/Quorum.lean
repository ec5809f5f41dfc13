import Bamboo.Crypto
import Bamboo.Lib.Tally

/-!
# Counting votes

`blockchain/quorum.go`: the votes a replica has received, for each block id and voter, and the
certificate that the vote completing a quorum gives rise to.
-/

namespace Bamboo

/-- `blockchain.Quorum`. -/
structure Quorum where
  total : ℕ
  votes : GoMap ℕ (GoMap NodeID Vote)

namespace Quorum

/-- `NewQuorum`. -/
def new (total : ℕ) : Quorum := ⟨total, ∅⟩

variable (q : Quorum)

/-- `q.votes[blockID]`, the empty map when it is absent. -/
def votesFor (blockID : ℕ) : GoMap NodeID Vote := (q.votes.lookup blockID).getD ∅

/-- `size`. -/
def size (blockID : ℕ) : ℕ := (q.votesFor blockID).entries.length

/-- `superMajority`. -/
def superMajority (blockID : ℕ) : Bool := decide (q.total * 2 / 3 < q.size blockID)

/-- `getSigs`: signatures and signers, in the order in which `range` visits the votes. -/
def getSigs (cf : Config) (blockID : ℕ) : List Signature × List NodeID :=
  let votes := cf.rangeVotes ((q.votesFor blockID).entries.map Sigma.snd)
  (votes.map Vote.signature, votes.map Vote.voter)

/-- Store a vote, `q.votes[vote.BlockID][vote.Voter] = vote`. -/
def record (vote : Vote) : Quorum :=
  { q with votes := q.votes.insert vote.blockID ((q.votesFor vote.blockID).insert vote.voter vote) }

/-- `Add`: the certificate, if this vote completes a quorum. -/
def add (cf : Config) (vote : Vote) : Option QC × Quorum :=
  if q.superMajority vote.blockID then (none, q)
  else
    let q := q.record vote
    if q.superMajority vote.blockID then
      let (aggSig, signers) := q.getSigs cf vote.blockID
      (some ⟨"", vote.view, vote.blockID, signers, aggSig, []⟩, q)
    else (none, q)

/-- `delete(q.votes, id)`. -/
def delete (id : ℕ) : Quorum := { q with votes := q.votes.erase id }

/-! ### Every recorded vote is filed under its own block and voter -/

variable {q}

/-- The votes on record. -/
def Has (q : Quorum) (v : Vote) : Prop := (q.votesFor v.blockID).lookup v.voter = some v

/-- The two keys of a vote are its own fields. -/
def WF (q : Quorum) : Prop :=
  ∀ id i v, (q.votesFor id).lookup i = some v → v.blockID = id ∧ v.voter = i

theorem wf_new (total : ℕ) : (new total).WF := by
  intro id i v h
  simp [new, votesFor] at h

theorem votesFor_record (v : Vote) (id : ℕ) :
    (q.record v).votesFor id =
      if id = v.blockID then (q.votesFor v.blockID).insert v.voter v else q.votesFor id := by
  unfold record
  by_cases h : id = v.blockID
  · subst h; simp [votesFor]
  · simp [votesFor, AList.lookup_insert_ne h, h]

theorem wf_record (hq : q.WF) (v : Vote) : (q.record v).WF := by
  intro id i w h
  rw [votesFor_record] at h
  split_ifs at h with hid
  · subst hid
    by_cases hi : i = v.voter
    · subst hi
      rw [AList.lookup_insert] at h
      cases h
      exact ⟨rfl, rfl⟩
    · rw [AList.lookup_insert_ne hi] at h
      exact hq _ _ _ h
  · exact hq _ _ _ h

theorem has_record {v w : Vote} (h : (q.record v).Has w) : w = v ∨ q.Has w := by
  unfold Has at h ⊢
  rw [votesFor_record] at h
  split_ifs at h with hid
  · by_cases hi : w.voter = v.voter
    · rw [hi, AList.lookup_insert] at h
      cases h
      exact Or.inl rfl
    · rw [AList.lookup_insert_ne hi, ← hid] at h
      exact Or.inr h
  · exact Or.inr h

theorem votesFor_delete (id x : ℕ) :
    (q.delete id).votesFor x = if x = id then ∅ else q.votesFor x := by
  unfold delete votesFor
  by_cases h : x = id
  · subst h; simp
  · simp [AList.lookup_erase_ne h, h]

theorem wf_delete (hq : q.WF) (id : ℕ) : (q.delete id).WF := by
  intro x i v h
  rw [votesFor_delete] at h
  split_ifs at h
  · simp at h
  · exact hq _ _ _ h

theorem has_delete {id : ℕ} {v : Vote} (h : (q.delete id).Has v) : q.Has v := by
  unfold Has at h ⊢
  rw [votesFor_delete] at h
  split_ifs at h
  · simp at h
  · exact h

/-- The values of a map are what its keys look up. -/
theorem mem_values {m : GoMap NodeID Vote} {v : Vote} (h : v ∈ m.entries.map Sigma.snd) :
    ∃ i, m.lookup i = some v := by
  obtain ⟨⟨i, w⟩, hmem, rfl⟩ := List.mem_map.1 h
  exact ⟨i, (AList.mem_lookup_iff (s := m)).2 hmem⟩

/-- In a well-formed quorum the voters on record for a block are the keys, hence distinct. -/
theorem voters_eq_keys (hq : q.WF) (id : ℕ) :
    ((q.votesFor id).entries.map Sigma.snd).map Vote.voter = (q.votesFor id).keys := by
  rw [List.map_map, AList.keys, List.keys]
  refine List.map_congr_left fun e he => ?_
  have hl : (q.votesFor id).lookup e.1 = some e.2 := (AList.mem_lookup_iff (s := q.votesFor id)).2 he
  exact (hq id e.1 e.2 hl).2

/-- **The certificate of a quorum.**  It is for the voted block, its signers are distinct, more than
two thirds of the total, and each of them has a vote on record that carries the signature stored at
its place. -/
structure Certifies (cf : Config) (q : Quorum) (v : Vote) (qc : QC) : Prop where
  leader : qc.leader = ""
  view : qc.view = v.view
  blockID : qc.blockID = v.blockID
  nodup : qc.signers.Nodup
  quorum : q.total * 2 / 3 < qc.signers.length
  signed : List.Forall₂ (fun sig i => ∃ w, q.Has w ∧ w.blockID = v.blockID ∧ w.voter = i ∧
    w.signature = sig) qc.aggSig qc.signers

theorem certifies_getSigs (cf : Config) (hq : q.WF) (v : Vote)
    (hs : q.total * 2 / 3 < q.size v.blockID) :
    Certifies cf q v ⟨"", v.view, v.blockID, (q.getSigs cf v.blockID).2,
      (q.getSigs cf v.blockID).1, []⟩ where
  leader := rfl
  view := rfl
  blockID := rfl
  nodup := by
    have hperm := (cf.rangeVotes_perm ((q.votesFor v.blockID).entries.map Sigma.snd)).map Vote.voter
    refine hperm.nodup_iff.2 ?_
    rw [voters_eq_keys hq]
    exact (q.votesFor v.blockID).keys_nodup
  quorum := by
    simpa [getSigs, size, (cf.rangeVotes_perm _).length_eq] using hs
  signed := by
    unfold getSigs
    rw [List.forall₂_map_left_iff, List.forall₂_map_right_iff, List.forall₂_same]
    intro w hw
    obtain ⟨i, hi⟩ := mem_values ((cf.rangeVotes_perm _).mem_iff.1 hw)
    obtain ⟨hb, hv⟩ := hq _ _ _ hi
    exact ⟨w, by rw [Has, hb, hv]; exact hi, hb, rfl, rfl⟩

/-- What `Add` does: it ignores the vote, or records it, or records it and gives the certificate of
the quorum it completes. -/
theorem add_cases (cf : Config) (hq : q.WF) (v : Vote) :
    q.add cf v = (none, q) ∨ q.add cf v = (none, q.record v) ∨
      ∃ qc, q.add cf v = (some qc, q.record v) ∧ Certifies cf (q.record v) v qc := by
  unfold add
  dsimp only
  split_ifs with h₁ h₂
  · exact Or.inl rfl
  · refine Or.inr (Or.inr ⟨_, rfl, certifies_getSigs cf (wf_record hq v) v ?_⟩)
    simpa [superMajority] using h₂
  · exact Or.inr (Or.inl rfl)

/-- A certificate is for the block and the view of the vote that completes it. -/
theorem add_eq_some {cf : Config} {v : Vote} {qc : QC} (h : (q.add cf v).1 = some qc) :
    qc.view = v.view ∧ qc.blockID = v.blockID := by
  unfold add at h
  dsimp only at h
  split_ifs at h
  cases h
  exact ⟨rfl, rfl⟩

/-! ### Votes as ballots -/

/-- The votes as ballots: the block id is the subject. -/
def tally (q : Quorum) : Tally ℕ NodeID Vote := ⟨q.total, q.votes⟩

theorem superMajority_iff {id : ℕ} : q.superMajority id = true ↔ q.tally.Full id := by
  unfold superMajority size Tally.Full
  rw [decide_eq_true_iff, AList.keys, List.keys, List.length_map]
  rfl

theorem tally_add (cf : Config) (q : Quorum) (v : Vote) :
    (q.add cf v).2.tally = (q.tally.cast v.blockID v.voter v).2 := by
  unfold add
  rcases Tally.cast_cases q.tally v.blockID v.voter v with ⟨hf, he⟩ | ⟨hn, he⟩
  · rw [he, if_pos (superMajority_iff.2 hf)]
  · rw [he, if_neg fun h => hn (superMajority_iff.1 h)]
    dsimp only
    split_ifs
    · rfl
    · rfl

/-- `Add` gives a certificate when the vote fills the box. -/
theorem add_eq_some_iff {cf : Config} {v : Vote} :
    (∃ qc, (q.add cf v).1 = some qc) ↔ q.tally.Completes v.blockID v.voter v := by
  have hrec : (q.record v).superMajority v.blockID = true ↔
      (q.tally.record v.blockID v.voter v).Full v.blockID := superMajority_iff
  rw [Tally.completes_iff, ← superMajority_iff, ← hrec]
  unfold add
  dsimp only
  split_ifs with h₁ h₂
  · simp [h₁]
  · simp [h₁, h₂]
  · simp [h₂]

/-- The signers of a certificate are those in the box, in some order. -/
theorem signers_perm {cf : Config} (hq : q.WF) {v : Vote} {qc : QC} (h : (q.add cf v).1 = some qc) :
    qc.blockID = v.blockID ∧
      qc.signers.Perm ((q.tally.record v.blockID v.voter v).box v.blockID).keys := by
  unfold add at h
  dsimp only at h
  split_ifs at h
  cases h
  refine ⟨rfl, ((cf.rangeVotes_perm _).map Vote.voter).trans ?_⟩
  rw [voters_eq_keys (wf_record hq v)]
  rfl

/-- A certificate is made at the first vote that suffices, so its size is exact. -/
theorem length_signers {cf : Config} (hq : q.WF) {v : Vote} {qc : QC}
    (h : (q.add cf v).1 = some qc) : qc.signers.length = q.total * 2 / 3 + 1 := by
  obtain ⟨-, -, hlen⟩ := Tally.length_keys_of_completes (add_eq_some_iff.1 ⟨qc, h⟩)
  exact (signers_perm hq h).2.length_eq.trans hlen

theorem wf_add {cf : Config} (hq : q.WF) (v : Vote) : (q.add cf v).2.WF := by
  rcases add_cases cf hq v with h | h | ⟨qc, h, -⟩
  · rw [h]
    exact hq
  · rw [h]
    exact wf_record hq v
  · rw [h]
    exact wf_record hq v

end Quorum

end Bamboo
