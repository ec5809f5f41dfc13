import Bamboo.KeyGeneration

/-!
# Rotating and static leaders

`IsLeader` and `FindLeaderFor` of `Rotation` both hash the decimal form of the next view, and then one compares the
remainder with the number of a node while the other makes an id from it.  In the first views the last node leads.
`Static` has the same leader for all views; `NewReplica` takes it unless the configured master is "0".

* `Rotation.leading`: the number that both of them are about;
* `one_leader_each_view`: **they agree on the configured nodes, and exactly one of these leads a view**;
* `newElection_consistent`: whatever the master, the election of a replica is consistent on the configured nodes.
-/

namespace Bamboo

/-- `binary.BigEndian.Uint64` of a SHA-1 digest: the number its first eight bytes form. -/
def bigEndianUint64 (bs : Vector UInt8 20) : ℕ := (bs.toList.take 8).foldl (fun acc b => acc * 256 + b.toNat) 0

/-- `election.Rotation`. -/
structure Rotation where
  peerNo : ℤ

namespace Rotation

variable (sha1 : String → Vector UInt8 20) (r : Rotation)

/-- The number that is drawn for a view. -/
def data (view : ℤ) : ℕ := bigEndianUint64 (sha1 (toString (int64 (view + 1))))

/-- `Rotation.IsLeader`. -/
def isLeader (id : NodeID) (view : ℤ) : Bool :=
  if view ≤ 3 then
    if node id < r.peerNo then false else true
  else data sha1 view % uint64 r.peerNo == uint64 (int64 (node id - 1))

/-- `Rotation.FindLeaderFor`. -/
def findLeaderFor (view : ℤ) : NodeID :=
  if view ≤ 3 then newNodeID r.peerNo
  else newNodeID (int64 ((data sha1 view % uint64 r.peerNo + 1) % 2 ^ 64 : ℕ))

/-- The ids of the nodes, in the configuration. -/
def configured (n : ℤ) : Set NodeID := {i | ∃ k, 1 ≤ k ∧ k ≤ n ∧ newNodeID k = i}

/-- The number of the node that leads a view. -/
def leading (n view : ℤ) : ℤ := if view ≤ 3 then n else data sha1 view % n + 1

theorem leading_mem {n : ℤ} (h1 : 1 ≤ n) (view : ℤ) : 1 ≤ leading sha1 n view ∧ leading sha1 n view ≤ n := by
  unfold leading
  split_ifs
  · exact ⟨h1, le_rfl⟩
  · have hnn := Int.emod_nonneg (data sha1 view : ℤ) (show n ≠ 0 by omega)
    have hlt := Int.emod_lt_of_pos (data sha1 view : ℤ) (show 0 < n by omega)
    omega

variable {sha1} {n k : ℤ} {view : ℤ}

theorem newNodeID_inj {k' : ℤ} (hk : 0 ≤ k ∧ k < 2 ^ 63) (hk' : 0 ≤ k' ∧ k' < 2 ^ 63) :
    newNodeID k = newNodeID k' ↔ k = k' := by
  refine ⟨fun h => ?_, congrArg newNodeID⟩
  rw [← node_newNodeID hk.1 hk.2, h, node_newNodeID hk'.1 hk'.2]

/-- The remainder, as an integer. -/
theorem cast_mod_uint64 (h1 : 1 ≤ n) (d : ℕ) : ((d % uint64 n : ℕ) : ℤ) = d % n := by
  rw [Int.natCast_emod, uint64_of_nonneg (by omega)]

/-- `IsLeader` compares with the leading number. -/
theorem isLeader_iff (h1 : 1 ≤ n) (hn : IsInt n) (hk : 1 ≤ k ∧ k ≤ n) :
    isLeader sha1 ⟨n⟩ (newNodeID k) view = true ↔ k = leading sha1 n view := by
  unfold isLeader leading
  rw [node_newNodeID (by omega) (lt_of_le_of_lt hk.2 hn.2)]
  split_ifs with hv hlt
  · have hne : k ≠ n := ne_of_lt hlt
    simp [hne]
  · have heq : k = n := le_antisymm hk.2 (not_lt.1 hlt)
    simp [heq]
  · have hint : IsInt (k - 1) := by
      unfold IsInt at *
      omega
    have hcast := cast_mod_uint64 h1 (data sha1 view)
    have hk1 := uint64_of_nonneg (show 0 ≤ k - 1 by omega)
    rw [int64_of_isInt hint, beq_iff_eq]
    constructor
    · intro h
      rw [← hcast, h, hk1]
      omega
    · intro h
      apply Int.ofNat_inj.1
      show ((data sha1 view % uint64 n : ℕ) : ℤ) = _
      rw [hcast, hk1]
      omega

/-- `FindLeaderFor` makes an id from the leading number. -/
theorem findLeaderFor_eq (h1 : 1 ≤ n) (hn : IsInt n) :
    findLeaderFor sha1 ⟨n⟩ view = newNodeID (leading sha1 n view) := by
  have hmem := leading_mem sha1 h1 view
  unfold findLeaderFor leading at *
  split_ifs with hv
  · rfl
  · rw [if_neg hv] at hmem
    have hcast := cast_mod_uint64 h1 (data sha1 view)
    have hbound := hn.2
    have hint : IsInt ((data sha1 view % uint64 n + 1 : ℕ) : ℤ) := by
      unfold IsInt
      push_cast at *
      omega
    rw [Nat.mod_eq_of_lt (by push_cast at *; omega), int64_of_isInt hint]
    push_cast at *
    rw [hcast]

/-- The two functions are about the same of the configured nodes. -/
theorem isLeader_iff_findLeaderFor (h1 : 1 ≤ n) (hn : IsInt n) (hk : 1 ≤ k ∧ k ≤ n) :
    isLeader sha1 ⟨n⟩ (newNodeID k) view = true ↔ findLeaderFor sha1 ⟨n⟩ view = newNodeID k := by
  have hmem := leading_mem sha1 h1 view
  have hbound := hn.2
  rw [isLeader_iff h1 hn hk, findLeaderFor_eq h1 hn, newNodeID_inj (by omega) (by omega)]
  exact eq_comm

/-- **The two leader functions agree and pick one leader**, for every number of nodes and every view. -/
theorem one_leader_each_view (sha1 : String → Vector UInt8 20) (n : ℤ) (h1 : 1 ≤ n) (hn : IsInt n) (view : ℤ) :
    (∀ k, 1 ≤ k → k ≤ n →
      (isLeader sha1 ⟨n⟩ (newNodeID k) view = true ↔ findLeaderFor sha1 ⟨n⟩ view = newNodeID k)) ∧
    ∃! i, i ∈ configured n ∧ isLeader sha1 ⟨n⟩ i view = true := by
  have hmem := leading_mem sha1 h1 view
  refine ⟨fun k hk hkn => isLeader_iff_findLeaderFor h1 hn ⟨hk, hkn⟩, newNodeID (leading sha1 n view),
    ⟨⟨_, hmem.1, hmem.2, rfl⟩, ?_⟩, ?_⟩
  · exact (isLeader_iff h1 hn hmem).2 rfl
  · rintro i ⟨⟨k, hk, hkn, rfl⟩, hlead⟩
    rw [(isLeader_iff h1 hn ⟨hk, hkn⟩).1 hlead]

/-- Of four nodes, in the last view, whose successor wraps. -/
theorem one_leader_each_view_four :
    IsInt 4 ∧ ∃! i, i ∈ configured 4 ∧
      isLeader (fun s => Vector.replicate 20 s.length.toUInt8) ⟨4⟩ i (2 ^ 63 - 1) = true :=
  ⟨by unfold IsInt; decide, (one_leader_each_view _ 4 (by decide) (by unfold IsInt; decide) _).2⟩

end Rotation

/-- `election.Static`. -/
structure Static where
  master : NodeID

/-- `Static.IsLeader`. -/
def Static.isLeader (st : Static) (id : NodeID) (_view : ℤ) : Bool := id == st.master

/-- `Static.FindLeaderFor`. -/
def Static.findLeaderFor (st : Static) (_view : ℤ) : NodeID := st.master

/-- The election that `NewReplica` makes for the configured master. -/
def newElection (sha1 : String → Vector UInt8 20) (master : NodeID) (n : ℤ) : Election :=
  if master = "0" then ⟨Rotation.isLeader sha1 ⟨n⟩, Rotation.findLeaderFor sha1 ⟨n⟩⟩
  else ⟨Static.isLeader ⟨master⟩, Static.findLeaderFor ⟨master⟩⟩

/-- **Every election a replica can have is consistent on the configured nodes.** -/
theorem newElection_consistent (sha1 : String → Vector UInt8 20) (master : NodeID) {n : ℤ} (h1 : 1 ≤ n)
    (hn : IsInt n) {members : List NodeID} (hm : ∀ i ∈ members, i ∈ Rotation.configured n) :
    (newElection sha1 master n).Consistent members := by
  intro i hi view
  unfold newElection
  split_ifs
  · obtain ⟨k, hk, hkn, rfl⟩ := hm i hi
    exact Rotation.isLeader_iff_findLeaderFor h1 hn ⟨hk, hkn⟩
  · simp only [Static.isLeader, Static.findLeaderFor, beq_iff_eq]
    exact eq_comm

end Bamboo
