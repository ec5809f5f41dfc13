import Bamboo.Types

/-!
# Configuration, election and signatures

What a replica is given by the rest of the system: the number of nodes, the election, the hash that
makes block ids and the ECDSA primitives (`config`, `election/election.go`, `crypto/sign.go`,
`crypto/signature.go`, `crypto/ecdsa.go`).  SHA3 over the JSON of a block and ECDSA itself are
parameters; the table look-ups and the loops around them are the source's.
-/

namespace Bamboo

/-- `election.Election`. -/
structure Election where
  isLeader : NodeID → ℤ → Bool
  findLeaderFor : ℤ → NodeID

/-- The two functions of an election agree on the members: one leader for each view. -/
def Election.Consistent (e : Election) (members : List NodeID) : Prop :=
  ∀ id ∈ members, ∀ view, e.isLeader id view = true ↔ e.findLeaderFor view = id

/-- What all replicas of a deployment share. -/
structure Config where
  /-- `config.GetConfig().N()` -/
  n : ℕ
  elec : Election
  /-- `config.GetConfig().Strategy == FORK` -/
  fork : Bool
  /-- `crypto.MakeID` of a `rawBlock` -/
  makeID : RawBlock → ℕ
  /-- `crypto.MakeID` of a `rawPBlock` -/
  makePID : RawPBlock → ℕ
  /-- `crypto.MakeID` of the string "Genesis block" -/
  genesisID : ℕ
  /-- `ecdsa.Sign` under `keys[k]`, in the two parts that `Sign` stores -/
  ecdsaSign : ℕ → ℕ → List UInt8 × List UInt8
  /-- `ecdsa.Verify` under `pubKeys[k]` -/
  ecdsaVerify : ℕ → ℕ → List UInt8 → List UInt8 → Bool
  /-- the order in which `range` visits the votes of a map -/
  rangeVotes : List Vote → List Vote
  rangeVotes_perm : ∀ l, (rangeVotes l).Perm l

/-- A replica's `node.Node`: its id and whether it runs as a Byzantine node. -/
structure Node extends Config where
  id : NodeID
  isByz : Bool

variable (cf : Config)

/-- The index `nodeID.Node()-1` into the key tables of length `n`. -/
def keyIndex (i : NodeID) : Except Fault ℕ :=
  if 1 ≤ node i ∧ node i ≤ cf.n then .ok (node i - 1).toNat else .error .indexOutOfRange

/-- `PrivSign` with a `nil` hasher. -/
def privSign (data : ℕ) (i : NodeID) : Except Fault Signature := do
  let k ← keyIndex cf i
  return [(cf.ecdsaSign k data).1, (cf.ecdsaSign k data).2]

/-- `Signature.ToECDSA`. -/
def toECDSA : Signature → Except Fault (List UInt8 × List UInt8)
  | r :: s :: _ => .ok (r, s)
  | _ => .error .indexOutOfRange

/-- `PubVerify`; its error is always `nil`. -/
def pubVerify (sig : Signature) (data : ℕ) (i : NodeID) : Except Fault Bool := do
  let k ← keyIndex cf i
  let rs ← toECDSA sig
  return cf.ecdsaVerify k data rs.1 rs.2

/-- `VerifyQuorumSignature`: the loop over the signers stops at the first signature that does not
verify; a signer without a signature is an index out of range. -/
def verifyQuorumSignature : List Signature → ℕ → List NodeID → Except Fault Bool
  | _, _, [] => .ok true
  | [], _, _ :: _ => .error .indexOutOfRange
  | sig :: sigs, blockID, signer :: signers => do
    if ← pubVerify cf sig blockID signer then
      verifyQuorumSignature sigs blockID signers
    else
      return false

/-- `VerifyQuorumSignature` on the fields of a certificate. -/
def verifyQC (qc : QC) : Except Fault Bool :=
  verifyQuorumSignature cf qc.aggSig qc.blockID qc.signers

/-- `MakeVote`. -/
def makeVote (view : ℤ) (voter : NodeID) (id : ℕ) : Except Fault Vote := do
  let sig ← privSign cf id voter
  return ⟨view, voter, id, sig⟩

/-- `MakeBlock`. -/
def makeBlock (view : ℤ) (qc : QC) (prevID : ℕ) (payload : List Transaction)
    (proposer : NodeID) : Except Fault Block := do
  let b : Block := ⟨view, some qc, proposer, payload, prevID, [], zeroID, none⟩
  let id := cf.makeID b.raw
  return { b with id := id, sig := ← privSign cf id proposer }

/-- `MakePBlock`. -/
def makePBlock (view : ℤ) (qc : QC) (prevID : ℕ) (pBatch : PBatch)
    (proposer : NodeID) : Except Fault Block := do
  let b : Block := ⟨view, some qc, proposer, [], prevID, [], zeroID, some pBatch⟩
  let id := cf.makePID b.rawP
  return { b with id := id, sig := ← privSign cf id proposer }

/-- What the code relies on in ECDSA: a signature made under a key verifies under it. -/
def Config.SignaturesVerify : Prop :=
  ∀ k data, cf.ecdsaVerify k data (cf.ecdsaSign k data).1 (cf.ecdsaSign k data).2 = true

variable {cf}

theorem makeVote_eq_ok {view : ℤ} {voter : NodeID} {id : ℕ} {v : Vote}
    (h : makeVote cf view voter id = .ok v) :
    v.view = view ∧ v.voter = voter ∧ v.blockID = id ∧ privSign cf id voter = .ok v.signature := by
  unfold makeVote at h
  cases hs : privSign cf id voter with
  | error e => simp [hs, bind, Except.bind] at h
  | ok sig =>
    simp only [hs, bind, Except.bind, pure, Except.pure, Except.ok.injEq] at h
    subst h
    exact ⟨rfl, rfl, rfl, rfl⟩

/-- A block made for a proposal has the fields it was made from. -/
theorem makeBlock_eq_ok {view : ℤ} {qc : QC} {prevID : ℕ} {payload : List Transaction}
    {proposer : NodeID} {b : Block} (h : makeBlock cf view qc prevID payload proposer = .ok b) :
    b.view = view ∧ b.qc = some qc ∧ b.proposer = proposer ∧ b.prevID = prevID := by
  unfold makeBlock at h
  simp only [bind, Except.bind, pure, Except.pure] at h
  split at h
  · cases h
  · cases h; exact ⟨rfl, rfl, rfl, rfl⟩

theorem payload_makeBlock {view : ℤ} {qc : QC} {prevID : ℕ} {payload : List Transaction} {proposer : NodeID}
    {b : Block} (h : makeBlock cf view qc prevID payload proposer = .ok b) : b.payload = payload := by
  unfold makeBlock at h
  simp only [bind, Except.bind, pure, Except.pure] at h
  split at h
  · cases h
  · cases h
    rfl

theorem makePBlock_eq_ok {view : ℤ} {qc : QC} {prevID : ℕ} {pBatch : PBatch}
    {proposer : NodeID} {b : Block} (h : makePBlock cf view qc prevID pBatch proposer = .ok b) :
    b.view = view ∧ b.qc = some qc ∧ b.proposer = proposer ∧ b.prevID = prevID := by
  unfold makePBlock at h
  simp only [bind, Except.bind, pure, Except.pure] at h
  split at h
  · cases h
  · cases h; exact ⟨rfl, rfl, rfl, rfl⟩

/-- A node's own signature verifies under its id. -/
theorem pubVerify_privSign (hv : cf.SignaturesVerify) {data : ℕ} {i : NodeID}
    {sig : Signature} (h : privSign cf data i = .ok sig) : pubVerify cf sig data i = .ok true := by
  unfold privSign at h
  unfold pubVerify
  cases hk : keyIndex cf i with
  | error e => simp [hk, bind, Except.bind] at h
  | ok k =>
    simp only [hk, bind, Except.bind, pure, Except.pure, Except.ok.injEq] at h ⊢
    subst h
    simp [toECDSA, hv k data]

/-- A certificate whose signatures are the signers' own verifies. -/
theorem verifyQuorumSignature_of_signed (hv : cf.SignaturesVerify) {blockID : ℕ}
    {sigs : List Signature} {signers : List NodeID}
    (h : List.Forall₂ (fun sig i => privSign cf blockID i = .ok sig) sigs signers) :
    verifyQuorumSignature cf sigs blockID signers = .ok true := by
  induction h with
  | nil => rfl
  | cons hs _ ih =>
    simp only [verifyQuorumSignature, pubVerify_privSign hv hs, bind, Except.bind, if_true, ih]

/-! ### Faults: an index out of range -/

variable (nd : Node)

/-- The check of a certificate: one that names this replica as its leader is not verified. -/
def checkQC (qc : QC) : Except Fault Bool :=
  if qc.leader ≠ nd.id then verifyQC nd.toConfig qc else .ok true

/-- The check of a vote. -/
def checkVote (vote : Vote) : Except Fault Bool :=
  if vote.voter ≠ nd.id then pubVerify nd.toConfig vote.signature vote.blockID vote.voter else .ok true

/-- The check of a block. -/
def checkBlock (block : Block) : Except Fault Bool :=
  if block.proposer ≠ nd.id then pubVerify nd.toConfig block.sig block.id block.proposer else .ok true

/-- The check of a certificate lets it pass. -/
def Passes (qc : QC) : Prop := qc.leader = nd.id ∨ verifyQC nd.toConfig qc = .ok true

variable {nd}

theorem passes_of_checkQC {qc : QC} (h : checkQC nd qc = .ok true) : Passes nd qc := by
  unfold checkQC at h
  split_ifs at h with hl
  · exact Or.inr h
  · exact Or.inl (not_not.1 hl)

theorem verified_of_checkVote {v : Vote} (h : checkVote nd v = .ok true) :
    v.voter = nd.id ∨ pubVerify nd.toConfig v.signature v.blockID v.voter = .ok true := by
  unfold checkVote at h
  split_ifs at h with hl
  · exact Or.inr h
  · exact Or.inl (not_not.1 hl)

end Bamboo
