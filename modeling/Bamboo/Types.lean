import Bamboo.Lib.Prog

/-!
# The data of the replicas

The records that replicas build, keep and exchange: certificates, votes, blocks and timeout messages
(`types`, `identity`, `crypto`, `blockchain/block.go`, `blockchain/quorum.go`, `pacemaker/model.go`).

* A `types.View` is an exact integer.  Go's `int` has 64 bits; on its range the two agree, except for
  the successor of the largest `int`.
* A `crypto.Identifier` is a 32-byte array, here read as a natural number; `zeroID` is its zero value.
* A Go map is an association list without repeated keys (`AList`).
* A pointer that may be `nil` is an `Option`.

Time stamps, log lines and the measurement fields of `Replica` are left out.
-/

namespace Bamboo

/-- The zero value of `crypto.Identifier`, which the first certificate carries. -/
def zeroID : ℕ := 0

/-- `identity.NodeID`. -/
abbrev NodeID := String

/-- `crypto.Signature`: for ECDSA the decimal digits of `r` and of `s`. -/
abbrev Signature := List (List UInt8)

/-- A Go map. -/
abbrev GoMap (κ ν : Type) := AList (fun _ : κ => ν)

theorem GoMap.mem_keys {κ ν : Type} [DecidableEq κ] {m : GoMap κ ν} {k : κ} {x : ν}
    (h : m.lookup k = some x) : k ∈ m.keys := by
  rw [← AList.mem_keys, ← AList.lookup_isSome, h]
  rfl

/-- Go's conversion `uint64(v)` of an `int`. -/
def uint64 (v : ℤ) : ℕ := if 0 ≤ v then v.toNat else (v + 2 ^ 64).toNat

theorem uint64_of_nonneg {v : ℤ} (h : 0 ≤ v) : (uint64 v : ℤ) = v := by
  rw [uint64, if_pos h, Int.toNat_of_nonneg h]

/-- The value of Go's `int` arithmetic on 64 bits whose exact result is `v`. -/
def int64 (v : ℤ) : ℤ := if v % 2 ^ 64 < 2 ^ 63 then v % 2 ^ 64 else v % 2 ^ 64 - 2 ^ 64

/-- The values of an `int`. -/
def IsInt (v : ℤ) : Prop := -2 ^ 63 ≤ v ∧ v < 2 ^ 63

theorem int64_of_isInt {v : ℤ} (h : IsInt v) : int64 v = v := by
  unfold IsInt at h
  unfold int64
  split_ifs <;> omega

theorem isInt_int64 (v : ℤ) : IsInt (int64 v) := by
  unfold int64 IsInt
  split_ifs <;> omega

/-- What ends a goroutine: a run-time panic, or a loop that never ends. -/
inductive Fault
  | indexOutOfRange
  | nilDereference
  | diverge
  deriving DecidableEq, Repr

/-- Go code over a state `σ`: a fault keeps the state reached so far. -/
abbrev Go (σ α : Type) := EStateM Fault σ α

/-! ### Votes and certificates -/

/-- `blockchain.Vote`. -/
structure Vote where
  view : ℤ
  voter : NodeID
  blockID : ℕ
  signature : Signature
  deriving DecidableEq, Repr

/-- `blockchain.QC`. -/
structure QC where
  leader : NodeID
  view : ℤ
  blockID : ℕ
  signers : List NodeID
  aggSig : List Signature
  signature : Signature
  deriving DecidableEq, Repr

/-- The certificate every HotStuff replica starts with, `&blockchain.QC{View: 0}`. -/
def QC.initial : QC := ⟨"", 0, zeroID, [], [], []⟩

/-! ### Blocks -/

/-- `db.Command`; a `nil` value makes it a read. -/
structure Command where
  key : ℤ
  value : Option (List UInt8)
  clientID : NodeID
  commandID : ℤ
  deriving DecidableEq, Repr

/-- The part of `message.Transaction` that blocks carry through consensus. -/
structure Transaction where
  id : String
  command : Command
  deriving DecidableEq, Repr

/-- A `PartialOrderBatch` of the ordering layer, as the bytes of its message. -/
structure PBatch where
  bytes : List UInt8
  deriving DecidableEq, Repr

/-- `blockchain.Block`. -/
structure Block where
  view : ℤ
  qc : Option QC
  proposer : NodeID
  payload : List Transaction
  prevID : ℕ
  sig : Signature
  id : ℕ
  pBatch : Option PBatch
  deriving DecidableEq, Repr

/-- `rawBlock`, the part of a block that its id is computed from. -/
structure RawBlock where
  view : ℤ
  qc : Option QC
  proposer : NodeID
  payload : List String
  prevID : ℕ
  deriving DecidableEq, Repr

/-- `rawPBlock`, the same for a block with a batch of the ordering layer. -/
structure RawPBlock where
  view : ℤ
  qc : Option QC
  proposer : NodeID
  payload : Option PBatch
  prevID : ℕ
  deriving DecidableEq, Repr

namespace Block

/-- `BlockContainer.Level`. -/
def level (b : Block) : ℕ := uint64 b.view

/-- `BlockContainer.Parent`: the parent's id and the level the certificate gives it.  There is no
answer when the certificate is `nil`. -/
def parent (b : Block) : Option (ℕ × ℕ) := b.qc.map fun qc => (b.prevID, uint64 qc.view)

/-- The projection `makeID` hashes: of the payload only the transaction ids. -/
def raw (b : Block) : RawBlock :=
  ⟨b.view, b.qc, b.proposer, b.payload.map Transaction.id, b.prevID⟩

/-- The projection `makePID` hashes. -/
def rawP (b : Block) : RawPBlock := ⟨b.view, b.qc, b.proposer, b.pBatch, b.prevID⟩

end Block

/-! ### Timeout messages -/

/-- `pacemaker.TMO`. -/
structure TMO where
  view : ℤ
  nodeID : NodeID
  highQC : Option QC
  deriving DecidableEq, Repr

/-- `pacemaker.TC`; its signature fields are never set. -/
structure TC where
  view : ℤ
  deriving DecidableEq, Repr

/-- What replicas send each other. -/
inductive Msg
  | block (b : Block)
  | vote (v : Vote)
  | tmo (t : TMO)
  deriving DecidableEq, Repr

/-! ### Node ids -/

/-- `strconv.ParseUint(s, 10, 64)`: decimal digits only, at least one, below `2 ^ 64`. -/
def parseUint (s : String) : Option ℕ :=
  match s.toList with
  | [] => none
  | cs =>
    (cs.foldl (fun acc ch => acc.bind fun k =>
      if ch.isDigit then some (10 * k + (ch.toNat - '0'.toNat)) else none) (some 0)).filter
        (· < 2 ^ 64)

/-- `NodeID.Node`: the number an id stands for, `0` when it does not parse.  The last step is Go's
conversion of a `uint64` to `int`. -/
def node (i : NodeID) : ℤ :=
  match parseUint i with
  | some k => if k < 2 ^ 63 then k else k - 2 ^ 64
  | none => 0

/-- `NewNodeID`. -/
def newNodeID (k : ℤ) : NodeID := toString k.natAbs

end Bamboo
