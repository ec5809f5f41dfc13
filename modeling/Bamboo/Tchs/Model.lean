import Bamboo.BlockChain
import Bamboo.Replica
import Bamboo.Trace

/-!
# Two-chain HotStuff

`tchs/tchs.go`, function by function; `fasthostuff/fhs.go` is the same code under other names.  As in
the model of HotStuff, channels are lists of what was written to them and the `trace` is written and
never read.

`forkChoice` assigns to the view of the certificate that `highQC` points to, and the same certificate
can be the one inside a block that is still to be processed.  So certificates are kept in a `heap`, and
`highQC`, `bufferedQCs` and `bufferedBlocks` hold addresses.

* A received block is one cell, with the certificate inside it.
* A proposal shares its certificate with `highQC`, but only until `ProcessBlock` returns on it; here it
  has a copy.
* The forest keeps blocks as they were when they were added: no one reads their certificates again.
-/

namespace Bamboo

/-- The assignment `block.QC.View = view`. -/
def Block.stamp (view : ℤ) (b : Block) : Block :=
  { b with qc := b.qc.map fun qc => { qc with view := view } }

/-- What a pointer leads to: a block with the certificate inside it, or a certificate alone. -/
inductive Cell
  | block (b : Block)
  | certificate (qc : QC)
  deriving DecidableEq

namespace Cell

/-- The certificate in the cell. -/
def cert : Cell → Option QC
  | .block b => b.qc
  | .certificate qc => some qc

/-- The assignment `qc.View = view` to the certificate in the cell. -/
def setView (view : ℤ) : Cell → Cell
  | .block b => .block (b.stamp view)
  | .certificate qc => .certificate { qc with view := view }

end Cell

/-- The struct `Tchs`. -/
structure Tchs where
  pm : Pacemaker
  lastVotedView : ℤ
  preferredView : ℤ
  bc : BlockChain
  committedBlocks : List Block
  forkedBlocks : List Block
  bufferedQCs : GoMap ℕ ℕ
  bufferedBlocks : GoMap ℤ ℕ
  highQC : ℕ
  heap : List Cell
  sent : List Envelope
  trace : List Entry

namespace Tchs

/-- `NewTchs` over `NewPacemaker`. -/
def new (n : ℕ) : Tchs := ⟨.new n, 0, 0, .new n, [], [], ∅, ∅, 0, [.certificate .initial], [], []⟩

/-- Extend the trace. -/
def note (e : Entry) : Go Tchs Unit := modify fun th => { th with trace := th.trace ++ [e] }

/-- `Send` and `Broadcast`. -/
def send (e : Envelope) (th : Tchs) : Tchs := { th with sent := th.sent ++ [e] }

/-- A new cell, and its address. -/
def alloc (c : Cell) : Go Tchs ℕ := do
  let th ← get
  set { th with heap := th.heap ++ [c] }
  return th.heap.length

section Rules

variable (th : Tchs)

/-- The certificate at an address. -/
def qcAt (p : ℕ) : QC := ((th.heap[p]?).bind Cell.cert).getD .initial

/-- `updateHighQC`. -/
def updateHighQC (p : ℕ) : Tchs :=
  if (th.qcAt th.highQC).view < (th.qcAt p).view then { th with highQC := p } else th

/-- `votingRule`; `none` is its error. -/
def votingRule (block : Block) : Option Bool :=
  th.bc.votingRule th.lastVotedView th.preferredView block

/-- `commitRule` for the certificate of a block: the block to commit.  Its error and its answer `false`
are both `none`: the caller drops the error. -/
def commitRule (qc : QC) : Option Block := do
  let parentBlock ← th.bc.getParentBlock qc.blockID
  if parentBlock.view + 1 = qc.view then some parentBlock else none

/-- `updatePreferredView`; `none` is its error. -/
def updatePreferredView (qc : QC) : Option Tchs :=
  if qc.view < 2 then some th
  else do
    let _ ← th.bc.getBlockByID qc.blockID
    if th.preferredView < qc.view then some { th with preferredView := qc.view } else some th

end Rules

variable (nd : Node)

/-- `processCertificate`, given the address of the certificate. -/
def processCertificate (p : ℕ) : Go Tchs Unit := do
  let th ← get
  let qc := th.qcAt p
  if qc.view < th.pm.curView then return
  let quorumIsVerified ← Prog.ofExcept (checkQC nd qc)
  if quorumIsVerified = false then return
  if nd.isByz = true ∧ nd.fork = true ∧ nd.elec.isLeader nd.id (qc.view + 1) = true then
    set { th with pm := th.pm.advanceView qc.view }
    return
  match th.updatePreferredView qc with
  | none => set { th with bufferedQCs := th.bufferedQCs.insert qc.blockID p }
  | some th => set { th.updateHighQC p with pm := th.pm.advanceView qc.view }

/-- `ProcessVote`. -/
def processVote (vote : Vote) : Go Tchs Unit := do
  let voteIsVerified ← Prog.ofExcept (checkVote nd vote)
  if voteIsVerified = false then return
  let th ← get
  let (built, bc) := th.bc.addVote nd.toConfig vote
  set { th with bc := bc }
  match built with
  | none => return
  | some qc =>
    let qc := { qc with leader := nd.id }
    note (.built qc)
    let p ← alloc (.certificate qc)
    match bc.getBlockByID qc.blockID with
    | none => modify fun th => { th with bufferedQCs := th.bufferedQCs.insert qc.blockID p }
    | some _ => processCertificate nd p

/-- The first part of `ProcessBlock`: everything before `AddBlock`.  The block goes on when the answer
is `none`; otherwise the answer is what `ProcessBlock` returns. -/
def vetBlock (p : ℕ) (block : Block) : Go Tchs (Option (Option BlockError)) := do
  let th ← get
  let _ ← Prog.ofExcept (checkBlock nd block)  -- a wrong signature is only logged
  if th.pm.curView + 1 < block.view then
    set { th with bufferedBlocks := th.bufferedBlocks.insert (block.view - 1) p }
    return some none
  if block.qc = none then return some (some .noQC)
  modify fun th => th.updateHighQC p
  (if block.proposer ≠ nd.id then processCertificate nd p else pure ())
  let th ← get
  if block.view < th.pm.curView then return some none
  if nd.elec.isLeader block.proposer block.view = false then
    return some (some (.invalidLeader block.view block.proposer))
  return none

/-- The commit of `ProcessBlock`, for a certificate of the view before.  If there is nothing to commit
the block is not voted for.  The answer is as for `vetBlock`. -/
def tryCommit (block : Block) (qc : QC) : Go Tchs (Option (Option BlockError)) := do
  let th ← get
  if ¬ (2 ≤ qc.view ∧ qc.view + 1 = block.view) then return none
  match th.commitRule qc with
  | none => return some none
  | some b =>
    let res ← Prog.zoom bc (fun bc th => { th with bc := bc })
      (BlockChain.commitBlock b.id th.pm.curView)
    match res with
    | none => return some (some .cannotCommit)
    | some (committedBlocks, forkedBlocks) =>
      note (.committed qc b th.bc.forrest committedBlocks)
      modify fun th => { th with
        committedBlocks := th.committedBlocks ++ committedBlocks
        forkedBlocks := th.forkedBlocks ++ forkedBlocks }
      return none

/-- Process the certificate that waited for the block. -/
def processBufferedQC (id : ℕ) : Go Tchs Unit := do
  let th ← get
  match th.bufferedQCs.lookup id with
  | none => return
  | some p =>
    processCertificate nd p
    modify fun th => { th with bufferedQCs := th.bufferedQCs.erase id }

/-- The vote of `ProcessBlock`, if the voting rule grants it.  The answer is as for `vetBlock`. -/
def castVote (block : Block) : Go Tchs (Option (Option BlockError)) := do
  let th ← get
  match th.votingRule block with
  | none => return some (some .cannotVote)
  | some false => return some none
  | some true =>
    let vote ← Prog.ofExcept (makeVote nd.toConfig block.view nd.id block.id)
    note (.voted block)
    let voteAggregator := nd.elec.findLeaderFor (block.view + 1)
    (if voteAggregator = nd.id then processVote nd vote
      else modify (send ⟨some voteAggregator, .vote vote⟩))
    return none

/-- The second part of `ProcessBlock`: `AddBlock`, the commit, the certificate that waited for the block,
and the vote. -/
def insertAndVote (block : Block) (qc : QC) : Go Tchs (Option (Option BlockError)) := do
  let th ← get
  note (.accepted block th.preferredView (th.bc.getBlockByID block.prevID))
  Prog.zoom bc (fun bc th => { th with bc := bc }) (BlockChain.addBlock block)
  match ← tryCommit block qc with
  | some err => return some err
  | none =>
    processBufferedQC nd block.id
    castVote nd block

/-- `ProcessBlock`, given the address of the block, with a bound on the number of buffered blocks it
goes on with.  Buffered blocks stay where they are. -/
def processBlockN : ℕ → ℕ → Go Tchs (Option BlockError)
  | 0, _ => throw .diverge
  | fuel + 1, p => do
    let th ← get
    match th.heap[p]? with
    | some (.block block) =>
      match ← vetBlock nd p block with
      | some err => return err
      | none =>
        match ← insertAndVote nd block (th.qcAt p) with
        | some err => return err
        | none =>
          let th ← get
          match th.bufferedBlocks.lookup block.view with
          | none => return none
          | some p => processBlockN fuel p
    | _ => throw .nilDereference

/-- `ProcessBlock` on a block that has just been received or made; `none` is a `nil` error.  A block of
view `v` is followed by a buffered one of view `v + 1` at most, so there are no more rounds than
buffered blocks, and one. -/
def processBlock (block : Block) : Go Tchs (Option BlockError) := do
  let p ← alloc (.block block)
  let th ← get
  processBlockN nd (th.bufferedBlocks.entries.length + 1) p

/-- `processTC`. -/
def processTC (tc : TC) : Go Tchs Unit := do
  let th ← get
  if tc.view < th.pm.curView then return
  set { th with pm := th.pm.advanceView tc.view }

/-- `ProcessRemoteTmo`. -/
def processRemoteTmo (tmo : TMO) : Go Tchs Unit := do
  let th ← get
  if tmo.view < th.pm.curView then return
  let (tc, pm) := th.pm.processRemoteTmo tmo
  set { th with pm := pm }
  match tc with
  | none => return
  | some tc => processTC tc

/-- `ProcessLocalTmo`. -/
def processLocalTmo (view : ℤ) : Go Tchs Unit := do
  modify fun th => { th with pm := th.pm.advanceView (view + 1) }
  let th ← get
  let tmo : TMO := ⟨view + 1, nd.id, some (th.qcAt th.highQC)⟩
  modify (send ⟨none, .tmo tmo⟩)
  processRemoteTmo tmo

/-- `forkChoice`: the certificate of `highQC`, stamped with the view before the current one. -/
def forkChoice : Go Tchs QC := do
  modify fun th => { th with heap := th.heap.modify th.highQC (Cell.setView (th.pm.curView - 1)) }
  let th ← get
  return th.qcAt th.highQC

/-- `MakeProposal`. -/
def makeProposal (view : ℤ) (payload : List Transaction) : Go Tchs Block := do
  let qc ← forkChoice
  Prog.ofExcept (makeBlock nd.toConfig view qc qc.blockID payload nd.id)

/-- `MakePProposal`, once the ordering layer has a batch. -/
def makePProposal (view : ℤ) (pBatch : PBatch) : Go Tchs Block := do
  let qc ← forkChoice
  Prog.ofExcept (makePBlock nd.toConfig view qc qc.blockID pBatch nd.id)

/-- Two-chain HotStuff as an implementation of `Safety`. -/
def safety : Safety Tchs where
  pm := pm
  setPm := fun pm th => { th with pm := pm }
  outbox := sent
  send := send
  processBlock := fun b => do let _ ← processBlock nd b
  processVote := processVote nd
  processRemoteTmo := processRemoteTmo
  processLocalTmo := processLocalTmo nd
  makeProposal := makeProposal nd
  makePProposal := makePProposal nd

end Tchs

/-- A network of honest replicas of two-chain HotStuff. -/
def tchsNet (cf : Config) (members : List NodeID) : Net.System NodeID Msg Event Fault Tchs :=
  network cf members Tchs.safety (Tchs.new cf.n)

end Bamboo
