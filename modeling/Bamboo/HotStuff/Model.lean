import Bamboo.BlockChain
import Bamboo.Replica
import Bamboo.Trace

/-!
# HotStuff

`hotstuff/hotstuff.go`, function by function.  The channels `committedBlocks` and `forkedBlocks` are
the lists of what was written to them, `sent` is what the node's socket was given.

The state also carries a `trace`: the program points a replica went through, with the values it found
there.  The handlers write it and never read it; it is what statements about whole runs talk about.
-/

namespace Bamboo

/-- The struct `HotStuff`. -/
structure HotStuff where
  pm : Pacemaker
  lastVotedView : ℤ
  preferredView : ℤ
  highQC : QC
  bc : BlockChain
  committedBlocks : List Block
  forkedBlocks : List Block
  bufferedQCs : GoMap ℕ QC
  bufferedBlocks : GoMap ℤ Block
  sent : List Envelope
  trace : List Entry

namespace HotStuff

/-- `NewHotStuff` over `NewPacemaker`. -/
def new (n : ℕ) : HotStuff :=
  ⟨.new n, 0, 0, .initial, .new n, [], [], ∅, ∅, [], []⟩

/-- Extend the trace. -/
def note (e : Entry) : Go HotStuff Unit := modify fun hs => { hs with trace := hs.trace ++ [e] }

/-- `Send` and `Broadcast`. -/
def send (e : Envelope) (hs : HotStuff) : HotStuff := { hs with sent := hs.sent ++ [e] }

section Rules

variable (hs : HotStuff)

/-- `updateHighQC`. -/
def updateHighQC (qc : QC) : HotStuff :=
  if hs.highQC.view < qc.view then { hs with highQC := qc } else hs

/-- `votingRule`; `none` is its error. -/
def votingRule (block : Block) : Option Bool :=
  hs.bc.votingRule hs.lastVotedView hs.preferredView block

/-- `commitRule`: the block to commit.  Its error and its answer `false` are both `none`: the caller
drops the error. -/
def commitRule (qc : QC) : Option Block := do
  let parentBlock ← hs.bc.getParentBlock qc.blockID
  let grandParentBlock ← hs.bc.getParentBlock parentBlock.id
  if grandParentBlock.view + 1 = parentBlock.view ∧ parentBlock.view + 1 = qc.view then
    some grandParentBlock
  else none

/-- `updatePreferredView`; `none` is its error. -/
def updatePreferredView (qc : QC) : Option HotStuff :=
  if qc.view ≤ 2 then some hs
  else do
    let _ ← hs.bc.getBlockByID qc.blockID
    let grandParentBlock ← hs.bc.getParentBlock qc.blockID
    if hs.preferredView < grandParentBlock.view then
      some { hs with preferredView := grandParentBlock.view }
    else some hs

end Rules

variable (nd : Node)

/-- The last part of `processCertificate`: the commit rule and the commit. -/
def tryCommit (qc : QC) : Go HotStuff Unit := do
  let hs ← get
  match hs.commitRule qc with
  | none => return
  | some block =>
    let res ← Prog.zoom bc (fun bc hs => { hs with bc := bc })
      (BlockChain.commitBlock block.id hs.pm.curView)
    match res with
    | none => return
    | some (committedBlocks, forkedBlocks) =>
      note (.committed qc block hs.bc.forrest committedBlocks)
      modify fun hs => { hs with
        committedBlocks := hs.committedBlocks ++ committedBlocks
        forkedBlocks := hs.forkedBlocks ++ forkedBlocks }

/-- `processCertificate`. -/
def processCertificate (qc : QC) : Go HotStuff Unit := do
  let hs ← get
  if qc.view < hs.pm.curView then return
  let quorumIsVerified ← Prog.ofExcept (checkQC nd qc)
  if quorumIsVerified = false then return
  if nd.isByz = true ∧ nd.fork = true ∧ nd.elec.isLeader nd.id (qc.view + 1) = true then
    set { hs with pm := hs.pm.advanceView qc.view }
    return
  match hs.updatePreferredView qc with
  | none => set { hs with bufferedQCs := hs.bufferedQCs.insert qc.blockID qc }
  | some hs =>
    set ({ hs with pm := hs.pm.advanceView qc.view }.updateHighQC qc)
    if qc.view < 3 then return
    tryCommit qc

/-- `ProcessVote`. -/
def processVote (vote : Vote) : Go HotStuff Unit := do
  let voteIsVerified ← Prog.ofExcept (checkVote nd vote)
  if voteIsVerified = false then return
  let hs ← get
  let (built, bc) := hs.bc.addVote nd.toConfig vote
  set { hs with bc := bc }
  match built with
  | none => return
  | some qc =>
    let qc := { qc with leader := nd.id }
    note (.built qc)
    match bc.getBlockByID qc.blockID with
    | none => modify fun hs => { hs with bufferedQCs := hs.bufferedQCs.insert qc.blockID qc }
    | some _ => processCertificate nd qc

/-- The first part of `ProcessBlock`: everything before `AddBlock`.  The block goes on when the answer
is `none`; otherwise the answer is what `ProcessBlock` returns. -/
def vetBlock (block : Block) : Go HotStuff (Option (Option BlockError)) := do
  let hs ← get
  let _ ← Prog.ofExcept (checkBlock nd block)  -- a wrong signature is only logged
  if hs.pm.curView + 1 < block.view then
    set { hs with bufferedBlocks := hs.bufferedBlocks.insert (block.view - 1) block }
    return some none
  match block.qc with
  | none => return some (some .noQC)
  | some qc =>
    note (.offered block hs.highQC.view)
    modify fun hs => hs.updateHighQC qc
    (if block.proposer ≠ nd.id then processCertificate nd qc else pure ())
    let hs ← get
    if block.view < hs.pm.curView then return some none
    if nd.elec.isLeader block.proposer block.view = false then
      return some (some (.invalidLeader block.view block.proposer))
    return none

/-- Process the certificate that waited for the block. -/
def processBufferedQC (id : ℕ) : Go HotStuff Unit := do
  let hs ← get
  match hs.bufferedQCs.lookup id with
  | none => return
  | some qc =>
    processCertificate nd qc
    modify fun hs => { hs with bufferedQCs := hs.bufferedQCs.erase id }

/-- The vote of `ProcessBlock`, if the voting rule grants it.  The answer is as for `vetBlock`. -/
def castVote (block : Block) : Go HotStuff (Option (Option BlockError)) := do
  let hs ← get
  match hs.votingRule block with
  | none => return some (some .cannotVote)
  | some false => return some none
  | some true =>
    let vote ← Prog.ofExcept (makeVote nd.toConfig block.view nd.id block.id)
    note (.voted block)
    let voteAggregator := nd.elec.findLeaderFor (block.view + 1)
    (if voteAggregator = nd.id then processVote nd vote
      else modify (send ⟨some voteAggregator, .vote vote⟩))
    return none

/-- The second part of `ProcessBlock`: `AddBlock`, the certificate that waited for the block, and the
vote. -/
def insertAndVote (block : Block) : Go HotStuff (Option (Option BlockError)) := do
  let hs ← get
  note (.accepted block hs.preferredView (hs.bc.getBlockByID block.prevID))
  Prog.zoom bc (fun bc hs => { hs with bc := bc }) (BlockChain.addBlock block)
  processBufferedQC nd block.id
  castVote nd block

/-- `ProcessBlock` with a bound on the number of buffered blocks it goes on with. -/
def processBlockN : ℕ → Block → Go HotStuff (Option BlockError)
  | 0, _ => throw .diverge
  | fuel + 1, block => do
    match ← vetBlock nd block with
    | some err => return err
    | none =>
      match ← insertAndVote nd block with
      | some err => return err
      | none =>
        let hs ← get
        match hs.bufferedBlocks.lookup block.view with
        | none => return none
        | some b =>
          let _ ← processBlockN fuel b
          modify fun hs => { hs with bufferedBlocks := hs.bufferedBlocks.erase block.view }
          return none

/-- `ProcessBlock`; `none` is a `nil` error.  A block of view `v` is followed by a buffered one of view
`v + 1` at most, so there are no more rounds than buffered blocks, and one. -/
def processBlock (block : Block) : Go HotStuff (Option BlockError) := do
  let hs ← get
  processBlockN nd (hs.bufferedBlocks.entries.length + 1) block

/-- `processTC`. -/
def processTC (tc : TC) : Go HotStuff Unit := do
  let hs ← get
  if tc.view < hs.pm.curView then return
  set { hs with pm := hs.pm.advanceView tc.view }

/-- `ProcessRemoteTmo`. -/
def processRemoteTmo (tmo : TMO) : Go HotStuff Unit := do
  (match tmo.highQC with
    | none => throw .nilDereference
    | some qc => processCertificate nd qc)
  let hs ← get
  let (tc, pm) := hs.pm.processRemoteTmo tmo
  set { hs with pm := pm }
  match tc with
  | none => return
  | some tc => processTC tc

/-- `ProcessLocalTmo`. -/
def processLocalTmo (view : ℤ) : Go HotStuff Unit := do
  modify fun hs => { hs with pm := hs.pm.advanceView view }
  let hs ← get
  let tmo : TMO := ⟨view + 1, nd.id, some hs.highQC⟩
  modify (send ⟨none, .tmo tmo⟩)
  processRemoteTmo nd tmo

/-- `forkChoice`.  The forking node writes `curView - 1` into the certificate it chose, which is the
one in its `highQC` or the one inside a stored block.  These may be one object in the code; here only the one that was
chosen changes. -/
def forkChoice : Go HotStuff QC := do
  let hs ← get
  if nd.isByz = false ∨ nd.fork = false then return hs.highQC
  match hs.bc.getBlockByID hs.highQC.blockID with
  | none => throw .nilDereference
  | some parBlock =>
    match parBlock.qc with
    | none => throw .nilDereference
    | some parQC =>
      if parQC.view < hs.preferredView then
        let choice := { hs.highQC with view := hs.pm.curView - 1 }
        set { hs with highQC := choice }
        return choice
      else
        let choice := { parQC with view := hs.pm.curView - 1 }
        match hs.bc.forrest.vertices.lookup hs.highQC.blockID with
        | none => throw .nilDereference
        | some p =>
          let forrest := hs.bc.forrest.modifyAt p fun c =>
            { c with vertex := some { parBlock with qc := some choice } }
          set { hs with bc := { hs.bc with forrest := forrest } }
          return choice

/-- `MakeProposal`. -/
def makeProposal (view : ℤ) (payload : List Transaction) : Go HotStuff Block := do
  let qc ← forkChoice nd
  Prog.ofExcept (makeBlock nd.toConfig view qc qc.blockID payload nd.id)

/-- `MakePProposal`, once the ordering layer has a batch. -/
def makePProposal (view : ℤ) (pBatch : PBatch) : Go HotStuff Block := do
  let qc ← forkChoice nd
  Prog.ofExcept (makePBlock nd.toConfig view qc qc.blockID pBatch nd.id)

/-- HotStuff as an implementation of `Safety`. -/
def safety : Safety HotStuff where
  pm := pm
  setPm := fun pm hs => { hs with pm := pm }
  outbox := sent
  send := send
  processBlock := fun b => do let _ ← processBlock nd b
  processVote := processVote nd
  processRemoteTmo := processRemoteTmo nd
  processLocalTmo := processLocalTmo nd
  makeProposal := makeProposal nd
  makePProposal := makePProposal nd

end HotStuff

/-- A network of honest HotStuff replicas. -/
def hotStuffNet (cf : Config) (members : List NodeID) : Net.System NodeID Msg Event Fault HotStuff :=
  network cf members HotStuff.safety (HotStuff.new cf.n)

end Bamboo
