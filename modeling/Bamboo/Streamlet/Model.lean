import Bamboo.BlockChain
import Bamboo.Replica

/-!
# Streamlet

`streamlet/streamlet.go`, function by function; `lbft/lbft.go` is the same code under other names.  As in
the model of HotStuff, channels are lists of what was written to them, `sent` is what the node's socket was
given, and the `trace` is written and never read.

* `ProcessBlock`, `ProcessVote` and `processCertificate` call each other.  The functions here have a bound on
  the depth of these calls; statements about them are for every bound.
* Every access to `notarizedChain` and to its levels goes through `index`, which leaves an entry in the
  trace.
* `processTC` starts a goroutine for `AdvanceView`.  It is a task in `pending`, and runs at any later moment
  between two handlers.
* `echoedVote` is never read and left out.
-/

namespace Bamboo

namespace Streamlet

/-- One program point a replica went through. -/
inductive Entry
  /-- an element of a slice of length `len` is read -/
  | index (i : ℤ) (len : ℕ)
  /-- `ProcessBlock` is about to call `AddBlock` -/
  | accepted (b : Block) (chain : List (List Block))
  /-- the replica made the block for a proposal -/
  | proposed (b : Block)
  /-- the replica voted for the block, in this view -/
  | voted (b : Block) (view : ℤ) (chain : List (List Block))
  /-- `ProcessVote` built a certificate -/
  | built (qc : QC)
  /-- `updateNotarizedChain` has found the certified block -/
  | notarizing (b : Block) (chain : List (List Block))
  /-- the replica committed `b`; `batch` is what was written to the channel -/
  | committed (b : Block) (chain : List (List Block)) (batch : List Block)
  deriving DecidableEq

end Streamlet

/-- The struct `Streamlet`. -/
structure Streamlet where
  pm : Pacemaker
  bc : BlockChain
  notarizedChain : List (List Block)
  bufferedBlocks : GoMap ℕ Block
  bufferedQCs : GoMap ℕ QC
  bufferedNotarizedBlock : GoMap ℕ QC
  committedBlocks : List Block
  forkedBlocks : List Block
  echoedBlock : GoMap ℕ Unit
  /-- the views of the goroutines that wait to call `AdvanceView` -/
  pending : List ℤ
  sent : List Envelope
  trace : List Streamlet.Entry

namespace Streamlet

/-- `NewStreamlet` over `NewPacemaker`. -/
def new (n : ℕ) : Streamlet :=
  ⟨(Pacemaker.new n).advanceView 0, .new n, [], ∅, ∅, ∅, [], [], ∅, [], [], []⟩

/-- Extend the trace. -/
def note (e : Entry) : Go Streamlet Unit := modify fun sl => { sl with trace := sl.trace ++ [e] }

/-- `Broadcast`. -/
def send (e : Envelope) (sl : Streamlet) : Streamlet := { sl with sent := sl.sent ++ [e] }

/-- Pass a message on to the others, once for each block. -/
def echo (id : ℕ) (m : Msg) : Go Streamlet Unit := do
  let sl ← get
  if sl.echoedBlock.lookup id = none then
    set (send ⟨none, m⟩ { sl with echoedBlock := sl.echoedBlock.insert id () })

/-- `l[i]`. -/
def index {α : Type} (l : List α) (i : ℤ) : Go Streamlet α := do
  note (.index i l.length)
  if i < 0 then throw .indexOutOfRange
  else
    match l[i.toNat]? with
    | none => throw .indexOutOfRange
    | some a => return a

/-! ### The notarized chain -/

/-- `votingRule`. -/
def votingRule (block : Block) : Go Streamlet Bool := do
  let sl ← get
  if block.view ≤ 2 then return true
  let lastBlocks ← index sl.notarizedChain (sl.notarizedChain.length - 1)
  return lastBlocks.any fun b => decide (block.prevID = b.id)

/-- `commitRule`; `none` is its answer `false`. -/
def commitRule : Go Streamlet (Option Block) := do
  let chain := (← get).notarizedChain
  if chain.length < 3 then return none
  let lastBlocks ← index chain (chain.length - 1)
  if lastBlocks.length ≠ 1 then return none
  let lastBlock ← index lastBlocks 0
  let secondBlocks ← index chain (chain.length - 2)
  if secondBlocks.length ≠ 1 then return none
  let secondBlock ← index secondBlocks 0
  let firstBlocks ← index chain (chain.length - 3)
  if firstBlocks.length ≠ 1 then return none
  let firstBlock ← index firstBlocks 0
  if firstBlock.view + 1 = secondBlock.view ∧ secondBlock.view + 1 = lastBlock.view then
    return some secondBlock
  return none

/-- The loop of `updateNotarizedChain` that looks for the parent, from the level `k - 1` down.  It goes on
while `i >= 0 || i >= height-3`. -/
def findParent (chain : List (List Block)) (prevID : ℕ) : ℕ → Go Streamlet Bool
  | 0 => do
    if (chain.length : ℤ) - 3 ≤ -1 then
      let _ ← index chain (-1)
    return false
  | k + 1 => do
    let lastBlocks ← index chain k
    if lastBlocks.any fun b => decide (b.id = prevID) then return true
    findParent chain prevID k

/-- `updateNotarizedChain`; `false` is its error. -/
def updateNotarizedChain (qc : QC) : Go Streamlet Bool := do
  let sl ← get
  match sl.bc.getBlockByID qc.blockID with
  | none => return false
  | some block =>
    note (.notarizing block sl.notarizedChain)
    let extends_ ← (if sl.notarizedChain.length = 0 then pure true
      else findParent sl.notarizedChain block.prevID sl.notarizedChain.length)
    if extends_ = true then
      modify fun sl => { sl with notarizedChain := sl.notarizedChain ++ [[block]] }
      return true
    else
      modify fun sl => { sl with
        bufferedNotarizedBlock := sl.bufferedNotarizedBlock.insert block.prevID qc }
      return false

variable (nd : Node)

/-- `forkChoice`. -/
def forkChoice : Go Streamlet ℕ := do
  let chain := (← get).notarizedChain
  if chain.length = 0 then return nd.genesisID
  let lastBlocks ← index chain (chain.length - 1)
  let tailNotarizedBlock ← index lastBlocks 0
  return tailNotarizedBlock.id

/-! ### Handlers -/

/-- The last part of `processCertificate` before the buffers: the commit rule and the commit.  The answer
says whether blocks were committed. -/
def tryCommit : Go Streamlet Bool := do
  match ← commitRule with
  | none => return false
  | some block =>
    let sl ← get
    let res ← Prog.zoom bc (fun bc sl => { sl with bc := bc })
      (BlockChain.commitBlock block.id sl.pm.curView)
    match res with
    | none => return false
    | some (committedBlocks, forkedBlocks) =>
      note (.committed block sl.notarizedChain committedBlocks)
      modify fun sl => { sl with
        committedBlocks := sl.committedBlocks ++ committedBlocks
        forkedBlocks := sl.forkedBlocks ++ forkedBlocks
        echoedBlock := committedBlocks.foldl (fun m b => m.erase b.id) sl.echoedBlock }
      return true

/-- The first part of `processCertificate`: everything before the buffers, which are looked at when the
answer is `true`. -/
def certify (qc : QC) : Go Streamlet Bool := do
  let sl ← get
  if qc.view < sl.pm.curView then return false
  if sl.bc.getBlockByID qc.blockID = none ∧ 1 < qc.view then
    set { sl with bufferedQCs := sl.bufferedQCs.insert qc.blockID qc }
    return false
  let quorumIsVerified ← Prog.ofExcept (checkQC nd qc)
  if quorumIsVerified = false then return false
  if (← updateNotarizedChain qc) = false then return false
  modify fun sl => { sl with pm := sl.pm.advanceView qc.view }
  if qc.view < 3 then return false
  tryCommit

/-- `ProcessVote` up to the certificate it may build. -/
def recordVote (vote : Vote) : Go Streamlet (Option QC) := do
  let voteIsVerified ← Prog.ofExcept (checkVote nd vote)
  if voteIsVerified = false then return none
  echo vote.blockID (.vote vote)
  let sl ← get
  let (built, bc) := sl.bc.addVote nd.toConfig vote
  set { sl with bc := bc }
  match built with
  | none => return none
  | some qc =>
    note (.built qc)
    return some qc

/-- The first part of `ProcessBlock`: everything before `AddBlock`.  The block goes on when the answer is
`none`; otherwise the answer is what `ProcessBlock` returns. -/
def vetBlock (block : Block) : Go Streamlet (Option (Option BlockError)) := do
  let sl ← get
  if sl.bc.exists_ block.id = true then return some none
  if block.view < sl.pm.curView then return some (some .stale)
  if sl.bc.getBlockByID block.prevID = none ∧ 1 < block.view then
    set { sl with bufferedBlocks := sl.bufferedBlocks.insert block.prevID block }
    return some none
  if nd.elec.isLeader block.proposer block.view = false then
    return some (some (.invalidLeader block.view block.proposer))
  let _ ← Prog.ofExcept (checkBlock nd block)  -- a wrong signature is only logged
  echo block.id (.block block)
  return none

/-- The second part of `ProcessBlock`: `AddBlock` and the voting rule.  A block that gets no vote is
buffered. -/
def insertBlock (block : Block) : Go Streamlet Bool := do
  let sl ← get
  note (.accepted block sl.notarizedChain)
  Prog.zoom bc (fun bc sl => { sl with bc := bc }) (BlockChain.addBlock block)
  let shouldVote ← votingRule block
  (if shouldVote = false then
    modify fun sl => { sl with bufferedBlocks := sl.bufferedBlocks.insert block.prevID block }
  else pure ())
  return shouldVote

mutual

/-- `ProcessBlock`; `none` is a `nil` error. -/
def processBlock : ℕ → Block → Go Streamlet (Option BlockError)
  | 0, _ => throw .diverge
  | depth + 1, block => do
    match ← vetBlock nd block with
    | some err => return err
    | none =>
      if (← insertBlock block) = false then return none
      let vote ← Prog.ofExcept (makeVote nd.toConfig block.view nd.id block.id)
      let sl ← get
      note (.voted block sl.pm.curView sl.notarizedChain)
      processVote depth vote
      modify (send ⟨none, .vote vote⟩)
      let sl ← get
      (match sl.bufferedQCs.lookup block.id with
        | none => pure ()
        | some qc => processCertificate depth qc)
      let sl ← get
      (match sl.bufferedBlocks.lookup block.id with
        | none => pure ()
        | some b => do let _ ← processBlock depth b)
      return none

/-- `ProcessVote`. -/
def processVote : ℕ → Vote → Go Streamlet Unit
  | 0, _ => throw .diverge
  | depth + 1, vote => do
    match ← recordVote nd vote with
    | none => return
    | some qc => processCertificate depth qc

/-- `processCertificate`. -/
def processCertificate : ℕ → QC → Go Streamlet Unit
  | 0, _ => throw .diverge
  | depth + 1, qc => do
    if (← certify nd qc) = false then return
    let sl ← get
    (match sl.bufferedBlocks.lookup qc.blockID with
      | none => pure ()
      | some b => do
        let _ ← processBlock depth b
        modify fun sl => { sl with bufferedBlocks := sl.bufferedBlocks.erase qc.blockID })
    let sl ← get
    (match sl.bufferedNotarizedBlock.lookup qc.blockID with
      | none => pure ()
      | some qc => do
        processCertificate depth qc
        modify fun sl => { sl with bufferedQCs := sl.bufferedQCs.erase qc.blockID })

end

/-- `processTC`. -/
def processTC (tc : TC) : Go Streamlet Unit := do
  let sl ← get
  if tc.view < sl.pm.curView then return
  set { sl with pending := sl.pending ++ [tc.view] }

/-- `ProcessRemoteTmo`. -/
def processRemoteTmo (tmo : TMO) : Go Streamlet Unit := do
  let sl ← get
  let (tc, pm) := sl.pm.processRemoteTmo tmo
  set { sl with pm := pm }
  match tc with
  | none => return
  | some tc => processTC tc

/-- `ProcessLocalTmo`. -/
def processLocalTmo (view : ℤ) : Go Streamlet Unit := do
  let tmo : TMO := ⟨view, nd.id, none⟩
  modify (send ⟨none, .tmo tmo⟩)
  processRemoteTmo tmo

/-- The certificate of a proposal names the parent and nothing else. -/
def parentQC (prevID : ℕ) : QC := ⟨"", 0, prevID, [], [], []⟩

/-- `MakeProposal`. -/
def makeProposal (view : ℤ) (payload : List Transaction) : Go Streamlet Block := do
  let prevID ← forkChoice nd
  let block ← Prog.ofExcept (makeBlock nd.toConfig view (parentQC prevID) prevID payload nd.id)
  note (.proposed block)
  return block

/-- `MakePProposal`, once the ordering layer has a batch. -/
def makePProposal (view : ℤ) (pBatch : PBatch) : Go Streamlet Block := do
  let prevID ← forkChoice nd
  let block ← Prog.ofExcept (makePBlock nd.toConfig view (parentQC prevID) prevID pBatch nd.id)
  note (.proposed block)
  return block

/-- A goroutine that `processTC` started. -/
def runPending (k : ℕ) : Go Streamlet Unit := do
  let sl ← get
  match sl.pending[k]? with
  | none => return
  | some view => set { sl with pm := sl.pm.advanceView view, pending := sl.pending.eraseIdx k }

/-- Streamlet as an implementation of `Safety`. -/
def safety (depth : ℕ) : Safety Streamlet where
  pm := pm
  setPm := fun pm sl => { sl with pm := pm }
  outbox := sent
  send := send
  processBlock := fun b => do let _ ← processBlock nd depth b
  processVote := processVote nd depth
  processRemoteTmo := processRemoteTmo
  processLocalTmo := processLocalTmo nd
  makeProposal := makeProposal nd
  makePProposal := makePProposal nd

/-- What happens at a replica besides the arrival of messages. -/
inductive Event
  | replica (e : Bamboo.Event)
  /-- a goroutine runs -/
  | task (k : ℕ)
  deriving DecidableEq

/-- The events of a replica. -/
def handleEvent (depth : ℕ) : Event → Go Streamlet Unit
  | .replica e => (safety nd depth).handleEvent nd e
  | .task k => runPending k

end Streamlet

/-- A network of honest Streamlet replicas. -/
def streamletNet (cf : Config) (members : List NodeID) (depth : ℕ) :
    Net.System NodeID Msg Streamlet.Event Fault Streamlet where
  members := members
  init := Streamlet.new cf.n
  outbox := Streamlet.sent
  receive := fun i m => (Streamlet.safety (cf.honest i) depth).handleMsg m
  enabled := fun _ e s =>
    match e with
    | .replica (.newView _ _) => !s.pm.newViewChan.isEmpty
    | .replica _ => true
    | .task k => decide (k < s.pending.length)
  trigger := fun i e => Streamlet.handleEvent (cf.honest i) depth e

end Bamboo
