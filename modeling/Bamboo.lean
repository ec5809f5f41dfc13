import Bamboo.Ballots
import Bamboo.Benchmark
import Bamboo.BlockChain
import Bamboo.BlockIDs
import Bamboo.Blocks
import Bamboo.Calls
import Bamboo.Children
import Bamboo.Commits
import Bamboo.Crypto
import Bamboo.Database
import Bamboo.Deliveries
import Bamboo.Delivery
import Bamboo.Draining
import Bamboo.EventLoop
import Bamboo.Finality
import Bamboo.Forest
import Bamboo.FourNodes
import Bamboo.Goroutines
import Bamboo.HotStuff.Adoption
import Bamboo.HotStuff.Agreement
import Bamboo.HotStuff.Arrival
import Bamboo.HotStuff.Buffers
import Bamboo.HotStuff.CatchUp
import Bamboo.HotStuff.Certificates
import Bamboo.HotStuff.Delivery
import Bamboo.HotStuff.ForestFrames
import Bamboo.HotStuff.Frames
import Bamboo.HotStuff.Handlers
import Bamboo.HotStuff.Intake
import Bamboo.HotStuff.Keys
import Bamboo.HotStuff.Leaders
import Bamboo.HotStuff.Ledger
import Bamboo.HotStuff.Locks
import Bamboo.HotStuff.Model
import Bamboo.HotStuff.NoCrash
import Bamboo.HotStuff.Outcome
import Bamboo.HotStuff.Polls
import Bamboo.HotStuff.Progress
import Bamboo.HotStuff.Proposals
import Bamboo.HotStuff.Rounds
import Bamboo.HotStuff.SmallSteps
import Bamboo.HotStuff.Stowing
import Bamboo.KeyGeneration
import Bamboo.Levels
import Bamboo.Lib.BinaryFloat
import Bamboo.Lib.Chain
import Bamboo.Lib.Depth
import Bamboo.Lib.Deque
import Bamboo.Lib.Descent
import Bamboo.Lib.Interleave
import Bamboo.Lib.Lts
import Bamboo.Lib.Network
import Bamboo.Lib.Pair
import Bamboo.Lib.Prog
import Bamboo.Lib.Quorums
import Bamboo.Lib.Tally
import Bamboo.Lib.Walk
import Bamboo.Limiter
import Bamboo.Mempool
import Bamboo.Overrun
import Bamboo.Pacemaker
import Bamboo.PacemakerRuns
import Bamboo.Quorum
import Bamboo.Replica
import Bamboo.Representation
import Bamboo.Rotation
import Bamboo.Rows
import Bamboo.Shelves
import Bamboo.Slopes
import Bamboo.Socket
import Bamboo.StartUp
import Bamboo.Streamlet.Agreement
import Bamboo.Streamlet.Certificates
import Bamboo.Streamlet.Echo
import Bamboo.Streamlet.Frames
import Bamboo.Streamlet.Handlers
import Bamboo.Streamlet.Heights
import Bamboo.Streamlet.Model
import Bamboo.Streamlet.Order
import Bamboo.Streamlet.Parking
import Bamboo.Streamlet.Range
import Bamboo.Streamlet.Shape
import Bamboo.Streamlet.SmallSteps
import Bamboo.Streamlet.Termination
import Bamboo.Streamlet.Views
import Bamboo.Tchs.Agreement
import Bamboo.Tchs.Buffers
import Bamboo.Tchs.Certificates
import Bamboo.Tchs.Gating
import Bamboo.Tchs.Handlers
import Bamboo.Tchs.Memory
import Bamboo.Tchs.Model
import Bamboo.Tchs.SmallSteps
import Bamboo.Tchs.Stamping
import Bamboo.Tchs.Timeouts
import Bamboo.Tchs.Votes
import Bamboo.Tidy
import Bamboo.Trace
import Bamboo.Truthful
import Bamboo.Types
import Bamboo.Universe
import Bamboo.VoteOrder
import Bamboo.Walkable
import Bamboo.Walks
