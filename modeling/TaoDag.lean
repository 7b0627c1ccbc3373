import TaoDag.Consensus.ForkChoice
import TaoDag.Consensus.TxMerkle
import TaoDag.Consensus.Versions
import TaoDag.Database.Restore
import TaoDag.Database.Crash
import TaoDag.Database.RepeatedKeys
import TaoDag.Runtime.BankState
import TaoDag.Runtime.Transfer
import TaoDag.Reachability.Search
import TaoDag.Reachability.Validate
import TaoDag.Reachability.Delete
import TaoDag.Ghostdag.Naive
import TaoDag.Prototype.Order
import TaoDag.Dagvm.Accept
import TaoDag.Dagvm.Atomicity
import TaoDag.Dagvm.Commitment
import TaoDag.Dagvm.Computable
import TaoDag.Dagvm.Converge
import TaoDag.Dagvm.DagVm
import TaoDag.Dagvm.Legacy
import TaoDag.Dagvm.Served
import TaoDag.Dagvm.Interlinked
import TaoDag.Dagvm.SnapshotAccounts
import TaoDag.Dagvm.Extends
import TaoDag.Dagvm.PrunedCopy
import TaoDag.Dagvm.Confirmed
import TaoDag.Dagvm.ProofSound
import TaoDag.Node.Committed
import TaoDag.Dagvm.Mined
import TaoDag.Node.Delivery
import TaoDag.Dagvm.VirtualState
import TaoDag.Node.DagOpen
import TaoDag.Node.Supply
import TaoDag.P2p.Network
import TaoDag.Mempool.Pool
import TaoDag.Consensus.Lwma
import TaoDag.Pouw.Serve
import TaoDag.Prototype.Converge
import TaoDag.Node.Candidate
import TaoDag.Node.PeerMessages
import TaoDag.Node.DagStatuses
import TaoDag.Node.Handles
import TaoDag.Node.Payment
import TaoDag.Node.CatchUp
import TaoDag.Dagvm.Bootstrap
import TaoDag.Dagvm.Retained
