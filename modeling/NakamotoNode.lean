import NakamotoNode.Foundations.Exec
import NakamotoNode.Foundations.Runs
import NakamotoNode.Foundations.Flooding
import NakamotoNode.Foundations.Unambiguous
import NakamotoNode.Foundations.Delimiters
import NakamotoNode.Foundations.DebugFormat
import NakamotoNode.Foundations.JsonText
import NakamotoNode.Foundations.Splitting
import NakamotoNode.Foundations.Lines
import NakamotoNode.Foundations.SharedStream
import NakamotoNode.Foundations.Forest
import NakamotoNode.Foundations.Ledger
import NakamotoNode.Foundations.HashTree
import NakamotoNode.Foundations.RustStd
import NakamotoNode.Foundations.Branching
import NakamotoNode.Foundations.Channels
import NakamotoNode.Foundations.Numerals
import NakamotoNode.Foundations.JsonValues
import NakamotoNode.Chain.Block
import NakamotoNode.Chain.Messages
import NakamotoNode.Chain.BlockTree
import NakamotoNode.Chain.Shape
import NakamotoNode.Chain.Balances
import NakamotoNode.Chain.Walks
import NakamotoNode.Chain.Insertion
import NakamotoNode.Chain.Calls
import NakamotoNode.Chain.LedgerReplay
import NakamotoNode.Chain.Acceptance
import NakamotoNode.Chain.Chains
import NakamotoNode.Chain.Finality
import NakamotoNode.Chain.Representation
import NakamotoNode.Chain.Termination
import NakamotoNode.Chain.MerkleLevels
import NakamotoNode.Chain.Integrity
import NakamotoNode.Chain.Commitment
import NakamotoNode.Chain.Duplicates
import NakamotoNode.Chain.Solvency
import NakamotoNode.Chain.LongestChain
import NakamotoNode.Chain.Adoption
import NakamotoNode.Chain.DeliveryOrder
import NakamotoNode.Chain.Overflow
import NakamotoNode.Chain.Forks
import NakamotoNode.Chain.Panics
import NakamotoNode.Chain.TipChecks
import NakamotoNode.Chain.AllOrNothing
import NakamotoNode.Chain.FinalizedBlocks
import NakamotoNode.Chain.PathQueries
import NakamotoNode.Chain.SignedText
import NakamotoNode.Chain.MerkleBinding
import NakamotoNode.Chain.Agreement
import NakamotoNode.Chain.Confirmations
import NakamotoNode.Node.TxPool
import NakamotoNode.Node.Refresh
import NakamotoNode.Node.SavedState
import NakamotoNode.Node.Puzzle
import NakamotoNode.Node.PoolCalls
import NakamotoNode.Node.Malformed
import NakamotoNode.Node.Solver
import NakamotoNode.Node.Threads
import NakamotoNode.Node.Workers
import NakamotoNode.Node.OwnBlocks
import NakamotoNode.Node.Reinclusion
import NakamotoNode.Node.Cancellation
import NakamotoNode.Network.Message
import NakamotoNode.Network.Gossip
import NakamotoNode.Network.MessageJson
import NakamotoNode.Network.Wire
import NakamotoNode.Network.Reader
import NakamotoNode.Network.Startup
import NakamotoNode.Network.Forwarding
import NakamotoNode.Network.Peers
import NakamotoNode.Network.Origins
import NakamotoNode.Network.Provenance
import NakamotoNode.Network.Replication
import NakamotoNode.Network.Transactions
import NakamotoNode.Network.Traffic
import NakamotoNode.Network.Statistics
import NakamotoNode.Client.Signing
import NakamotoNode.Client.Amounts
import NakamotoNode.Client.Wallet
import NakamotoNode.Client.Ipc
import NakamotoNode.Client.Processes
import NakamotoNode.Client.App
import NakamotoNode.Client.Site
import NakamotoNode.Client.Pipes
import NakamotoNode.Client.Publishing
import NakamotoNode.Client.Payments
import NakamotoNode.Client.Crashes
import NakamotoNode.Client.Endings
import NakamotoNode.Network.Clients
import NakamotoNode.Network.Deliveries
