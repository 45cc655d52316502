import ScfChain.Data.Tally
import ScfChain.Consensus.History
import ScfChain.Consensus.Trie.Basic
import ScfChain.Consensus.Trie.Span
import ScfChain.Consensus.Trie.Shape
import ScfChain.Consensus.Trie.Find
import ScfChain.Consensus.Trie.Insert
import ScfChain.Consensus.Trie.Remove
import ScfChain.Consensus.Trie.Check
import ScfChain.Consensus.Trie.Run
import ScfChain.Consensus.Trie.Ancestry
import ScfChain.Consensus.Trie.Preferred
import ScfChain.Consensus.Trie.Covers
import ScfChain.Consensus.Validations.Basic
import ScfChain.Consensus.Validations.Support
import ScfChain.Data.Radix
import ScfChain.ShaMap.Basic
import ScfChain.ShaMap.Shape
import ScfChain.ShaMap.Insert
import ScfChain.ShaMap.Delete
import ScfChain.ShaMap.Hash
import ScfChain.ShaMap.Run
import ScfChain.ShaMap.Wire
import ScfChain.Ledger.View
import ScfChain.Ledger.Stack
import ScfChain.Data.Overlay
import ScfChain.Ledger.Sandbox
import ScfChain.Data.Succeeds
import ScfChain.Ledger.Directory.Basic
import ScfChain.Ledger.Object
import ScfChain.Tx.Transactor
import ScfChain.Data.Steps
import ScfChain.Tx.SignerList
import ScfChain.Tx.MultiSign
import ScfChain.Data.Bytes
import ScfChain.Protocol.Canonicality
import ScfChain.Protocol.CurrencyText
import ScfChain.Data.Parser
import ScfChain.Protocol.Serializer
import ScfChain.Protocol.Amount
import ScfChain.Core.JobQueue
import ScfChain.Core.Scheduling
import ScfChain.App.Manifest
import ScfChain.Overlay.ProtocolMessage
import ScfChain.Overlay.Framing
import ScfChain.Data.Assoc
import ScfChain.App.ValidatorList
import ScfChain.App.Listings
import ScfChain.App.TxQ.Queue
import ScfChain.Data.Ranked
import ScfChain.App.TxQ.Fees
import ScfChain.App.TxQ.Apply
import ScfChain.App.TxQ.Accept
import ScfChain.App.TxQ.Consistent
import ScfChain.App.TxQ.Outcome
import ScfChain.App.TxQ.AllOrNothing
import ScfChain.App.TxQ.Runs
import ScfChain.App.TxQ.Safety
import ScfChain.Tx.InvariantCheck
import ScfChain.Consensus.Timing
import ScfChain.Data.Poll
import ScfChain.Consensus.Round.Dispute
import ScfChain.Consensus.Round.State
import ScfChain.Consensus.Round.Positions
import ScfChain.Consensus.Round.Engine
import ScfChain.Consensus.Round.CloseTime
import ScfChain.Consensus.Round.Arrivals
import ScfChain.Consensus.Round.Votes
import ScfChain.Consensus.Round.Runs
import ScfChain.Consensus.Round.Sound
import ScfChain.Consensus.Round.OurPosition
import ScfChain.Consensus.Round.Proposals
import ScfChain.App.CanonicalTXSet
import ScfChain.App.BuildLedger
import ScfChain.App.Gossip
import ScfChain.App.AmendmentTable
import ScfChain.Tx.Change
import ScfChain.Ledger.SkipList
import ScfChain.Data.Decimal
import ScfChain.Protocol.AmountValue
import ScfChain.Protocol.IOUAmount
import ScfChain.Protocol.Rounding
import ScfChain.Protocol.RoundingUp
import ScfChain.Protocol.Rate
import ScfChain.Protocol.Ratio
import ScfChain.Protocol.NumberText
import ScfChain.Protocol.AmountText
import ScfChain.Protocol.TextRoundTrip
import ScfChain.Protocol.AmountJson
import ScfChain.Protocol.PathSet
import ScfChain.Data.Positional
import ScfChain.Protocol.Tokens
import ScfChain.ShaMap.Encoding
import ScfChain.ShaMap.Prefix
import ScfChain.ShaMap.Abstract
import ScfChain.ShaMap.Iterate
import ScfChain.ShaMap.Version2
import ScfChain.ShaMap.Compressed
import ScfChain.ShaMap.RunV2
import ScfChain.ShaMap.Complete
import ScfChain.Data.Worklist
import ScfChain.ShaMap.Delta
import ScfChain.ShaMap.Collision
import ScfChain.ShaMap.Compare
import ScfChain.ShaMap.Differences
import ScfChain.App.TxQ.Metrics
import ScfChain.Ledger.Directory.Walk
import ScfChain.App.TxQ.Stages
import ScfChain.App.TxQ.Turns
import ScfChain.App.TxQ.Waiting
import ScfChain.App.TxQ.Attempts
import ScfChain.Data.Ascending
import ScfChain.Ledger.Traversal
import ScfChain.Ledger.PaymentSandbox
import ScfChain.Ledger.TrustLine
import ScfChain.NodeStore.Varint
import ScfChain.App.LoadFeeTrack
import ScfChain.Paths.StrandFlow
import ScfChain.Paths.Strands
import ScfChain.Consensus.ValidatedLedger
