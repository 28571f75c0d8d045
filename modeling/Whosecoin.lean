import Whosecoin.Library.Outcomes
import Whosecoin.Library.ByteStrings
import Whosecoin.Library.Maps
import Whosecoin.Library.ForkChoice
import Whosecoin.Library.Ledgers
import Whosecoin.Cryptography
import Whosecoin.TupleParser
import Whosecoin.Transactions
import Whosecoin.Accounts
import Whosecoin.Blocks
import Whosecoin.BlockTree
import Whosecoin.PrincipalChain
import Whosecoin.Agreement
import Whosecoin.Chains
import Whosecoin.LedgerRefinement
import Whosecoin.Overdrafts
import Whosecoin.DoubleSpending
import Whosecoin.TupleFormat
import Whosecoin.TransactionSchema
import Whosecoin.Library.MerkleTrees
import Whosecoin.MerkleRoots
import Whosecoin.BlockSchema
import Whosecoin.BlockIdentity
import Whosecoin.BlockDelivery
import Whosecoin.BlockRelay
import Whosecoin.DynamicBuffers
import Whosecoin.Library.Framing
import Whosecoin.Messages
import Whosecoin.Networks
import Whosecoin.Framing
import Whosecoin.TupleRoundTrip
import Whosecoin.Representation
import Whosecoin.SupplyConservation
import Whosecoin.HistoryBinding
import Whosecoin.GossipWindow
import Whosecoin.Pools
import Whosecoin.Reorganisations
import Whosecoin.Handlers
import Whosecoin.NodeRuns
import Whosecoin.Equivocation
import Whosecoin.Library.Traces
import Whosecoin.PendingTransactions
import Whosecoin.Ownership
import Whosecoin.MalformedTuples
import Whosecoin.BlockReception
import Whosecoin.MalformedMessages
import Whosecoin.MessageSafety
import Whosecoin.Sortition
import Whosecoin.TupleFaults
import Whosecoin.TupleCanonical
import Whosecoin.FieldSizes
import Whosecoin.RefusedTransactions
import Whosecoin.NetworkCalls
import Whosecoin.PeerLifetimes
import Whosecoin.SimultaneousDialling
import Whosecoin.Library.Flooding
import Whosecoin.Flooding
import Whosecoin.Provenance
import Whosecoin.Synchronisation
import Whosecoin.SchemaRecognition
import Whosecoin.MerkleComputation
import Whosecoin.Delegates
import Whosecoin.Staking
import Whosecoin.Commands
import Whosecoin.Http
import Whosecoin.Routing
import Whosecoin.HttpReading
import Whosecoin.Library.JsonTexts
import Whosecoin.Library.Doubles
import Whosecoin.JsonWriters
import Whosecoin.JsonOutput
import Whosecoin.JsonAmounts
import Whosecoin.Library.Heaps
import Whosecoin.Heaps
import Whosecoin.Library.Dictionaries
import Whosecoin.HashMaps
import Whosecoin.HexBuffers
import Whosecoin.SharedBuffers
import Whosecoin.BufferRuns
import Whosecoin.ArrayLists
import Whosecoin.Difficulty
import Whosecoin.TupleSetters
import Whosecoin.PrincipalOrder
import Whosecoin.HonestNodes
import Whosecoin.HonestNetworks
import Whosecoin.HashTables
import Whosecoin.Exchanges
import Whosecoin.Library.HttpTexts
import Whosecoin.RestApi
import Whosecoin.RestAnswers
import Whosecoin.RestServer
import Whosecoin.ProgramArguments
import Whosecoin.Terminal
import Whosecoin.Shutdown
import Whosecoin.Mining
import Whosecoin.LoneMiners
import Whosecoin.BlockchainDb
