import Libcoin.Tree.PopBack
import Libcoin.Tree.Compact
import Libcoin.BlockChain.Windows
import Libcoin.BlockChain.Distances
import Libcoin.BlockChain.Balances
import Libcoin.BlockChain.TemplateHeight
import Libcoin.Script.NameTransitions
import Libcoin.Script.Isolation
import Libcoin.Ledger.Verified
import Libcoin.Ledger.Modes
import Libcoin.Ledger.Restart
import Libcoin.Trie.Adjacency
import Libcoin.Pool.Priorities
import Libcoin.BlockChain.Templates
import Libcoin.BlockChain.Listeners
import Libcoin.BlockChain.Orphans
import Libcoin.BlockChain.Download
import Libcoin.BlockChain.Branches
import Libcoin.BlockChain.Mempool
import Libcoin.BlockChain.Headers
import Libcoin.BlockChain.Served
import Libcoin.BlockChain.Solvency
import Libcoin.BlockChain.BlockFilter
import Libcoin.Network.Framing
import Libcoin.Network.MerkleBlock
import Libcoin.Ledger.AuxPow
import Libcoin.Keys.Base58
import Libcoin.Keys.Shamir
import Libcoin.Keys.ExtendedKey
import Libcoin.Wallet.Encryption
import Libcoin.Wallet.KeyPool
import Libcoin.Wallet.Ownership
import Libcoin.Http.BasicAuth
import Libcoin.Script.Drops
import Libcoin.Script.NamePrefix
import Libcoin.Script.Passes
import Libcoin.Script.MultiSig
import Libcoin.Script.Separators
import Libcoin.Script.Limits
import Libcoin.Script.Undefined
import Libcoin.Script.NameFees
import Libcoin.Ledger.Hazards
import Libcoin.Ledger.Traces
import Libcoin.BlockChain.Positions
import Libcoin.Keys.Descriptor
import Libcoin.Script.StandardForms
import Libcoin.Ledger.CompactSize
import Libcoin.Ledger.MerkleBranches
import Libcoin.Network.Relevance
import Libcoin.BlockChain.Notices
import Libcoin.Trie.Neighbours
import Libcoin.Wallet.WalletTx
import Libcoin.Wallet.CoinSelection
import Libcoin.Keys.CompactBits
import Libcoin.Ledger.Subsidies
import Libcoin.Pool.Tables
import Libcoin.Pool.Threshold
import Libcoin.Wallet.Ancestors
import Libcoin.Wallet.ExactSelection
import Libcoin.Pool.Submissions
import Libcoin.BlockChain.Inclusion
import Libcoin.Wallet.Balances
import Libcoin.Wallet.Payments
import Libcoin.Ledger.Sums
import Libcoin.Network.Relay
import Libcoin.Keys.Hex
import Libcoin.Ledger.Amounts
import Libcoin.Keys.Key
import Libcoin.Keys.CompactSignature
import Libcoin.Pool.Work
import Libcoin.Pool.Freshness
import Libcoin.Http.KeepAlive
import Libcoin.Http.WrittenRequest
import Libcoin.Tree.Agreement
import Libcoin.Keys.Uint256
import Libcoin.Keys.Secrecy
import Libcoin.Network.Connection
import Libcoin.Network.Alerts
import Libcoin.Network.AdjustedTime
