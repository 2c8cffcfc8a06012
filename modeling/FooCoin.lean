import FooCoin.Library.LittleEndian
import FooCoin.Library.Journal
import FooCoin.Library.KeyedTotal
import FooCoin.Library.Conditionals
import FooCoin.Amount
import FooCoin.Crypto
import FooCoin.Script.Parse
import FooCoin.Script.Number
import FooCoin.Script.Machine
import FooCoin.Script.Interpreter
import FooCoin.Script.SigOps
import FooCoin.Library.Codec
import FooCoin.Transaction
import FooCoin.Script.Signature
import FooCoin.Block
import FooCoin.TxIndex
import FooCoin.Inputs
import FooCoin.ConnectBlock
import FooCoin.BlockEffect
import FooCoin.Undo
import FooCoin.SampleChain
import FooCoin.ChainRun
import FooCoin.SampleRun
import FooCoin.Ledger
import FooCoin.Overflow
import FooCoin.MoneyCap
import FooCoin.Disconnectable
import FooCoin.Script.Standard
import FooCoin.Policy
import FooCoin.Mempool
import FooCoin.MempoolIndex
import FooCoin.Library.Stateful
import FooCoin.Wallet
import FooCoin.Node
import FooCoin.BlockTree
import FooCoin.NodeEffect
import FooCoin.NodeRun
import FooCoin.SampleNode
import FooCoin.WalletSync
import FooCoin.Atomic
import FooCoin.Coherence
import FooCoin.PoolConflict
import FooCoin.Library.Meets
import FooCoin.Script.Bounds
import FooCoin.Library.SortedSet
import FooCoin.Script.SignatureCache
import FooCoin.Difficulty
import FooCoin.MinWork
import FooCoin.Library.PairTree
import FooCoin.Merkle
import FooCoin.Library.Chunks
import FooCoin.Serialize
import FooCoin.Protocol
import FooCoin.BlockFile
import FooCoin.Library.Framing
import FooCoin.Messages
import FooCoin.Sender
import FooCoin.Orphans
import FooCoin.OrphanIndex
import FooCoin.Miner
import FooCoin.Cover
import FooCoin.MinerAgreement
import FooCoin.Library.PrefixFree
import FooCoin.Script.Preimage
import FooCoin.KeyEncryption
import FooCoin.KeyPoolRun
import FooCoin.BlockOrphanRun
import FooCoin.AddrManHistory
import FooCoin.AccountBalances
import FooCoin.WalletLock
import FooCoin.CoinSelectionExact
import FooCoin.CoinSelectionSound
import FooCoin.MerkleBranch
import FooCoin.Script.Multisig
import FooCoin.RawTransactionBounds
import FooCoin.Script.Spendable
import FooCoin.Script.Combine
import FooCoin.Alert
import FooCoin.BlockLocator
import FooCoin.MedianTime
import FooCoin.MinFee
import FooCoin.Script.FindAndDelete
import FooCoin.Script.Push
import FooCoin.Script.Destination
import FooCoin.TransactionList
import FooCoin.BlockImport
import FooCoin.WalletCache
import FooCoin.CreateTransaction
import FooCoin.SpentFlags
import FooCoin.Relay
import FooCoin.NetworkTime
import FooCoin.LocalAddress
import FooCoin.Passphrase
import FooCoin.Library.ByteOrder
import FooCoin.WalletTransaction
import FooCoin.KeyForm
import FooCoin.SecureMemory
import FooCoin.Library.Numeral
import FooCoin.Base58
import FooCoin.Library.BitGroups
import FooCoin.Base64
import FooCoin.WorkUnits
import FooCoin.LoadBlockIndex
import FooCoin.Restart
import FooCoin.Library.Segments
import FooCoin.Money
import FooCoin.BitcoinUnits
import FooCoin.SpecialAddress
import FooCoin.AddressGroup
import FooCoin.Wildcard
import FooCoin.BigNum
import FooCoin.Library.Words
import FooCoin.BaseUint
import FooCoin.Library.PartialShuffle
import FooCoin.AddrManEvict
import FooCoin.ForkSearch
import FooCoin.Library.Simulation
import FooCoin.DataStream
import FooCoin.Library.Window
import FooCoin.MruSet
import FooCoin.AddrManSample
import FooCoin.Script.Structured
import FooCoin.Script.Spending
import FooCoin.Connections
import FooCoin.NodeLifetime
import FooCoin.ConnectionLimit
import FooCoin.LockOrder
import FooCoin.Library.PasswordHash
import FooCoin.Scrypt
import FooCoin.WalletFile
import FooCoin.KeyPersistence
import FooCoin.Library.Histories
import FooCoin.Library.Batches
import FooCoin.Announce
import FooCoin.Requests
import FooCoin.Bans
