import CbDaemon.Base.Machine
import CbDaemon.Base.Sorting
import CbDaemon.Base.Numeral
import CbDaemon.Base.Run
import CbDaemon.Base.Fallible
import CbDaemon.Base.KeyedList
import CbDaemon.Base.CheckInsert
import CbDaemon.Base.Bits
import CbDaemon.Base.R1cs
import CbDaemon.Base.Primality
import CbDaemon.Base.Limbs
import CbDaemon.Base.InPlace
import CbDaemon.Base.Coefficients
import CbDaemon.Base.Heap
import CbDaemon.Merkle.PerfectTree
import CbDaemon.Merkle.IncrementalTree
import CbDaemon.Merkle.TreeWitness
import CbDaemon.Merkle.TreePath
import CbDaemon.Merkle.PathBinding
import CbDaemon.Codec.Integer
import CbDaemon.Codec.IntegerSyntax
import CbDaemon.Codec.Utf8
import CbDaemon.Codec.Utf8Decode
import CbDaemon.Codec.Utf8Range
import CbDaemon.Codec.Utf8Valid
import CbDaemon.Codec.Hex
import CbDaemon.Codec.Json
import CbDaemon.Codec.Keypair
import CbDaemon.Codec.Serialize
import CbDaemon.Wallet.Notes
import CbDaemon.Wallet.CipherDocument
import CbDaemon.Wallet.PlainDocument
import CbDaemon.Wallet.Sync
import CbDaemon.Wallet.Consistency
import CbDaemon.Wallet.Status
import CbDaemon.Wallet.StatusUpdate
import CbDaemon.Wallet.HonestServer
import CbDaemon.Wallet.Witness
import CbDaemon.Wallet.WitnessLeaves
import CbDaemon.Wallet.Memo
import CbDaemon.Wallet.TreeDocument
import CbDaemon.JoinSplit.Prove
import CbDaemon.JoinSplit.Creator
import CbDaemon.JoinSplit.LocalTree
import CbDaemon.JoinSplit.Rounds
import CbDaemon.JoinSplit.Selection
import CbDaemon.JoinSplit.Calls
import CbDaemon.JoinSplit.Payment
import CbDaemon.JoinSplit.Termination
import CbDaemon.JoinSplit.Outcome
import CbDaemon.Requests.Balance
import CbDaemon.Requests.Admission
import CbDaemon.Requests.Pour
import CbDaemon.Requests.Exchange
import CbDaemon.Requests.Accounts
import CbDaemon.Requests.Reporting
import CbDaemon.Requests.Handlers
import CbDaemon.Requests.Containment
import CbDaemon.Broker.Identity
import CbDaemon.Broker.Loop
import CbDaemon.Broker.WorkerQueue
import CbDaemon.Broker.Safety
import CbDaemon.Broker.Envelope
import CbDaemon.Broker.Reactor
import CbDaemon.Broker.Polling
import CbDaemon.Broker.Liveness
import CbDaemon.Broker.WorkerLoop
import CbDaemon.Broker.WorkerThreads
import CbDaemon.Concurrency.Isolation
import CbDaemon.Concurrency.SyncInterleaving
import CbDaemon.Concurrency.PourInterleaving
import CbDaemon.Concurrency.KeyInterleaving
import CbDaemon.Crypto.Sha256
import CbDaemon.Crypto.Hasher
import CbDaemon.Crypto.Prf
import CbDaemon.Crypto.NoteCipher
import CbDaemon.Circuit.BasicGadgets
import CbDaemon.Circuit.Sha256Aux
import CbDaemon.Circuit.Sha256Gadget
import CbDaemon.Circuit.Sha256Compression
import CbDaemon.Circuit.HashBytes
import CbDaemon.Circuit.Conversions
import CbDaemon.Circuit.HashGadgets
import CbDaemon.Circuit.MerkleGadget
import CbDaemon.Circuit.NoteGadget
import CbDaemon.Circuit.JoinSplitGadget
import CbDaemon.Circuit.ScalarField
import CbDaemon.Circuit.JoinSplitProof
import CbDaemon.Algebra.PrimeField
import CbDaemon.Snark.Fft
import CbDaemon.Snark.EvaluationDomain
import CbDaemon.Snark.QapReduction
import CbDaemon.Snark.Wnaf
import CbDaemon.Snark.MultiExp
