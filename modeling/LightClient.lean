import LightClient.Account
import LightClient.Block
import LightClient.Bytes
import LightClient.Bytes.Hex
import LightClient.Client
import LightClient.Client.Polling
import LightClient.Client.Submission
import LightClient.Config
import LightClient.Ed25519.Field
import LightClient.Ed25519.Point
import LightClient.Ed25519.Scheme
import LightClient.Encoding.Cursor
import LightClient.Encoding.Fault
import LightClient.Encoding.Protobuf
import LightClient.Encoding.Utf8
import LightClient.Environment
import LightClient.Error
import LightClient.Hash.Sha2
import LightClient.Hash.Sha256
import LightClient.Hash.Sha512
import LightClient.Http.Node
import LightClient.Http.Status
import LightClient.Json.Accounts
import LightClient.Json.Blocks
import LightClient.Json.Double
import LightClient.Json.Form
import LightClient.Json.Number
import LightClient.Json.Proofs
import LightClient.Json.RoundTrip
import LightClient.Json.Settings
import LightClient.Json.Token
import LightClient.Json.Transactions
import LightClient.Json.Value
import LightClient.Key
import LightClient.Ledger.Books
import LightClient.Ledger.Chain
import LightClient.Ledger.Node
import LightClient.Machine.Guard
import LightClient.Machine.MerkleList
import LightClient.Machine.MerkleList.Builder
import LightClient.Machine.Query
import LightClient.Machine.Records
import LightClient.Machine.Trie
import LightClient.Machine.Trie.Builder
import LightClient.MerkleList.Builder
import LightClient.MerkleList.Proof
import LightClient.MerkleList.Tree
import LightClient.Node
import LightClient.Node.Scripted
import LightClient.Proofs.Account
import LightClient.Proofs.Block.Acceptance
import LightClient.Proofs.Block.Header
import LightClient.Proofs.Block.Quorum
import LightClient.Proofs.Client.Calls
import LightClient.Proofs.Client.Commitment
import LightClient.Proofs.Client.Polling
import LightClient.Proofs.Client.Submission
import LightClient.Proofs.Client.Trust
import LightClient.Proofs.Encoding.Canonical
import LightClient.Proofs.Encoding.Cursor
import LightClient.Proofs.Encoding.Protobuf
import LightClient.Proofs.Except
import LightClient.Proofs.Hash
import LightClient.Proofs.Json.Answers
import LightClient.Proofs.Json.Form
import LightClient.Proofs.Ledger.Answer
import LightClient.Proofs.Ledger.Blocks
import LightClient.Proofs.Ledger.Books
import LightClient.Proofs.Ledger.History
import LightClient.Proofs.Ledger.Independence
import LightClient.Proofs.Ledger.Outcome
import LightClient.Proofs.Ledger.Replay
import LightClient.Proofs.Ledger.Run
import LightClient.Proofs.Ledger.Shared
import LightClient.Proofs.Ledger.Status
import LightClient.Proofs.Ledger.Step
import LightClient.Proofs.Ledger.Supply
import LightClient.Proofs.Ledger.Table
import LightClient.Proofs.Ledger.Tampering
import LightClient.Proofs.Listing
import LightClient.Proofs.Machine.Guard
import LightClient.Proofs.Machine.ListBuilder
import LightClient.Proofs.Machine.ListProof
import LightClient.Proofs.Machine.MapBuilder
import LightClient.Proofs.Machine.MapProof
import LightClient.Proofs.Machine.Path
import LightClient.Proofs.Machine.Query
import LightClient.Proofs.Machine.Records
import LightClient.Proofs.MerkleList.Agreement
import LightClient.Proofs.MerkleList.Built
import LightClient.Proofs.MerkleList.Check
import LightClient.Proofs.MerkleList.Climb
import LightClient.Proofs.MerkleList.Completeness
import LightClient.Proofs.MerkleList.Levels
import LightClient.Proofs.MerkleList.Places
import LightClient.Proofs.MerkleList.Sizes
import LightClient.Proofs.MerkleList.Soundness
import LightClient.Proofs.MerkleList.Span
import LightClient.Proofs.Query.Agreement
import LightClient.Proofs.Query.Links
import LightClient.Proofs.Query.Refusal
import LightClient.Proofs.Query.Soundness
import LightClient.Proofs.Recorder
import LightClient.Proofs.Request
import LightClient.Proofs.Transaction.Body
import LightClient.Proofs.Transaction.Envelope
import LightClient.Proofs.Trie.Agreement
import LightClient.Proofs.Trie.Antichain
import LightClient.Proofs.Trie.BitStrings
import LightClient.Proofs.Trie.Bits
import LightClient.Proofs.Trie.Built
import LightClient.Proofs.Trie.Check
import LightClient.Proofs.Trie.Completeness
import LightClient.Proofs.Trie.Cut
import LightClient.Proofs.Trie.ExactCut
import LightClient.Proofs.Trie.Fold
import LightClient.Proofs.Trie.Order
import LightClient.Proofs.Trie.Path
import LightClient.Proofs.Trie.RawForm
import LightClient.Proofs.Trie.Recursion
import LightClient.Proofs.Trie.Rehash
import LightClient.Proofs.Trie.Root
import LightClient.Proofs.Trie.Soundness
import LightClient.Proofs.Trie.Split
import LightClient.Proofs.Trie.Tree
import LightClient.Query
import LightClient.Transaction.Body
import LightClient.Transaction.Envelope
import LightClient.Transaction.Wire
import LightClient.Trie.Builder
import LightClient.Trie.Node
import LightClient.Trie.Path
import LightClient.Trie.Proof
