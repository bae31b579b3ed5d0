import LightClient.Client.Polling
import LightClient.Client.Submission

/-! The light client: valid settings and a node. Queries return only what the
validators vouch for; transfers and issues are submitted once and waited for. -/

namespace LightClient

structure Client (σ : Type) where
  config : Config
  node : Node σ
  valid : config.validate = .ok ()

namespace Client
variable {S : SignatureScheme} {σ : Type}

def ofConfig (config : Config) (node : Node σ) : Except ClientError (Client σ) :=
  match h : config.validate with
  | .ok () => .ok ⟨config, node, h⟩
  | .error fault => .error (.invalidConfig fault)

variable (client : Client σ)

def submitBody (signer : KeyPair S) (body : Body) : Act σ Digest :=
  instantly (submit client.node client.config signer body)

/-- Waits until a transaction is committed or rejected. -/
def awaitHash (hash : Digest) (cancelAt : Option Nat) : Act σ CommitResult :=
  awaitCommitment client.node client.config hash cancelAt

def submitAndWait (signer : KeyPair S) (body : Body) (cancelAt : Option Nat) :
    Act σ CommitResult := do
  let hash ← client.submitBody signer body
  client.awaitHash hash cancelAt

/-- Submits the creation of the owner's account, and does not wait. -/
def createAccount (owner : KeyPair S) (initialBalance : UInt64) : Act σ Digest :=
  client.submitBody owner (.createAccount ⟨owner.publicKey, initialBalance⟩)

def transfer (sender : KeyPair S) (recipient : PublicKey) (amount seed : UInt64)
    (cancelAt : Option Nat) : Act σ CommitResult :=
  client.submitAndWait sender (.transfer ⟨seed, sender.publicKey, recipient, amount⟩) cancelAt

def issue (owner : KeyPair S) (amount seed : UInt64) (cancelAt : Option Nat) :
    Act σ CommitResult :=
  client.submitAndWait owner (.issue ⟨owner.publicKey, amount, seed⟩) cancelAt

variable (S)

/-- An account as of the node's latest block. -/
def verifiedAccount (key : PublicKey) : Request σ VerifiedAccount := do
  let validators ← client.node.validators
  let response ← client.node.account key
  Request.ofExcept (Query.verifyAccount S client.config validators key response)

def verifiedBlock (height : UInt64) : Request σ VerifiedBlock := do
  let validators ← client.node.validators
  let proof ← client.node.block height
  Request.ofExcept (Query.verifyBlock S validators height proof)

end Client

end LightClient
