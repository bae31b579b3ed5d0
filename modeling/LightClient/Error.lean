import LightClient.Block
import LightClient.Http.Status
import LightClient.MerkleList.Proof
import LightClient.Trie.Proof

/-! Everything that can go wrong between a client and its node. Either an answer
failed a check, or the node could not be asked, or the caller asked for what
cannot be done. -/

namespace LightClient

/-- Why an answer about the state does not follow from the state root. -/
inductive StateFault
  | proof (fault : Trie.ProofFault)
  | rootLength (length : Nat)
  | foreignRecord (asked found : PublicKey)
  | otherBlock (asked served : UInt64)
  /-- A fault in someone else's words. -/
  | reported (text : String)
  deriving DecidableEq

def StateFault.message : StateFault → String
  | .proof fault => fault.message
  | .rootLength length => "table root of " ++ toString length ++ " bytes"
  | .foreignRecord asked found =>
    "record under " ++ asked.toHex ++ " belongs to " ++ found.toHex
  | .otherBlock asked served =>
    "requested block " ++ toString asked.toNat ++ ", node served " ++ toString served.toNat
  | .reported text => text

/-- Why a history does not follow from the account. -/
inductive HistoryFault
  | proof (fault : MerkleList.ProofFault)
  | otherLength (proven recorded : UInt64)
  /-- A fault in someone else's words. -/
  | reported (text : String)
  deriving DecidableEq

def HistoryFault.message : HistoryFault → String
  | .proof fault => fault.message
  | .otherLength proven recorded =>
    "history proof for " ++ toString proven.toNat ++ " entries, account has " ++
      toString recorded.toNat
  | .reported text => text

/-- Why a node gave no answer. -/
inductive NetworkFault
  | status (url : String) (code : Nat)
  | unreadable (url : String)
  | unreachable (url : String)
  | noScheme
  | refused
  | noAccount (key : PublicKey)
  | noBlock (height : UInt64)
  | noBlockAt (height : UInt64)
  /-- A fault in someone else's words. -/
  | reported (text : String)
  deriving DecidableEq

def NetworkFault.message : NetworkFault → String
  | .status url code =>
    url ++ " returned HTTP " ++ toString code ++ " " ++ Http.reason code
  | .unreadable url => url ++ ": bad JSON: error decoding response body"
  | .unreachable url => "error sending request for url (" ++ url ++ ")"
  | .noScheme => "builder error"
  | .refused => "Mock failure"
  | .noAccount key => "no account " ++ key.toHex
  | .noBlock height => "no block " ++ toString height.toNat
  | .noBlockAt height => "no block at height " ++ toString height.toNat
  | .reported text => text

inductive ConfigFault
  | noAttempts
  | sharedMessageId (id : UInt16)
  | variable (name value : String)
  /-- A fault in someone else's words. -/
  | reported (text : String)
  deriving DecidableEq

def ConfigFault.message : ConfigFault → String
  | .noAttempts => "max_attempts must be at least 1"
  | .sharedMessageId id =>
    "message id " ++ toString id.toNat ++ " assigned to two transaction types"
  | .variable name value => name ++ "=" ++ value ++ " is not valid"
  | .reported text => text

inductive ClientError
  | encoding (fault : EncodingFault)
  | crypto (fault : KeyFault)
  | proofCorrupted (fault : StateFault)
  | range (start stop length : Nat)
  | untrustedBlock (shortfall : Untrusted)
  | tableNotFound (service table : UInt16)
  | accountNotFound (key : PublicKey)
  | historyCorrupted (fault : HistoryFault)
  | historyLength (transactions entries : Nat)
  | hashMismatch (index : Nat)
  | invalidSignature (index : Nat)
  | commitTimeout (attempts : Nat)
  | cancelled
  | network (fault : NetworkFault)
  | invalidConfig (fault : ConfigFault)
  deriving DecidableEq

namespace ClientError

def ofTrieFault (fault : Trie.ProofFault) : ClientError := .proofCorrupted (.proof fault)

/-- A failed list proof of the history. -/
def ofListFault : MerkleList.ProofFault → ClientError
  | .range start stop length => .range start stop length
  | fault => .historyCorrupted (.proof fault)

def message : ClientError → String
  | .encoding fault => "Encoding error: " ++ fault.message
  | .crypto fault => "Crypto error: " ++ fault.message
  | .proofCorrupted fault => "Proof corrupted: " ++ fault.message
  | .range start stop length => (MerkleList.ProofFault.range start stop length).message
  | .untrustedBlock s =>
    "Untrusted block: " ++ toString s.signed ++ " valid signatures of " ++ toString s.total ++
      " validators, need " ++ toString s.required
  | .tableNotFound service table =>
    "Table not found: service " ++ toString service.toNat ++ ", index " ++ toString table.toNat
  | .accountNotFound key => "Account not found: " ++ key.toHex
  | .historyCorrupted fault => "History corrupted: " ++ fault.message
  | .historyLength transactions entries =>
    "History length mismatch: " ++ toString transactions ++ " transactions, " ++
      toString entries ++ " proven entries"
  | .hashMismatch index => "Transaction hash mismatch at history index " ++ toString index
  | .invalidSignature index => "Invalid transaction signature at history index " ++ toString index
  | .commitTimeout attempts => "Commit timeout after " ++ toString attempts ++ " attempts"
  | .cancelled => "Commit polling cancelled"
  | .network fault => "Network error: " ++ fault.message
  | .invalidConfig fault => "Invalid configuration: " ++ fault.message

/-- Whether an answer of the node failed a check. -/
def isVerificationFailure : ClientError → Bool
  | .proofCorrupted _ | .untrustedBlock _ | .tableNotFound _ _ | .accountNotFound _
  | .historyCorrupted _ | .historyLength _ _ | .hashMismatch _ | .invalidSignature _ => true
  | _ => false

/-- Whether the same request may succeed later. -/
def isTransient : ClientError → Bool
  | .commitTimeout _ | .network _ => true
  | _ => false

end ClientError

end LightClient
