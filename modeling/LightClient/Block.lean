import LightClient.Encoding.Cursor
import LightClient.Hash.Sha256

/-! Blocks and their validators. A block is trusted once strictly more than two
thirds of the validators have signed its header; one precommit from outside the
set, repeated or with a bad signature spoils the whole proof. -/

namespace LightClient

structure BlockHeader where
  height : UInt64
  /-- The hash of the block before. -/
  prevHash : Digest
  /-- The root of the list of transaction hashes. -/
  txHash : Digest
  /-- The root of the state map after the block. -/
  stateHash : Digest
  txCount : UInt32
  deriving DecidableEq

namespace BlockHeader

/-- The bytes that validators sign. -/
def encode (header : BlockHeader) : Bytes :=
  little 8 header.height.toNat ++ header.prevHash.toList ++ header.txHash.toList ++
    header.stateHash.toList ++ little 4 header.txCount.toNat

def read : Read BlockHeader := do
  let height ← Read.u64
  let prevHash ← Read.fixed 32
  let txHash ← Read.fixed 32
  let stateHash ← Read.fixed 32
  let txCount ← Read.u32
  return ⟨height, prevHash, txHash, stateHash, txCount⟩

def decode (bytes : Bytes) : Except EncodingFault BlockHeader := read.whole bytes

def hash (header : BlockHeader) : Digest := sha256 header.encode

end BlockHeader

/-- A validator's signature over a header. -/
structure Precommit where
  validator : PublicKey
  signature : Signature
  deriving DecidableEq

structure BlockProof where
  header : BlockHeader
  precommits : List Precommit
  deriving DecidableEq

structure ValidatorSet where
  keys : List PublicKey
  deriving DecidableEq

/-- The fewest signatures that are more than two thirds. -/
def ValidatorSet.quorum (validators : ValidatorSet) : Nat := validators.keys.length * 2 / 3 + 1

/-- How far the precommits of a block fall short. -/
structure Untrusted where
  signed : Nat
  required : Nat
  total : Nat
  deriving DecidableEq

namespace BlockProof
variable (S : SignatureScheme)

/-- The number of signers, or of those before the first bad precommit; `seen`
are the signers so far. -/
def countSigners (validators : ValidatorSet) (message : Bytes) :
    List Precommit → List PublicKey → Except Nat Nat
  | [], seen => .ok seen.length
  | p :: rest, seen =>
    if p.validator ∈ validators.keys ∧ p.validator ∉ seen ∧
        S.verify p.validator message p.signature = true then
      countSigners validators message rest (p.validator :: seen)
    else .error seen.length

/-- Checks the precommits and returns the hash of the block. -/
def verify (proof : BlockProof) (validators : ValidatorSet) : Except Untrusted Digest :=
  let total := validators.keys.length
  let untrusted (signed : Nat) : Untrusted := ⟨signed, validators.quorum, total⟩
  if total = 0 then .error (untrusted 0)
  else
    match countSigners S validators proof.header.encode proof.precommits [] with
    | .error signed => .error (untrusted signed)
    | .ok signed =>
      if 2 * total < 3 * signed then .ok proof.header.hash else .error (untrusted signed)

end BlockProof

end LightClient
