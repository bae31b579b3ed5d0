import LightClient.Ed25519.Point
import LightClient.Hash.Sha512
import LightClient.Key

/-! Ed25519 as a signature scheme. Verification is without the cofactor and
compares the encoded commitment byte for byte. -/

namespace LightClient.Ed25519

/-- The order of the generator. -/
def order : Nat := 1 <<< 252 + 27742317777372353535851937790883648493

/-- The secret multiplier and the nonce key that a seed stands for. -/
structure Expanded where
  scalar : Nat
  nonceKey : Bytes

def expand (seed : FixedBytes 32) : Expanded :=
  let h := (sha512 seed.toList).toList
  let n := ofLittle (h.take 32)
  ⟨n % (1 <<< 254) / 8 * 8 + 1 <<< 254, h.drop 32⟩

def publicKey (seed : FixedBytes 32) : FixedBytes 32 :=
  (Point.times (expand seed).scalar Point.base).encode

/-- A hash of several byte strings as a multiplier. -/
def hashToScalar (parts : List Bytes) : Nat :=
  ofLittle (sha512 parts.flatten).toList % order

/-- The signature of `message` under `seed`, whose public key is `key`. -/
def sign (seed key : FixedBytes 32) (message : Bytes) : FixedBytes 64 :=
  let secret := expand seed
  let nonce := hashToScalar [secret.nonceKey, message]
  let commitment := (Point.times nonce Point.base).encode
  let challenge := hashToScalar [commitment.toList, key.toList, message]
  ⟨commitment.toList ++ little 32 ((nonce + challenge * secret.scalar) % order), by simp⟩

def verify (key : FixedBytes 32) (message : Bytes) (signature : FixedBytes 64) : Bool :=
  let commitment := signature.toList.take 32
  let response := ofLittle (signature.toList.drop 32)
  match Point.decode? key with
  | none => false
  | some point =>
    let challenge := hashToScalar [commitment, key.toList, message]
    response < order &&
      (Point.combine response Point.base challenge point.neg).encode.toList == commitment

def scheme : SignatureScheme where
  publicKey seed := ⟨publicKey seed⟩
  sign seed key message := ⟨sign seed key.bytes message⟩
  verify key message signature := verify key.bytes message signature.bytes
  isValid key := (Point.decode? key.bytes).isSome

end LightClient.Ed25519
