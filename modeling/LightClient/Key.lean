import LightClient.Bytes.Hex

/-! Public keys, signatures, and the signature scheme that ties them together.
Everything that checks or makes signatures takes the scheme as an argument;
`SignatureScheme.Lawful` is all it may rely on. -/

namespace LightClient

structure PublicKey where
  bytes : FixedBytes 32
  deriving DecidableEq

structure Signature where
  bytes : FixedBytes 64
  deriving DecidableEq

/-- Why bytes or a text are no key or no signature. -/
inductive KeyFault
  | keyLength (expected actual : Nat)
  | signatureLength (expected actual : Nat)
  | notOnCurve
  | halvesDiffer
  | hex (fault : Hex.Fault)
  /-- Malformed hex, as described by someone else. -/
  | reportedHex (text : String)
  deriving DecidableEq

def KeyFault.message : KeyFault → String
  | .keyLength expected actual =>
    "Invalid key length: expected " ++ toString expected ++ ", got " ++ toString actual
  | .signatureLength expected actual =>
    "Invalid signature length: expected " ++ toString expected ++ ", got " ++ toString actual
  | .notOnCurve => "Invalid public key"
  | .halvesDiffer => "Invalid secret key"
  | .hex fault => "Invalid hex: " ++ fault.message
  | .reportedHex text => "Invalid hex: " ++ text

namespace PublicKey

def ofBytes (bytes : Bytes) : Except KeyFault PublicKey :=
  match FixedBytes.ofList? 32 bytes with
  | some key => .ok ⟨key⟩
  | none => .error (.keyLength 32 bytes.length)

def ofHex (text : String) : Except KeyFault PublicKey :=
  match Hex.decode text with
  | .ok bytes => ofBytes bytes
  | .error fault => .error (.hex fault)

def toHex (key : PublicKey) : String := Hex.encode key.bytes.toList

/-- The form for logs. -/
def tagged (key : PublicKey) : String := "PublicKey(" ++ key.toHex ++ ")"

end PublicKey

namespace Signature

/-- The placeholder of a message that is not signed yet. -/
def blank : Signature := ⟨.zero 64⟩

def ofBytes (bytes : Bytes) : Except KeyFault Signature :=
  match FixedBytes.ofList? 64 bytes with
  | some signature => .ok ⟨signature⟩
  | none => .error (.signatureLength 64 bytes.length)

def ofHex (text : String) : Except KeyFault Signature :=
  match Hex.decode text with
  | .ok bytes => ofBytes bytes
  | .error fault => .error (.hex fault)

def toHex (signature : Signature) : String := Hex.encode signature.bytes.toList

/-- The form for logs: the first eight bytes. -/
def tagged (signature : Signature) : String :=
  "Signature(" ++ Hex.encode (signature.bytes.toList.take 8) ++ "..)"

end Signature

/-! ## The scheme -/

structure SignatureScheme where
  publicKey : FixedBytes 32 → PublicKey
  /-- Signs under a seed and the public key that belongs to it. -/
  sign : FixedBytes 32 → PublicKey → Bytes → Signature
  verify : PublicKey → Bytes → Signature → Bool
  isValid : PublicKey → Bool

/-- What is signed under a seed verifies under its public key. -/
structure SignatureScheme.Lawful (S : SignatureScheme) : Prop where
  verify_sign (seed : FixedBytes 32) (message : Bytes) :
    S.verify (S.publicKey seed) message (S.sign seed (S.publicKey seed) message) = true

structure KeyPair (S : SignatureScheme) where
  seed : FixedBytes 32
  publicKey : PublicKey
  publicKey_eq : publicKey = S.publicKey seed

namespace SignatureScheme
variable (S : SignatureScheme)

def keyPair (seed : FixedBytes 32) : KeyPair S := ⟨seed, S.publicKey seed, rfl⟩

/-- Refuses a key that is no point of the curve. -/
def checkKey (key : PublicKey) : Except KeyFault Unit :=
  if S.isValid key then .ok () else .error .notOnCurve

/-- Verification of whatever arrives; a wrong length does not verify. -/
def verifyBytes (signature key message : Bytes) : Bool :=
  match FixedBytes.ofList? 32 key, FixedBytes.ofList? 64 signature with
  | some key, some signature => S.verify ⟨key⟩ message ⟨signature⟩
  | _, _ => false

/-- The key pair stored as a seed followed by its public key. -/
def ofSecret (bytes : Bytes) : Except KeyFault (KeyPair S) :=
  match FixedBytes.ofList? 32 (bytes.take 32), FixedBytes.ofList? 32 (bytes.drop 32) with
  | some seed, some stored =>
    let pair := S.keyPair seed
    if pair.publicKey = ⟨stored⟩ then .ok pair else .error .halvesDiffer
  | _, _ => .error (.keyLength 64 bytes.length)

end SignatureScheme

namespace KeyPair
variable {S : SignatureScheme}

def sign (pair : KeyPair S) (message : Bytes) : Signature :=
  S.sign pair.seed pair.publicKey message

def secret (pair : KeyPair S) : Bytes := pair.seed.toList ++ pair.publicKey.bytes.toList

/-- The form for logs, which hides the secret. -/
def tagged (pair : KeyPair S) : String :=
  "KeyPair \x7b public_key: " ++ pair.publicKey.tagged ++ ", secret_key: SecretKey(..) \x7d"

theorem verify_sign (lawful : S.Lawful) (pair : KeyPair S) (message : Bytes) :
    S.verify pair.publicKey message (pair.sign message) = true := by
  rw [sign, pair.publicKey_eq]
  exact lawful.verify_sign pair.seed message

end KeyPair

end LightClient
