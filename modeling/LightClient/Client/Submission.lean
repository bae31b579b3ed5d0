import LightClient.Node

/-! Building and submitting transactions. -/

namespace LightClient.Client

variable {S : SignatureScheme} {σ : Type}

/-- Signs a body for the network of the settings. -/
def buildTransaction (config : Config) (signer : KeyPair S) (body : Body) :
    Except ClientError Transaction := do
  let encoded ← body.encode.mapError .encoding
  let unsigned : Transaction :=
    { networkId := config.networkId
      protocolVersion := config.protocolVersion
      messageId := config.schema.messageId body.kind
      serviceId := config.schema.serviceId
      body := encoded
      signature := .blank }
  let message ← unsigned.signedBytes.mapError .encoding
  return { unsigned with signature := signer.sign message }

/-- Builds and hands over a transaction. Its hash is the one that the node
says, or else the hash of the bytes. -/
def submit (node : Node σ) (config : Config) (signer : KeyPair S) (body : Body) :
    Request σ Digest := do
  let transaction ← Request.ofExcept (buildTransaction config signer body)
  let bytes ← Request.ofExcept (transaction.toBytes.mapError .encoding)
  let ack ← node.submit bytes
  return ack.txHash.getD (sha256 bytes)

end LightClient.Client
