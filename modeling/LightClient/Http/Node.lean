import LightClient.Json.Accounts

/-! A node behind HTTP: which resource answers which request, and what an answer
must look like. How calls travel is left to a link. -/

namespace LightClient.Http

/-- A call for a resource: GET, or POST when it carries a JSON body. -/
structure Call where
  url : String
  body : Option String
  deriving DecidableEq

namespace Call

def method (call : Call) : String := if call.body.isSome then "POST" else "GET"

def contentType (call : Call) : Option String := call.body.map fun _ => "application/json"

end Call

structure Reply where
  status : Nat
  body : String

/-- How calls travel; a reply may fail to come. -/
structure Link (σ : Type) where
  exchange : Call → σ → Option Reply × σ

/-- A link on which no call arrives. -/
def Link.broken (σ : Type) : Link σ := ⟨fun _ s => (none, s)⟩

/-! ## Resources -/

structure Site where
  /-- Without a slash at its end. -/
  base : String
  serviceName : String

namespace Site

def ofConfig (config : Config) : Site where
  base := String.ofList (config.nodeUrl.toList.reverse.dropWhile (· == '/')).reverse
  serviceName := config.schema.serviceName

variable (site : Site)

def validators : String := site.base ++ "/api/services/configuration/v1/configs/actual"

def account (key : PublicKey) : String :=
  site.base ++ "/api/services/" ++ site.serviceName ++ "/v1/accounts/info/" ++ key.toHex

def block (height : UInt64) : String :=
  site.base ++ "/api/explorer/v1/blocks/" ++ toString height.toNat

def transactions : String := site.base ++ "/api/explorer/v1/transactions"

def status (hash : Digest) : String :=
  site.transactions ++ "/" ++ Hex.encode hash.toList ++ "/status"

end Site

/-- Whether a URL says how to reach it. -/
def hasScheme (url : String) : Bool := url.startsWith "http://" || url.startsWith "https://"

/-! ## Requests -/

variable {σ : Type} (link : Link σ)

def send (call : Call) : Request σ Reply := do
  if hasScheme call.url then
    match ← modifyGet (link.exchange call) with
    | some reply => return reply
    | none => throw (.network (.unreachable call.url))
  else throw (.network .noScheme)

/-- The value in the body of a successful reply. -/
def fetch {α : Type} (read : Json → Option α) (call : Call) : Request σ α := do
  let reply ← send link call
  if isSuccess reply.status then
    match Json.read reply.body >>= read with
    | some value => return value
    | none => throw (.network (.unreadable call.url))
  else throw (.network (.status call.url reply.status))

def get {α : Type} (form : Json.Form α) (url : String) : Request σ α :=
  fetch link form.ofJson? ⟨url, none⟩

/-- The consensus keys in the settings that the validators run under. -/
def consensusKeys (json : Json) : Option (List PublicKey) := do
  let settings ← Json.record? ["config"] json
  let consensus ← Json.record? ["validator_keys"] (← settings.lookup "config")
  match ← consensus.lookup "validator_keys" with
  | .array validators => validators.mapM fun validator => do
    (← Json.record? ["consensus_key"] validator).get .publicKey "consensus_key"
  | _ => none

/-- The body of a submission. -/
def submission (bytes : Bytes) : Json := Json.record [("tx_body", Json.Form.bytes.toJson bytes)]

def fetchValidators (S : SignatureScheme) (site : Site) : Request σ ValidatorSet := do
  let keys ← fetch link consensusKeys ⟨site.validators, none⟩
  Request.ofExcept ((keys.forM S.checkKey).mapError .crypto)
  return ⟨keys⟩

def node (S : SignatureScheme) (site : Site) : Node σ where
  validators := fetchValidators link S site
  account key := get link AccountResponse.form (site.account key)
  block height := get link BlockProof.form (site.block height)
  submit bytes :=
    fetch link SubmitAck.form.ofJson? ⟨site.transactions, some (submission bytes).write⟩
  status hash := get link TransactionStatus.form (site.status hash)

end LightClient.Http
