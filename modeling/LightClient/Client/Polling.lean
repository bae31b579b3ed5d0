import LightClient.Node

/-! Waiting for a transaction. The node is asked a limited number of times with
a pause before each time but the first. A request that the network fails counts
as an attempt; the last attempt decides what a wait without result reports.

Time is a number of milliseconds and only pauses take any. The caller may cancel
at a given time: that ends a pause in which it falls, and no request is made at
or after it. -/

namespace LightClient.Client

inductive CommitResult
  | committed (hash : Digest) (attempts : Nat)
  /-- The node refused the transaction. -/
  | rejected (hash : Digest) (reason : String)
  deriving DecidableEq

namespace CommitResult

def isCommitted : CommitResult → Bool
  | .committed _ _ => true
  | .rejected _ _ => false

def hash : CommitResult → Digest
  | .committed hash _ => hash
  | .rejected hash _ => hash

end CommitResult

/-- A machine and the time. -/
structure Timed (σ : Type) where
  machine : σ
  now : Nat

/-- A request that may take time. -/
abbrev Act (σ α : Type) := Request (Timed σ) α

variable {σ α : Type}

/-- A request, which takes no time. -/
def instantly (request : Request σ α) : Act σ α := fun s =>
  let (answer, machine) := request s.machine
  (answer, { s with machine })

/-- Lets time pass, unless the caller cancels by then. -/
def pause (length : Nat) (cancelAt : Option Nat) : Act σ Unit := fun s =>
  let wake := s.now + length
  match cancelAt.filter (· ≤ wake) with
  | some time => (.error .cancelled, { s with now := max s.now time })
  | none => (.ok (), { s with now := wake })

/-- What an answer means for the wait: an end, or the fault that a wait which
ends here reports. -/
def settle (hash : Digest) (attempts : Nat) :
    Except ClientError TransactionStatus →
      Except ClientError CommitResult ⊕ Option NetworkFault
  | .ok .committed => .inl (.ok (.committed hash attempts))
  | .ok (.rejected reason) => .inl (.ok (.rejected hash reason))
  | .ok .unknown => .inr none
  | .ok .pending => .inr none
  | .error (.network fault) => .inr (some fault)
  | .error error => .inl (.error error)

/-- What a wait is made of. -/
structure Wait (τ : Type) where
  /-- Asks for the status. -/
  ask : Request τ TransactionStatus
  /-- Lets time pass, unless the caller cancels by then. -/
  sleep : Nat → Request τ Unit
  /-- Goes on, unless the caller has cancelled. -/
  proceed : Request τ Unit

namespace Wait
variable {τ : Type} (w : Wait τ)

/-- What comes before an attempt: a pause, unless it is the first one. -/
def lead (interval made : Nat) : Request τ Unit :=
  if made = 0 then w.proceed else do
    w.sleep interval
    w.proceed

/-- Asks up to `left` more times, `made` requests having been made and the last
of them having failed with `last`. -/
def poll (interval : Nat) (hash : Digest) :
    Nat → Nat → Option NetworkFault → Request τ CommitResult
  | 0, made, last =>
    match last with
    | some fault => throw (.network fault)
    | none => throw (.commitTimeout made)
  | left + 1, made, _ => do
    w.lead interval made
    let answer ← observing w.ask
    match settle hash (made + 1) answer with
    | .inl result => Request.ofExcept result
    | .inr last => poll interval hash left (made + 1) last

/-- Asks as often as the settings allow. -/
def await (config : Config) (hash : Digest) : Request τ CommitResult :=
  w.poll config.pollInterval.toNat hash config.maxAttempts.toNat 0 none

end Wait

/-- A wait for an answer of the node, with the clock. -/
def waiting (node : Node σ) (hash : Digest) (cancelAt : Option Nat) : Wait (Timed σ) where
  ask := instantly (node.status hash)
  sleep length := pause length cancelAt
  proceed := pause 0 cancelAt

/-- Waits until a transaction is committed or rejected. -/
def awaitCommitment (node : Node σ) (config : Config) (hash : Digest) (cancelAt : Option Nat) :
    Act σ CommitResult :=
  (waiting node hash cancelAt).await config hash

end LightClient.Client
