import LightClient.Machine.Guard
import LightClient.MerkleList.Proof

/-! List proofs, checked with every index, shift, sum and difference guarded. Lengths
and indices have 64 bits, and the given nodes lie in a table with one level for each
height below the root. -/

namespace LightClient.Machine

open MerkleList (ListProof ProofNode ProofFault Level branchHash leafHash listHash maxLength)

namespace ListProof

/-! ## Sizes -/

/-- How many of the 64 bits of a number precede its highest set bit. -/
def leadingZeros (n : Nat) : Nat := if n = 0 then 64 else 63 - n.log2

def treeHeight (size : Nat) : Step Nat := do
  if size ≤ 1 then return 0
  else
    let bits ← sub 64 (leadingZeros (← sub size 1))
    return bits % UInt8.size

def levelSize (size height : Nat) : Step Nat := do
  if size = 0 then return 0 else add 64 (← shiftRight 64 (← sub size 1) height) 1

/-! ## Levels -/

/-- Whether the node at `index` ends a level of odd size and so has no sibling. -/
def endsAlone (size index : Nat) : Step Bool := do
  if size % 2 = 1 then return index == (← sub size 1) else return false

/-- The first index among `indices` whose sibling is not known. -/
def firstMissing (size : Nat) (computed given : Level) : List Nat → Step (Option Nat)
  | [] => return none
  | i :: rest => do
    let alone ← endsAlone size i
    if !alone && Level.sibling i ∉ computed && Level.sibling i ∉ given then return some i
    else firstMissing size computed given rest

/-- Every computed node has its sibling, and every given node is one. -/
def checkLevel (size height : Nat) (computed given : Level) : Guarded ProofFault Unit := do
  match ← firstMissing size computed given computed.keys with
  | some i => .fail (.missingNode height (Level.sibling i))
  | none =>
    match Level.firstUnwanted computed given with
    | some i =>
      if i ∈ computed then .fail (.overlappingNode height i)
      else .fail (.redundantNode height i)
    | none => return ()

/-- The parents of the nodes at even indices. -/
def parentsOf (level : Level) : List (Nat × Digest) → Step (List (Nat × Digest))
  | [] => return []
  | (i, hash) :: rest => do
    if i % 2 = 1 then parentsOf level rest
    else
      let right ← add 64 i 1
      return (i / 2, branchHash hash level[right]?) :: (← parentsOf level rest)

/-- The level above a level. -/
def parents (level : Level) : Step Level := do
  return .ofList (← parentsOf level level.toList)

/-- Computes the levels from `height` on, `steps` of them. -/
def climb (length : Nat) (table : List Level) : Nat → Nat → Level → Guarded ProofFault Level
  | 0, _, computed => return computed
  | steps + 1, height, computed => do
    let size ← levelSize length height
    let given ← get table height
    checkLevel size height computed given
    climb length table steps (height + 1) (← parents (computed.insertMany given.toList))

/-! ## Checking -/

/-- Puts every node into the table, at its height. -/
def place (length treeHeight : Nat) : List ProofNode → List Level → Guarded ProofFault (List Level)
  | [], table => return table
  | n :: rest, table => do
    let height := n.height.toNat
    let index := n.index.toNat
    if treeHeight ≤ height then .fail (.nodeAbove height treeHeight)
    else if (← levelSize length height) ≤ index then .fail (.nodeOutside index height)
    else
      let level ← get table height
      let table ← set table height (level.insert index n.hash)
      if index ∈ level then .fail (.duplicateNode height index)
      else place length treeHeight rest table

def computeRoot (proof : ListProof) (elements : Std.ExtTreeMap Nat Bytes) :
    Guarded ProofFault Digest := do
  let length := proof.length.toNat
  let height ← treeHeight length
  if length = 0 then
    if proof.nodes.isEmpty then return listHash 0 (.zero 32) else .fail .nodesForEmptyList
  else if elements.isEmpty then
    match proof.nodes with
    | [node] =>
      if node.height.toNat = height ∧ node.index = 0 then return listHash length node.hash
      else .fail (.emptyRangeNode node.height.toNat node.index.toNat height)
    | nodes => .fail (.emptyRangeNodes nodes.length)
  else
    let table ← place length height proof.nodes (.replicate height ∅)
    let top ← climb length table height 0 (elements.map fun _ value => leafHash value)
    match top[0]? with
    | some treeRoot => return listHash length treeRoot
    | none => .fail .noRoot

/-- Checks a proof against a root and returns the elements from `start` up to
`stop`, in order. -/
def verify (proof : ListProof) (expected : Digest) (start stop : Nat) :
    Guarded ProofFault (List (Nat × Bytes)) := do
  let length := proof.length.toNat
  if maxLength < length then .fail (.tooLong length)
  else
    .of (MerkleList.checkRange start stop length)
    let elements ← .of (MerkleList.ListProof.indexElements length proof.elements ∅)
    let span ← sub stop start
    if elements.size = span ∧ elements.keys.all fun i => start ≤ i && i < stop then
      let root ← computeRoot proof elements
      if root = expected then return elements.toList
      else .fail (.wrongRoot root expected)
    else .fail (.notCovering start stop)

end ListProof

end LightClient.Machine
