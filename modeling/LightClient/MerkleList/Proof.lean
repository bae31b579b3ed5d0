import LightClient.Bytes.Hex
import LightClient.MerkleList.Tree
import Std.Data.ExtTreeMap

/-! Proofs for a range of a list. A proof holds the elements of the range and
the nodes beside them; `ListProof.verify` recomputes the root level by level and
refuses a node that is missing, redundant or computed as well. -/

namespace LightClient.MerkleList

structure ProofNode where
  height : UInt8
  index : UInt64
  hash : Digest
  deriving DecidableEq

structure Element where
  index : UInt64
  value : Bytes
  deriving DecidableEq

structure ListProof where
  /-- The length of the whole list. -/
  length : UInt64
  nodes : List ProofNode
  elements : List Element
  deriving DecidableEq

inductive ProofFault
  | range (start stop length : Nat)
  | tooLong (length : Nat)
  | elementOutside (index length : Nat)
  | duplicateElement (index : Nat)
  | notCovering (start stop : Nat)
  | nodesForEmptyList
  | emptyRangeNode (height index expectedHeight : Nat)
  | emptyRangeNodes (count : Nat)
  | nodeAbove (height treeHeight : Nat)
  | nodeOutside (index height : Nat)
  | duplicateNode (height index : Nat)
  | missingNode (height index : Nat)
  | overlappingNode (height index : Nat)
  | redundantNode (height index : Nat)
  | noRoot
  | wrongRoot (computed expected : Digest)
  deriving DecidableEq

private def pair (a b : Nat) : String := "(" ++ toString a ++ ", " ++ toString b ++ ")"

def ProofFault.message : ProofFault → String
  | .range start stop length =>
    "Range [" ++ toString start ++ ", " ++ toString stop ++ ") outside list of length " ++
      toString length
  | .tooLong length => "list length " ++ toString length ++ " exceeds 2^56"
  | .elementOutside index length =>
    "element at index " ++ toString index ++ " outside list of length " ++ toString length
  | .duplicateElement index => "duplicate element at index " ++ toString index
  | .notCovering start stop =>
    "elements do not cover range [" ++ toString start ++ ", " ++ toString stop ++ ")"
  | .nodesForEmptyList => "proof nodes for an empty list"
  | .emptyRangeNode height index expectedHeight =>
    "empty range proof node at " ++ pair height index ++ ", expected " ++ pair expectedHeight 0
  | .emptyRangeNodes count => "empty range proof must have one node, has " ++ toString count
  | .nodeAbove height treeHeight =>
    "proof node at height " ++ toString height ++ ", tree height is " ++ toString treeHeight
  | .nodeOutside index height =>
    "proof node index " ++ toString index ++ " outside level " ++ toString height
  | .duplicateNode height index => "multiple proof nodes at " ++ pair height index
  | .missingNode height index => "missing proof node at " ++ pair height index
  | .overlappingNode height index =>
    "proof node at " ++ pair height index ++ " overlaps a computed node"
  | .redundantNode height index => "redundant proof node at " ++ pair height index
  | .noRoot => "no root computed"
  | .wrongRoot computed expected =>
    "list root " ++ Hex.encode computed.toList ++ " does not match expected " ++
      Hex.encode expected.toList

/-- The largest list that a proof may speak about. -/
def maxLength : Nat := 1 <<< 56

def checkRange (start stop length : Nat) : Except ProofFault Unit :=
  if start ≤ stop ∧ stop ≤ length then .ok () else .error (.range start stop length)

/-! ## Levels -/

/-- The known nodes of one level, by index. -/
abbrev Level := Std.ExtTreeMap Nat Digest

namespace Level

def sibling (index : Nat) : Nat := index ^^^ 1

/-- Whether the node at `index` ends a level of odd size and so has no sibling. -/
def endsAlone (size index : Nat) : Bool := size % 2 == 1 && index == size - 1

/-- The first index, in ascending order, whose sibling is not known. -/
def firstMissing (size : Nat) (computed given : Level) : Option Nat :=
  computed.keys.find? fun i =>
    !endsAlone size i && sibling i ∉ computed && sibling i ∉ given

/-- The first given index that is computed too or whose sibling is not computed. -/
def firstUnwanted (computed given : Level) : Option Nat :=
  given.keys.find? fun i => i ∈ computed || sibling i ∉ computed

/-- Every computed node has its sibling, and every given node is one. -/
def check (size height : Nat) (computed given : Level) : Except ProofFault Unit :=
  match firstMissing size computed given with
  | some i => .error (.missingNode height (sibling i))
  | none =>
    match firstUnwanted computed given with
    | some i =>
      if i ∈ computed then .error (.overlappingNode height i)
      else .error (.redundantNode height i)
    | none => .ok ()

/-- The level above, from the even indices of this one. -/
def parents (level : Level) : Level :=
  .ofList <| level.toList.filterMap fun (i, hash) =>
    if i % 2 = 0 then some (i / 2, branchHash hash level[i + 1]?) else none

end Level

namespace ListProof

/-- The given nodes of a height. -/
def given (nodes : List ProofNode) (height : Nat) : Level :=
  .ofList <| (nodes.filter (·.height.toNat = height)).map fun n => (n.index.toNat, n.hash)

/-- Computes the levels from `height` on, `steps` of them. -/
def climb (length : Nat) (nodes : List ProofNode) : Nat → Nat → Level → Except ProofFault Level
  | 0, _, computed => .ok computed
  | steps + 1, height, computed => do
    let given := given nodes height
    Level.check (levelSize length height) height computed given
    climb length nodes steps (height + 1) (Level.parents (computed.insertMany given.toList))

/-- Every node lies inside the tree and below its root, and none is repeated. -/
def checkNodes (length : Nat) : List ProofNode → List (UInt8 × UInt64) → Except ProofFault Unit
  | [], _ => .ok ()
  | n :: rest, seen =>
    if treeHeight length ≤ n.height.toNat then
      .error (.nodeAbove n.height.toNat (treeHeight length))
    else if levelSize length n.height.toNat ≤ n.index.toNat then
      .error (.nodeOutside n.index.toNat n.height.toNat)
    else if (n.height, n.index) ∈ seen then .error (.duplicateNode n.height.toNat n.index.toNat)
    else checkNodes length rest ((n.height, n.index) :: seen)

/-- The elements by index. -/
def indexElements (length : Nat) :
    List Element → Std.ExtTreeMap Nat Bytes → Except ProofFault (Std.ExtTreeMap Nat Bytes)
  | [], found => .ok found
  | e :: rest, found =>
    if length ≤ e.index.toNat then .error (.elementOutside e.index.toNat length)
    else if e.index.toNat ∈ found then .error (.duplicateElement e.index.toNat)
    else indexElements length rest (found.insert e.index.toNat e.value)

def computeRoot (proof : ListProof) (elements : Std.ExtTreeMap Nat Bytes) :
    Except ProofFault Digest :=
  let length := proof.length.toNat
  let height := treeHeight length
  if length = 0 then
    if proof.nodes.isEmpty then .ok (listHash 0 (.zero 32)) else .error .nodesForEmptyList
  else if elements.isEmpty then
    match proof.nodes with
    | [node] =>
      if node.height.toNat = height ∧ node.index = 0 then .ok (listHash length node.hash)
      else .error (.emptyRangeNode node.height.toNat node.index.toNat height)
    | nodes => .error (.emptyRangeNodes nodes.length)
  else do
    checkNodes length proof.nodes []
    let top ← climb length proof.nodes height 0 (elements.map fun _ value => leafHash value)
    match top[0]? with
    | some treeRoot => return listHash length treeRoot
    | none => throw .noRoot

/-- Checks a proof against a root and returns the elements from `start` up to
`stop`, in order. -/
def verify (proof : ListProof) (expected : Digest) (start stop : Nat) :
    Except ProofFault (List (Nat × Bytes)) := do
  let length := proof.length.toNat
  if maxLength < length then throw (.tooLong length)
  checkRange start stop length
  let elements ← indexElements length proof.elements ∅
  if elements.size = stop - start ∧ elements.keys.all fun i => start ≤ i && i < stop then
    let root ← proof.computeRoot elements
    if root = expected then return elements.toList
    else throw (.wrongRoot root expected)
  else throw (.notCovering start stop)

end ListProof

end LightClient.MerkleList
