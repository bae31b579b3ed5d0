import LightClient.MerkleList.Proof

/-! Making a proof for a range from the whole list: on each level, the node left
of the range if the range starts at a right child, and the node right of it if
the range ends at a left child that has a sibling. -/

namespace LightClient.MerkleList

def proofNode (height index : Nat) (hash : Digest) : ProofNode :=
  ⟨UInt8.ofNat height, UInt64.ofNat index, hash⟩

/-- The nodes beside the range `[start, stop)` of leaves, on one level. -/
def beside (start stop height : Nat) (level : List Digest) : List ProofNode :=
  let low := start >>> height
  let high := (stop - 1) >>> height
  let left := if low % 2 = 1 then (level[low - 1]?).map (proofNode height (low - 1)) else none
  let right := if high % 2 = 0 then (level[high + 1]?).map (proofNode height (high + 1)) else none
  left.toList ++ right.toList

def elementsOf (elements : List Bytes) (start stop : Nat) : List Element :=
  ((elements.zipIdx.take stop).drop start).map fun (value, i) => ⟨UInt64.ofNat i, value⟩

def buildProof (elements : List Bytes) (start stop : Nat) : Except ProofFault ListProof := do
  let length := elements.length
  checkRange start stop length
  let height := treeHeight length
  let nodes :=
    if length = 0 then []
    else if start = stop then [proofNode height 0 (treeRoot elements)]
    else ((levelsOf elements).take height).zipIdx.flatMap fun (level, h) =>
      beside start stop h level
  return ⟨UInt64.ofNat length, nodes, elementsOf elements start stop⟩

end LightClient.MerkleList
