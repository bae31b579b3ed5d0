import LightClient.Machine.MerkleList
import LightClient.MerkleList.Builder

/-! Making a list proof, with every index, shift, sum and difference guarded. The levels are
computed until the last one has a single node, in a given number of rounds, and the nodes of
a proof are read out of them at the heights and indices that the length and the range give. -/

namespace LightClient.Machine.ListProof

open MerkleList (ListProof ProofNode ProofFault Element proofNode branchHash leafHash)

/-! ## Levels -/

/-- Every two elements, as a list of two; the last one may stand alone. -/
def chunks {α : Type} : List α → List (List α)
  | [] => []
  | [last] => [[last]]
  | a :: b :: rest => [a, b] :: chunks rest

/-- The row above a row. -/
def rowAbove (row : List Digest) : Step (List Digest) :=
  (chunks row).mapM fun pair => do return branchHash (← get pair 0) pair[1]?

/-- Adds the levels above the last one until that has a single node. -/
def levelsFrom : Nat → List (List Digest) → Run (List (List Digest))
  | 0, _ => .unfinished
  | rounds + 1, levels => do
    let last ← get levels (← sub levels.length 1)
    if 1 < last.length then
      let next ← rowAbove last
      levelsFrom rounds (levels ++ [next])
    else return levels

/-- All levels of the tree over a list, leaves first. -/
def levels (rounds : Nat) (elements : List Bytes) : Run (List (List Digest)) :=
  levelsFrom rounds [elements.map leafHash]

/-! ## A proof for a range -/

/-- The node left of a span that starts at a right child. -/
def leftOf (low height : Nat) (level : List Digest) : Step (Option ProofNode) := do
  if low % 2 = 1 then
    let index ← sub low 1
    return some (proofNode height index (← get level index))
  else return none

/-- The node right of a span that ends at a left child, if there is one. -/
def rightOf (high height : Nat) (level : List Digest) : Step (Option ProofNode) := do
  if high % 2 = 0 then
    let index ← add 64 high 1
    if index < level.length then return some (proofNode height index (← get level index))
    else return none
  else return none

/-- The nodes beside the range of leaves, on one level. -/
def beside (start stop height : Nat) (level : List Digest) : Step (List ProofNode) := do
  let low ← shiftRight 64 start height
  let high ← shiftRight 64 (← sub stop 1) height
  let left ← leftOf low height level
  let right ← rightOf high height level
  return left.toList ++ right.toList

/-- The nodes beside the range on all levels below the root. -/
def nodesBeside (levels : List (List Digest)) (height start stop : Nat) : Step (List ProofNode) := do
  let nodes ← (List.range height).mapM fun h => do beside start stop h (← get levels h)
  return nodes.flatten

def elementsOf (elements : List Bytes) (start stop : Nat) : Step (List Element) :=
  (List.range' start (stop - start)).mapM fun i => do
    return ⟨UInt64.ofNat i, ← get elements i⟩

def build (rounds : Nat) (elements : List Bytes) (start stop : Nat) :
    Run (Except ProofFault ListProof) := do
  let length := UInt64.ofNat elements.length
  match MerkleList.checkRange start stop elements.length with
  | .error fault => return .error fault
  | .ok _ =>
    if elements.length = 0 then return .ok ⟨length, [], []⟩
    else
      let levels ← levels rounds elements
      let height ← treeHeight elements.length
      if stop ≤ start then
        let hash ← get (← get levels height) 0
        return .ok ⟨length, [proofNode height 0 hash], []⟩
      else
        let nodes ← nodesBeside levels height start stop
        return .ok ⟨length, nodes, ← elementsOf elements start stop⟩

end LightClient.Machine.ListProof
