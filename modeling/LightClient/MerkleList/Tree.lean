import LightClient.Hash.Sha256

/-! The hash tree over a list. Elements lie at height 0; a node at the end of a
level of odd size has no sibling and is hashed alone. Leaves, branches and the
whole list are told apart by a first byte. -/

namespace LightClient.MerkleList

def leafHash (element : Bytes) : Digest := sha256Parts [[0], element]

def branchHash (left : Digest) : Option Digest → Digest
  | some right => sha256Parts [[1], left.toList, right.toList]
  | none => sha256Parts [[1], left.toList]

/-- Binds the root of the tree to the length of the list. -/
def listHash (length : Nat) (treeRoot : Digest) : Digest :=
  sha256Parts [[2], little 8 length, treeRoot.toList]

/-! ## Sizes -/

/-- The least `h` with `size ≤ 2 ^ h`. -/
def treeHeight (size : Nat) : Nat := if size ≤ 1 then 0 else (size - 1).log2 + 1

/-- The number of nodes at a height: `size / 2 ^ height`, rounded up. -/
def levelSize (size height : Nat) : Nat := if size = 0 then 0 else ((size - 1) >>> height) + 1

/-! ## Levels -/

/-- The level above a level. -/
def parents : List Digest → List Digest
  | [] => []
  | [last] => [branchHash last none]
  | left :: right :: rest => branchHash left (some right) :: parents rest

theorem length_parents (level : List Digest) : (parents level).length = (level.length + 1) / 2 := by
  fun_induction parents level with
  | case1 => rfl
  | case2 => simp
  | case3 _ _ rest ih => simp only [List.length_cons, ih]; omega

/-- A level and all above it, up to a single node. -/
def levels (level : List Digest) : List (List Digest) :=
  if level.length ≤ 1 then [level] else level :: levels (parents level)
termination_by level.length
decreasing_by rw [length_parents]; omega

/-- All levels of the tree over a list, leaves first. -/
def levelsOf (elements : List Bytes) : List (List Digest) := levels (elements.map leafHash)

/-- The single node of the last level; zeros for an empty list. -/
def treeRoot (elements : List Bytes) : Digest :=
  ((levelsOf elements).getLastD []).headD (.zero 32)

def root (elements : List Bytes) : Digest := listHash elements.length (treeRoot elements)

end LightClient.MerkleList
