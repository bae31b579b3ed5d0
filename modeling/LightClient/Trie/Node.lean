import LightClient.Hash.Sha256
import LightClient.Trie.Path
import Std.Data.ExtTreeMap

/-! Hashes of a binary Merkle-Patricia trie.

A value is hashed alone, a branch over both children's hashes and paths, a
trie of one entry over its path and the value's hash; the empty trie has the
zero root. `subtree` is the recursive hash of a list of nodes in path order. -/

namespace LightClient.Trie

/-- A position with the hash of what lies there. -/
structure Node where
  path : Path
  hash : Digest
  deriving DecidableEq

/-- The contents of a trie. -/
abbrev Entries := Std.ExtTreeMap MapKey Bytes

def emptyRoot : Digest := .zero 32

def singleRoot (path : Path) (hash : Digest) : Digest := sha256Parts [path.toRaw, hash.toList]

def branchHash (left right : Node) : Digest :=
  sha256Parts [left.hash.toList, right.hash.toList, left.path.toRaw, right.path.toRaw]

namespace Node

def ofEntry (key : MapKey) (value : Bytes) : Node := ⟨.leaf key, sha256 value⟩

/-- The parent of two nodes, at their common prefix `path`. -/
def join (path : Path) (left right : Node) : Node := ⟨path, branchHash left right⟩

def le (m n : Node) : Bool := (m.path.cmp n.path).isLE

end Node

/-! ## The recursive hash -/

/-- The common prefix of a nonempty list of nodes in path order. -/
def spanPath (first : Node) (rest : List Node) : Path :=
  first.path.commonPrefix (rest.getLastD first).path

/-- Parts the nodes at the first one whose bit after the common prefix is set. -/
def split (first : Node) (rest : List Node) : List Node × List Node :=
  let clear (n : Node) := !n.path.bit (spanPath first rest).bits
  ((first :: rest).takeWhile clear, (first :: rest).dropWhile clear)

theorem split_append (first : Node) (rest : List Node) :
    (split first rest).1 ++ (split first rest).2 = first :: rest :=
  List.takeWhile_append_dropWhile

theorem length_split {first l r : Node} {rest ls rs : List Node}
    (h : split first rest = (l :: ls, r :: rs)) :
    ls.length < rest.length ∧ rs.length < rest.length := by
  have := congrArg List.length (split_append first rest)
  simp only [h, List.length_append, List.length_cons] at this
  omega

/-- A single node stands for itself; a longer list is split and its halves are
joined. (Nodes in path order, none a prefix of another, always split in two.) -/
def subtree (first : Node) : List Node → Node
  | [] => first
  | second :: rest =>
    match _h : split first (second :: rest) with
    | (l :: ls, r :: rs) =>
      .join (spanPath first (second :: rest)) (subtree l ls) (subtree r rs)
    | _ => first
termination_by rest => rest.length
decreasing_by
  · exact (length_split _h).1
  · exact (length_split _h).2

/-! ## The root of given contents -/

/-- One leaf for each entry, in path order. -/
def leaves (entries : Entries) : List Node :=
  (entries.toList.map fun entry => Node.ofEntry entry.1 entry.2).mergeSort Node.le

def root (entries : Entries) : Digest :=
  match leaves entries with
  | [] => emptyRoot
  | [leaf] => singleRoot leaf.path leaf.hash
  | first :: rest => (subtree first rest).hash

end LightClient.Trie
