import LightClient.Trie.Proof

/-! Making a proof from the whole contents. The trie is cut along the keys asked
for: what holds none of them is kept as one hash, the rest is opened. -/

namespace LightClient.Trie

/-- A part of the trie in a proof. -/
inductive Piece
  | unopened (node : Node)
  | opened (leaf : Node)
  deriving DecidableEq

namespace Piece

def node? : Piece → Option Node
  | unopened node => some node
  | opened _ => none

def leaf? : Piece → Option Node
  | unopened _ => none
  | opened leaf => some leaf

end Piece

/-- Cuts the subtree over the given leaves along the requested paths. -/
def cut (requested : List Path) (first : Node) (rest : List Node) : List Piece :=
  let whole := subtree first rest
  if requested.all fun path => !whole.path.isPrefixOf path then [.unopened whole]
  else
    match rest with
    | [] => [.opened first]
    | second :: rest =>
      match _h : split first (second :: rest) with
      | (l :: ls, r :: rs) => cut requested l ls ++ cut requested r rs
      | _ => [.unopened whole]
termination_by rest.length
decreasing_by
  · exact (length_split _h).1
  · exact (length_split _h).2

/-- The entry at a leaf. -/
def entryAt (entries : Entries) (leaf : Node) : Option Entry :=
  entries[leaf.path.key]?.map fun value => ⟨leaf.path.key, value⟩

def buildProof (entries : Entries) (keys : List MapKey) : MapProof :=
  let requested := (Std.ExtTreeSet.ofList keys).toList
  let pieces :=
    match leaves entries with
    | [] => []
    | first :: rest => cut (requested.map Path.leaf) first rest
  { nodes := (pieces.filterMap Piece.node?).mergeSort Node.le
    entries := (pieces.filterMap Piece.leaf?).filterMap (entryAt entries)
    missing := requested.filter (· ∉ entries) }

end LightClient.Trie
