import LightClient.Machine.Trie
import LightClient.Trie.Builder

/-! Making a map proof, with every index, range and difference guarded. The recursion on the
parts of the leaves follows the parts wherever they lead, down to a given depth of calls:
nothing in it says that a part is smaller than the whole or that it is not empty. -/

namespace LightClient.Machine.MapProof

open Trie (MapKey Path MapProof Entries)

/-! ## Parting the leaves -/

/-- The common prefix of the first and the last leaf. -/
def span (leaves : List Trie.Node) : Step Path := do
  let first ← get leaves 0
  let last ← get leaves (← sub leaves.length 1)
  Path.commonPrefix first.path last.path

/-- How many leaves come before the first one whose bit `i` is set. -/
def position (i : Nat) : List Trie.Node → Step Nat
  | [] => return 0
  | leaf :: rest => do
    if ← Path.bit leaf.path i then return 0 else return (← position i rest) + 1

/-- Parts the leaves at the first one whose bit after the common prefix is set. -/
def split (leaves : List Trie.Node) : Step (List Trie.Node × List Trie.Node) := do
  let path ← span leaves
  let mid ← position path.bits leaves
  return (← slice leaves 0 mid, ← slice leaves mid leaves.length)

/-- Path and hash of the subtree over the leaves, with calls at most `depth` deep. -/
def subtree : Nat → List Trie.Node → Run Trie.Node
  | 0, _ => .unfinished
  | _ + 1, [leaf] => return leaf
  | depth + 1, leaves => do
    let (left, right) ← split leaves
    let path ← span leaves
    let left ← subtree depth left
    let right ← subtree depth right
    join path left right

/-! ## The cut -/

/-- Whether one of the paths lies at or below the node. -/
def reached (node : Trie.Node) : List Path → Step Bool
  | [] => return false
  | path :: rest => do
    if ← Path.isPrefixOf node.path path then return true else reached node rest

/-- Adds what the leaves give to a proof: one node if none of the requested paths lies below
it, otherwise what both parts give, down to the entries. -/
def collect (requested : List Path) (entries : Entries) :
    Nat → List Trie.Node → MapProof → Run MapProof
  | 0, _, _ => .unfinished
  | depth + 1, leaves, proof => do
    let node ← subtree (depth + 1) leaves
    if ← reached node requested then
      match leaves with
      | [leaf] =>
        match entries[leaf.path.key]? with
        | some value => return { proof with entries := proof.entries ++ [⟨leaf.path.key, value⟩] }
        | none => return proof
      | _ =>
        let (left, right) ← split leaves
        let proof ← collect requested entries depth left proof
        collect requested entries depth right proof
    else return { proof with nodes := proof.nodes ++ [node] }

def build (depth : Nat) (entries : Entries) (keys : List MapKey) : Run MapProof := do
  let requested := (Std.ExtTreeSet.ofList keys).toList
  let leaves ← sort (entries.toList.map fun entry => Trie.Node.ofEntry entry.1 entry.2)
  let collected ←
    if leaves.isEmpty then pure ⟨[], [], []⟩
    else collect (requested.map Path.leaf) entries depth leaves ⟨[], [], []⟩
  let nodes ← sort collected.nodes
  return ⟨nodes, collected.entries, requested.filter (· ∉ entries)⟩

end LightClient.Machine.MapProof
