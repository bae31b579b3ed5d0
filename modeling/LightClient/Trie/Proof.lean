import LightClient.Bytes.Hex
import LightClient.Trie.Node
import Std.Data.ExtTreeSet

/-! Proofs that keys of a trie are present or absent. A proof lists the entries
asked for and the nodes beside them; `MapProof.check` recomputes the root from
both, folding them from left to right over a stack, the contour. -/

namespace LightClient.Trie

structure Entry where
  key : MapKey
  value : Bytes
  deriving DecidableEq

structure MapProof where
  /-- The subtrees that the proof does not open, in path order. -/
  nodes : List Node
  /-- Keys proven present. -/
  entries : List Entry
  /-- Keys proven absent. -/
  missing : List MapKey
  deriving DecidableEq

inductive ProofFault
  | duplicatePath (path : Path)
  | invalidOrder (previous next : Path)
  | embeddedPath (outer inner : Path)
  | coveredKey (outer : Path) (key : MapKey)
  | duplicateEntry (key : MapKey)
  | listedTwice (key : MapKey)
  | singleBranch
  | wrongRoot (computed expected : Digest)
  | uncoveredKey (key : MapKey)
  deriving DecidableEq

def ProofFault.message : ProofFault → String
  | .duplicatePath path => "duplicate path " ++ path.describe
  | .invalidOrder previous next =>
    "invalid order: " ++ previous.describe ++ " before " ++ next.describe
  | .embeddedPath outer inner =>
    "embedded path: " ++ outer.describe ++ " is a prefix of " ++ inner.describe
  | .coveredKey outer key =>
    "embedded path: " ++ outer.describe ++ " covers requested key " ++ Hex.encode key.toList
  | .duplicateEntry key => "duplicate entry for key " ++ Hex.encode key.toList
  | .listedTwice key => "key " ++ Hex.encode key.toList ++ " listed twice"
  | .singleBranch => "single proof node must be a leaf"
  | .wrongRoot computed expected =>
    "map root " ++ Hex.encode computed.toList ++ " does not match expected " ++
      Hex.encode expected.toList
  | .uncoveredKey key => "proof does not cover key " ++ Hex.encode key.toList

/-! ## The contour -/

/-- The nodes that still lack a right neighbour, nearest first, with the common
prefix of the two nearest. -/
structure Contour where
  top : Node
  below : List Node
  shared : Path

namespace Contour

/-- The prefix shared by a new parent at `path` and the node below it; the old
one when there is none below. -/
def sharedBelow (path : Path) : List Node → Path
  | [] => path
  | next :: _ => next.path.commonPrefix path

/-- Joins the two nearest nodes as long as they share more than `depth` bits. -/
def collapse (depth : Nat) (top : Node) : List Node → Path → Contour
  | [], shared => ⟨top, [], shared⟩
  | left :: below, shared =>
    if depth < shared.bits then
      collapse depth (.join shared left top) below (sharedBelow shared below)
    else ⟨top, left :: below, shared⟩

/-- Adds the next node in path order. -/
def push (c : Contour) (node : Node) : Contour :=
  let shared := c.top.path.commonPrefix node.path
  let c := collapse shared.bits c.top c.below c.shared
  ⟨node, c.top :: c.below, shared⟩

/-- Joins all nodes into one. -/
def close (top : Node) : List Node → Path → Node
  | [], _ => top
  | left :: below, shared => close (.join shared left top) below (sharedBelow shared below)

end Contour

/-- The hash over a sorted list of nodes, by one pass from left to right. -/
def foldContour : List Node → Digest
  | [] => emptyRoot
  | [node] => node.hash
  | first :: second :: rest =>
    let start : Contour := ⟨second, [first], first.path.commonPrefix second.path⟩
    let c := rest.foldl Contour.push start
    (Contour.close c.top c.below c.shared).hash

/-! ## Checking -/

/-- What a proof with the right root says. -/
structure Checked where
  root : Digest
  entries : Entries
  missing : Std.ExtTreeSet MapKey

/-- The value of a key proven present, nothing for a key proven absent. -/
def Checked.get (c : Checked) (key : MapKey) : Except ProofFault (Option Bytes) :=
  match c.entries[key]? with
  | some value => .ok (some value)
  | none => if key ∈ c.missing then .ok none else .error (.uncoveredKey key)

namespace MapProof

/-- Neighbours must ascend, and none may lie below the one before it. -/
def checkOrder : List Node → Except ProofFault Unit
  | a :: b :: rest =>
    if a.path = b.path then .error (.duplicatePath a.path)
    else if a.path.cmp b.path = .gt then .error (.invalidOrder a.path b.path)
    else if a.path.isPrefixOf b.path then .error (.embeddedPath a.path b.path)
    else checkOrder (b :: rest)
  | _ => .ok ()

def indexEntries : List Entry → Entries → Except ProofFault Entries
  | [], found => .ok found
  | e :: rest, found =>
    if e.key ∈ found then .error (.duplicateEntry e.key)
    else indexEntries rest (found.insert e.key e.value)

def indexMissing (entries : Entries) :
    List MapKey → Std.ExtTreeSet MapKey → Except ProofFault (Std.ExtTreeSet MapKey)
  | [], found => .ok found
  | key :: rest, found =>
    if key ∈ entries ∨ key ∈ found then .error (.listedTwice key)
    else indexMissing entries rest (found.insert key)

/-- The keys a proof speaks about, as listed. -/
def keys (proof : MapProof) : List MapKey := proof.entries.map Entry.key ++ proof.missing

/-- No unopened subtree may hold a key that the proof speaks about. -/
def checkCovered (nodes : List Node) : List MapKey → Except ProofFault Unit
  | [] => .ok ()
  | key :: rest =>
    match nodes.find? fun n => n.path.isPrefixOf (.leaf key) with
    | some n => .error (.coveredKey n.path key)
    | none => checkCovered nodes rest

/-- Nodes and entries together, in path order. -/
def contour (proof : MapProof) : List Node :=
  (proof.entries.map (fun e => Node.ofEntry e.key e.value) ++ proof.nodes).mergeSort Node.le

def computeRoot (proof : MapProof) : Except ProofFault Digest :=
  match proof.nodes, proof.entries with
  | [], [] => .ok emptyRoot
  | [node], [] =>
    if node.path.isLeaf then .ok (singleRoot node.path node.hash) else .error .singleBranch
  | [], [e] => .ok (singleRoot (.leaf e.key) (sha256 e.value))
  | _, _ => .ok (foldContour proof.contour)

def check (proof : MapProof) (expected : Digest) : Except ProofFault Checked := do
  checkOrder proof.nodes
  let entries ← indexEntries proof.entries ∅
  let missing ← indexMissing entries proof.missing ∅
  checkCovered proof.nodes proof.keys
  let root ← proof.computeRoot
  if root = expected then return ⟨root, entries, missing⟩
  else throw (.wrongRoot root expected)

end MapProof

end LightClient.Trie
