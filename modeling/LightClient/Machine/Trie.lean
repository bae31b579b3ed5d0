import LightClient.Machine.Guard
import LightClient.Trie.Proof

/-! Map proofs, checked with every index, range, shift and sum guarded. Paths are
read bit by bit out of 32 bytes with 16-bit positions; the contour is a vector whose
last element is the nearest node. -/

namespace LightClient.Machine

open Trie (MapKey Path PathFault Node MapProof ProofFault Checked lowestBit emptyRoot)

namespace Path

def bit (p : Path) (i : Nat) : Step Bool := do
  let byte ← get p.key.toList (i / 8)
  let moved ← shiftRight 8 byte.toNat (i % 8)
  return moved % 2 == 1

/-- Index of the first bit below `limit` in which two byte strings differ, which
start at byte `byte` of their keys. -/
def firstDifference (limit : Nat) : Nat → Bytes → Bytes → Step (Option Nat)
  | byte, x :: xs, y :: ys => do
    if x = y then
      let next ← add 16 (byte % UInt16.size) 1
      let reached ← mul 16 next 8
      if limit ≤ reached then return none
      else firstDifference limit (byte + 1) xs ys
    else
      let start ← mul 64 byte 8
      let index ← add 16 (start % UInt16.size) (lowestBit (x ^^^ y))
      return if index < limit then some index else none
  | _, _, _ => return none

/-- Clears every bit from index `bits` on. -/
def keepBits (bits : Nat) (key : Bytes) : Step Bytes := do
  let zeros : Bytes := .replicate 32 0
  let full := bits / 8
  let out ← overwrite zeros 0 full (← slice key 0 full)
  if bits % 8 = 0 then return out
  else
    let mask ← sub (← shiftLeft 8 1 (bits % 8)) 1
    set out full ((← get key full) &&& UInt8.ofNat mask)

/-- A path of these bits. -/
def make (key : Bytes) (bits : Nat) : Step Path := do
  let key ← copy 32 key
  if h : bits ≤ 256 ∧ Trie.keepBits bits key.toList = key.toList then
    return ⟨key, bits, h.1, h.2⟩
  else throw .looseKey

def commonPrefix (p q : Path) : Step Path := do
  if p = q then return p
  else
    let limit := min p.bits q.bits
    let shared := (← firstDifference limit 0 p.key.toList q.key.toList).getD limit
    make (← keepBits shared p.key.toList) shared

def isPrefixOf (p q : Path) : Step Bool := do
  if p.bits ≤ q.bits then
    return (← firstDifference p.bits 0 p.key.toList q.key.toList).isNone
  else return false

def cmp (p q : Path) : Step Ordering := do
  match ← firstDifference (min p.bits q.bits) 0 p.key.toList q.key.toList with
  | some i => return if ← bit p i then .gt else .lt
  | none => return compare p.bits q.bits

/-- The bits that the wording of a path shows. -/
def shown (p : Path) : Step (List Bool) := (List.range (min p.bits 16)).mapM (bit p)

def toRaw (p : Path) : Step Bytes := do
  let raw ← set (.replicate 34 0) 0 (if p.isLeaf then 1 else 0)
  let raw ← overwrite raw 1 33 p.key.toList
  set raw 33 (if p.isLeaf then 0 else UInt8.ofNat p.bits)

/-- The position above all keys that begin with these bits. -/
def branch (key : MapKey) (bits : Nat) : Guarded PathFault Path := do
  if 256 ≤ bits then .fail (.tooManyBits bits)
  else
    let kept ← keepBits bits key.toList
    if kept = key.toList then make kept bits else .fail .bitsPastEnd

def ofRaw (raw : Bytes) : Guarded PathFault Path := do
  if raw.length = 34 then
    let key ← copy 32 (← slice raw 1 33)
    let kind ← get raw 0
    let count ← get raw 33
    if kind = 0 then branch key count.toNat
    else if kind = 1 then if count = 0 then return .leaf key else .fail .leafBitCount
    else .fail (.unknownKind kind)
  else .fail (.rawLength raw.length)

end Path

namespace MapProof

/-! ## The contour -/

/-- The parent of two nodes, at their common prefix `path`. -/
def join (path : Path) (left right : Node) : Step Node := do
  let leftRaw ← Path.toRaw left.path
  let rightRaw ← Path.toRaw right.path
  return ⟨path, sha256Parts [left.hash.toList, right.hash.toList, leftRaw, rightRaw]⟩

/-- Replaces the two last nodes by their parent; with it the prefix that the parent
shares with the node before it. -/
def fold (contour : List Node) (shared : Path) : Step (List Node × Option Path) := do
  match pop contour with
  | none => return (contour, none)
  | some (right, contour) =>
    match pop contour with
    | none => return (contour, none)
    | some (left, contour) =>
      let parent ← join shared left right
      let below ← contour.getLast?.mapM fun prev => Path.commonPrefix prev.path shared
      return (contour ++ [parent], below)

/-- Two nodes or more become one fewer. -/
theorem length_fold {contour folded : List Node} {shared : Path} {below : Option Path}
    (h : fold contour shared = .ok (folded, below)) (hlen : 1 < contour.length) :
    folded.length < contour.length := by
  unfold fold at h
  split at h
  · rename_i hpop
    rw [eq_nil_of_pop hpop] at hlen
    cases hlen
  · rename_i right rest hpop
    have hrest := length_of_pop hpop
    split at h
    · rename_i hpop'
      rw [eq_nil_of_pop hpop'] at hrest
      simp only [List.length_nil] at hrest
      omega
    · rename_i left front hpop'
      have hfront := length_of_pop hpop'
      cases hjoin : join shared left right with
      | error trap => rw [hjoin] at h; cases h
      | ok parent =>
        cases hbelow : front.getLast?.mapM fun prev => Path.commonPrefix prev.path shared with
        | error trap => rw [hjoin, hbelow] at h; cases h
        | ok path =>
          rw [hjoin, hbelow] at h
          cases h
          rw [List.length_append, List.length_singleton]
          omega

/-- Folds while more than one node is left and `more` holds of the prefix that the two
last nodes share. -/
def foldWhile (more : Path → Bool) (contour : List Node) (shared : Path) :
    Step (List Node × Path) :=
  if _h : 1 < contour.length ∧ more shared then
    match _hfold : fold contour shared with
    | .error trap => .error trap
    | .ok (folded, below) => foldWhile more folded (below.getD shared)
  else .ok (contour, shared)
termination_by contour.length
decreasing_by exact length_fold _hfold _h.1

/-- Adds the next node: joins first what lies deeper than its common prefix with the last. -/
def push : List Node × Path → Node → Step (List Node × Path)
  | (contour, shared), node => do
    let last ← get contour (← sub contour.length 1)
    let next ← Path.commonPrefix last.path node.path
    let (contour, _) ← foldWhile (fun path => next.bits < path.bits) contour shared
    return (contour ++ [node], next)

/-- The hash over a sorted list of nodes. -/
def foldContour (nodes : List Node) : Step Digest := do
  let first ← get nodes 0
  let second ← get nodes 1
  let shared ← Path.commonPrefix first.path second.path
  let rest ← slice nodes 2 nodes.length
  let (contour, shared) ← rest.foldlM push ([first, second], shared)
  let (contour, _) ← foldWhile (fun _ => true) contour shared
  return (← get contour 0).hash

/-- Sorts by path. The order in which a sort compares is not known, so every two nodes
are compared; a sort may trap when the comparison is no total order. -/
def sort (nodes : List Node) : Step (List Node) := do
  let _ ← nodes.mapM fun a => nodes.mapM fun b => Path.cmp a.path b.path
  if (∀ a ∈ nodes, ∀ b ∈ nodes, a.le b || b.le a) ∧
      (∀ a ∈ nodes, ∀ b ∈ nodes, ∀ c ∈ nodes, a.le b → b.le c → a.le c) then
    return nodes.mergeSort Node.le
  else throw .disorder

/-! ## Checking -/

/-- Every two neighbours, as a list of two. -/
def windows {α : Type} : List α → List (List α)
  | a :: b :: rest => [a, b] :: windows (b :: rest)
  | _ => []

def checkPair (pair : List Node) : Guarded ProofFault Unit := do
  let previous ← get pair 0
  let next ← get pair 1
  if previous.path = next.path then
    let _ ← Path.shown previous.path
    .fail (.duplicatePath previous.path)
  else if (← Path.cmp previous.path next.path) = .gt then
    let _ ← Path.shown previous.path
    let _ ← Path.shown next.path
    .fail (.invalidOrder previous.path next.path)
  else if ← Path.isPrefixOf previous.path next.path then
    let _ ← Path.shown previous.path
    let _ ← Path.shown next.path
    .fail (.embeddedPath previous.path next.path)
  else return ()

def checkOrder (nodes : List Node) : Guarded ProofFault Unit := (windows nodes).forM checkPair

/-- The first node at or above a path. -/
def findAbove (path : Path) : List Node → Step (Option Node)
  | [] => return none
  | node :: rest => do
    if ← Path.isPrefixOf node.path path then return some node else findAbove path rest

def checkCovered (nodes : List Node) (keys : List MapKey) : Guarded ProofFault Unit :=
  keys.forM fun key => do
    match ← findAbove (.leaf key) nodes with
    | some node =>
      let _ ← Path.shown node.path
      .fail (.coveredKey node.path key)
    | none => return ()

def singleRoot (path : Path) (hash : Digest) : Step Digest := do
  return sha256Parts [← Path.toRaw path, hash.toList]

def computeRoot (proof : MapProof) : Guarded ProofFault Digest := do
  match proof.nodes, proof.entries with
  | [], [] => return emptyRoot
  | [node], [] =>
    if node.path.isLeaf then singleRoot node.path node.hash else .fail .singleBranch
  | [], [e] => singleRoot (.leaf e.key) (sha256 e.value)
  | nodes, entries =>
    foldContour (← sort (entries.map (fun e => Node.ofEntry e.key e.value) ++ nodes))

def check (proof : MapProof) (expected : Digest) : Guarded ProofFault Checked := do
  checkOrder proof.nodes
  let entries ← .of (Trie.MapProof.indexEntries proof.entries ∅)
  let missing ← .of (Trie.MapProof.indexMissing entries proof.missing ∅)
  checkCovered proof.nodes proof.keys
  let root ← computeRoot proof
  if root = expected then return ⟨root, entries, missing⟩
  else .fail (.wrongRoot root expected)

end MapProof

end LightClient.Machine
