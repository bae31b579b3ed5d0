import LightClient.Json.Form
import LightClient.MerkleList.Proof
import LightClient.Trie.Proof

/-! JSON forms of map proofs and list proofs. -/

namespace LightClient

open Json

namespace Trie

/-- The 34-byte form in hexadecimal. -/
def Path.form : Form Path :=
  .ofText (fun path => Hex.encode path.toRaw) fun s => do
    (Path.ofRaw (← (Hex.decode s).toOption)).toOption

def Node.form : Form Node where
  toJson n := record [("path", Path.form.toJson n.path), ("hash", Form.fixed.toJson n.hash)]
  ofJson? json := do
    let r ← record? ["path", "hash"] json
    return ⟨← r.get Path.form "path", ← r.get .fixed "hash"⟩

def Entry.form : Form Entry where
  toJson e := record [("key", Form.fixed.toJson e.key), ("value", Form.bytes.toJson e.value)]
  ofJson? json := do
    let r ← record? ["key", "value"] json
    return ⟨← r.get .fixed "key", ← r.get .bytes "value"⟩

def MapProof.form : Form MapProof where
  toJson p := record
    [("proof", Node.form.list.toJson p.nodes), ("entries", Entry.form.list.toJson p.entries),
      ("missing_keys", Form.fixed.list.toJson p.missing)]
  ofJson? json := do
    let r ← record? ["proof", "entries", "missing_keys"] json
    return ⟨← r.get Node.form.list "proof", ← r.get Entry.form.list "entries",
      ← r.get Form.fixed.list "missing_keys"⟩

end Trie

namespace MerkleList

def ProofNode.form : Form ProofNode where
  toJson n := record
    [("height", Form.u8.toJson n.height), ("index", Form.u64.toJson n.index),
      ("hash", Form.fixed.toJson n.hash)]
  ofJson? json := do
    let r ← record? ["height", "index", "hash"] json
    return ⟨← r.get .u8 "height", ← r.get .u64 "index", ← r.get .fixed "hash"⟩

def Element.form : Form Element where
  toJson e := record [("index", Form.u64.toJson e.index), ("value", Form.bytes.toJson e.value)]
  ofJson? json := do
    let r ← record? ["index", "value"] json
    return ⟨← r.get .u64 "index", ← r.get .bytes "value"⟩

def ListProof.form : Form ListProof where
  toJson p := record
    [("length", Form.u64.toJson p.length), ("proof", ProofNode.form.list.toJson p.nodes),
      ("elements", Element.form.list.toJson p.elements)]
  ofJson? json := do
    let r ← record? ["length", "proof", "elements"] json
    return ⟨← r.get .u64 "length", ← r.get ProofNode.form.list "proof",
      ← r.get Element.form.list "elements"⟩

end MerkleList

end LightClient
