import LightClient.Block
import LightClient.Json.Form

/-! JSON forms of blocks and validators. -/

namespace LightClient

open Json

def BlockHeader.form : Form BlockHeader where
  toJson h := record
    [("height", Form.u64.toJson h.height), ("prev_hash", Form.fixed.toJson h.prevHash),
      ("tx_hash", Form.fixed.toJson h.txHash), ("state_hash", Form.fixed.toJson h.stateHash),
      ("tx_count", Form.u32.toJson h.txCount)]
  ofJson? json := do
    let r ← record? ["height", "prev_hash", "tx_hash", "state_hash", "tx_count"] json
    return ⟨← r.get .u64 "height", ← r.get .fixed "prev_hash", ← r.get .fixed "tx_hash",
      ← r.get .fixed "state_hash", ← r.get .u32 "tx_count"⟩

def Precommit.form : Form Precommit where
  toJson p := record
    [("validator", Form.publicKey.toJson p.validator),
      ("signature", Form.signature.toJson p.signature)]
  ofJson? json := do
    let r ← record? ["validator", "signature"] json
    return ⟨← r.get .publicKey "validator", ← r.get .signature "signature"⟩

def BlockProof.form : Form BlockProof where
  toJson p := record
    [("block", BlockHeader.form.toJson p.header),
      ("precommits", Precommit.form.list.toJson p.precommits)]
  ofJson? json := do
    let r ← record? ["block", "precommits"] json
    return ⟨← r.get BlockHeader.form "block", ← r.get Precommit.form.list "precommits"⟩

def ValidatorSet.form : Form ValidatorSet where
  toJson v := record [("keys", Form.publicKey.list.toJson v.keys)]
  ofJson? json := do
    let r ← record? ["keys"] json
    return ⟨← r.get Form.publicKey.list "keys"⟩

end LightClient
