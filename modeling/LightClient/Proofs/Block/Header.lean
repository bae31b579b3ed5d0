import LightClient.Block
import LightClient.Proofs.Encoding.Cursor

/-! Block headers have one byte form each, so validators that sign the bytes sign
the header. -/

namespace LightClient.BlockHeader

/-- What is decoded as a header is its byte form. -/
theorem decode_eq_ok {bytes : Bytes} {header : BlockHeader} :
    decode bytes = .ok header ↔ header.encode = bytes := by
  rw [decode, Read.whole_eq_ok]
  simp only [read, Read.bind_eq_ok, Read.pure_eq_ok, Read.fixed_eq_ok, Read.u32_eq_ok,
    Read.u64_eq_ok]
  constructor
  · rintro ⟨n, height, c₁, ⟨hheight, -⟩, prevHash, c₂, ⟨hprev, -⟩, txHash, c₃, ⟨htx, -⟩,
      stateHash, c₄, ⟨hstate, -⟩, txCount, c₅, ⟨hcount, -⟩, rfl, rfl⟩
    rw [encode, hheight, hprev, htx, hstate, hcount]
    simp only [List.append_assoc, List.append_nil]
  · rintro rfl
    simp only [encode, List.append_assoc]
    refine ⟨8 + 32 + 32 + 32 + 4, header.height, ⟨8, _⟩, ⟨rfl, rfl⟩, ?_⟩
    refine ⟨header.prevHash, ⟨8 + 32, _⟩, ⟨rfl, rfl⟩, ?_⟩
    refine ⟨header.txHash, ⟨8 + 32 + 32, _⟩, ⟨rfl, rfl⟩, ?_⟩
    refine ⟨header.stateHash, ⟨8 + 32 + 32 + 32, _⟩, ⟨rfl, rfl⟩, ?_⟩
    exact ⟨header.txCount, _, ⟨(List.append_nil _).symm, rfl⟩, rfl, rfl⟩

theorem encode_injective {a b : BlockHeader} (h : a.encode = b.encode) : a = b :=
  Except.ok.inj ((decode_eq_ok.mpr h).symm.trans (decode_eq_ok.mpr rfl))

end LightClient.BlockHeader
