import LightClient.Account
import LightClient.Proofs.Encoding.Cursor

/-! Stored records have one byte form each: what a record is decoded from is what
the record is encoded to. -/

namespace LightClient

namespace Account

theorem readName_eq_ok {size : Nat} {name : String} {c c' : Cursor} :
    readName size c = .ok (name, c') ↔
      (Utf8.encode name).length = size ∧ c.rest = Utf8.encode name ++ c'.rest ∧
        c'.offset = c.offset + size := by
  unfold readName
  simp only [Read.bind_eq_ok, Read.bytes_eq_ok]
  constructor
  · rintro ⟨bytes, middle, hbytes, h⟩
    cases hdecode : Utf8.decode bytes with
    | error fault =>
      rw [hdecode] at h
      cases h
    | ok text =>
      rw [hdecode] at h
      obtain ⟨rfl, rfl⟩ := Read.pure_eq_ok.mp h
      rw [Utf8.encode_of_decode hdecode]
      exact hbytes
  · intro hbytes
    refine ⟨Utf8.encode name, c', hbytes, ?_⟩
    rw [Utf8.decode_encode]
    rfl

/-- What is decoded as an account is its stored form. -/
theorem decode_eq_ok {bytes : Bytes} {account : Account} :
    decode bytes = .ok account ↔ account.encode = .ok bytes := by
  rw [decode, Read.whole_eq_ok]
  simp only [read, Read.bind_eq_ok, Read.pure_eq_ok, Read.fixed_eq_ok, Read.u32_eq_ok,
    Read.u64_eq_ok, readName_eq_ok]
  constructor
  · rintro ⟨n, key, c₁, ⟨hkey, -⟩, size, c₂, ⟨hsize, -⟩, name, c₃, ⟨hlength, hname, -⟩, balance,
      c₄, ⟨hbalance, -⟩, historyLength, c₅, ⟨hhistory, -⟩, hash, c₆, ⟨hhash, -⟩, rfl, rfl⟩
    have hlt : ¬ UInt32.size ≤ (Utf8.encode name).length := by
      rw [hlength]
      exact Nat.not_le.mpr size.toNat_lt
    simp only [encode]
    rw [if_neg hlt, hkey, hsize, hname, hbalance, hhistory, hhash, hlength]
    simp only [List.append_assoc, List.append_nil]
  · intro h
    simp only [encode] at h
    split at h
    · cases h
    · rename_i hlt
      have hsize : (UInt32.ofNat (Utf8.encode account.name).length).toNat =
          (Utf8.encode account.name).length := UInt32.toNat_ofNat_of_lt' (Nat.not_le.mp hlt)
      obtain rfl := Except.ok.inj h
      simp only [List.append_assoc]
      generalize hlength : (Utf8.encode account.name).length = length at hsize ⊢
      refine ⟨32 + 4 + length + 8 + 8 + 32, account.publicKey.bytes, ⟨32, _⟩, ⟨rfl, rfl⟩, ?_⟩
      refine ⟨.ofNat length, ⟨32 + 4, _⟩, ⟨by rw [hsize], rfl⟩, ?_⟩
      rw [hsize]
      refine ⟨account.name, ⟨32 + 4 + length, _⟩, ⟨hlength, rfl, rfl⟩, ?_⟩
      refine ⟨account.balance, ⟨32 + 4 + length + 8, _⟩, ⟨rfl, rfl⟩, ?_⟩
      refine ⟨account.historyLength, ⟨32 + 4 + length + 8 + 8, _⟩, ⟨rfl, rfl⟩, ?_⟩
      exact ⟨account.historyHash, _, ⟨(List.append_nil _).symm, rfl⟩, rfl, rfl⟩

end Account

namespace HistoryEntry

theorem readStatus_eq_ok {succeeded : Bool} {c c' : Cursor} :
    readStatus c = .ok (succeeded, c') ↔
      c.rest = [if succeeded then 1 else 0] ++ c'.rest ∧ c'.offset = c.offset + 1 := by
  unfold readStatus
  simp only [Read.bind_eq_ok, Read.u8_eq_ok]
  constructor
  · rintro ⟨byte, middle, hbyte, h⟩
    split at h
    · rename_i hzero
      obtain ⟨rfl, rfl⟩ := Read.pure_eq_ok.mp h
      subst hzero
      exact hbyte
    · split at h
      · rename_i hone
        obtain ⟨rfl, rfl⟩ := Read.pure_eq_ok.mp h
        subst hone
        exact hbyte
      · cases h
  · intro h
    cases succeeded with
    | false => exact ⟨0, c', h, rfl⟩
    | true => exact ⟨1, c', h, rfl⟩

/-- What is decoded as a history entry is its stored form. -/
theorem decode_eq_ok {bytes : Bytes} {entry : HistoryEntry} :
    decode bytes = .ok entry ↔ entry.encode = bytes := by
  rw [decode, Read.whole_eq_ok]
  simp only [read, Read.bind_eq_ok, Read.pure_eq_ok, Read.fixed_eq_ok, readStatus_eq_ok]
  constructor
  · rintro ⟨n, hash, c₁, ⟨hhash, -⟩, succeeded, c₂, ⟨hstatus, -⟩, rfl, rfl⟩
    rw [encode, hhash, hstatus, List.append_nil]
  · rintro rfl
    exact ⟨32 + 1, entry.txHash, ⟨32, _⟩, ⟨rfl, rfl⟩, entry.succeeded, _,
      ⟨(List.append_nil _).symm, rfl⟩, rfl, rfl⟩

theorem encode_injective {a b : HistoryEntry} (h : a.encode = b.encode) : a = b :=
  Except.ok.inj ((decode_eq_ok.mpr h).symm.trans (decode_eq_ok.mpr rfl))

end HistoryEntry

end LightClient
