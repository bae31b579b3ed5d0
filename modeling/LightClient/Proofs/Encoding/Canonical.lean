import LightClient.Proofs.Account
import LightClient.Proofs.Block.Header

/-! Stored records are read from their byte forms and from nothing else. `Takes` says
what a reader does with the form of a value, whole or broken off, and is carried through
a sequence of readers; `stored_records_canonical` puts the three records together. -/

namespace LightClient

namespace Read

/-- The reader takes the bytes as the value, whatever follows them, and finds too few
when they are broken off. -/
structure Takes {α : Type} (read : Read α) (bytes : Bytes) (a : α) : Prop where
  all : ∀ offset rest, read ⟨offset, bytes ++ rest⟩ = .ok (a, ⟨offset + bytes.length, rest⟩)
  part : ∀ offset n, n < bytes.length → ∃ need stop,
    read ⟨offset, bytes.take n⟩ = .error (.truncated need stop (offset + n))

section
variable {α β : Type} {read : Read α} {bytes : Bytes} {a : α}

theorem bind_of_ok {next : α → Read β} {c c' : Cursor} (h : read c = .ok (a, c')) :
    (read >>= next) c = next a c' := by
  show (read c >>= fun r => next r.1 r.2) = _
  rw [h]
  rfl

theorem bind_of_error {next : α → Read β} {c : Cursor} {fault : EncodingFault}
    (h : read c = .error fault) : (read >>= next) c = .error fault := by
  show (read c >>= fun r => next r.1 r.2) = _
  rw [h]
  rfl

theorem Takes.pure (a : α) : Takes (Pure.pure a) [] a where
  all _ _ := rfl
  part _ n hn := absurd hn (Nat.not_lt_zero n)

theorem Takes.bind {next : α → Read β} {more : Bytes} {b : β} (h : Takes read bytes a)
    (hnext : Takes (next a) more b) : Takes (read >>= next) (bytes ++ more) b where
  all offset rest := by
    rw [List.append_assoc, bind_of_ok (h.all offset _), hnext.all, List.length_append,
      Nat.add_assoc]
  part offset n hn := by
    by_cases hfirst : n < bytes.length
    · obtain ⟨need, stop, hpart⟩ := h.part offset n hfirst
      rw [List.take_append_of_le_length (Nat.le_of_lt hfirst)]
      exact ⟨need, stop, bind_of_error hpart⟩
    · -- the first reader has all it needs, and the second is left with too little
      rw [List.length_append] at hn
      obtain ⟨need, stop, hpart⟩ := hnext.part (offset + bytes.length) (n - bytes.length) (by omega)
      have hsum : offset + bytes.length + (n - bytes.length) = offset + n := by omega
      rw [List.take_append, List.take_of_length_le (Nat.not_lt.mp hfirst),
        bind_of_ok (h.all offset _), ← hsum]
      exact ⟨need, stop, hpart⟩

theorem Takes.map {f : α → β} (h : Takes read bytes a) :
    Takes (do return f (← read)) bytes (f a) := by
  have hpure : Takes (Pure.pure (f a) : Read β) [] (f a) := Takes.pure (f a)
  have hbind : Takes (do return f (← read)) (bytes ++ []) (f a) := h.bind hpure
  rwa [List.append_nil] at hbind

theorem takes_fixed {n : Nat} (value : FixedBytes n) : Takes (fixed n) value.toList value where
  all offset rest := by
    rw [fixed_append, value.length_toList]
  part offset k hk := by
    rw [value.length_toList] at hk
    have hlength : (value.toList.take k).length = k := by simp; omega
    refine ⟨n, offset, ?_⟩
    simp only [fixed, hlength]
    rw [dif_neg (by omega)]

theorem takes_bytes (value : Bytes) : Takes (Read.bytes value.length) value value :=
  (takes_fixed ⟨value, rfl⟩).map

theorem takes_number {n m : Nat} (h : m < Nat.pow 256 n) : Takes (number n) (little n m) m := by
  have htaken := (takes_bytes (little n m)).map (f := ofLittle)
  rw [length_little, ofLittle_little, Nat.mod_eq_of_lt h] at htaken
  exact htaken

theorem takes_u8 (b : UInt8) : Takes u8 (little 1 b.toNat) b := by
  have htaken := (takes_number (n := 1) b.toNat_lt).map (f := UInt8.ofNat)
  rwa [UInt8.ofNat_toNat] at htaken

theorem takes_u32 (n : UInt32) : Takes u32 (little 4 n.toNat) n := by
  have htaken := (takes_number (n := 4) n.toNat_lt).map (f := UInt32.ofNat)
  rwa [UInt32.ofNat_toNat] at htaken

theorem takes_u64 (n : UInt64) : Takes u64 (little 8 n.toNat) n := by
  have htaken := (takes_number (n := 8) n.toNat_lt).map (f := UInt64.ofNat)
  rwa [UInt64.ofNat_toNat] at htaken

theorem Takes.whole_take (h : Takes read bytes a) {n : Nat} (hn : n < bytes.length) :
    ∃ need stop, read.whole (bytes.take n) = .error (.truncated need stop n) := by
  obtain ⟨need, stop, hpart⟩ := h.part 0 n hn
  rw [Nat.zero_add] at hpart
  refine ⟨need, stop, ?_⟩
  rw [whole, hpart]
  rfl

theorem Takes.whole_append (h : Takes read bytes a) {extra : Bytes} (hextra : extra ≠ []) :
    read.whole (bytes ++ extra) = .error (.trailing extra.length) := by
  have hfinish : finish ⟨0 + bytes.length, extra⟩ = .error (.trailing extra.length) := by
    rw [finish, if_neg (by simpa using hextra)]
  rw [whole, h.all 0 extra]
  simp only [LightClient.bind_eq_error]
  exact .inr ⟨_, rfl, .inl hfinish⟩

end

end Read

/-! ## The three records -/

namespace Account

open Read

theorem takes_readName (name : String) :
    (readName (Utf8.encode name).length).Takes (Utf8.encode name) name := by
  have htext : (readName (Utf8.encode name).length).Takes (Utf8.encode name ++ []) name := by
    refine (takes_bytes (Utf8.encode name)).bind ?_
    rw [Utf8.decode_encode]
    exact Takes.pure name
  rwa [List.append_nil] at htext

theorem takes_read {account : Account} {bytes : Bytes} (h : account.encode = .ok bytes) :
    read.Takes bytes account := by
  simp only [encode] at h
  split at h
  · cases h
  · rename_i hlt
    have hsize : (UInt32.ofNat (Utf8.encode account.name).length).toNat =
        (Utf8.encode account.name).length := UInt32.toNat_ofNat_of_lt' (Nat.not_le.mp hlt)
    have htaken : read.Takes (account.publicKey.bytes.toList ++
        (little 4 (UInt32.ofNat (Utf8.encode account.name).length).toNat ++
          (Utf8.encode account.name ++ (little 8 account.balance.toNat ++
            (little 8 account.historyLength.toNat ++ (account.historyHash.toList ++ [])))))) account := by
      refine (takes_fixed _).bind ((takes_u32 _).bind (Takes.bind ?_ ((takes_u64 _).bind
        ((takes_u64 _).bind ((takes_fixed _).bind (Takes.pure _))))))
      rw [hsize]
      exact takes_readName account.name
    rw [hsize] at htaken
    obtain rfl := Except.ok.inj h
    simpa only [List.append_assoc, List.append_nil] using htaken

/-- A name that is no text is the fault, whatever follows it. -/
theorem decode_of_nameText {name : Bytes} {fault : Utf8.Fault} (key : FixedBytes 32)
    (hsize : name.length < UInt32.size) (hname : Utf8.decode name = .error fault) (rest : Bytes) :
    decode (key.toList ++ (little 4 name.length ++ (name ++ rest))) = .error (.nameText fault) := by
  have hlength : (UInt32.ofNat name.length).toNat = name.length := UInt32.toNat_ofNat_of_lt' hsize
  have hsized := (takes_u32 (.ofNat name.length)).all (0 + key.toList.length) (name ++ rest)
  have htext : readName name.length ⟨0 + key.toList.length + (little 4 name.length).length,
      name ++ rest⟩ = .error (.nameText fault) := by
    rw [readName, bind_of_ok ((takes_bytes name).all _ rest)]
    simp only [hname]
    rfl
  have hread : read ⟨0, key.toList ++ (little 4 name.length ++ (name ++ rest))⟩ =
      .error (.nameText fault) := by
    rw [hlength] at hsized
    rw [read, bind_of_ok ((takes_fixed key).all 0 _), bind_of_ok hsized, hlength]
    exact bind_of_error htext
  rw [decode, whole, hread]
  rfl

theorem encode_eq_ok {account : Account} :
    (∃ bytes, account.encode = .ok bytes) ↔ (Utf8.encode account.name).length < UInt32.size := by
  simp only [encode]
  split
  · rename_i hlong
    simp [Nat.not_lt.mpr hlong]
  · rename_i hshort
    simp [Nat.not_le.mp hshort]

theorem length_of_encode {account : Account} {bytes : Bytes} (h : account.encode = .ok bytes) :
    bytes.length = 84 + (Utf8.encode account.name).length ∧
      (bytes.drop 32).take 4 = little 4 (Utf8.encode account.name).length := by
  simp only [encode] at h
  split at h
  · cases h
  · obtain rfl := Except.ok.inj h
    constructor
    · simp only [List.length_append, FixedBytes.length_toList, length_little]
      omega
    · simp only [List.append_assoc]
      rw [List.drop_left' account.publicKey.bytes.length_toList, List.take_left' (length_little 4 _)]

/-- The name must be as long as it is said to be. -/
theorem not_encode_of_size_ne {size : Nat} {name : Bytes} (hsize : size < UInt32.size)
    (hne : size ≠ name.length) (key : FixedBytes 32) {rest : Bytes} (hrest : rest.length = 48)
    (account : Account) : account.encode ≠ .ok (key.toList ++ (little 4 size ++ (name ++ rest))) := by
  intro h
  obtain ⟨hlength, hfield⟩ := length_of_encode h
  rw [List.drop_left' key.length_toList, List.take_left' (length_little 4 _)] at hfield
  simp only [List.length_append, key.length_toList, length_little, hrest] at hlength
  have hsame := congrArg ofLittle hfield
  have hpow : Nat.pow 256 4 = UInt32.size := by decide
  have hshort := encode_eq_ok.mp ⟨_, h⟩
  rw [ofLittle_little, ofLittle_little, hpow, Nat.mod_eq_of_lt hsize, Nat.mod_eq_of_lt hshort]
    at hsame
  omega

end Account

namespace HistoryEntry

open Read

theorem takes_readStatus (succeeded : Bool) :
    readStatus.Takes [if succeeded then 1 else 0] succeeded := by
  cases succeeded with
  | false => exact (takes_u8 0).bind (Takes.pure false)
  | true => exact (takes_u8 1).bind (Takes.pure true)

theorem takes_read (entry : HistoryEntry) : read.Takes entry.encode entry :=
  (takes_fixed _).bind ((takes_readStatus entry.succeeded).bind (Takes.pure _))

/-- A status is zero or one. -/
theorem decode_of_statusByte {byte : UInt8} (hzero : byte ≠ 0) (hone : byte ≠ 1)
    (hash : Digest) (rest : Bytes) :
    decode (hash.toList ++ byte :: rest) = .error (.statusByte byte) := by
  have hstatus (offset : Nat) : readStatus ⟨offset, byte :: rest⟩ = .error (.statusByte byte) := by
    have hbyte : u8 ⟨offset, byte :: rest⟩ = .ok (byte, ⟨offset + 1, rest⟩) := by
      have htaken := (takes_u8 byte).all offset rest
      simpa [little] using htaken
    rw [readStatus, bind_of_ok hbyte, if_neg hzero, if_neg hone]
    rfl
  have hread : read ⟨0, hash.toList ++ byte :: rest⟩ = .error (.statusByte byte) := by
    rw [read, bind_of_ok ((takes_fixed hash).all 0 _)]
    exact bind_of_error (hstatus _)
  rw [decode, whole, hread]
  rfl

end HistoryEntry

theorem BlockHeader.takes_read (header : BlockHeader) :
    BlockHeader.read.Takes header.encode header := by
  have htaken : BlockHeader.read.Takes (little 8 header.height.toNat ++
      (header.prevHash.toList ++ (header.txHash.toList ++ (header.stateHash.toList ++
        (little 4 header.txCount.toNat ++ []))))) header :=
    (Read.takes_u64 _).bind ((Read.takes_fixed _).bind ((Read.takes_fixed _).bind
      ((Read.takes_fixed _).bind ((Read.takes_u32 _).bind (Read.Takes.pure _)))))
  simpa only [encode, List.append_assoc, List.append_nil] using htaken

/-! ## One form each -/

/-- Values and their byte forms: what is read is what is written, so bytes without a value
are refused and two values share none. A form that is broken off or followed by more is
such bytes, and its fault says where. -/
structure Canonical {α : Type} (encode : α → Except EncodingFault Bytes)
    (decode : Bytes → Except EncodingFault α) : Prop where
  decode_of_encode : ∀ a bytes, encode a = .ok bytes → decode bytes = .ok a
  encode_of_decode : ∀ bytes a, decode bytes = .ok a → encode a = .ok bytes
  eq_of_encode : ∀ a b bytes, encode a = .ok bytes → encode b = .ok bytes → a = b
  refused : ∀ bytes, (∀ a, encode a ≠ .ok bytes) → ∃ fault, decode bytes = .error fault
  truncated : ∀ a bytes n, encode a = .ok bytes → n < bytes.length →
    ∃ need stop, decode (bytes.take n) = .error (.truncated need stop n)
  trailing : ∀ a bytes extra, encode a = .ok bytes → extra ≠ [] →
    decode (bytes ++ extra) = .error (.trailing extra.length)

theorem Canonical.of_takes {α : Type} {encode : α → Except EncodingFault Bytes} {read : Read α}
    (hiff : ∀ bytes a, read.whole bytes = .ok a ↔ encode a = .ok bytes)
    (htakes : ∀ a bytes, encode a = .ok bytes → read.Takes bytes a) :
    Canonical encode read.whole where
  decode_of_encode a bytes := (hiff bytes a).mpr
  encode_of_decode bytes a := (hiff bytes a).mp
  eq_of_encode a b bytes ha hb :=
    Except.ok.inj (((hiff bytes a).mpr ha).symm.trans ((hiff bytes b).mpr hb))
  refused bytes hnone := by
    cases hread : read.whole bytes with
    | error fault => exact ⟨fault, rfl⟩
    | ok a => exact absurd ((hiff bytes a).mp hread) (hnone a)
  truncated a bytes n ha hn := (htakes a bytes ha).whole_take hn
  trailing a bytes extra ha hextra := (htakes a bytes ha).whole_append hextra

theorem Account.canonical : Canonical Account.encode Account.decode :=
  .of_takes (fun _ _ => decode_eq_ok) fun _ _ => takes_read

theorem HistoryEntry.canonical :
    Canonical (fun entry : HistoryEntry => .ok entry.encode) HistoryEntry.decode := by
  refine .of_takes (fun bytes entry => ?_) fun entry bytes h => ?_
  · rw [Except.ok.injEq]
    exact decode_eq_ok
  · obtain rfl := Except.ok.inj h
    exact takes_read entry

theorem BlockHeader.canonical :
    Canonical (fun header : BlockHeader => .ok header.encode) BlockHeader.decode := by
  refine .of_takes (fun bytes header => ?_) fun header bytes h => ?_
  · rw [Except.ok.injEq]
    exact decode_eq_ok
  · obtain rfl := Except.ok.inj h
    exact takes_read header

/-- Account records, history entries and block headers are each read from their byte forms
alone. Every entry and every header has one, and an account has one if its name does not
take more bytes than 32 bits can count. A name that is no text, a name of another length than
is said, and a status that is neither zero nor one are refused. -/
theorem stored_records_canonical :
    Canonical Account.encode Account.decode ∧
    Canonical (fun entry : HistoryEntry => .ok entry.encode) HistoryEntry.decode ∧
    Canonical (fun header : BlockHeader => .ok header.encode) BlockHeader.decode ∧
    (∀ account : Account, (∃ bytes, account.encode = .ok bytes) ↔
      (Utf8.encode account.name).length < UInt32.size) ∧
    (∀ (key : FixedBytes 32) (name rest : Bytes) (fault : Utf8.Fault),
      name.length < UInt32.size → Utf8.decode name = .error fault →
        Account.decode (key.toList ++ (little 4 name.length ++ (name ++ rest))) =
          .error (.nameText fault)) ∧
    (∀ (key : FixedBytes 32) (size : Nat) (name numbers : Bytes) (hash : Digest),
      size < UInt32.size → size ≠ name.length → numbers.length = 16 → ∃ fault,
        Account.decode (key.toList ++ (little 4 size ++ (name ++ (numbers ++ hash.toList)))) =
          .error fault) ∧
    (∀ (hash : Digest) (byte : UInt8) (rest : Bytes), byte ≠ 0 → byte ≠ 1 →
      HistoryEntry.decode (hash.toList ++ byte :: rest) = .error (.statusByte byte)) := by
  refine ⟨Account.canonical, HistoryEntry.canonical, BlockHeader.canonical,
    fun _ => Account.encode_eq_ok, ?_, ?_, ?_⟩
  · intro key name rest fault hsize hname
    exact Account.decode_of_nameText key hsize hname rest
  · intro key size name numbers hash hsize hne hnumbers
    have hrest : (numbers ++ hash.toList).length = 48 := by simp [hnumbers]
    exact Account.canonical.refused _ (Account.not_encode_of_size_ne hsize hne key hrest)
  · intro hash byte rest hzero hone
    exact HistoryEntry.decode_of_statusByte hzero hone hash rest

/-- A name of one character and two bytes. -/
def namedAccount : Account := ⟨⟨.zero 32⟩, "é", 7, 1, .zero 32⟩

def namedAccountBytes : Bytes :=
  List.replicate 32 0 ++ [2, 0, 0, 0, 0xc3, 0xa9] ++ [7, 0, 0, 0, 0, 0, 0, 0] ++
    [1, 0, 0, 0, 0, 0, 0, 0] ++ List.replicate 32 0

/-- The form is read, broken off within the name, and followed by a byte; then a name that
is broken off, a name that is said to be a byte shorter, and a status of two. -/
theorem stored_records_canonical_namedAccount :
    Account.decode namedAccountBytes = .ok namedAccount ∧
      (∃ need stop, Account.decode (namedAccountBytes.take 37) =
        .error (.truncated need stop 37)) ∧
      Account.decode (namedAccountBytes ++ [0]) = .error (.trailing 1) ∧
      Account.decode ((FixedBytes.zero 32).toList ++
        (little 4 1 ++ ([0xc3] ++ List.replicate 48 0))) = .error (.nameText ⟨0, none⟩) ∧
      (∃ fault, Account.decode ((FixedBytes.zero 32).toList ++
        (little 4 1 ++ ([0x61, 0x62] ++ (List.replicate 16 0 ++ (FixedBytes.zero 32).toList)))) =
          .error fault) ∧
      HistoryEntry.decode ((FixedBytes.zero 32).toList ++ [2]) = .error (.statusByte 2) := by
  have hwritten : namedAccount.encode = .ok namedAccountBytes := rfl
  have hname : Utf8.decode [0xc3] = .error ⟨0, none⟩ := by cbv
  obtain ⟨haccount, -, -, -, htext, hsize, hstatus⟩ := stored_records_canonical
  exact ⟨haccount.decode_of_encode _ _ hwritten,
    haccount.truncated _ _ 37 hwritten (by decide),
    haccount.trailing _ _ [0] hwritten (by decide),
    htext _ [0xc3] _ _ (by decide) hname,
    hsize _ 1 [0x61, 0x62] (List.replicate 16 0) _ (by decide) (by decide) (by decide),
    hstatus _ 2 [] (by decide) (by decide)⟩

end LightClient
