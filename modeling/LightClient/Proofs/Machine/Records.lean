import LightClient.Machine.Records
import LightClient.Proofs.Machine.Guard
import LightClient.Proofs.Transaction.Envelope

/-! Reading records and messages stays within their bytes. A reader moves by a bounded
number of bytes, whatever it reads, so its position never nears the end of the 64
bits; a message that was parsed is shorter than its 32-bit length field allows. -/

namespace LightClient.Machine

/-! ## Readers -/

/-- The unread rest. -/
def Reader.cursor (r : Reader) : Cursor := ⟨r.position, r.bytes.drop r.position⟩

section
variable {α β : Type} {room room' : Nat} {r : Reader}

/-- A guarded reader has the value or the error of the plain one, stays inside the
bytes and moves by `room` of them at most. -/
inductive Agrees (r : Reader) (room : Nat) :
    Except EncodingFault (α × Cursor) → Guarded EncodingFault (α × Reader) → Prop
  | value {a : α} {r' : Reader} (hbytes : r'.bytes = r.bytes)
      (hinside : r'.position ≤ r'.bytes.length) (hroom : r'.position ≤ r.position + room) :
      Agrees r room (.ok (a, r'.cursor)) (.of (.ok (a, r')))
  | fault {e : EncodingFault} : Agrees r room (.error e) (.fail e)

/-- Wherever there is room for it, a guarded reader agrees with the plain one. -/
def Follows (room : Nat) (read : Reading α) (plain : Read α) : Prop :=
  ∀ r : Reader, r.position ≤ r.bytes.length → r.position + room < UInt64.size →
    Agrees r room (plain r.cursor) (read r)

theorem Follows.mono {read : Reading α} {plain : Read α} (h : Follows room read plain)
    (hle : room ≤ room') : Follows room' read plain := by
  intro r hinside hroom
  have hagrees := h r hinside (by omega)
  generalize plain r.cursor = result at hagrees
  generalize read r = guarded at hagrees
  cases hagrees with
  | value hbytes hinside' hroom' => exact .value hbytes hinside' (by omega)
  | fault => exact .fault

theorem follows_pure (a : α) : Follows 0 (pure a) (pure a) :=
  fun _ hinside _ => .value rfl hinside (Nat.le_refl _)

theorem follows_fail (e : EncodingFault) :
    Follows 0 (liftM (Guarded.fail e : Guarded EncodingFault α)) (throw e) :=
  fun _ _ _ => .fault

/-- Two readers, one after the other, move by what both move by. -/
theorem Follows.bind {read : Reading α} {plain : Read α} {next : α → Reading β}
    {plainNext : α → Read β} (h : Follows room read plain)
    (hnext : ∀ a, Follows room' (next a) (plainNext a)) :
    Follows (room + room') (read >>= next) (plain >>= plainNext) := by
  intro r hinside hroom
  have hagrees := h r hinside (by omega)
  have hplain : (plain >>= plainNext) r.cursor =
      plain r.cursor >>= fun p => plainNext p.1 p.2 := rfl
  have hread : (read >>= next) r = read r >>= fun p => next p.1 p.2 := rfl
  rw [hplain, hread]
  generalize plain r.cursor = result at hagrees
  generalize read r = guarded at hagrees
  cases hagrees with
  | fault => exact .fault
  | @value a middle hbytes hinside' hroom' =>
    have hagrees' := hnext a middle hinside' (by omega)
    show Agrees r (room + room') (plainNext a middle.cursor) (next a middle)
    generalize plainNext a middle.cursor = result' at hagrees'
    generalize next a middle = guarded' at hagrees'
    cases hagrees' with
    | fault => exact .fault
    | value hbytes' hinside'' hroom'' =>
      exact .value (hbytes'.trans hbytes) hinside'' (by omega)

end

/-! ## Fields -/

section
variable {α : Type} {n : Nat} {r : Reader}

theorem take_of_le (h : r.position + n ≤ r.bytes.length) (hfits : r.position + n < UInt64.size) :
    Reading.take n r =
      .of (.ok ((r.bytes.drop r.position).take n, ⟨r.bytes, r.position + n⟩)) := by
  have hslice : slice r.bytes r.position (r.position + n) =
      .ok ((r.bytes.drop r.position).take n) := by
    rw [slice_of_le (Nat.le_add_right _ _) h, List.drop_take, Nat.add_sub_cancel_left]
  unfold Reading.take
  simp only [if_pos hfits, Option.filter_some, decide_eq_true h, if_true]
  rw [Guarded.lift_bind hslice]
  rfl

theorem take_of_lt (h : r.bytes.length < r.position + n) :
    Reading.take n r = .fail (.truncated n r.position r.bytes.length) := by
  have hnone : (if r.position + n < UInt64.size then some (r.position + n) else none).filter
      (· ≤ r.bytes.length) = none := by
    split
    · rw [Option.filter_some, if_neg (by simpa using h)]
    · rfl
  unfold Reading.take
  simp only [hnone]

/-- A field of `n` bytes, whose step is within its bounds. -/
theorem follows_field {step : Bytes → Step α} {f : FixedBytes n → α}
    (h : ∀ bytes : FixedBytes n, step bytes.toList = .ok (f bytes)) :
    Follows n (Reading.field n step) (do return f (← Read.fixed n)) := by
  intro r hinside hroom
  have hplain : (do return f (← Read.fixed n) : Read α) r.cursor =
      Read.fixed n r.cursor >>= fun p => .ok (f p.1, p.2) := rfl
  have hlength : r.cursor.rest.length = r.bytes.length - r.position := List.length_drop
  rw [hplain, Reading.field, Read.fixed]
  split
  · rename_i hle
    rw [hlength] at hle
    have hstop : r.position + n ≤ r.bytes.length := by omega
    have hstep := h ⟨r.cursor.rest.take n, by rw [List.length_take, hlength]; omega⟩
    have hrest : r.cursor.rest.drop n = r.bytes.drop (r.position + n) := List.drop_drop
    rw [take_of_le hstop hroom, hrest]
    show Agrees r n (.ok (_, Reader.cursor ⟨r.bytes, r.position + n⟩))
      (liftM (step (r.cursor.rest.take n)) >>= fun a => pure (a, ⟨r.bytes, r.position + n⟩))
    rw [Guarded.lift_bind hstep]
    exact .value rfl hstop (Nat.le_refl _)
  · rename_i hlt
    have hsize : r.cursor.offset + r.cursor.rest.length = r.bytes.length := by
      rw [hlength]
      exact Nat.add_sub_cancel' hinside
    rw [hlength] at hlt
    rw [take_of_lt (by omega), hsize]
    exact .fault

theorem follows_fixed (n : Nat) : Follows n (Reading.fixed n) (Read.fixed n) := by
  have h := follows_field (n := n) copy_toList
  rwa [bind_pure] at h

theorem follows_take (n : Nat) : Follows n (Reading.take n) (Read.bytes n) := by
  have htake : Reading.field n .ok = Reading.take n := by
    funext r
    unfold Reading.field
    rcases Reading.take n r with ⟨_ | ⟨_ | ⟨bytes, r⟩⟩⟩ <;> rfl
  rw [← htake]
  exact follows_field fun _ => rfl

theorem follows_u8 : Follows 1 Reading.u8 Read.u8 := by
  have hbyte : ∀ bytes : FixedBytes 1,
      get bytes.toList 0 = .ok (UInt8.ofNat (ofLittle bytes.toList)) := by
    rintro ⟨bytes, hlength⟩
    obtain ⟨byte, rfl⟩ := List.length_eq_one_iff.mp hlength
    simp [get, ofLittle]
  have h : Follows 1 Reading.u8 (do return UInt8.ofNat (ofLittle (← Read.fixed 1).toList)) :=
    follows_field hbyte
  simpa only [Read.u8, Read.number, Read.bytes, bind_assoc, pure_bind] using h

/-- A number of `n` bytes, read out of an array. -/
theorem follows_number {n : Nat} (f : Nat → α) :
    Follows n (do return f (ofLittle (← Reading.fixed n).toList))
      (do return f (← Read.number n)) := by
  have h := (follows_fixed n).bind fun bytes => follows_pure (f (ofLittle bytes.toList))
  simpa only [Read.number, Read.bytes, bind_assoc, pure_bind, Nat.add_zero] using h

end

/-- What is left over is counted without underflow. -/
theorem finish_eq {r : Reader} (h : r.position ≤ r.bytes.length) :
    Reading.finish r = .of ((Read.finish r.cursor).map fun p => (p.1, r)) := by
  have hlength : r.cursor.rest.length = r.bytes.length - r.position := List.length_drop
  unfold Reading.finish Read.finish
  by_cases hend : r.position = r.bytes.length
  · have hempty : r.cursor.rest.isEmpty := by
      rw [List.isEmpty_iff_length_eq_zero, hlength]
      omega
    rw [if_neg (not_not_intro hend), if_pos hempty]
    rfl
  · have hleft : ¬ r.cursor.rest.isEmpty := by
      rw [List.isEmpty_iff_length_eq_zero, hlength]
      omega
    rw [if_pos hend, if_neg hleft, Guarded.lift_bind (sub_of_le h), hlength]
    rfl

/-- A reader that must use up its input. -/
theorem Follows.whole {α : Type} {room : Nat} {read : Reading α} {plain : Read α}
    (h : Follows room read plain) (hroom : room < UInt64.size) (bytes : Bytes) :
    read.whole bytes = .of (plain.whole bytes) := by
  have hagrees := h ⟨bytes, 0⟩ (Nat.zero_le _) (by simpa using hroom)
  have hplain : plain.whole bytes = plain (Reader.cursor ⟨bytes, 0⟩) >>= fun p =>
      Read.finish p.2 >>= fun _ => .ok p.1 := rfl
  have hread : read.whole bytes = read ⟨bytes, 0⟩ >>= fun p =>
      Reading.finish p.2 >>= fun _ => pure p.1 := rfl
  rw [hplain, hread]
  generalize plain (Reader.cursor ⟨bytes, 0⟩) = result at hagrees
  generalize read ⟨bytes, 0⟩ = guarded at hagrees
  cases hagrees with
  | fault => rfl
  | @value a r hbytes hinside hroom' =>
    show Reading.finish r >>= (fun _ => pure a) = .of (Read.finish r.cursor >>= fun _ => .ok a)
    rw [finish_eq hinside]
    cases Read.finish r.cursor <;> rfl

/-! ## Stored records -/

namespace Account

theorem follows_readName (size : Nat) :
    Follows (size + 0) (readName size) (LightClient.Account.readName size) := by
  refine (follows_take size).bind fun bytes => ?_
  cases Utf8.decode bytes with
  | ok name => exact follows_pure name
  | error fault => exact follows_fail _

/-- Two keys, three numbers and a name whose length has 32 bits. -/
theorem follows_read :
    Follows (32 + (4 + (UInt32.size + (8 + (8 + (32 + 0)))))) read LightClient.Account.read := by
  refine (follows_fixed 32).bind fun key => ?_
  refine (follows_number UInt32.ofNat).bind fun size => ?_
  refine ((follows_readName size.toNat).mono (Nat.le_of_lt size.toNat_lt)).bind fun name => ?_
  refine (follows_number UInt64.ofNat).bind fun balance => ?_
  refine (follows_number UInt64.ofNat).bind fun historyLength => ?_
  exact (follows_fixed 32).bind fun historyHash => follows_pure _

theorem decode_eq (bytes : Bytes) : decode bytes = .of (LightClient.Account.decode bytes) :=
  follows_read.whole (by decide) bytes

end Account

namespace HistoryEntry

theorem follows_readStatus : Follows (1 + 0) readStatus LightClient.HistoryEntry.readStatus := by
  refine follows_u8.bind fun byte => ?_
  split
  · exact follows_pure false
  · split
    · exact follows_pure true
    · exact follows_fail _

theorem follows_read : Follows (32 + (1 + 0 + 0)) read LightClient.HistoryEntry.read :=
  (follows_fixed 32).bind fun _ => follows_readStatus.bind fun _ => follows_pure _

theorem decode_eq (bytes : Bytes) : decode bytes = .of (LightClient.HistoryEntry.decode bytes) :=
  follows_read.whole (by decide) bytes

end HistoryEntry

/-! ## Transactions -/

namespace Transaction

open LightClient.Transaction (headerSize signatureSize lengthOffset)

theorem follows_readHeader :
    Follows (1 + (1 + (2 + (2 + (4 + 0))))) readHeader LightClient.Transaction.readHeader := by
  refine follows_u8.bind fun networkId => ?_
  refine follows_u8.bind fun protocolVersion => ?_
  refine (follows_number UInt16.ofNat).bind fun messageId => ?_
  refine (follows_number UInt16.ofNat).bind fun serviceId => ?_
  exact (follows_number UInt32.ofNat).bind fun length => follows_pure _

/-- A message with room for a header and a signature can be cut into its parts. -/
theorem ofBytes_eq (bytes : Bytes) :
    ofBytes bytes = .of (LightClient.Transaction.ofBytes bytes) := by
  unfold ofBytes LightClient.Transaction.ofBytes
  by_cases hlong : headerSize + signatureSize ≤ bytes.length
  · have hheader : slice bytes 0 headerSize = .ok (bytes.take headerSize) :=
      slice_of_le (Nat.zero_le _) (by omega)
    rw [if_neg (by omega), dif_pos hlong, Guarded.lift_bind hheader]
    refine Guarded.bind_eq_of (follows_readHeader.whole (by decide) _) fun header _ => ?_
    by_cases hlength : header.length.toNat = bytes.length
    · have hsplit : sub bytes.length signatureSize = .ok (bytes.length - signatureSize) :=
        sub_of_le (by omega)
      have hbody : slice bytes headerSize (bytes.length - signatureSize) = _ :=
        slice_of_le (by omega) (Nat.sub_le _ _)
      have hback : slice bytes (bytes.length - signatureSize) bytes.length =
          .ok (bytes.drop (bytes.length - signatureSize)) := by
        rw [slice_of_le (Nat.sub_le _ _) (Nat.le_refl _), List.take_length]
      rw [if_neg (not_not_intro hlength), if_pos hlength, Guarded.lift_bind hsplit,
        Guarded.lift_bind hbody, Guarded.lift_bind hback]
      rw [Guarded.lift_bind (dif_pos _)]
      rfl
    · rw [if_pos hlength, if_neg hlength]
      rfl
  · rw [if_pos (by omega), dif_neg hlong]
    rfl

theorem encodeHeader_eq (networkId protocolVersion : UInt8) (messageId serviceId : UInt16) :
    encodeHeader networkId protocolVersion messageId serviceId =
      .ok (LightClient.Transaction.encodeHeader networkId protocolVersion messageId serviceId) :=
  rfl

theorem concat_of_lt {front back : Bytes} (h : front.length + back.length < UInt64.size) :
    concat front back = .ok (front ++ back) := by
  rw [concat, add_of_lt h]
  rfl

theorem patchLength_eq (buffer : Bytes) (total : UInt32) :
    patchLength buffer total = .of (LightClient.Transaction.patchLength buffer total) := by
  have hstop : add 64 lengthOffset 4 = .ok (lengthOffset + 4) := add_of_lt (by decide)
  unfold patchLength LightClient.Transaction.patchLength
  rw [Guarded.lift_bind hstop]
  split
  · rfl
  · rw [overwrite_of_le (by omega) (by simp)]
    rfl

section
variable {t : LightClient.Transaction}

theorem payloadLength_eq (h : t.payloadLength < UInt64.size) :
    payloadLength t = .ok t.payloadLength := by
  have hfront : headerSize + t.body.length < 1 <<< 64 := Nat.lt_of_le_of_lt (Nat.le_add_right _ _) h
  rw [payloadLength, add_of_lt hfront, ok_bind, add_of_lt h]
  rfl

theorem signedBytes_eq (h : t.payloadLength < UInt64.size) :
    signedBytes t = .of t.signedBytes := by
  unfold signedBytes LightClient.Transaction.signedBytes
  rw [Guarded.lift_bind (payloadLength_eq h)]
  split
  · rfl
  · have hheader := encodeHeader_eq t.networkId t.protocolVersion t.messageId t.serviceId
    have hlength : (LightClient.Transaction.encodeHeader t.networkId t.protocolVersion t.messageId
        t.serviceId).length = headerSize := rfl
    have hfits : headerSize + t.body.length < UInt64.size :=
      Nat.lt_of_le_of_lt (Nat.le_add_right _ _) h
    rw [Guarded.lift_bind hheader, Guarded.lift_bind (concat_of_lt (by rw [hlength]; exact hfits)),
      patchLength_eq]

theorem toBytes_eq (h : t.payloadLength < UInt64.size) : toBytes t = .of t.toBytes := by
  refine Guarded.bind_eq_of (signedBytes_eq h) fun signed hsigned => ?_
  obtain ⟨-, rfl⟩ := LightClient.Transaction.signedBytes_eq_ok.mp hsigned
  rw [concat_of_lt]
  · rfl
  · rw [List.length_append, LightClient.Transaction.Header.length_encode, FixedBytes.length_toList]
    exact h

theorem hash_eq (h : t.payloadLength < UInt64.size) : hash t = .of t.hash :=
  Guarded.bind_eq_of (toBytes_eq h) fun _ _ => rfl

theorem signedByOwner_eq (S : SignatureScheme) (h : t.payloadLength < UInt64.size) (body : Body) :
    signedByOwner S t body = .of (t.signedByOwner S body) :=
  Guarded.bind_eq_of (signedBytes_eq h) fun _ _ => rfl

end

end Transaction

end LightClient.Machine
