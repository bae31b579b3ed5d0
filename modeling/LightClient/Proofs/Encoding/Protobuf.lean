import LightClient.Encoding.Protobuf
import Mathlib.Data.List.Nodup

/-! What is written as a protobuf message is read back from it. Each field that is not
zero or empty is one step of the reader, and the others leave no trace; so a message of
known fields with different tags gives back the value of each of them. -/

namespace LightClient.Protobuf

/-! ## Varints -/

theorem toNat_ofNat_of_lt {n : Nat} (h : n < 256) : (UInt8.ofNat n).toNat = n :=
  UInt8.toNat_ofNat_of_lt' h

/-- Ten bytes hold 64 bits: seven in each of the first nine, and one in the last. -/
theorem readVarint_varint {done left n : Nat} (hleft : done + left = 9)
    (h : n < Nat.pow 128 left * 2) (rest : Bytes) :
    readVarint done (varint n ++ rest) = some (n, rest) := by
  induction left generalizing done n with
  | zero =>
    have hlt : n < 2 := h
    have hbyte : (UInt8.ofNat n).toNat = n := toNat_ofNat_of_lt (by omega)
    have hfits : UInt8.ofNat n < 2 := by
      rw [UInt8.lt_iff_toNat_lt, hbyte]
      exact hlt
    rw [Nat.add_zero] at hleft
    rw [varint, if_pos (by omega), List.singleton_append, readVarint, if_pos hleft, if_pos hfits,
      hbyte]
  | succ left ih =>
    have hpow : Nat.pow 128 (left + 1) = Nat.pow 128 left * 128 := rfl
    rw [varint]
    split
    · rename_i hlt
      have hbyte : (UInt8.ofNat n).toNat = n := toNat_ofNat_of_lt (by omega)
      have hlast : UInt8.ofNat n < 128 := by
        rw [UInt8.lt_iff_toNat_lt, hbyte]
        exact hlt
      rw [List.singleton_append, readVarint, if_neg (by omega), if_pos hlast, hbyte]
    · have hbyte : (UInt8.ofNat (n % 128 + 128)).toNat = n % 128 + 128 :=
        toNat_ofNat_of_lt (by omega)
      have hmore : ¬ UInt8.ofNat (n % 128 + 128) < 128 := by
        rw [UInt8.lt_iff_toNat_lt, hbyte]
        exact Nat.not_lt.mpr (Nat.le_add_left 128 _)
      have hsum : n % 128 + 128 - 128 + 128 * (n / 128) = n := by omega
      rw [List.cons_append, readVarint, if_neg (by omega), if_neg hmore, ih (by omega) (by omega)]
      simp only [Option.map_some, hbyte, hsum]

theorem readVarint_of_lt {n : Nat} (h : n < UInt64.size) (rest : Bytes) :
    readVarint 0 (varint n ++ rest) = some (n, rest) := by
  have hten : 0 + 9 = 9 := rfl
  exact readVarint_varint hten h rest

theorem readInt_varint {n : Nat} (h : n < UInt64.size) (rest : Bytes) :
    readInt (varint n ++ rest) = .ok (n, rest) := by
  rw [readInt, readVarint_of_lt h]

theorem length_varint_le {n k : Nat} (h : n < Nat.pow 128 (k + 1)) : (varint n).length ≤ k + 1 := by
  induction k generalizing n with
  | zero =>
    have hlt : n < 128 := h
    rw [varint, if_pos hlt]
    exact Nat.le_refl _
  | succ k ih =>
    have hpow : Nat.pow 128 (k + 1 + 1) = Nat.pow 128 (k + 1) * 128 := rfl
    rw [varint]
    split
    · simp
    · have hrest := ih (n := n / 128) (by omega)
      rw [List.length_cons]
      omega

theorem length_varint_le_ten {n : Nat} (h : n < UInt64.size) : (varint n).length ≤ 10 := by
  have hsize : UInt64.size ≤ Nat.pow 128 10 := by decide
  exact length_varint_le (Nat.lt_of_lt_of_le h hsize)

/-! ## Fields -/

def Value.kind : Value → Kind
  | .int _ => .int
  | .bytes _ => .bytes

/-- The value is what a field has that is left out. -/
def Value.isDefault : Value → Bool
  | .int n => n = 0
  | .bytes b => b.isEmpty

/-- The length of a byte string. -/
def Value.size : Value → Nat
  | .int _ => 0
  | .bytes b => b.length

def encodeField : Nat × Value → Bytes
  | (tag, .int n) => encodeInt tag n
  | (tag, .bytes bytes) => encodeBytes tag bytes

/-- The message has such a field, and the value can be written. -/
structure Fits (message : Message) (field : Nat × Value) : Prop where
  tag_pos : 0 < field.1
  tag_lt : 8 * field.1 + 7 < UInt32.size
  known : (message.fields.find? (·.tag = field.1)).map Field.kind = some field.2.kind
  size_lt : field.2.size < UInt64.size

section
variable {message : Message}

theorem readKey_varint {tag : Nat} (code : Nat) {wire : WireType} (hpos : 0 < tag)
    (hlt : 8 * tag + 7 < UInt32.size) (hcode : code < 8) (hwire : WireType.ofCode? code = some wire)
    (rest : Bytes) : readKey (varint (8 * tag + code) ++ rest) = .ok ((tag, wire), rest) := by
  have hsize : UInt32.size < UInt64.size := by decide
  have hmod : (8 * tag + code) % 8 = code := by omega
  have hdiv : (8 * tag + code) / 8 = tag := by omega
  have hread : readVarint 0 (varint (8 * tag + code) ++ rest) = some (8 * tag + code, rest) :=
    readVarint_of_lt (Nat.lt_trans (by omega) hsize) rest
  simp only [readKey, hread, hmod, hdiv, hwire]
  rw [if_neg (by omega), if_neg (by omega)]

theorem readBytes_append {bytes : Bytes} (h : bytes.length < UInt64.size) (rest : Bytes) :
    readBytes (varint bytes.length ++ bytes ++ rest) = .ok (bytes, rest) := by
  have hle : bytes.length ≤ (bytes ++ rest).length := by simp
  rw [List.append_assoc]
  simp only [readBytes, readInt_varint h, bind, Except.bind, take]
  rw [if_pos hle, List.take_left, List.drop_left]

/-- A field that is written is read in one step. -/
theorem step_encodeField {field : Nat × Value} (h : Fits message field)
    (hpresent : field.2.isDefault = false) (record : Record) (rest : Bytes) :
    step message [] record (encodeField field ++ rest) = .ok ⟨[], field :: record, rest⟩ := by
  obtain ⟨tag, value⟩ := field
  obtain ⟨hpos, hlt, hknown, hsize⟩ := h
  obtain ⟨found, hfound, hkind⟩ := Option.map_eq_some_iff.mp hknown
  cases value with
  | int n =>
    have hne : n ≠ 0 := by simpa [Value.isDefault] using hpresent
    have hkey := readKey_varint 0 hpos hlt (by omega) rfl (varint n.toNat ++ rest)
    have hvalue : readValue .int .varint (varint n.toNat ++ rest) = .ok (.int n, rest) := by
      simp only [readValue, if_true, readInt_varint n.toNat_lt, bind, Except.bind,
        UInt64.ofNat_toNat]
      rfl
    rw [Nat.add_zero] at hkey
    rw [encodeField, encodeInt, if_neg hne, List.append_assoc]
    simp only [step, hkey, hfound, hkind, Value.kind, hvalue]
  | bytes bytes =>
    have hsome : bytes.isEmpty = false := hpresent
    have hkey := readKey_varint 2 hpos hlt (by omega) rfl
      (varint bytes.length ++ bytes ++ rest)
    have hvalue : readValue .bytes .lengthDelimited (varint bytes.length ++ bytes ++ rest) =
        .ok (.bytes bytes, rest) := by
      simp only [readValue, if_true, readBytes_append hsize, bind, Except.bind]
      rfl
    rw [encodeField, encodeBytes, if_neg (by simp [hsome]), List.append_assoc, List.append_assoc,
      ← List.append_assoc (varint bytes.length)]
    simp only [step, hkey, hfound, hkind, Value.kind, hvalue]

theorem encodeField_of_isDefault {field : Nat × Value} (h : field.2.isDefault = true) :
    encodeField field = [] := by
  obtain ⟨tag, value⟩ := field
  cases value with
  | int n => exact if_pos (by simpa [Value.isDefault] using h)
  | bytes bytes => exact if_pos h

theorem length_encodeField_le {field : Nat × Value} (h : Fits message field) :
    (encodeField field).length ≤ 20 + field.2.size := by
  obtain ⟨tag, value⟩ := field
  have hlt : 8 * tag + 7 < UInt32.size := h.tag_lt
  have hsize : UInt32.size < UInt64.size := by decide
  cases value with
  | int n =>
    have hkey : (varint (8 * tag)).length ≤ 10 := length_varint_le_ten (by omega)
    have hvalue : (varint n.toNat).length ≤ 10 := length_varint_le_ten n.toNat_lt
    rw [encodeField, encodeInt]
    split
    · simp
    · rw [List.length_append]
      omega
  | bytes bytes =>
    have hkey : (varint (8 * tag + 2)).length ≤ 10 := length_varint_le_ten (by omega)
    have hvalue : (varint bytes.length).length ≤ 10 := length_varint_le_ten h.size_lt
    rw [encodeField, encodeBytes]
    split
    · simp
    · simp only [List.length_append, Value.size]
      omega

/-! ## Messages -/

/-- What the reader has of a message with these fields, the last one first. -/
def written (fields : List (Nat × Value)) : Record :=
  (fields.filter fun field => !field.2.isDefault).reverse

theorem decodeFields_flatMap {fields : List (Nat × Value)} (h : ∀ field ∈ fields, Fits message field)
    (record : Record) :
    decodeFields message [] record (fields.flatMap encodeField) =
      .ok (written fields ++ record) := by
  induction fields generalizing record with
  | nil =>
    rw [List.flatMap_nil, decodeFields]
    rfl
  | cons field fields ih =>
    rw [List.forall_mem_cons] at h
    rw [List.flatMap_cons]
    cases hdefault : field.2.isDefault with
    | true =>
      rw [encodeField_of_isDefault hdefault, List.nil_append, ih h.2]
      simp [written, hdefault]
    | false =>
      rw [decodeFields_of_step (step_encodeField h.1 hdefault record _), ih h.2]
      simp [written, hdefault]

theorem decode_flatMap {fields : List (Nat × Value)} (h : ∀ field ∈ fields, Fits message field) :
    decode message (fields.flatMap encodeField) = .ok (written fields) := by
  rw [decode, decodeFields_flatMap h, List.append_nil]

theorem length_flatMap_le {fields : List (Nat × Value)} {size : Nat}
    (h : ∀ field ∈ fields, Fits message field) (hsize : ∀ field ∈ fields, field.2.size ≤ size) :
    (fields.flatMap encodeField).length ≤ fields.length * (20 + size) := by
  induction fields with
  | nil => simp
  | cons field fields ih =>
    rw [List.forall_mem_cons] at h hsize
    have hfirst := length_encodeField_le h.1
    have hrest := ih h.2 hsize.2
    rw [List.flatMap_cons, List.length_append, List.length_cons, Nat.succ_mul]
    omega

end

/-! ## The values of the fields -/

section
variable {fields : List (Nat × Value)} {tag : Nat}

theorem lookup_of_mem {record : Record} {value : Value} (hdistinct : (record.map Prod.fst).Nodup)
    (h : (tag, value) ∈ record) : record.lookup tag = some value := by
  obtain ⟨before, after, rfl⟩ := List.append_of_mem h
  rw [List.map_append, List.map_cons, List.nodup_append] at hdistinct
  refine List.lookup_eq_some_iff.mpr ⟨before, after, rfl, ?_⟩
  intro other hother
  have hne := hdistinct.2.2 other.1 (List.mem_map_of_mem hother) tag List.mem_cons_self
  simpa using hne.symm

theorem nodup_map_fst_written (hdistinct : (fields.map Prod.fst).Nodup) :
    ((written fields).map Prod.fst).Nodup := by
  rw [written, List.map_reverse, List.nodup_reverse]
  exact hdistinct.sublist (List.filter_sublist.map _)

theorem lookup_written {value : Value} (hdistinct : (fields.map Prod.fst).Nodup)
    (h : (tag, value) ∈ fields) :
    (written fields).lookup tag = if value.isDefault then none else some value := by
  split
  · rename_i hdefault
    rw [List.lookup_eq_none_iff]
    intro other hother
    rw [written, List.mem_reverse, List.mem_filter] at hother
    -- another field with the tag would be this one, which is left out
    have hne : other.1 ≠ tag := by
      intro heq
      have hsame : other = (tag, value) := List.inj_on_of_nodup_map hdistinct hother.1 h heq
      rw [hsame, hdefault] at hother
      cases hother.2
    simpa using hne.symm
  · rename_i hpresent
    apply lookup_of_mem (nodup_map_fst_written hdistinct)
    rw [written, List.mem_reverse, List.mem_filter]
    exact ⟨h, by simpa using hpresent⟩

/-- An integer field that is left out is zero. -/
theorem int_written {n : UInt64} (hdistinct : (fields.map Prod.fst).Nodup)
    (h : (tag, .int n) ∈ fields) : (written fields).int tag = n := by
  rw [Record.int, lookup_written hdistinct h]
  by_cases hzero : n = 0
  · simp [Value.isDefault, hzero]
  · simp [Value.isDefault, hzero]

theorem bytes_written {bytes : Bytes} (hdistinct : (fields.map Prod.fst).Nodup)
    (h : (tag, .bytes bytes) ∈ fields) : (written fields).bytes tag = bytes := by
  rw [Record.bytes, lookup_written hdistinct h]
  cases bytes with
  | nil => rfl
  | cons => rfl

end

end LightClient.Protobuf
