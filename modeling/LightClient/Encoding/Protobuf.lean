import LightClient.Bytes

/-! The wire format of protobuf messages with integer and byte-string fields.
Writing lists the fields in order and leaves out zero and empty ones; reading
takes fields in any order, keeps the last of a repeated one and skips unknown
ones, groups included. -/

namespace LightClient.Protobuf

inductive WireType
  | varint
  | fixed64
  | lengthDelimited
  | startGroup
  | endGroup
  | fixed32
  deriving DecidableEq

def WireType.ofCode? : Nat → Option WireType
  | 0 => some .varint
  | 1 => some .fixed64
  | 2 => some .lengthDelimited
  | 3 => some .startGroup
  | 4 => some .endGroup
  | 5 => some .fixed32
  | _ => none

def WireType.name : WireType → String
  | .varint => "Varint"
  | .fixed64 => "SixtyFourBit"
  | .lengthDelimited => "LengthDelimited"
  | .startGroup => "StartGroup"
  | .endGroup => "EndGroup"
  | .fixed32 => "ThirtyTwoBit"

inductive Cause
  | varint
  | key (value : Nat)
  | wireCode (code : Nat)
  | zeroTag
  | wireType (actual expected : WireType)
  | underflow
  | tooDeep
  | endGroup
  deriving DecidableEq

def Cause.message : Cause → String
  | .varint => "invalid varint"
  | .key n => "invalid key value: " ++ toString n
  | .wireCode code => "invalid wire type value: " ++ toString code
  | .zeroTag => "invalid tag value: 0"
  | .wireType actual expected =>
    "invalid wire type: " ++ actual.name ++ " (expected " ++ expected.name ++ ")"
  | .underflow => "buffer underflow"
  | .tooDeep => "recursion limit reached"
  | .endGroup => "unexpected end group tag"

/-- A failure, and the known field in which it arose, if any. -/
structure Fault where
  place : Option (String × String)
  cause : Cause
  deriving DecidableEq

def Fault.message (fault : Fault) : String :=
  let place :=
    match fault.place with
    | some (message, field) => message ++ "." ++ field ++ ": "
    | none => ""
  "failed to decode Protobuf message: " ++ place ++ fault.cause.message

/-! ## Varints -/

/-- Seven bits a byte, the lowest first; all bytes but the last have the top
bit set. -/
def varint (n : Nat) : Bytes :=
  if n < 128 then [UInt8.ofNat n] else UInt8.ofNat (n % 128 + 128) :: varint (n / 128)

/-- Reads a number of at most 64 bits whose first `done` bytes are read. -/
def readVarint (done : Nat) : Bytes → Option (Nat × Bytes)
  | [] => none
  | b :: rest =>
    if done = 9 then if b < 2 then some (b.toNat, rest) else none
    else if b < 128 then some (b.toNat, rest)
    else (readVarint (done + 1) rest).map fun (n, rest) => (b.toNat - 128 + 128 * n, rest)

theorem length_readVarint {done n : Nat} {bytes rest : Bytes}
    (h : readVarint done bytes = some (n, rest)) : rest.length < bytes.length := by
  induction bytes generalizing done n with
  | nil => cases h
  | cons b bs ih =>
    simp only [readVarint] at h
    split at h
    · split at h
      · cases h; simp
      · cases h
    · split at h
      · cases h; simp
      · obtain ⟨⟨m, r⟩, hr, he⟩ := Option.map_eq_some_iff.mp h
        cases he
        have : r.length < bs.length := ih hr
        simp only [List.length_cons]
        omega

/-! ## Messages -/

inductive Kind
  | int
  | bytes
  deriving DecidableEq

structure Field where
  tag : Nat
  name : String
  kind : Kind

structure Message where
  name : String
  fields : List Field

inductive Value
  | int (n : UInt64)
  | bytes (bytes : Bytes)
  deriving DecidableEq

/-- Field values by tag, the last one read first. -/
abbrev Record := List (Nat × Value)

namespace Record

def int (record : Record) (tag : Nat) : UInt64 :=
  match record.lookup tag with
  | some (.int n) => n
  | _ => 0

def bytes (record : Record) (tag : Nat) : Bytes :=
  match record.lookup tag with
  | some (.bytes bytes) => bytes
  | _ => []

end Record

/-! ## Writing -/

def encodeInt (tag : Nat) (n : UInt64) : Bytes :=
  if n = 0 then [] else varint (8 * tag) ++ varint n.toNat

def encodeBytes (tag : Nat) (bytes : Bytes) : Bytes :=
  if bytes.isEmpty then [] else varint (8 * tag + 2) ++ varint bytes.length ++ bytes

/-! ## Reading -/

/-- A tag and a wire type. -/
def readKey (bytes : Bytes) : Except Cause ((Nat × WireType) × Bytes) :=
  match readVarint 0 bytes with
  | none => .error .varint
  | some (key, rest) =>
    if UInt32.size ≤ key then .error (.key key)
    else
      match WireType.ofCode? (key % 8) with
      | none => .error (.wireCode (key % 8))
      | some wire => if key / 8 = 0 then .error .zeroTag else .ok ((key / 8, wire), rest)

def take (n : Nat) (bytes : Bytes) : Except Cause (Bytes × Bytes) :=
  if n ≤ bytes.length then .ok (bytes.take n, bytes.drop n) else .error .underflow

def readInt (bytes : Bytes) : Except Cause (Nat × Bytes) :=
  match readVarint 0 bytes with
  | some result => .ok result
  | none => .error .varint

def readBytes (bytes : Bytes) : Except Cause (Bytes × Bytes) := do
  let (n, rest) ← readInt bytes
  take n rest

def readValue (kind : Kind) (wire : WireType) (bytes : Bytes) : Except Cause (Value × Bytes) :=
  match kind with
  | .int =>
    if wire = .varint then do
      let (n, rest) ← readInt bytes
      return (.int (UInt64.ofNat n), rest)
    else .error (.wireType wire .varint)
  | .bytes =>
    if wire = .lengthDelimited then do
      let (value, rest) ← readBytes bytes
      return (.bytes value, rest)
    else .error (.wireType wire .lengthDelimited)

/-- How many groups may lie inside each other. -/
def maxDepth : Nat := 100

/-- Passes over one unknown field, or over the start or end of a group; `groups`
are the tags of the open groups, innermost first. -/
def skip (groups : List Nat) (tag : Nat) (wire : WireType) (bytes : Bytes) :
    Except Cause (List Nat × Bytes) :=
  match groups, wire with
  | [], .endGroup => .error .endGroup
  | group :: outer, .endGroup => if tag = group then .ok (outer, bytes) else .error .endGroup
  | groups, wire =>
    if maxDepth ≤ groups.length then .error .tooDeep
    else
      match wire with
      | .varint => (readInt bytes).map fun result => (groups, result.2)
      | .fixed64 => (take 8 bytes).map fun result => (groups, result.2)
      | .fixed32 => (take 4 bytes).map fun result => (groups, result.2)
      | .lengthDelimited => (readBytes bytes).map fun result => (groups, result.2)
      | .startGroup => .ok (tag :: groups, bytes)
      | .endGroup => .error .endGroup

structure Progress where
  groups : List Nat
  record : Record
  rest : Bytes

/-- Reads one field, or one field of an unknown group. -/
def step (message : Message) (groups : List Nat) (record : Record) (bytes : Bytes) :
    Except Fault Progress :=
  match readKey bytes with
  | .error cause => .error ⟨none, cause⟩
  | .ok ((tag, wire), rest) =>
    match groups, message.fields.find? (·.tag = tag) with
    | [], some field =>
      match readValue field.kind wire rest with
      | .ok (value, rest) => .ok ⟨[], (tag, value) :: record, rest⟩
      | .error cause => .error ⟨some (message.name, field.name), cause⟩
    | groups, _ =>
      match skip groups tag wire rest with
      | .ok (groups, rest) => .ok ⟨groups, record, rest⟩
      | .error cause => .error ⟨none, cause⟩

/-! Every step consumes input. -/

theorem length_readKey {bytes rest : Bytes} {key : Nat × WireType}
    (h : readKey bytes = .ok (key, rest)) : rest.length < bytes.length := by
  unfold readKey at h
  split at h
  · cases h
  · rename_i read
    have := length_readVarint read
    split at h
    · cases h
    · split at h
      · cases h
      · split at h
        · cases h
        · cases h; exact this

theorem length_take {n : Nat} {bytes first rest : Bytes} (h : take n bytes = .ok (first, rest)) :
    rest.length ≤ bytes.length := by
  unfold take at h
  split at h
  · cases h; simp
  · cases h

theorem length_readInt {n : Nat} {bytes rest : Bytes} (h : readInt bytes = .ok (n, rest)) :
    rest.length ≤ bytes.length := by
  unfold readInt at h
  split at h
  · rename_i read
    cases h
    exact Nat.le_of_lt (length_readVarint read)
  · cases h

theorem length_readBytes {bytes value rest : Bytes} (h : readBytes bytes = .ok (value, rest)) :
    rest.length ≤ bytes.length := by
  unfold readBytes at h
  cases hr : readInt bytes with
  | error cause => rw [hr] at h; cases h
  | ok result =>
    obtain ⟨n, middle⟩ := result
    rw [hr] at h
    exact Nat.le_trans (length_take h) (length_readInt hr)

theorem length_readValue {kind : Kind} {wire : WireType} {bytes rest : Bytes} {value : Value}
    (h : readValue kind wire bytes = .ok (value, rest)) : rest.length ≤ bytes.length := by
  cases kind with
  | int =>
    simp only [readValue] at h
    split at h
    · cases hr : readInt bytes with
      | error cause => rw [hr] at h; cases h
      | ok result =>
        obtain ⟨n, rest'⟩ := result
        rw [hr] at h
        cases h
        exact length_readInt hr
    · cases h
  | bytes =>
    simp only [readValue] at h
    split at h
    · cases hr : readBytes bytes with
      | error cause => rw [hr] at h; cases h
      | ok result =>
        obtain ⟨n, rest'⟩ := result
        rw [hr] at h
        cases h
        exact length_readBytes hr
    · cases h

theorem rest_of_map {α : Type} {read : Except Cause (α × Bytes)} {groups left : List Nat}
    {rest : Bytes} (h : (read.map fun result => (groups, result.2)) = .ok (left, rest)) :
    ∃ value, read = .ok (value, rest) := by
  cases read with
  | error cause => cases h
  | ok result => cases h; exact ⟨_, rfl⟩

theorem length_skip {groups left : List Nat} {tag : Nat} {wire : WireType} {bytes rest : Bytes}
    (h : skip groups tag wire bytes = .ok (left, rest)) : rest.length ≤ bytes.length := by
  unfold skip at h
  split at h
  · cases h
  · split at h
    · cases h; exact Nat.le_refl _
    · cases h
  · split at h
    · cases h
    · split at h
      · obtain ⟨_, hr⟩ := rest_of_map h
        exact length_readInt hr
      · obtain ⟨_, hr⟩ := rest_of_map h
        exact length_take hr
      · obtain ⟨_, hr⟩ := rest_of_map h
        exact length_take hr
      · obtain ⟨_, hr⟩ := rest_of_map h
        exact length_readBytes hr
      · cases h; exact Nat.le_refl _
      · cases h

theorem length_step {message : Message} {groups : List Nat} {record : Record} {bytes : Bytes}
    {progress : Progress} (h : step message groups record bytes = .ok progress) :
    progress.rest.length < bytes.length := by
  unfold step at h
  split at h
  · cases h
  · rename_i key
    have shorter := length_readKey key
    split at h
    · split at h
      · rename_i value
        cases h
        exact Nat.lt_of_le_of_lt (length_readValue value) shorter
      · cases h
    · split at h
      · rename_i skipped
        cases h
        exact Nat.lt_of_le_of_lt (length_skip skipped) shorter
      · cases h

/-- Reads fields until the input ends, which it must not do inside a group. -/
def decodeFields (message : Message) (groups : List Nat) (record : Record) (bytes : Bytes) :
    Except Fault Record :=
  if bytes.isEmpty then if groups.isEmpty then .ok record else .error ⟨none, .varint⟩
  else
    match _h : step message groups record bytes with
    | .ok progress => decodeFields message progress.groups progress.record progress.rest
    | .error fault => .error fault
termination_by bytes.length
decreasing_by exact length_step _h

theorem decodeFields_of_step {message : Message} {groups : List Nat} {record : Record}
    {bytes : Bytes} {progress : Progress}
    (h : step message groups record bytes = .ok progress) :
    decodeFields message groups record bytes =
      decodeFields message progress.groups progress.record progress.rest := by
  have hbytes : bytes.isEmpty = false := by
    have hlength := length_step h
    cases bytes with
    | nil => cases hlength
    | cons => rfl
  rw [decodeFields.eq_def, hbytes]
  simp only [Bool.false_eq_true, if_false]
  split
  · rename_i hstep
    rw [h] at hstep
    cases hstep
    rfl
  · rename_i hstep
    rw [h] at hstep
    cases hstep

def decode (message : Message) (bytes : Bytes) : Except Fault Record :=
  decodeFields message [] [] bytes

end LightClient.Protobuf
