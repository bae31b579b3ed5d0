import LightClient.Json.Double
import LightClient.Json.Value
import LightClient.Key

/-! Forms: how values of a type are written as JSON and read from it.

Numbers are plain integers in range and byte strings are hexadecimal. A record
is an object with the fields of given names, or an array of its values in that
order. A choice is a record in which one more field, the tag, names the case. -/

namespace LightClient.Json

structure Form (α : Type) where
  toJson : α → Json
  ofJson? : Json → Option α

namespace Form

def ofText {α : Type} (toText : α → String) (ofText? : String → Option α) : Form α where
  toJson value := .text (some (toText value))
  ofJson?
    | .text (some s) => ofText? s
    | _ => none

def string : Form String := ofText id some

def bool : Form Bool where
  toJson value := .bool value
  ofJson?
    | .bool value => some value
    | _ => none

def natural : Form Nat where
  toJson n := .number (.whole false n)
  ofJson?
    | .number (.whole false n) => some n
    | _ => none

/-- Numbers below a bound. -/
def bounded {α : Type} (bound : Nat) (toNat : α → Nat) (ofNat : Nat → α) : Form α where
  toJson value := natural.toJson (toNat value)
  ofJson? json := do
    let n ← natural.ofJson? json
    if n < bound then some (ofNat n) else none

def u8 : Form UInt8 := bounded UInt8.size UInt8.toNat UInt8.ofNat
def u16 : Form UInt16 := bounded UInt16.size UInt16.toNat UInt16.ofNat
def u32 : Form UInt32 := bounded UInt32.size UInt32.toNat UInt32.ofNat
def u64 : Form UInt64 := bounded UInt64.size UInt64.toNat UInt64.ofNat

def bytes : Form Bytes := ofText Hex.encode fun s => (Hex.decode s).toOption

def fixed {n : Nat} : Form (FixedBytes n) :=
  ofText (fun value => Hex.encode value.toList) fun s => do
    FixedBytes.ofList? n (← (Hex.decode s).toOption)

def publicKey : Form PublicKey :=
  ofText PublicKey.toHex fun s => (PublicKey.ofHex s).toOption

def signature : Form Signature :=
  ofText Signature.toHex fun s => (Signature.ofHex s).toOption

def list {α : Type} (form : Form α) : Form (List α) where
  toJson values := .array (values.map form.toJson)
  ofJson?
    | .array items => items.mapM form.ofJson?
    | _ => none

def option {α : Type} (form : Form α) : Form (Option α) where
  toJson
    | none => .null
    | some value => form.toJson value
  ofJson?
    | .null => some none
    | json => (form.ofJson? json).map some

def read {α : Type} (form : Form α) (text : String) : Option α := do
  form.ofJson? (← Json.read text)

def write {α : Type} (form : Form α) (value : α) : String := (form.toJson value).write

end Form

/-! ## Records -/

/-- The fields of a record that were given. -/
abbrev Record := List (String × Json)

def record (fields : Record) : Json := .object (fields.map fun (name, value) => (some name, value))

/-- Reads the fields of these names. In an object a known name must not be
repeated, every name must be readable, and other fields are passed over; an
array must not be too long. -/
def record? (names : List String) : Json → Option Record
  | .object fields => do
    let named ← fields.mapM fun (name, value) => name.map (·, value)
    let known := named.filter (·.1 ∈ names)
    if (known.map (·.1)).Nodup then some known else none
  | .array items => if items.length ≤ names.length then some (names.zip items) else none
  | _ => none

namespace Record

def get {α : Type} (record : Record) (form : Form α) (name : String) : Option α := do
  form.ofJson? (← record.lookup name)

/-- A field that may be left out. -/
def getD {α : Type} (record : Record) (form : Form α) (name : String) (default : α) : Option α :=
  match record.lookup name with
  | some json => form.ofJson? json
  | none => some default

end Record

/-! ## Choices

The case of a choice is known only when its tag is found, so the record is held
until then. What is held must be nested less than 128 deep, have readable
strings, and numbers that do not overflow a double. -/

mutual

/-- Whether a value can be held with `depth` more levels allowed. -/
def canHold : Nat → Json → Bool
  | _, .null => true
  | _, .bool _ => true
  | _, .number n => n.isFinite
  | _, .text t => t.isSome
  | depth, .array items => 0 < depth && canHoldItems (depth - 1) items
  | depth, .object fields => 0 < depth && canHoldFields (depth - 1) fields

def canHoldItems : Nat → List Json → Bool
  | _, [] => true
  | depth, item :: items => canHold depth item && canHoldItems depth items

def canHoldFields : Nat → List (Text × Json) → Bool
  | _, [] => true
  | depth, (name, value) :: fields =>
    name.isSome && canHold depth value && canHoldFields depth fields

end

/-- A record with its tag in front. -/
def choice (tag case : String) (fields : Record) : Json :=
  record ((tag, .text (some case)) :: fields)

/-- The case, and the record without its tag. -/
def choice? (tag : String) (json : Json) : Option (String × Json) :=
  if canHold 127 json then
    match json with
    | .object fields =>
      match fields.partition (·.1 = some tag) with
      | ([(_, .text (some case))], rest) => some (case, .object rest)
      | _ => none
    | .array (.text (some case) :: rest) => some (case, .array rest)
    | _ => none
  else none

end LightClient.Json
