import LightClient.Json.Token

/-! JSON documents. `write` spells a document without blanks; `read` accepts any
spelling, and nothing before or after the document but blanks. The reader is a
machine that takes one token at a time and keeps the open arrays and objects on
a stack, so nesting may be as deep as the input is long. -/

namespace LightClient

open Json (Text Number Token)

inductive Json
  | null
  | bool (value : Bool)
  | number (value : Number)
  | text (value : Text)
  | array (items : List Json)
  /-- Fields in the order of the document, with repetitions. -/
  | object (fields : List (Text × Json))

namespace Json

/-! ## Writing -/

mutual

def tokens : Json → List Token
  | .null => [.null]
  | .bool b => [.bool b]
  | .number n => [.number n]
  | .text t => [.text t]
  | .array [] => [.openArray, .closeArray]
  | .array (item :: items) => .openArray :: tokens item ++ moreItems items
  | .object [] => [.openObject, .closeObject]
  | .object ((name, value) :: fields) =>
    .openObject :: .text name :: .colon :: tokens value ++ moreFields fields

/-- What follows an item of an array. -/
def moreItems : List Json → List Token
  | [] => [.closeArray]
  | item :: items => .comma :: tokens item ++ moreItems items

/-- What follows a field of an object. -/
def moreFields : List (Text × Json) → List Token
  | [] => [.closeObject]
  | (name, value) :: fields =>
    .comma :: .text name :: .colon :: tokens value ++ moreFields fields

end

def write (json : Json) : String := String.ofList (json.tokens.flatMap Token.chars)

/-! ## Reading -/

/-- An array or object that is still open: what is complete of it, last first,
and in an object the name of the field at hand. -/
inductive Frame
  | array (items : List Json)
  | object (fields : List (Text × Json)) (name : Text)

/-- What the reader stands before. -/
inductive Awaits
  | value
  | firstItem
  | firstName
  | name (fields : List (Text × Json))
  | colon (fields : List (Text × Json)) (name : Text)
  /-- The end of the document, or of the innermost frame, or the next in it. -/
  | after (value : Json)

structure Reader where
  stack : List Frame
  awaits : Awaits

namespace Reader

def initial : Reader := ⟨[], .value⟩

/-- The first token of a value. -/
def start (stack : List Frame) : Token → Option Reader
  | .null => some ⟨stack, .after .null⟩
  | .bool b => some ⟨stack, .after (.bool b)⟩
  | .number n => some ⟨stack, .after (.number n)⟩
  | .text t => some ⟨stack, .after (.text t)⟩
  | .openArray => some ⟨.array [] :: stack, .firstItem⟩
  | .openObject => some ⟨stack, .firstName⟩
  | _ => none

/-- A token after a value. -/
def proceed (value : Json) : List Frame → Token → Option Reader
  | .array items :: stack, .comma => some ⟨.array (value :: items) :: stack, .value⟩
  | .array items :: stack, .closeArray =>
    some ⟨stack, .after (.array (value :: items).reverse)⟩
  | .object fields name :: stack, .comma => some ⟨stack, .name ((name, value) :: fields)⟩
  | .object fields name :: stack, .closeObject =>
    some ⟨stack, .after (.object ((name, value) :: fields).reverse)⟩
  | _, _ => none

def step (reader : Reader) (token : Token) : Option Reader :=
  let stack := reader.stack
  match reader.awaits, token with
  | .value, token => start stack token
  | .firstItem, .closeArray => some ⟨stack.tail, .after (.array [])⟩
  | .firstItem, token => start stack token
  | .firstName, .closeObject => some ⟨stack, .after (.object [])⟩
  | .firstName, .text name => some ⟨stack, .colon [] name⟩
  | .name fields, .text name => some ⟨stack, .colon fields name⟩
  | .colon fields name, .colon => some ⟨.object fields name :: stack, .value⟩
  | .after value, token => proceed value stack token
  | _, _ => none

def result : Reader → Option Json
  | ⟨[], .after value⟩ => some value
  | _ => none

end Reader

def ofTokens (tokens : List Token) : Option Json := do
  (← tokens.foldlM Reader.step .initial).result

def read (text : String) : Option Json := do
  ofTokens (← Token.lex text.toList)

end Json

end LightClient
