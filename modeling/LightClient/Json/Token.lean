import LightClient.Bytes.Hex
import LightClient.Json.Number

/-! The lexical layer of JSON (RFC 8259): punctuation, words and texts.

`Token.lex` reads a run of tokens with blanks between them; `Token.chars` writes
one. A word is a maximal run of letters, digits, `+`, `-` and `.`, and must be a
literal or a number as a whole. -/

namespace LightClient.Json

/-- A string of a document. A document may name a surrogate without its partner,
which is no character; `none` stands for any string that does. -/
abbrev Text := Option String

inductive Token
  | openArray
  | closeArray
  | openObject
  | closeObject
  | comma
  | colon
  | null
  | bool (value : Bool)
  | number (value : Number)
  | text (value : Text)
  deriving DecidableEq

/-! ## Texts -/

/-- What stands between quotes: a character, or a surrogate named by its code. -/
inductive CodeUnit
  | char (c : Char)
  | surrogate (code : Nat)
  deriving DecidableEq

namespace CodeUnit

def isHigh (code : Nat) : Bool := 0xD800 ≤ code && code < 0xDC00
def isLow (code : Nat) : Bool := 0xDC00 ≤ code && code < 0xE000

/-- The meaning of a four-digit escape. -/
def ofCode (code : Nat) : CodeUnit :=
  if isHigh code || isLow code then .surrogate code else .char (Char.ofNat code)

/-- Replaces pairs of surrogates by the characters they name. -/
def join : List CodeUnit → Option (List Char)
  | [] => some []
  | .char c :: rest => (join rest).map (c :: ·)
  | .surrogate high :: .surrogate low :: rest =>
    if isHigh high && isLow low then
      (join rest).map (Char.ofNat (0x10000 + (high - 0xD800) * 0x400 + (low - 0xDC00)) :: ·)
    else none
  | .surrogate _ :: _ => none

def hexDigit (c : Char) : Option Nat :=
  if c.toNat < 128 then Hex.digitValue (UInt8.ofNat c.toNat) else none

def hex4 (a b c d : Char) : Option Nat := do
  return 0x1000 * (← hexDigit a) + 0x100 * (← hexDigit b) + 0x10 * (← hexDigit c) + (← hexDigit d)

/-- The character of a one-letter escape. -/
def escaped : Char → Option Char
  | '"' => some '"'
  | '\\' => some '\\'
  | '/' => some '/'
  | 'b' => some '\x08'
  | 'f' => some '\x0c'
  | 'n' => some '\n'
  | 'r' => some '\r'
  | 't' => some '\t'
  | _ => none

/-- Reads up to the closing quote. -/
def scan : List Char → Option (List CodeUnit × List Char)
  | [] => none
  | '"' :: rest => some ([], rest)
  | '\\' :: 'u' :: a :: b :: c :: d :: rest => do
    let code ← hex4 a b c d
    let (units, rest) ← scan rest
    return (ofCode code :: units, rest)
  | '\\' :: letter :: rest => do
    let c ← escaped letter
    let (units, rest) ← scan rest
    return (.char c :: units, rest)
  | c :: rest =>
    if c = '\\' ∨ c.toNat < 0x20 then none
    else do
      let (units, rest) ← scan rest
      return (.char c :: units, rest)

theorem length_scan {cs rest : List Char} {units : List CodeUnit}
    (h : scan cs = some (units, rest)) : rest.length < cs.length := by
  induction cs using scan.induct generalizing units rest with
  | case1 => simp [scan] at h
  | case2 => simp_all [scan]
  | case3 a b c d tail ih =>
    simp only [scan, Option.bind_eq_bind, Option.bind_eq_some_iff] at h
    obtain ⟨_, _, ⟨_, _⟩, found, last⟩ := h
    cases last
    have := ih found
    simp only [List.length_cons]; omega
  | case4 letter tail _ ih =>
    rw [scan] at h
    · simp only [Option.bind_eq_bind, Option.bind_eq_some_iff] at h
      obtain ⟨_, _, ⟨_, _⟩, found, last⟩ := h
      cases last
      have := ih found
      simp only [List.length_cons]; omega
    · assumption
  | case5 c tail quote escape letter bad =>
    rw [scan, if_pos bad] at h <;> first | cases h | assumption
  | case6 c tail quote escape letter good ih =>
    rw [scan, if_neg good] at h
    · simp only [Option.bind_eq_bind, Option.bind_eq_some_iff] at h
      obtain ⟨⟨_, _⟩, found, last⟩ := h
      cases last
      have := ih found
      simp only [List.length_cons]; omega
    all_goals assumption

end CodeUnit

namespace Text

def ofUnits (units : List CodeUnit) : Text := (CodeUnit.join units).map String.ofList

/-- Quotes, backslashes and control characters are escaped, and nothing else. -/
def escape (c : Char) : List Char :=
  match c with
  | '"' => ['\\', '"']
  | '\\' => ['\\', '\\']
  | '\x08' => ['\\', 'b']
  | '\x0c' => ['\\', 'f']
  | '\n' => ['\\', 'n']
  | '\r' => ['\\', 'r']
  | '\t' => ['\\', 't']
  | c =>
    if c.toNat < 0x20 then ['\\', 'u'] ++ Hex.encodeChars [0, UInt8.ofNat c.toNat] else [c]

def chars : Text → List Char
  | some s => '"' :: s.toList.flatMap escape ++ ['"']
  | none => ['"', '\\', 'u', 'd', '8', '0', '0', '"']

end Text

/-! ## Tokens -/

namespace Token

def chars : Token → List Char
  | .openArray => ['[']
  | .closeArray => [']']
  | .openObject => ['\x7b']
  | .closeObject => ['\x7d']
  | .comma => [',']
  | .colon => [':']
  | .null => ['n', 'u', 'l', 'l']
  | .bool true => ['t', 'r', 'u', 'e']
  | .bool false => ['f', 'a', 'l', 's', 'e']
  | .number n => n.chars
  | .text t => Text.chars t

def punctuation : Char → Option Token
  | '[' => some .openArray
  | ']' => some .closeArray
  | '\x7b' => some .openObject
  | '\x7d' => some .closeObject
  | ',' => some .comma
  | ':' => some .colon
  | _ => none

def isBlank (c : Char) : Bool := c == ' ' || c == '\t' || c == '\n' || c == '\r'

def inWord (c : Char) : Bool := c.isAlphanum || c == '+' || c == '-' || c == '.'

def ofWord? (word : List Char) : Option Token :=
  match [null, bool true, bool false].find? (·.chars = word) with
  | some literal => some literal
  | none => (Number.ofChars? word).map .number

def lex : List Char → Option (List Token)
  | [] => some []
  | c :: rest =>
    if isBlank c then lex rest
    else if c = '"' then
      match _h : CodeUnit.scan rest with
      | some (units, rest) => (lex rest).map (.text (Text.ofUnits units) :: ·)
      | none => none
    else
      match punctuation c with
      | some token => (lex rest).map (token :: ·)
      | none => do
        let token ← ofWord? (c :: rest.takeWhile inWord)
        let tokens ← lex (rest.dropWhile inWord)
        return token :: tokens
termination_by cs => cs.length
decreasing_by
  · simp
  · have := CodeUnit.length_scan _h
    simp only [List.length_cons]; omega
  · simp
  · have := (List.dropWhile_suffix (l := rest) inWord).length_le
    simp only [List.length_cons]; omega

end Token

end LightClient.Json
