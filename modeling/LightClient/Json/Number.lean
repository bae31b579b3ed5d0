/-! Numbers of a document.

A number without fraction and exponent is kept as it is. Of any other, as many
digits are kept as make a significand of 64 bits. -/

namespace LightClient.Json

inductive Number
  | whole (negative : Bool) (magnitude : Nat)
  /-- The significand times ten to the exponent. -/
  | decimal (negative : Bool) (significand : UInt64) (exponent : Int)
  deriving DecidableEq

namespace Number

/-! ## Writing -/

/-- The sign that is written. -/
def sign (negative : Bool) : List Char := if negative then ['-'] else []

def chars : Number → List Char
  | .whole negative magnitude => sign negative ++ Nat.toDigits 10 magnitude
  | .decimal negative significand exponent =>
    sign negative ++ Nat.toDigits 10 significand.toNat ++ 'e' :: sign (exponent < 0) ++
      Nat.toDigits 10 exponent.natAbs

/-! ## Reading -/

/-- A leading minus, and what follows it. -/
def signed : List Char → Bool × List Char
  | '-' :: rest => (true, rest)
  | cs => (false, cs)

/-- A leading minus or plus, and what follows it. -/
def signedEither : List Char → Bool × List Char
  | '+' :: rest => (false, rest)
  | cs => signed cs

/-- A nonempty run of digits, and what follows it. -/
def digits? (cs : List Char) : Option (List Char × List Char) :=
  match cs.takeWhile Char.isDigit with
  | [] => none
  | found => some (found, cs.dropWhile Char.isDigit)

/-- Digits before the point: a zero stands alone. -/
def whole? (cs : List Char) : Option (List Char × List Char) :=
  match cs with
  | '0' :: rest => some (['0'], rest)
  | _ => digits? cs

def fraction? (cs : List Char) : Option (List Char × List Char) :=
  match cs with
  | '.' :: rest => digits? rest
  | _ => some ([], cs)

def exponent? (cs : List Char) : Option (Int × List Char) :=
  match cs with
  | [] => some (0, [])
  | c :: rest =>
    if c = 'e' ∨ c = 'E' then do
      let (negative, rest) := signedEither rest
      let (found, rest) ← digits? rest
      let size : Int := Nat.ofDigitChars 10 found 0
      return (if negative then -size else size, rest)
    else some (0, cs)

/-- Appends digits to a significand as long as it fits 64 bits, and returns the
digits that are left. -/
def absorb (n : UInt64) : List Char → UInt64 × List Char
  | [] => (n, [])
  | c :: rest =>
    let next := 10 * n.toNat + (c.toNat - '0'.toNat)
    if next < UInt64.size then absorb (UInt64.ofNat next) rest else (n, c :: rest)

/-- The significand of the digits before and after a point, and the power of ten
that goes with it. Digits that are left before the point count as zeros; those
after the point are tried nevertheless, and are dropped from the first that does
not fit. -/
def significand (front back : List Char) : UInt64 × Int :=
  let (n, zeros) := absorb 0 front
  let (n, dropped) := absorb n back
  (n, zeros.length + dropped.length - back.length)

/-- Reads a whole word as a number. -/
def ofChars? (word : List Char) : Option Number := do
  let (negative, rest) := signed word
  let (front, rest) ← whole? rest
  if rest = [] then return .whole negative (Nat.ofDigitChars 10 front 0)
  let (back, rest) ← fraction? rest
  let (exponent, rest) ← exponent? rest
  let (n, shift) := significand front back
  if rest = [] then return .decimal negative n (shift + exponent) else none

end Number

end LightClient.Json
