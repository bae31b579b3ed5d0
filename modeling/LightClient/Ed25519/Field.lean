/-! Arithmetic modulo the prime 2^255 - 19, on numbers below it. -/

namespace LightClient.Ed25519

/-- The field prime. -/
def prime : Nat := 1 <<< 255 - 19

namespace Field

def add (a b : Nat) : Nat := (a + b) % prime

def sub (a b : Nat) : Nat := (a + (prime - b)) % prime

def mul (a b : Nat) : Nat := a * b % prime

def neg (a : Nat) : Nat := (prime - a) % prime

/-- The low `n` bits of a number, most significant first. -/
def bits (n k : Nat) : List Bool := (List.range n).reverse.map k.testBit

def pow (a k : Nat) : Nat :=
  (bits (k.log2 + 1) k).foldl
    (fun r bit => if bit then mul (mul r r) a else mul r r) 1

def inv (a : Nat) : Nat := pow a (prime - 2)

/-- A square root of minus one. -/
def imaginary : Nat := pow 2 ((prime - 1) / 4)

/-- The even square root of `u / v`, where there is one. -/
def sqrtRatio (u v : Nat) : Option Nat :=
  let v3 := mul (mul v v) v
  let v7 := mul (mul v3 v3) v
  let r := mul (mul u v3) (pow (mul u v7) ((prime - 5) / 8))
  let check := mul v (mul r r)
  let even (x : Nat) := if x % 2 = 0 then x else neg x
  if check = u then some (even r)
  else if check = neg u then some (even (mul r imaginary))
  else none

end Field

end LightClient.Ed25519
