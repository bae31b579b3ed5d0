import LightClient.Bytes
import LightClient.Ed25519.Field

/-! Points of the twisted Edwards curve -x² + y² = 1 + d x² y², in extended
coordinates (x = X/Z, y = Y/Z, XY = ZT), and their 32-byte form. -/

namespace LightClient.Ed25519

open LightClient.Ed25519.Field

structure Point where
  x : Nat
  y : Nat
  z : Nat
  t : Nat

/-- The curve constant -121665 / 121666. -/
def curveD : Nat := mul (prime - 121665) (inv 121666)

namespace Point

def identity : Point := ⟨0, 1, 1, 0⟩

def ofAffine (x y : Nat) : Point := ⟨x, y, 1, mul x y⟩

/-- The generator of the prime-order subgroup. -/
def base : Point :=
  ofAffine 15112221349535400772501151409588531511454012693041857206046113283949847762202
    46316835694926478169428394003475163141307993866256225615783033603165251855960

/-- The addition law has no exceptions: `curveD` is no square. -/
def add (p q : Point) : Point :=
  let a := mul (sub p.y p.x) (sub q.y q.x)
  let b := mul (Field.add p.y p.x) (Field.add q.y q.x)
  let c := mul (mul p.t (mul 2 curveD)) q.t
  let d := mul (mul 2 p.z) q.z
  let e := sub b a
  let f := sub d c
  let g := Field.add d c
  let h := Field.add b a
  ⟨mul e f, mul g h, mul f g, mul e h⟩

def double (p : Point) : Point :=
  let a := mul p.x p.x
  let b := mul p.y p.y
  let c := mul 2 (mul p.z p.z)
  let h := Field.add a b
  let xy := Field.add p.x p.y
  let e := sub h (mul xy xy)
  let g := sub a b
  let f := Field.add c g
  ⟨mul e f, mul g h, mul f g, mul e h⟩

def neg (p : Point) : Point := ⟨Field.neg p.x, p.y, p.z, Field.neg p.t⟩

/-- `j` times `p` plus `k` times `q`, for multipliers below 2^256. -/
def combine (j : Nat) (p : Point) (k : Nat) (q : Point) : Point :=
  let both := p.add q
  (List.zip (bits 256 j) (bits 256 k)).foldl
    (fun r pair =>
      match pair with
      | (true, true) => r.double.add both
      | (true, false) => r.double.add p
      | (false, true) => r.double.add q
      | (false, false) => r.double)
    identity

def times (k : Nat) (p : Point) : Point :=
  (bits 256 k).foldl (fun r bit => if bit then r.double.add p else r.double) identity

/-- The y coordinate in 255 bits, then the parity of x. -/
def encode (p : Point) : FixedBytes 32 :=
  let w := inv p.z
  let x := mul p.x w
  let y := mul p.y w
  ⟨little 32 (y + (x % 2) <<< 255), length_little _ _⟩

/-- The point with the given form. The y coordinate counts modulo the prime,
and either sign goes with x = 0. -/
def decode? (bytes : FixedBytes 32) : Option Point :=
  let n := ofLittle bytes.toList
  let y := n % (1 <<< 255) % prime
  let y2 := mul y y
  (sqrtRatio (sub y2 1) (Field.add (mul curveD y2) 1)).map fun x =>
    ofAffine (if n.testBit 255 then Field.neg x else x) y

end Point

end LightClient.Ed25519
