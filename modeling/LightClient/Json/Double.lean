import LightClient.Json.Number

/-! The range of double precision: which numbers of a document it can hold.

The value is computed as a product in double precision, of the significand and a
power of ten. Each factor and the product are rounded, so a number near the end
of the range may leave it although its exact value does not, or the reverse. -/

namespace LightClient.Json

namespace Double

/-- The distance of the numbers with 53 significant bits around `n`. -/
def unit (n : Nat) : Nat := 1 <<< (n.log2 - 52)

/-- The nearest number with 53 significant bits, and of two the even one. -/
def nearest (n : Nat) : Nat :=
  let q := n / unit n
  let r := n % unit n
  if 2 * r < unit n ∨ 2 * r = unit n ∧ q % 2 = 0 then q * unit n else (q + 1) * unit n

/-- The least number that rounds to infinity: halfway from the greatest double to
the next power of two. -/
def overflow : Nat := 1 <<< 1024 - 1 <<< 970

/-- Whether a significand times a power of ten is finite. Powers of ten are taken
only as far as they decide. -/
def holds (significand : UInt64) (exponent : Int) : Bool :=
  exponent < 0 || significand = 0 ||
    exponent ≤ 308 &&
      nearest significand.toNat * nearest (Nat.pow 10 exponent.toNat) < overflow

/-- A number moves by at most half a unit. -/
theorem nearest_close (n : Nat) :
    2 * nearest n ≤ 2 * n + unit n ∧ 2 * n ≤ 2 * nearest n + unit n := by
  have parts : unit n * (n / unit n) + n % unit n = n := Nat.div_add_mod n (unit n)
  have small : n % unit n < unit n :=
    Nat.mod_lt n (by rw [unit, Nat.shiftLeft_eq]; exact Nat.mul_pos Nat.one_pos (Nat.two_pow_pos _))
  have up : (n / unit n + 1) * unit n = unit n * (n / unit n) + unit n := by
    rw [Nat.add_mul, Nat.one_mul, Nat.mul_comm]
  have down : n / unit n * unit n = unit n * (n / unit n) := Nat.mul_comm _ _
  simp only [nearest]
  split
  · rw [down]; omega
  · rw [up]; omega

/-- A number that has 53 bits stays. -/
theorem nearest_of_log2_le {n : Nat} (h : n.log2 ≤ 52) : nearest n = n := by
  have one : unit n = 1 := by rw [unit, Nat.sub_eq_zero_of_le h]; rfl
  simp [nearest, one, Nat.mod_one]

end Double

/-- Whether double precision can hold a number. -/
def Number.isFinite : Number → Bool
  | .whole _ n =>
    let (n, exponent) := significand (Nat.toDigits 10 n) []
    Double.holds n exponent
  | .decimal _ n exponent => Double.holds n exponent

end LightClient.Json
