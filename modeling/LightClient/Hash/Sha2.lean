import LightClient.Bytes

/-! The SHA-2 construction over any word type. A message is padded to whole
blocks of sixteen words; each block is stirred into eight chaining words by
one round per constant. `length_digest` gives the length of the result. -/

namespace LightClient.Sha2

/-- What tells one member of the SHA-2 family from another. -/
structure Family (w : Type) where
  wordBytes : Nat
  ofNat : Nat → w
  toNat : w → Nat
  /-- The mixing functions of the working variables. -/
  stirA : w → w
  stirE : w → w
  /-- The mixing functions of the message schedule. -/
  expand1 : w → w
  expand14 : w → w
  constants : List w

/-- The eight chaining words. -/
structure State (w : Type) where
  a : w
  b : w
  c : w
  d : w
  e : w
  f : w
  g : w
  h : w

def State.words {w : Type} (s : State w) : List w := [s.a, s.b, s.c, s.d, s.e, s.f, s.g, s.h]

section
variable {w : Type} [Add w] [AndOp w] [XorOp w] [Complement w]

@[specialize] def State.add (s t : State w) : State w :=
  ⟨s.a + t.a, s.b + t.b, s.c + t.c, s.d + t.d, s.e + t.e, s.f + t.f, s.g + t.g, s.h + t.h⟩

namespace Family
variable (F : Family w)

@[specialize] def round (s : State w) (k m : w) : State w :=
  let choose := (s.e &&& s.f) ^^^ (~~~ s.e &&& s.g)
  let majority := (s.a &&& s.b) ^^^ (s.a &&& s.c) ^^^ (s.b &&& s.c)
  let t := s.h + F.stirE s.e + choose + k + m
  ⟨t + F.stirA s.a + majority, s.a, s.b, s.c, s.d + t, s.e, s.f, s.g⟩

/-- The schedule is kept as a window of the next sixteen words. -/
def nextWord (window : List w) : w :=
  let at' (i : Nat) : w := window.getD i (F.ofNat 0)
  at' 0 + F.expand1 (at' 1) + at' 9 + F.expand14 (at' 14)

@[specialize] def rounds : List w → List w → State w → State w
  | k :: ks, m :: window, s =>
    rounds ks (window ++ [F.nextWord (m :: window)]) (F.round s k m)
  | _, _, s => s

/-- `n` words, most significant byte first. -/
def words : Nat → Bytes → List w
  | 0, _ => []
  | n + 1, bytes =>
    F.ofNat (ofLittle (bytes.take F.wordBytes).reverse) :: words n (bytes.drop F.wordBytes)

def compress (s : State w) (block : Bytes) : State w :=
  s.add (F.rounds F.constants (F.words 16 block) s)

def absorb : Nat → Bytes → State w → State w
  | 0, _, s => s
  | n + 1, bytes, s => absorb n (bytes.drop (16 * F.wordBytes)) (F.compress s bytes)

/-- One bit, zeros, and the bit length in two words fill the last block. -/
def padding (length : Nat) : Bytes :=
  let block := 16 * F.wordBytes
  let used := (length + 1 + 2 * F.wordBytes) % block
  0x80 :: List.replicate ((block - used) % block) 0 ++
    (little (2 * F.wordBytes) (8 * length)).reverse

def output (s : State w) : Bytes :=
  s.words.flatMap fun word => (little F.wordBytes (F.toNat word)).reverse

def digest (initial : State w) (bytes : Bytes) : Bytes :=
  let padded := bytes ++ F.padding bytes.length
  F.output (F.absorb (padded.length / (16 * F.wordBytes)) padded initial)

omit [Add w] [AndOp w] [XorOp w] [Complement w] in
theorem length_output (s : State w) : (F.output s).length = 8 * F.wordBytes := by
  simp [output, State.words]; omega

theorem length_digest (initial : State w) (bytes : Bytes) :
    (F.digest initial bytes).length = 8 * F.wordBytes :=
  F.length_output _

end Family
end

end LightClient.Sha2
