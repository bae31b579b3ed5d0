import LightClient.Bytes

/-! Arithmetic and access as a machine does them: numbers have a width, and an
index, a range, a shift or a difference can be out of its bounds. Such a step has
no result but a trap, which ends the whole computation. A guarded computation so
ends in a value, in an error of its own, or in a trap. -/

namespace LightClient.Machine

inductive Trap
  | overflow (width : Nat)
  | underflow
  | shift (amount width : Nat)
  | index (i size : Nat)
  | slice (start stop size : Nat)
  /-- A copy between ranges of different lengths. -/
  | copy (source target : Nat)
  /-- A position whose key is set past its bits. -/
  | looseKey
  /-- A sort by a comparison that is no total order. -/
  | disorder
  deriving DecidableEq

abbrev Step (α : Type) := Except Trap α

/-- Steps of which only so many are made: no result, not even a trap, if more are needed. -/
abbrev Run (α : Type) := ExceptT Trap Option α

/-- The bound on the steps is reached before their end. -/
def Run.unfinished {α : Type} : Run α := .mk none

structure Guarded (ε α : Type) where
  run : Step (Except ε α)

namespace Guarded
variable {ε ε' α β : Type}

/-- A computation that cannot trap. -/
def of (result : Except ε α) : Guarded ε α := ⟨.ok result⟩

def fail (e : ε) : Guarded ε α := of (.error e)

/-- The first error or trap ends the computation. -/
protected def bind (x : Guarded ε α) (f : α → Guarded ε β) : Guarded ε β where
  run := do
    match ← x.run with
    | .ok a => (f a).run
    | .error e => return .error e

instance : Monad (Guarded ε) where
  pure a := of (.ok a)
  bind := Guarded.bind

instance : MonadLift Step (Guarded ε) := ⟨fun step => ⟨step.map .ok⟩⟩

def mapError (f : ε → ε') (x : Guarded ε α) : Guarded ε' α := ⟨x.run.map (·.mapError f)⟩

end Guarded

/-! ## Arithmetic -/

def add (width a b : Nat) : Step Nat :=
  if a + b < 1 <<< width then .ok (a + b) else .error (.overflow width)

def mul (width a b : Nat) : Step Nat :=
  if a * b < 1 <<< width then .ok (a * b) else .error (.overflow width)

def sub (a b : Nat) : Step Nat := if b ≤ a then .ok (a - b) else .error .underflow

/-- A shift to the right by less than the width. -/
def shiftRight (width a amount : Nat) : Step Nat :=
  if amount < width then .ok (a >>> amount) else .error (.shift amount width)

/-- A shift to the left by less than the width; what leaves it is lost. -/
def shiftLeft (width a amount : Nat) : Step Nat :=
  if amount < width then .ok ((a <<< amount) % (1 <<< width)) else .error (.shift amount width)

/-! ## Access -/

section
variable {α : Type} {xs : List α}

def get (xs : List α) (i : Nat) : Step α :=
  match xs[i]? with
  | some x => .ok x
  | none => .error (.index i xs.length)

def set (xs : List α) (i : Nat) (x : α) : Step (List α) :=
  if i < xs.length then .ok (xs.set i x) else .error (.index i xs.length)

/-- The elements from `start` up to `stop`. -/
def slice (xs : List α) (start stop : Nat) : Step (List α) :=
  if start ≤ stop ∧ stop ≤ xs.length then .ok ((xs.take stop).drop start)
  else .error (.slice start stop xs.length)

/-- Puts `source` in the place of the elements from `start` up to `stop`. -/
def overwrite (xs : List α) (start stop : Nat) (source : List α) : Step (List α) :=
  if start ≤ stop ∧ stop ≤ xs.length then
    if source.length = stop - start then .ok (xs.take start ++ source ++ xs.drop stop)
    else .error (.copy source.length (stop - start))
  else .error (.slice start stop xs.length)

/-- The last element and those before it. -/
def pop (xs : List α) : Option (α × List α) := xs.getLast?.map fun x => (x, xs.dropLast)

theorem eq_nil_of_pop (h : pop xs = none) : xs = [] :=
  List.getLast?_eq_none_iff.mp (Option.map_eq_none_iff.mp h)

theorem length_of_pop {x : α} {rest : List α} (h : pop xs = some (x, rest)) :
    xs.length = rest.length + 1 := by
  obtain ⟨last, hlast, heq⟩ := Option.map_eq_some_iff.mp h
  cases heq
  obtain ⟨front, rfl⟩ := List.getLast?_eq_some_iff.mp hlast
  simp

end

/-- A copy into an array of `n` bytes. -/
def copy (n : Nat) (source : Bytes) : Step (FixedBytes n) :=
  if h : source.length = n then .ok ⟨source, h⟩ else .error (.copy source.length n)

end LightClient.Machine
