import LightClient.Proofs.Request

/-! Recording what is requested. A recorder passes on every request and notes it down; who
makes the requests cannot tell the difference, so the record of a run with the recorder is
what is requested without it. -/

namespace LightClient

/-- A machine with what was noted so far. -/
structure Recorded (κ σ : Type) where
  machine : σ
  notes : List κ

namespace Request

variable {κ σ τ α β : Type}

/-- Makes the request and notes it down. -/
def recording (note : κ) (request : Request σ α) : Request (Recorded κ σ) α := fun s =>
  let (answer, machine) := request s.machine
  (answer, ⟨machine, s.notes ++ [note]⟩)

/-- Makes the request, which is not of note. -/
def unnoted (request : Request σ α) : Request (Recorded κ σ) α := fun s =>
  let (answer, machine) := request s.machine
  (answer, { s with machine })

/-- Seen through `f` the one request does what the other one does. -/
def Mirrors (f : σ → τ) (x : Request σ α) (y : Request τ α) : Prop :=
  ∀ s, y (f s) = ((x s).1, f (x s).2)

section
variable {f : σ → τ}

theorem Mirrors.bind {x : Request σ α} {y : Request τ α} {g : α → Request σ β}
    {g' : α → Request τ β} (h : Mirrors f x y) (hrest : ∀ a, Mirrors f (g a) (g' a)) :
    Mirrors f (x >>= g) (y >>= g') := by
  intro s
  rw [bind_apply, bind_apply, h s]
  rcases x s with ⟨e | a, s'⟩
  · rfl
  · exact hrest a s'

theorem mirrors_ofExcept (result : Except ClientError α) :
    Mirrors f (ofExcept result) (ofExcept result) := fun _ => rfl

theorem Mirrors.observing {x : Request σ α} {y : Request τ α} (h : Mirrors f x y) :
    Mirrors f (observing x : Request σ (Except ClientError α)) (observing y) := by
  intro s
  rw [observing_apply, observing_apply, h s]

end

theorem mirrors_recording (note : κ) (x : Request σ α) :
    Mirrors Recorded.machine (recording note x) x := fun _ => rfl

theorem mirrors_unnoted (x : Request σ α) :
    Mirrors (Recorded.machine : Recorded κ σ → σ) (unnoted x) x := fun _ => rfl

end Request

end LightClient
