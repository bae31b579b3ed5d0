import LightClient.Machine.Guard
import LightClient.Proofs.Except

/-! A guarded step within its bounds gives what the step without guards gives, and a
guarded computation whose steps are within their bounds is one that cannot trap. -/

namespace LightClient.Machine

/-! ## Arithmetic -/

section
variable {width a b amount : Nat}

theorem add_of_lt (h : a + b < 1 <<< width) : add width a b = .ok (a + b) := if_pos h

theorem mul_of_lt (h : a * b < 1 <<< width) : mul width a b = .ok (a * b) := if_pos h

theorem sub_of_le (h : b ≤ a) : sub a b = .ok (a - b) := if_pos h

theorem shiftRight_of_lt (h : amount < width) :
    shiftRight width a amount = .ok (a >>> amount) := if_pos h

theorem shiftLeft_of_lt (h : amount < width) :
    shiftLeft width a amount = .ok ((a <<< amount) % (1 <<< width)) := if_pos h

end

/-! ## Access -/

section
variable {α : Type} {xs : List α} {i start stop : Nat}

theorem get_of_getElem? {x : α} (h : xs[i]? = some x) : get xs i = .ok x := by
  rw [get, h]

theorem set_of_lt {x : α} (h : i < xs.length) : set xs i x = .ok (xs.set i x) := if_pos h

theorem slice_of_le (hstart : start ≤ stop) (hstop : stop ≤ xs.length) :
    slice xs start stop = .ok ((xs.take stop).drop start) := if_pos ⟨hstart, hstop⟩

theorem overwrite_of_le {source : List α} (hstop : stop ≤ xs.length)
    (hlength : start + source.length = stop) :
    overwrite xs start stop source = .ok (xs.take start ++ source ++ xs.drop stop) := by
  rw [overwrite, if_pos ⟨by omega, hstop⟩, if_pos (by omega)]

@[simp] theorem pop_concat (x : α) : pop (xs ++ [x]) = some (x, xs) := by
  simp [pop]

theorem copy_toList {n : Nat} (bytes : FixedBytes n) : copy n bytes.toList = .ok bytes :=
  dif_pos bytes.length_toList

end

/-! ## Sequences of steps -/

section
variable {α β : Type}

@[simp] theorem ok_bind (a : α) (f : α → Step β) : (Except.ok a : Step α) >>= f = f a := rfl

@[simp] theorem map_ok (f : α → β) (a : α) : f <$> (Except.ok a : Step α) = .ok (f a) := rfl

/-- A list of steps none of which traps. -/
theorem mapM_of_ok {f : α → Step β} {g : α → β} {xs : List α} (h : ∀ x ∈ xs, f x = .ok (g x)) :
    xs.mapM f = .ok (xs.map g) := by
  rw [mapM_eq_ok, List.map_map]
  exact List.map_congr_left h

/-- A step within its bounds hands on its value, however few may follow. -/
theorem Run.lift_bind {step : Step α} {a : α} (h : step = .ok a) (f : α → Run β) :
    (liftM step : Run α) >>= f = f a := by
  subst h
  rfl

end

/-! ## Guarded computations -/

namespace Guarded
variable {ε ε' α β γ : Type}

/-- A step within its bounds hands on its value. -/
theorem lift_bind {step : Step α} {a : α} (h : step = .ok a) (f : α → Guarded ε β) :
    (liftM step : Guarded ε α) >>= f = f a := by
  subst h
  rfl

/-- Two computations that cannot trap, one after the other. -/
theorem bind_eq_of {x : Guarded ε α} {f : α → Guarded ε β} {result : Except ε α}
    {g : α → Except ε β} (hx : x = of result) (hf : ∀ a, result = .ok a → f a = of (g a)) :
    x >>= f = of (result >>= g) := by
  subst hx
  cases result with
  | error e => rfl
  | ok a => exact hf a rfl

theorem mapError_of (f : ε → ε') (result : Except ε α) :
    (of result).mapError f = of (result.mapError f) := rfl

theorem map_id' (x : Guarded ε α) : id <$> x = x := by
  rcases x with ⟨trap | e | a⟩ <;> rfl

theorem bind_assoc' (x : Guarded ε α) (f : α → Guarded ε β) (g : β → Guarded ε γ) :
    x >>= f >>= g = x >>= fun a => f a >>= g := by
  rcases x with ⟨trap | e | a⟩ <;> rfl

instance : LawfulMonad (Guarded ε) :=
  LawfulMonad.mk' (Guarded ε) map_id' (fun _ _ => rfl) bind_assoc'

/-- A list of computations none of which traps. -/
theorem mapM_eq_of {f : α → Guarded ε β} {g : α → Except ε β} {xs : List α}
    (h : ∀ x ∈ xs, f x = of (g x)) : xs.mapM f = of (xs.mapM g) := by
  induction xs with
  | nil => rfl
  | cons x xs ih =>
    rw [List.mapM_cons, List.mapM_cons]
    refine bind_eq_of (h x List.mem_cons_self) fun y _ => ?_
    refine bind_eq_of (ih fun x' hx' => h x' (List.mem_cons_of_mem _ hx')) fun ys _ => ?_
    rfl

end Guarded

end LightClient.Machine
