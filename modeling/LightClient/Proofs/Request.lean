import LightClient.Node
import LightClient.Proofs.Except

/-! What a request does to a machine, one request at a time. -/

namespace LightClient.Request

variable {σ α β : Type}

/-- The machine moves on to the second request only if the first one succeeds. -/
theorem bind_apply (x : Request σ α) (f : α → Request σ β) (s : σ) :
    (x >>= f) s =
      match x s with
      | (.ok a, s') => f a s'
      | (.error e, s') => (.error e, s') := by
  rcases h : x s with ⟨e | a, s'⟩
  · simp only [bind, ExceptT.bind, ExceptT.mk, ExceptT.bindCont, StateT.bind, h]
    rfl
  · simp only [bind, ExceptT.bind, ExceptT.mk, ExceptT.bindCont, StateT.bind, h]

theorem bind_of_ok {x : Request σ α} {f : α → Request σ β} {s s' : σ} {a : α}
    (h : x s = (.ok a, s')) : (x >>= f) s = f a s' := by
  rw [bind_apply, h]

theorem bind_of_error {x : Request σ α} {f : α → Request σ β} {s s' : σ} {e : ClientError}
    (h : x s = (.error e, s')) : (x >>= f) s = (.error e, s') := by
  rw [bind_apply, h]

/-- A sequence of two requests succeeds when both of them do. -/
theorem bind_fst_eq_ok {x : Request σ α} {f : α → Request σ β} {s : σ} {b : β} :
    ((x >>= f) s).1 = .ok b ↔ ∃ a, (x s).1 = .ok a ∧ (f a (x s).2).1 = .ok b := by
  rw [bind_apply]
  rcases x s with ⟨e | a, s'⟩
  · simp
  · simp

/-- The machine moves on from where the first request failed. -/
theorem tryCatch_apply (x : Request σ α) (handle : ClientError → Request σ α) (s : σ) :
    (tryCatch x handle : Request σ α) s =
      match x s with
      | (.ok a, s') => (.ok a, s')
      | (.error e, s') => handle e s' := by
  rcases h : x s with ⟨e | a, s'⟩
  · simp only [tryCatch, tryCatchThe, MonadExceptOf.tryCatch, ExceptT.tryCatch, ExceptT.mk, bind,
      StateT.bind, h]
  · simp only [tryCatch, tryCatchThe, MonadExceptOf.tryCatch, ExceptT.tryCatch, ExceptT.mk, bind,
      StateT.bind, h]
    rfl

/-- A failure that is observed is an answer. -/
theorem observing_apply (x : Request σ α) (s : σ) :
    (observing x : Request σ (Except ClientError α)) s = (.ok (x s).1, (x s).2) := by
  rw [observing, tryCatch_apply, bind_apply]
  rcases x s with ⟨e | a, s'⟩
  · rfl
  · rfl

@[simp] theorem pure_apply (a : α) (s : σ) : (pure a : Request σ α) s = (.ok a, s) := rfl

@[simp] theorem get_apply (s : σ) : (get : Request σ σ) s = (.ok s, s) := rfl

@[simp] theorem set_apply (s s' : σ) : (set s' : Request σ Unit) s = (.ok (), s') := rfl

@[simp] theorem modify_apply (f : σ → σ) (s : σ) :
    (modify f : Request σ Unit) s = (.ok (), f s) := rfl

@[simp] theorem ofState_apply (answer : σ → Except ClientError α) (s : σ) :
    ofState answer s = (answer s, s) := rfl

@[simp] theorem ofExcept_apply (result : Except ClientError α) (s : σ) :
    ofExcept result s = (result, s) := rfl

end LightClient.Request
