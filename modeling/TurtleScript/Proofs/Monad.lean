/-!
# Computations that succeed

A sequence of two steps that succeeded, taken apart and put together, for the two kinds
of computation the library has: those that only fail, and those that also change a state.
A sequence that failed did so in its first step or in its second.
-/
namespace TurtleScript

namespace Except

variable {α β ε : Type} {x : Except ε α} {f : α → Except ε β}

theorem bind_eq_ok {b : β} (h : x >>= f = .ok b) : ∃ a, x = .ok a ∧ f a = .ok b := by
  cases x with
  | error e => cases h
  | ok a => exact ⟨a, rfl, h⟩

theorem bind_ok {a : α} (h : x = .ok a) : x >>= f = f a := by
  rw [h]
  rfl

end Except

namespace EStateM

variable {α β ε σ : Type} {x : EStateM ε σ α} {f : α → EStateM ε σ β} {s s' : σ}

/-- A run from a fixed state can be computed and compared. -/
instance decEqResult [DecidableEq α] [DecidableEq ε] [DecidableEq σ] :
    DecidableEq (EStateM.Result ε σ α)
  | .ok a s, .ok b t => decidable_of_iff (a = b ∧ s = t) (by simp)
  | .error d s, .error e t => decidable_of_iff (d = e ∧ s = t) (by simp)
  | .ok .., .error .. | .error .., .ok .. => .isFalse nofun

theorem bind_apply (x : EStateM ε σ α) (f : α → EStateM ε σ β) (s : σ) :
    (x >>= f) s = match x s with
      | .ok a s => f a s
      | .error e s => .error e s := by
  change EStateM.bind x f s = _
  unfold EStateM.bind
  cases x s <;> rfl

theorem bind_ok {a : α} (h : x s = .ok a s') : (x >>= f) s = f a s' := by
  rw [bind_apply, h]

theorem bind_error {e : ε} (h : x s = .error e s') : (x >>= f) s = .error e s' := by
  rw [bind_apply, h]

theorem bind_eq_ok {b : β} (h : (x >>= f) s = .ok b s') :
    ∃ a t, x s = .ok a t ∧ f a t = .ok b s' := by
  rw [bind_apply] at h
  cases hx : x s with
  | error e t => rw [hx] at h; cases h
  | ok a t => rw [hx] at h; exact ⟨a, t, rfl, h⟩

theorem bind_eq_error {e : ε} (h : (x >>= f) s = .error e s') :
    x s = .error e s' ∨ ∃ a t, x s = .ok a t ∧ f a t = .error e s' := by
  rw [bind_apply] at h
  cases hx : x s with
  | error e' t => rw [hx] at h; cases h; exact .inl rfl
  | ok a t => rw [hx] at h; exact .inr ⟨a, t, rfl, h⟩

theorem pure_eq_ok {a b : α} (h : (pure a : EStateM ε σ α) s = .ok b s') : a = b ∧ s = s' := by
  cases h
  exact ⟨rfl, rfl⟩

theorem discard_apply (x : EStateM ε σ α) (s : σ) :
    discard x s = match x s with
      | .ok _ s => .ok () s
      | .error e s => .error e s := by
  change EStateM.map _ x s = _
  unfold EStateM.map
  cases x s <;> rfl

theorem discard_eq_ok {u : Unit} (h : discard x s = .ok u s') : ∃ a, x s = .ok a s' := by
  change EStateM.map _ x s = _ at h
  unfold EStateM.map at h
  cases hx : x s with
  | error e t => rw [hx] at h; cases h
  | ok a t => rw [hx] at h; cases h; exact ⟨a, rfl⟩

theorem map_eq_ok {g : α → β} {b : β} (h : (g <$> x) s = .ok b s') :
    ∃ a, x s = .ok a s' ∧ b = g a := by
  change EStateM.map _ x s = _ at h
  unfold EStateM.map at h
  cases hx : x s with
  | error e t => rw [hx] at h; cases h
  | ok a t => rw [hx] at h; cases h; exact ⟨a, rfl, rfl⟩

end EStateM

end TurtleScript
