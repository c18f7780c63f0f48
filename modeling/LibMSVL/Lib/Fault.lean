/-
  Programs on a memory that may stop with a fault: `StateT σ (Except ε)`.

  1. `bind_ok`, `bind_error` — a run, from the run of its first part.
  2. `ok_of_bind` — and back: a `bind` that returns has run both parts.
-/
import Mathlib.Data.List.Basic

namespace Msvl.Fault

/-- Programs over memories `σ` and faults `ε`. -/
abbrev Run (σ ε α : Type) := StateT σ (Except ε) α

variable {σ ε α β : Type}

/-! ## One step -/

@[simp] theorem pure_run (a : α) (s : σ) : (pure a : Run σ ε α) s = .ok (a, s) := rfl

@[simp] theorem get_run (s : σ) : (get : Run σ ε σ) s = .ok (s, s) := rfl

@[simp] theorem modify_run (g : σ → σ) (s : σ) : (modify g : Run σ ε PUnit) s = .ok (⟨⟩, g s) := rfl

@[simp] theorem throw_run (e : ε) (s : σ) : (throw e : Run σ ε α) s = .error e := rfl

theorem bind_run (x : Run σ ε α) (f : α → Run σ ε β) (s : σ) :
    (x >>= f) s = match x s with
      | .ok (a, t) => f a t
      | .error e => .error e := by
  cases h : x s <;> simp [bind, StateT.bind, Except.bind, h]

theorem bind_ok {x : Run σ ε α} {f : α → Run σ ε β} {s t : σ} {a : α} (h : x s = .ok (a, t)) :
    (x >>= f) s = f a t := by rw [bind_run, h]

theorem bind_error {x : Run σ ε α} {f : α → Run σ ε β} {s : σ} {e : ε} (h : x s = .error e) :
    (x >>= f) s = .error e := by rw [bind_run, h]

/-- A run that returns has run its first part. -/
theorem ok_of_bind {x : Run σ ε α} {f : α → Run σ ε β} {s u : σ} {b : β}
    (h : (x >>= f) s = .ok (b, u)) : ∃ a t, x s = .ok (a, t) ∧ f a t = .ok (b, u) := by
  rw [bind_run] at h
  split at h
  · next a t hx => exact ⟨a, t, hx, h⟩
  · cases h

end Msvl.Fault
