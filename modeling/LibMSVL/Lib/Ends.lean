/-
  How a program ends: what it returns, or with which error it stops, from one world.

  A loop with a bound stops with an error of its own when the bound is too small.  To show that it
  does not, the bound is compared with counts of what the log tells: each round adds something
  to the log, and the counts never fall.  So the error is not excluded in advance; what is
  shown is that a run which stops there has a log long enough to account for the bound.

  1. `Ends m w T F` — from `w`, `m` returns with `T` or stops with `F`; one rule for each way to
     build a program.
  2. `Spec.ends` — the log grows by a guarded trace, however the program ends.
-/
import LibMSVL.Lib.Prog

namespace Msvl.Run

variable {σ ι τ ε α β : Type} {step : ι → σ → σ}

/-- From `w`, `m` returns with `T`, or stops with `F`. -/
def Ends (m : Prog σ ι τ ε α) (w : World σ ι τ) (T : α → World σ ι τ → Prop)
    (F : ε → World σ ι τ → Prop) : Prop :=
  match (m w).1 with
  | .ok a => T a (m w).2
  | .error e => F e (m w).2

variable {m : Prog σ ι τ ε α} {f : α → Prog σ ι τ ε β} {w : World σ ι τ}
  {T T' : α → World σ ι τ → Prop} {U : β → World σ ι τ → Prop} {F F' : ε → World σ ι τ → Prop}

theorem Ends.pure {a : α} (h : T a w) : Ends (Pure.pure a : Prog σ ι τ ε α) w T F := h

theorem Ends.stop {e : ε} (h : F e w) : Ends (Prog.stop e : Prog σ ι τ ε α) w T F := h

theorem Ends.get {f : σ → Prog σ ι τ ε β} (h : Ends (f w.st) w U F) :
    Ends (Prog.get >>= f) w U F := h

theorem Ends.act_bind {l : ι} {f : Unit → Prog σ ι τ ε β}
    (h : Ends (f ()) ⟨step l w.st, w.input, (l, w.st) :: w.log⟩ U F) :
    Ends (Prog.act step l >>= f) w U F := h

/-- Reading the input: its first item, or none. -/
theorem Ends.read {e : ε} {f : τ → Prog σ ι τ ε β} (he : w.input = [] → F e w)
    (h : ∀ x l, w.input = x :: l → Ends (f x) { w with input := l } U F) :
    Ends (Prog.read e >>= f) w U F := by
  obtain ⟨s, input, log⟩ := w
  cases input with
  | nil => exact he rfl
  | cons x l => exact h x l rfl

theorem Ends.bind (hm : Ends m w T F) (hf : ∀ a w', T a w' → Ends (f a) w' U F) :
    Ends (m >>= f) w U F := by
  unfold Ends at hm
  show match (Prog.bind m f w).1 with
    | .ok b => U b (Prog.bind m f w).2
    | .error e => F e (Prog.bind m f w).2
  unfold Prog.bind
  rcases heq : m w with ⟨r, w'⟩
  rw [heq] at hm
  cases r with
  | error e => exact hm
  | ok a => exact hf a w' hm

theorem Ends.imp (h : Ends m w T F) (hT : ∀ a w', T a w' → T' a w')
    (hF : ∀ e w', F e w' → F' e w') : Ends m w T' F' := by
  unfold Ends at h ⊢
  rcases hr : (m w).1 with e | a
  · rw [hr] at h
    exact hF e _ h
  · rw [hr] at h
    exact hT a _ h

/-- A program ends in one way. -/
theorem Ends.both (h : Ends m w T F) (h' : Ends m w T' F') :
    Ends m w (fun a w' => T a w' ∧ T' a w') fun e w' => F e w' ∧ F' e w' := by
  unfold Ends at h h' ⊢
  rcases hr : (m w).1 with e | a
  · rw [hr] at h h'
    exact ⟨h, h'⟩
  · rw [hr] at h h'
    exact ⟨h, h'⟩

/-- What is specified, together with the way to the world in which the program ends. -/
theorem Spec.ends {G : ι → σ → Prop} {E : ε → Prop} {Q : α → σ → Prop}
    (hm : Spec step G E m w.st Q) :
    Ends m w
      (fun a w' => (∃ es, w'.log = es ++ w.log ∧ Trace step G w.st es w'.st) ∧ Q a w'.st)
      fun _ w' => ∃ es, w'.log = es ++ w.log ∧ Trace step G w.st es w'.st := by
  obtain ⟨htr, hres⟩ := hm w rfl
  unfold Ends
  rcases hr : (m w).1 with e | a
  · exact htr
  · rw [hr] at hres
    exact ⟨htr, hres⟩

end Msvl.Run
