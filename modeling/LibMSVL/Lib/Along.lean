/-
  Logs that are judged entry by entry, in the light of what stands before.

  1. `Along C log` — every entry of `log` meets `C`, a condition that sees the older entries.
  2. `Obeys C past m` — the program guarantees it: where `past` has been logged, `m` adds only
     entries that meet `C`.  A program that has just taken a step may use that it is in the past
     (`Obeys.act_bind`).
-/
import LibMSVL.Lib.Prog

namespace Msvl.Run

variable {σ ι τ ε α β : Type}

/-! ## Conditions on logs -/

/-- Every entry meets `C`, which sees the older ones. -/
def Along (C : List (ι × σ) → ι → σ → Prop) : List (ι × σ) → Prop
  | [] => True
  | (l, s) :: log => Along C log ∧ C log l s

instance Along.decidable (C : List (ι × σ) → ι → σ → Prop) [∀ log l s, Decidable (C log l s)] :
    ∀ log, Decidable (Along C log)
  | [] => .isTrue trivial
  | (_, _) :: log =>
    have := Along.decidable C log
    inferInstanceAs (Decidable (_ ∧ _))

variable {C : List (ι × σ) → ι → σ → Prop}

theorem Along.suffix {log log' : List (ι × σ)} (h : log <:+ log') (hlog : Along C log') :
    Along C log := by
  obtain ⟨newer, rfl⟩ := h
  induction newer with
  | nil => exact hlog
  | cons e newer ih => exact ih hlog.1

/-- What is said of an entry, and of the log before it. -/
theorem Along.split {newer older : List (ι × σ)} {l : ι} {s : σ}
    (h : Along C (newer ++ (l, s) :: older)) : Along C older ∧ C older l s :=
  Along.suffix ⟨newer, rfl⟩ h

theorem along_iff {log : List (ι × σ)} :
    Along C log ↔ ∀ older l s, (l, s) :: older <:+ log → C older l s := by
  constructor
  · rintro h older l s ⟨newer, rfl⟩
    exact h.split.2
  · intro h
    induction log with
    | nil => trivial
    | cons e log ih =>
      refine ⟨ih fun older l s hsuf => ?_, h log e.1 e.2 (List.suffix_refl _)⟩
      exact h older l s (hsuf.trans (List.suffix_cons e log))

/-! ## Guarantees -/

/-- Once `past` has been logged, `m` adds only entries that meet `C`. -/
def Obeys (C : List (ι × σ) → ι → σ → Prop) (past : List (ι × σ)) (m : Prog σ ι τ ε α) : Prop :=
  ∀ w : World σ ι τ, past <:+ w.log →
    w.log <:+ (m w).2.log ∧ (Along C w.log → Along C (m w).2.log)

variable {step : ι → σ → σ} {past : List (ι × σ)} {m : Prog σ ι τ ε α} {f : α → Prog σ ι τ ε β}

theorem Obeys.pure (a : α) : Obeys C past (Pure.pure a : Prog σ ι τ ε α) :=
  fun _ _ => ⟨List.suffix_refl _, id⟩

theorem Obeys.stop (e : ε) : Obeys C past (Prog.stop e : Prog σ ι τ ε α) :=
  fun _ _ => ⟨List.suffix_refl _, id⟩

theorem Obeys.get {f : σ → Prog σ ι τ ε β} (h : ∀ s, Obeys C past (f s)) :
    Obeys C past (Prog.get >>= f) := fun w hw => h w.st w hw

theorem Obeys.read {e : ε} {f : τ → Prog σ ι τ ε β} (h : ∀ x, Obeys C past (f x)) :
    Obeys C past (Prog.read e >>= f) := by
  rintro ⟨st, input, log⟩ hw
  cases input with
  | nil => exact ⟨List.suffix_refl _, id⟩
  | cons x l => exact h x ⟨st, l, log⟩ hw

theorem Obeys.act {l : ι} (hl : ∀ log s, past <:+ log → C log l s) :
    Obeys C past (Prog.act step l : Prog σ ι τ ε Unit) :=
  fun w hw => ⟨List.suffix_cons _ _, fun h => ⟨h, hl w.log w.st hw⟩⟩

theorem Obeys.bind (hm : Obeys C past m) (hf : ∀ a, Obeys C past (f a)) :
    Obeys C past (m >>= f) := by
  intro w hw
  obtain ⟨hgrow, hm⟩ := hm w hw
  show w.log <:+ (Prog.bind m f w).2.log ∧ (Along C w.log → Along C (Prog.bind m f w).2.log)
  unfold Prog.bind
  rcases hmw : m w with ⟨r, w'⟩
  rw [hmw] at hgrow hm
  cases r with
  | error e => exact ⟨hgrow, hm⟩
  | ok a =>
    obtain ⟨hgrow', hf⟩ := hf a w' (hw.trans hgrow)
    exact ⟨hgrow.trans hgrow', fun h => hf (hm h)⟩

/-- A step, and the rest, for which the step is past. -/
theorem Obeys.act_bind {l : ι} {f : Unit → Prog σ ι τ ε β}
    (hl : ∀ log s, past <:+ log → C log l s)
    (hf : ∀ log s, past <:+ log → Obeys C ((l, s) :: log) (f ())) :
    Obeys C past (Prog.act step l >>= f) := by
  intro w hw
  obtain ⟨hgrow, hrest⟩ := hf w.log w.st hw ⟨step l w.st, w.input, (l, w.st) :: w.log⟩
    (List.suffix_refl _)
  exact ⟨(List.suffix_cons _ _).trans hgrow, fun h => hrest ⟨h, hl w.log w.st hw⟩⟩

theorem Obeys.ite {c : Prop} [Decidable c] {m' : Prog σ ι τ ε α} (h : Obeys C past m)
    (h' : Obeys C past m') : Obeys C past (if c then m else m') := by
  split
  · exact h
  · exact h'

/-- A program whose steps meet `C` in any case. -/
theorem Obeys.of_spec {G : ι → σ → Prop} {E : ε → Prop} {Q : σ → α → σ → Prop}
    (hm : ∀ s, Spec step G E m s (Q s)) (hG : ∀ l s log, G l s → C log l s) :
    Obeys C past m := by
  intro w _
  obtain ⟨⟨es, hlog, htr⟩, -⟩ := hm w.st w rfl
  rw [hlog]
  refine ⟨⟨es, rfl⟩, fun h => ?_⟩
  clear hlog
  generalize (m w).2.st = t at htr
  induction htr with
  | nil => exact h
  | snoc _ hl ih => exact ⟨ih, hG _ _ _ hl⟩

end Msvl.Run
