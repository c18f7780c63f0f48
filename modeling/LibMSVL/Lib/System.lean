/-
  Labelled transition systems and their invariants.

  A `System` has initial states and labelled steps.  `ReachableBy C` are the states of the runs all
  of whose steps satisfy `C` (a condition on the state before the step and on its label); plain
  reachability is the case `C = always`.

  * `ReachableBy.mono` — a weaker condition reaches more;
  * `ReachableBy.invariant` — the induction over runs, packaged once.

  A `History` is a run in which every round ends with a check, a call that returns a value.
-/
import Mathlib.Data.List.Basic

namespace Msvl.Trans

variable {σ α : Type}

/-- Initial states and labelled steps. -/
structure System (σ α : Type) where
  init : σ → Prop
  step : σ → α → σ → Prop

/-- The states of the runs of `S` whose steps all satisfy `C`. -/
inductive ReachableBy (S : System σ α) (C : σ → α → Prop) : σ → Prop
  | start {s : σ} : S.init s → ReachableBy S C s
  | next {s t : σ} {a : α} : ReachableBy S C s → C s a → S.step s a t → ReachableBy S C t

/-- No condition. -/
def always (_ : σ) (_ : α) : Prop := True

/-- All states of all runs. -/
abbrev Reachable (S : System σ α) : σ → Prop := ReachableBy S always

variable {S : System σ α} {C D : σ → α → Prop}

theorem ReachableBy.mono (hCD : ∀ s a, C s a → D s a) {s : σ} (h : ReachableBy S C s) :
    ReachableBy S D s := by
  induction h with
  | start h0 => exact .start h0
  | next _ hc hs ih => exact .next ih (hCD _ _ hc) hs

/-- What holds at the start and is kept by every admitted step holds in every state reached. -/
theorem ReachableBy.invariant {I : σ → Prop} (h0 : ∀ s, S.init s → I s)
    (hstep : ∀ s a t, I s → C s a → S.step s a t → I t) {s : σ} (h : ReachableBy S C s) : I s := by
  induction h with
  | start hs => exact h0 _ hs
  | next _ hc hs ih => exact hstep _ _ _ ih hc hs

/-! ## Histories -/

/-- A call that has returned. -/
structure Check (σ : Type) where
  before : σ
  result : Bool
  after : σ

/-- Checks with a round before each, the last one first; the history began in the first state and is
    now in the second. -/
inductive History (start : σ → Prop) (round : σ → σ → Prop) (call : σ → Bool → σ → Prop) :
    σ → List (Check σ) → σ → Prop
  | start {s : σ} : start s → History start round call s [] s
  | check {s t u v : σ} {past : List (Check σ)} {b : Bool} : History start round call s past t →
      round t u → call u b v → History start round call s (⟨u, b, v⟩ :: past) v

/-- What stands before a check is a history, too. -/
theorem History.prefix {start : σ → Prop} {round : σ → σ → Prop} {call : σ → Bool → σ → Prop}
    {s v : σ} {later past : List (Check σ)} {k : Check σ}
    (h : History start round call s (later ++ k :: past) v) :
    ∃ t, History start round call s past t ∧ round t k.before ∧ call k.before k.result k.after := by
  induction later generalizing v with
  | nil =>
    cases h with
    | check h hround hcall => exact ⟨_, h, hround, hcall⟩
  | cons _ later ih =>
    cases h with
    | check h _ _ => exact ih h

end Msvl.Trans
