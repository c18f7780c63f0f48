/-
  Refinement of one transition system by another.

  A `Path` is a run with its steps written down.  `Refines` says that a function from the states of
  `S` to the states of `T` is a refinement mapping: each step of `S` shows as one step of `T`, or as
  none when its label has no event.  An invariant of `S` and a condition on its steps may be used.

  `Refines.path` is the induction over runs: what a run of `S` shows is a run of `T`.
-/
import LibMSVL.Lib.System

namespace Msvl.Trans

variable {σ τ α β : Type}

/-- The steps of a run, one after the other, and the state it has reached. -/
inductive Path (S : System σ α) (C : σ → α → Prop) : List α → σ → Prop
  | start {s : σ} : S.init s → Path S C [] s
  | next {s t : σ} {a : α} {as : List α} :
      Path S C as s → C s a → S.step s a t → Path S C (as ++ [a]) t

variable {S : System σ α} {C : σ → α → Prop} {T : System τ β}

/-- What an action shows: one step of `T`, or none. -/
def Shows (T : System τ β) (x : τ) : Option β → τ → Prop
  | none, y => y = x
  | some b, y => T.step x b y

/-- `view` is a refinement mapping from `S` to `T` under the invariant `I`. -/
structure Refines (S : System σ α) (C : σ → α → Prop) (T : System τ β) (I : σ → Prop)
    (view : σ → τ) (event : α → Option β) : Prop where
  init : ∀ s, S.init s → I s ∧ T.init (view s)
  step : ∀ s a t, I s → C s a → S.step s a t → I t ∧ Shows T (view s) (event a) (view t)

/-- **Runs refine runs.** -/
theorem Refines.path {I : σ → Prop} {view : σ → τ} {event : α → Option β}
    (h : Refines S C T I view event) {as : List α} {s : σ} (hp : Path S C as s) :
    I s ∧ Path T always (as.filterMap event) (view s) := by
  induction hp with
  | start h0 => exact ⟨(h.init _ h0).1, .start (h.init _ h0).2⟩
  | @next s t a as _ hc hs ih =>
    obtain ⟨hI, hpath⟩ := ih
    obtain ⟨hIt, hshow⟩ := h.step s a t hI hc hs
    refine ⟨hIt, ?_⟩
    rw [List.filterMap_append]
    cases he : event a with
    | none =>
      rw [he] at hshow
      have hview : view t = view s := hshow
      rw [List.filterMap_cons_none he, List.filterMap_nil, List.append_nil, hview]
      exact hpath
    | some b =>
      rw [he] at hshow
      rw [List.filterMap_cons_some he, List.filterMap_nil]
      exact hpath.next trivial hshow

end Msvl.Trans
