/-
  The order in which pending elements are executed.

  ManagerThread announces three steps, the second of which sorts `$$prsnt`, with `Comp`, so that
  `pop_back` takes the element of the smallest priority number, and among those of priority 4 a
  writer of a variable before its readers.  The call of `sort` is commented out: elements are taken
  in the order opposite to their pushes.

  * `Element.Before e o` — `e` is to be taken before `o`;
  * `PopsFirst` — the element taken goes before everything that stays pending;
  * `PushesFirst` — the condition: what is pushed goes before everything that is pending;
  * `run_pops_first` — the condition makes `$$prsnt` a sorted stack (`State.Sorted`), which pushes
    and pops keep.  An element pushed out of order is taken out of order, since everything below it
    is still there when it is taken (`not_before_of_push`).
-/
import LibMSVL.Function.Manager

namespace Msvl.Function

open Msvl.Run

/-! ## What the steps do to the stack -/

/-- Only `$$Push` and `pop_back` change `$$prsnt`. -/
theorem apply_prsnt (l : Label) (s : State) : (l.apply s).prsnt =
    match l with
    | .push e => s.prsnt ++ [e]
    | .pop => s.prsnt.dropLast
    | _ => s.prsnt := by
  cases l with
  | edit n e => exact edit_global s n e fun _ _ _ => rfl
  | newRoot type => exact newRoot_global s type fun _ _ _ => rfl
  | newThread F id => exact newThread_global s F id fun _ _ _ => rfl
  | replace owner i n => exact replace_global s owner i n fun _ _ _ => rfl
  | _ => rfl

/-! ## Order -/

/-- `e` is to be executed before `o`: its priority number is not larger, and among elements of
    priority 4 it does not read what `o` writes. -/
def Element.Before (e o : Element) : Prop :=
  e.priority ≤ o.priority ∧ (e.priority = 4 → o.priority = 4 → o.left ∉ e.right)

instance (e o : Element) : Decidable (e.Before o) := inferInstanceAs (Decidable (_ ∧ _))

/-- The element at the back goes before everything else that is pending. -/
def PopsFirst : Label → State → Prop
  | .pop, s => ∀ e ∈ s.prsnt.getLast?, ∀ o ∈ s.prsnt.dropLast, e.Before o
  | _, _ => True

/-- The element pushed goes before everything that is pending. -/
def PushesFirst : Label → State → Prop
  | .push e, s => ∀ o ∈ s.prsnt, e.Before o
  | _, _ => True

instance (l : Label) (s : State) : Decidable (PopsFirst l s) := by
  -- the eliminator itself: `cases` would leave casts in the instance
  apply @Label.casesOn (fun l => Decidable (PopsFirst l s)) l <;> intros <;> unfold PopsFirst <;>
    infer_instance

instance (l : Label) (s : State) : Decidable (PushesFirst l s) := by
  apply @Label.casesOn (fun l => Decidable (PushesFirst l s)) l <;> intros <;> unfold PushesFirst <;>
    infer_instance

/-- Everything pending goes before what was pushed earlier. -/
def State.Sorted (s : State) : Prop := s.prsnt.Pairwise fun o e => e.Before o

/-- A sorted stack stays sorted, if it is pushed to in order. -/
theorem State.Sorted.step {s : State} {l : Label} (h : s.Sorted) (hl : PushesFirst l s) :
    (l.apply s).Sorted := by
  unfold State.Sorted
  rw [apply_prsnt]
  cases l with
  | push e =>
    refine List.pairwise_append.mpr ⟨h, List.pairwise_singleton _ _, ?_⟩
    intro o ho x hx
    obtain rfl := List.mem_singleton.mp hx
    exact hl o ho
  | pop => exact h.sublist (List.dropLast_sublist _)
  | _ => exact h

/-- The back of a sorted stack goes before the rest. -/
theorem State.Sorted.back {s : State} (h : s.Sorted) : PopsFirst .pop s := by
  intro e he o ho
  obtain ⟨rest, hrest⟩ := List.getLast?_eq_some_iff.mp he
  unfold State.Sorted at h
  rw [hrest] at h ho
  rw [List.dropLast_concat] at ho
  exact (List.pairwise_append.mp h).2.2 o ho e List.mem_cons_self

/-- **Elements are taken in priority and dependency order**, in every run in which each is pushed
    before everything it goes after. -/
theorem run_pops_first (f : Nat) (mainThread : Tid) (env : Env) (input : List Action)
    (hpush : EveryStep PushesFirst (run f mainThread env input).2) :
    EveryStep PopsFirst (run f mainThread env input).2 := by
  obtain ⟨-, hlog⟩ := (run_trace f mainThread env input).1.keeps_of
    (I := State.Sorted) (C := PushesFirst) (fun _ _ _ hl hs => hs.step hl) List.Pairwise.nil hpush
  intro l s hmem
  cases l with
  | pop => exact (hlog .pop s hmem).1.back
  | _ => trivial

/-- Two threads push; the second, of priority 4, reads what the first writes. -/
def readerLastScript (priority : Int) : List Action :=
  [.call (.myCreateThread true .and 2), .call (.myCreateThread true .and 3), .pause,
   .call (.push ['x'] [] priority), .pause,
   .call (.push ['y'] ['x'] 4), .pause,
   .pause, .pause]

/-- With priority 5 the first element may be taken last. -/
theorem run_pops_first_reader : EveryStep PopsFirst (run 10 1 plain (readerLastScript 5)).2 :=
  run_pops_first 10 1 plain (readerLastScript 5) (by decide +kernel)

/-- With priority 4 the reader of `x` is taken before its writer. -/
theorem reader_taken_first :
    ¬ EveryStep PopsFirst (run 10 1 plain (readerLastScript 4)).2 := by
  decide +kernel

/-- While everything below an element pushed out of order is there, taking it is out of order. -/
theorem not_before_of_push {s t : State} {e : Element} (hpush : ¬ PushesFirst (.push e) s)
    (hback : t.prsnt = s.prsnt ++ [e]) : ¬ PopsFirst .pop t := by
  intro hpop
  refine hpush fun o ho => hpop e ?_ o ?_
  · rw [hback, List.getLast?_concat]
    rfl
  · rw [hback, List.dropLast_concat]
    exact ho

end Msvl.Function
