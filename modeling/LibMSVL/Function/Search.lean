/-
  The search of `updateNode`.

  `for (i = 0; childs[i] != node; ++i)` has no bound: it ends within the vector if and only if the
  node is in it.  changedNode is a raw pointer that is kept while a walk replaces the object it
  points to; the search for a replaced object never ends within the vector (`Links.gone`).
-/
import LibMSVL.Function.Tree

namespace Msvl.Function

/-- `updateNode(n)` finds `n` among the children of its father, if it looks for it. -/
def State.Finds (s : State) (n : Ptr) : Prop :=
  s.Open n → s.threadRoot ≠ some n → ∃ F ∈ s.father n, n ∈ s.childs F

/-- `n` and its father are the objects their threads have now, and `n` does not wait in
    keepChilds. -/
def State.Current (s : State) (n : Ptr) : Prop :=
  s.Reg n ∧ n ∉ s.pending ∧ ∀ F ∈ s.father n, s.Reg F

instance (s : State) (n : Ptr) : Decidable (s.Finds n) :=
  inferInstanceAs (Decidable (_ → _ → _))

instance (s : State) (n : Ptr) : Decidable (s.Current n) :=
  inferInstanceAs (Decidable (_ ∧ _ ∧ _))

section

variable {s : State} (h : Inv s) {n : Ptr}

include h

theorem Inv.finds (hn : s.Current n) : s.Finds n := by
  obtain ⟨hreg, hpend, hfather⟩ := hn
  intro _ hroot
  cases hF : s.father n with
  | none => exact absurd (h.rootOnly n hreg hF) hroot
  | some F =>
    rcases h.att n hreg F hF (hfather F hF) with hat | hp
    · exact ⟨F, rfl, State.at_iff_mem.mpr hat⟩
    · exact absurd hp hpend

end

/-! ## Runs -/

/-- The searches of `updateNode` end within the vector. -/
def Finding : Label → State → Prop
  | .updateNode n, s => s.Finds n
  | _, _ => True

/-- What `updateNode` looks for is current. -/
def Looking : Label → State → Prop
  | .updateNode n, s => s.Open n → s.threadRoot ≠ some n → s.Current n
  | _, _ => True

instance (l : Label) (s : State) : Decidable (Finding l s) := by
  apply @Label.casesOn (fun l => Decidable (Finding l s)) l <;> intros <;> unfold Finding <;>
    infer_instance

instance (l : Label) (s : State) : Decidable (Looking l s) := by
  apply @Label.casesOn (fun l => Decidable (Looking l s)) l <;> intros <;> unfold Looking <;>
    infer_instance

theorem Inv.finding {l : Label} {s : State} (h : Inv s) (hl : Looking l s) : Finding l s := by
  cases l with
  | updateNode n => exact fun hopen hroot => h.finds (hl hopen hroot) hopen hroot
  | _ => trivial

/-- **`updateNode` always finds its node**, in every run in which it is called for current objects
    only. -/
theorem run_finds (f : Nat) (mainThread : Tid) (env : Env) (input : List Action)
    (hlook : EveryStep Looking (run f mainThread env input).2) :
    EveryStep Finding (run f mainThread env input).2 := by
  intro l s hmem
  obtain ⟨h, -⟩ := (run_inv f mainThread env input).2 l s hmem
  exact h.finding (hlook l s hmem)

/-- A thread starts a parallel statement in a state in which it is executed for the second time,
    after `$$Push`; its child pauses. -/
def pushedScript : List Action :=
  [.call (.myCreateThread true .and 2), .pause,
   .call (.push [] [] 0), .pause,
   .call (.myCreateThread true .and 3), .pause,
   .pause]

/-- `updateNode` is called with a change of type to do, and finds the node. -/
theorem run_finds_pushed : EveryStep Finding (run 10 1 plain pushedScript).2 :=
  run_finds 10 1 plain pushedScript (by decide +kernel)

/-- As before, but the child ends the statement at once. -/
def staleScript : List Action :=
  [.call (.myCreateThread true .and 2), .pause,
   .call (.push [] [] 0), .pause,
   .call (.myCreateThread true .and 3), .pause,
   .call (.setNodeLength .empty), .pause, .pause]

/-- `setAndLen` records the AND node in changedNode, the walk replaces its object, and `updateNode`
    looks for the old one. -/
theorem stale_not_found : ¬ EveryStep Finding (run 10 1 plain staleScript).2 := by
  decide +kernel

end Msvl.Function
