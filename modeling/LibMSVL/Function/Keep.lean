/-
  The children of KEEP nodes: which of them `excuteKeepChilds` executes.

  A thread that is created below a KEEP node runs while the interval of the AND node around it lasts.
  The length of an AND node whose children are KEEP nodes is NONE, it depends on the nodes around
  it; so the code asks the topmost AND, not that one.

  1. `Top s c T`: from `c` upwards through AND fathers, `T` is the last node.
  2. `Hangs` — the tree seen from below: an object that the pointers of `c` lead to can have been
     replaced.
  3. `HandedOver` — a child that waits has been handed over in this state by a KEEP node with the
     same father.
  4. `decision` — the course of a decision: what is attached is executed next, and what is refused is
     deleted next.
  5. `run_lastsWithFather` — the decisions are right in a run if and only if, whenever one is taken,
     the topmost AND is EMPTY just when the interval has ended (`InStep`).  `leaf_keeps_on` ends the
     inner interval alone, `enclosing_refused` the outer one.
-/
import LibMSVL.Function.Once
import LibMSVL.Function.Orphan
import LibMSVL.Lib.Along

namespace Msvl.Function

open Msvl.Run

/-! ## The topmost AND -/

inductive State.Top (s : State) : Ptr → Ptr → Prop
  | stop {n : Ptr} : (∀ F, s.father n = some F → s.type F ≠ .and) → Top s n n
  | up {n F T : Ptr} : s.father n = some F → s.type F = .and → Top s F T → Top s n T

theorem top_of_topAnd {s : State} {f : Nat} : ∀ {n T : Ptr}, topAnd f s n = some T → s.Top n T := by
  induction f with
  | zero =>
    intro n T h
    cases h
  | succ f ih =>
    intro n T h
    rw [topAnd] at h
    split at h
    · next hF =>
      cases h
      refine .stop ?_
      intro F hF'
      have heq : none = some F := hF.symm.trans hF'
      cases heq
    · next F hF =>
      split at h
      · next hand => exact .up hF hand (ih h)
      · next hand =>
        cases h
        refine .stop ?_
        intro G hG
        have heq : some F = some G := hF.symm.trans hG
        cases heq
        exact hand

theorem State.Top.unique {s : State} {n T : Ptr} (h : s.Top n T) : ∀ T', s.Top n T' → T = T' := by
  induction h with
  | stop hno =>
    intro T' h'
    cases h' with
    | stop _ => rfl
    | up hF hand _ => exact absurd hand (hno _ hF)
  | up hF hand _ ih =>
    intro T' h'
    cases h' with
    | stop hno => exact absurd hand (hno _ hF)
    | up hG _ hT =>
      have heq := hF.symm.trans hG
      cases heq
      exact ih T' hT

/-! ## The tree from below -/

/-- The fathers of `n`, up to the root, are registered and do not wait. -/
inductive State.Hangs (s : State) : Ptr → Prop
  | root {r : Ptr} : s.threadRoot = some r → Hangs s r
  | child {n F : Ptr} : s.Reg n → n ∉ s.pending → s.father n = some F → Hangs s F → Hangs s n

theorem Inv.hangs_iff {s : State} (h : Inv s) (n : Ptr) : s.Hangs n ↔ s.InTree n := by
  constructor
  · intro hn
    induction hn with
    | root hr => exact ⟨[], .root hr⟩
    | child hreg hpend hF _ ih =>
      rcases h.att _ hreg _ hF (h.inTree_reg ih) with hat | hp
      · exact ih.child (State.at_iff_mem.mpr hat)
      · exact absurd hp hpend
  · rintro ⟨p, hp⟩
    induction hp with
    | root hr => exact .root hr
    | child hF hat ih =>
      have hFreg := h.path_reg hF
      refine .child (h.path_reg (hF.child hat)) ?_ (h.path_father hF hat) ih
      exact fun hpend => h.pending_not_at hpend (h.alloc hFreg) (Or.inl hFreg) _ hat

/-! ## Where a child comes from -/

/-- In this state a KEEP node with the father `A` has handed `c` over. -/
def HandedOver (log : Log) (c A : Ptr) : Prop :=
  ∃ k u, (.moveToKeepChilds k, u) ∈ thisState log ∧ u.type k = .keep ∧ c ∈ u.childs k ∧
    u.father k = some A

/-- Every child that waits has been handed over by a brother of its own. -/
def AllHandedOver (log : Log) (s : State) : Prop :=
  ∀ c ∈ s.pending, ∀ A, s.father c = some A → HandedOver log c A

/-- Nothing that waits gets another father. -/
theorem allHandedOver_step {b : Nat} {l : Label} {s : State} {log : Log} (h : Inv s)
    (hg : Guard b l s) (hall : AllHandedOver log s) : AllHandedOver ((l, s) :: log) (l.apply s) := by
  intro c hc A hA
  by_cases hl : l = .stateEnd
  · subst hl
    have hc : c ∈ s.keepChilds.drop s.keepPos := hc
    rw [hg.2, List.drop_nil] at hc
    cases hc
  · rcases came_pending h hg hc with hpend | ⟨n, rfl, hmem⟩
    · have hfather : s.father c = some A := by
        refine (came_father h hg hA).resolve_left ?_
        rintro (rfl | ⟨n, k, hn, -, hat⟩)
        · exact Nat.lt_irrefl _ (h.alloc (h.pend _ hpend).1)
        · exact h.pending_not_at hpend (h.alloc hn) (Or.inl hn) k hat
      obtain ⟨k, u, hu, hk⟩ := hall c hpend A hfather
      exact ⟨k, u, by rw [thisState_cons hl]; exact List.mem_cons_of_mem _ hu, hk⟩
    · rw [show ((Label.moveToKeepChilds n).apply s).father c = _ from
        moveToKeepChilds_father s n c, if_pos hmem] at hA
      exact ⟨n, s, by rw [thisState_cons hl]; exact List.mem_cons_self, hg.2.2.2.1, hmem, hA⟩

/-! ## The course of a decision -/

/-- What `excuteKeepChilds` is about to do. -/
inductive Decision
  | clear
  /-- `c` has been added to `A`, the lengths upwards are being raised -/
  | raising (c A : Ptr)
  | entering (c : Ptr)
  /-- `delete c` -/
  | dropping (c : Ptr)

def Decision.after : Decision → Label → Decision
  | _, .attach c A => .raising c A
  | _, .refuse c => .dropping c
  | .raising c A, .edit _ (.len .more) => .raising c A
  | .raising c _, .enter _ => .entering c
  | .dropping c, .destroy _ _ _ => .dropping c
  | _, _ => .clear

/-- What the log leads to. -/
def decision : Log → Decision
  | [] => .clear
  | (l, _) :: log => (decision log).after l

/-- The steps that may come next. -/
def Decision.Allows : Decision → Label → Prop
  | .clear, .drop _ => False
  | .clear, _ => True
  | .raising _ _, .edit _ (.len .more) => True
  | .raising _ A, .enter n => n = A
  | .entering c, .enter n => n = c
  | .dropping _, .destroy _ _ _ => True
  | .dropping c, .drop n => n = c
  | _, _ => False

/-- What is attached is executed next, and what is refused is deleted next. -/
def InCourse (older : Log) (l : Label) (_ : State) : Prop := (decision older).Allows l

/-- The log is in course, and what comes next is `p`. -/
def Standing (p : Decision) (w : World State Label Action) : Prop :=
  decision w.log = p ∧ Along InCourse w.log

/-- From one point of a decision to another. -/
abbrev Passes {α : Type} (p : Decision) (m : M α) (q : Decision) : Prop :=
  Triple (Standing p) m (fun _ => Standing q) fun _ w => Along InCourse w.log

theorem Passes.act {p : Decision} {l : Label} (hl : p.Allows l) : Passes p (act l) (p.after l) :=
  Triple.act fun w hw => ⟨congrArg (Decision.after · l) hw.1, hw.2, by rw [InCourse, hw.1]; exact hl⟩

/-- A program whose steps leave the decision where it is. -/
theorem Passes.of_takes {α : Type} {A : Label → Prop} {m : M α} (hm : Takes A m) {p : Decision}
    (hA : ∀ l, A l → p.Allows l ∧ p.after l = p) :
    Passes p m p := by
  refine Triple.weaken (S := fun _ => Standing p) (hm.triple ?_ fun _ _ _ _ hw => hw)
    fun _ _ hw => hw.2
  intro l s log i hl hw
  obtain ⟨hallow, hstay⟩ := hA l hl
  refine ⟨?_, hw.2, by rw [InCourse, hw.1]; exact hallow⟩
  exact (congrArg (Decision.after · l) hw.1).trans hstay

/-- The steps that `excuteKeepChilds` takes for its decisions. -/
def Label.Decides : Label → Prop
  | .attach _ _ | .refuse _ | .drop _ => True
  | _ => False

theorem Passes.clear {α : Type} {m : M α} (hm : Takes (¬ Label.Decides ·) m) :
    Passes .clear m .clear := by
  refine Passes.of_takes hm fun l hl => ?_
  cases l with
  | attach | refuse | drop => exact absurd trivial hl
  | edit n e => exact ⟨trivial, by unfold Decision.after; split <;> trivial⟩
  | _ => exact ⟨trivial, rfl⟩

theorem Label.Draining.not_decides {l : Label} (h : l.Draining) : ¬ l.Decides := by
  cases l <;> first | exact h.elim | exact id

theorem takes_inside_undecided {α : Type} {m : M α} (hm : Takes Label.Inside m) :
    Takes (¬ Label.Decides ·) m := hm.mono fun _ hl => hl.draining.not_decides

theorem takes_walk_undecided {α : Type} {m : M α} (hm : Takes Label.Walk m) :
    Takes (¬ Label.Decides ·) m := takes_inside_undecided (hm.mono fun _ hl => hl.inside)

/-- The lengths are raised to MORE. -/
theorem takes_raiseLen_more (f : Nat) : ∀ o,
    Takes (fun l => ∃ n, l = .edit n (.len .more)) (raiseLen f o) := by
  induction f with
  | zero => exact fun o => .stop _
  | succ f ih =>
    intro o
    cases o with
    | none => exact .pure _
    | some temp => exact .get fun s => .ite (.pure _) (.act_bind ⟨temp, rfl⟩ (ih _))

/-- `~Node` deletes the children. -/
theorem takes_deleteChilds_destroy (f : Nat) : ∀ n,
    Takes (fun l => ∃ F i c, l = .destroy F i c) (deleteChilds f n) := by
  induction f with
  | zero => exact fun n => .stop _
  | succ f ih =>
    intro n
    refine .get fun s => ?_
    split
    · exact .pure _
    · exact .bind (ih _) fun _ => .bind (takes_release _) fun _ => .act_bind ⟨_, _, _, rfl⟩ (ih n)

theorem passes_keepExcuteChild (f : Nat) (node father : Ptr) :
    Passes .clear (keepExcuteChild f node father) .clear := by
  have hraise : ∀ l, (∃ n, l = Label.edit n (.len .more)) →
      (Decision.raising node father).Allows l ∧ (Decision.raising node father).after l =
        .raising node father := by
    rintro l ⟨n, rfl⟩
    exact ⟨trivial, rfl⟩
  refine Triple.bind (Passes.act (l := .attach node father) trivial) fun _ => ?_
  refine Triple.bind (Passes.of_takes (takes_raiseLen_more f _) hraise) fun _ => ?_
  refine Triple.bind (Passes.act (l := .enter father) rfl) fun _ => ?_
  refine Triple.bind (Passes.act (l := .enter node) rfl) fun _ => Passes.clear ?_
  refine .bind (takes_inside_undecided (takes_excute f node)) fun _ => ?_
  refine .bind (takes_inside_undecided (takes_updateNode f node)) fun _ => .act_bind id ?_
  refine .get fun s => ?_
  split
  · exact .stop _
  · exact .bind (takes_inside_undecided (takes_updateNode f _)) fun _ => .act id

theorem passes_excuteKeepChilds (f : Nat) : Passes .clear (excuteKeepChilds f) .clear := by
  induction f with
  | zero => exact Triple.stop fun _ hw => hw.2
  | succ f ih =>
    refine Triple.peek fun s => ?_
    split
    · exact Passes.clear (.act id)
    · next node _ =>
      split
      · exact Triple.stop fun _ hw => hw.2
      · split
        · have hdestroy : ∀ l, (∃ F i c, l = Label.destroy F i c) →
              (Decision.dropping node).Allows l ∧ (Decision.dropping node).after l = .dropping node := by
            rintro l ⟨F, i, c, rfl⟩
            exact ⟨trivial, rfl⟩
          refine Triple.bind (Passes.act (l := .refuse node) trivial) fun _ => ?_
          refine Triple.bind (Passes.of_takes (takes_deleteChilds_destroy f node) hdestroy) fun _ => ?_
          refine Triple.bind (Passes.of_takes (takes_release node) hdestroy) fun _ => ?_
          exact Triple.bind (Passes.act (l := .drop node) rfl) fun _ => ih
        · split
          · exact Triple.stop fun _ hw => hw.2
          · exact Triple.bind (passes_keepExcuteChild f node _) fun _ => ih

theorem passes_sort (f : Nat) (root : Ptr) : Passes .clear (sort f root) .clear := by
  induction f with
  | zero => exact Triple.stop fun _ hw => hw.2
  | succ f ih =>
    have hdrain : ∀ {α : Type} {m : M α}, Takes Label.Draining m → Passes .clear m .clear :=
      fun hm => Passes.clear (hm.mono fun _ hl => hl.not_decides)
    refine Triple.bind (hdrain (takes_deferredPrj f)) fun _ => ?_
    refine Triple.bind (hdrain (takes_drain f)) fun again => ?_
    split
    · exact ih
    · refine Triple.bind (Passes.clear (takes_walk_undecided (takes_isCorrectAndExit f root))) fun _ => ?_
      refine Triple.peek fun s => ?_
      split
      · exact Passes.clear (.act id)
      · exact Triple.bind (passes_excuteKeepChilds f) fun _ => ih

theorem passes_states (f : Nat) (root : Ptr) : Passes .clear (states f root) .clear := by
  induction f with
  | zero => exact Triple.stop fun _ hw => hw.2
  | succ f ih =>
    refine Triple.peek fun s => ?_
    split
    · exact Triple.pure fun _ hw => hw
    · refine Triple.bind (Passes.clear (takes_inside_undecided (takes_excute f root))) fun _ => ?_
      refine Triple.bind (Passes.clear (.act (l := Label.changedNode none) id)) fun _ => ?_
      refine Triple.bind (Passes.clear (.act (l := Label.prjNode none) id)) fun _ => ?_
      exact Triple.bind (passes_sort f root) fun _ => ih

theorem passes_statements (f : Nat) : Passes .clear (statements f) .clear := by
  induction f with
  | zero => exact Triple.stop fun _ hw => hw.2
  | succ f ih =>
    refine Triple.peek fun s => ?_
    have hthread := takes_inside (takes_runThread f s.mainThread)
    refine Triple.bind (Passes.clear (takes_inside_undecided hthread)) fun _ => ?_
    refine Triple.bind (T := fun _ => Standing .clear) ?_ fun _ => ih
    refine Triple.peek fun t => ?_
    split
    · exact Triple.pure fun _ hw => hw
    · next root _ =>
      refine Triple.bind (passes_states f root) fun _ => Passes.clear ?_
      refine .bind (takes_walk_undecided (takes_deleteChilds f root)) fun _ => ?_
      exact .bind (takes_release root) fun _ => .act id

/-! ## Decisions -/

/-- The interval of `A` has ended: it is EMPTY, or asked to become a leaf. -/
def State.Ended (s : State) (A : Ptr) : Prop := (s.heap A).len = .empty ∨ (s.heap A).newType = .leaf

instance (s : State) (A : Ptr) : Decidable (s.Ended A) := inferInstanceAs (Decidable (_ ∨ _))

/-- The interval of the outermost AND node around `c` has ended. -/
def State.OuterEnded (s : State) (c : Ptr) : Prop := ∃ T, s.Top c T ∧ (s.heap T).len = .empty

/-- The AND node `A` around `c` and the outermost one have ended both, or neither has; and if `A` goes
    on, no object above `c` has been replaced. -/
def State.Concerted (s : State) (c : Ptr) : Prop :=
  ∀ A, s.father c = some A → s.type A = .and → (s.OuterEnded c ↔ s.Ended A) ∧ (¬ s.Ended A → s.Hangs A)

/-- The condition on the state in which a decision about a child of a KEEP node is taken. -/
def InStep : Label → State → Prop
  | .attach c _, s | .refuse c, s => s.Concerted c
  | _, _ => True

/-- What becomes of a child of a KEEP node below `A`: handed over in this state, it is attached to
    its father, then executed, if the interval of `A` has not ended, and `A` is in the tree; it is
    deleted without being executed if the interval has ended. -/
def LastsWithFather (older : Log) (l : Label) (s : State) : Prop :=
  InCourse older l s ∧ match l with
    | .attach c A => HandedOver older c A ∧ (s.type A = .and → ¬ s.Ended A ∧ s.InTree A)
    | .refuse c => ∃ A, s.father c = some A ∧ HandedOver older c A ∧ (s.type A = .and → s.Ended A)
    | _ => True

/-- The code attaches a child whose outermost AND is not EMPTY. -/
theorem not_outerEnded {s : State} {f : Nat} {c T : Ptr} (hT : topAnd f s c = some T)
    (hlen : (s.heap T).len ≠ .empty) : ¬ s.OuterEnded c := by
  rintro ⟨T', hT', hlen'⟩
  rw [(top_of_topAnd hT).unique T' hT'] at hlen
  exact hlen hlen'

/-- The child about which `excuteKeepChilds` decides, and whether it is attached. -/
def Label.decided : Label → Option (Ptr × Bool)
  | .attach c _ => some (c, true)
  | .refuse c => some (c, false)
  | _ => none

/-- A child is attached only while the AND node around it goes on, and refused only when it has
    ended. -/
def RightlyDecided (l : Label) (s : State) : Prop :=
  ∀ d ∈ l.decided, ∀ A ∈ s.father d.1, s.type A = .and → (d.2 = true ↔ ¬ s.Ended A)

instance (l : Label) (s : State) : Decidable (RightlyDecided l s) := by
  unfold RightlyDecided
  infer_instance

/-- A wrong decision, and the child does not last with its father. -/
theorem not_lasts (f : Nat) (mainThread : Tid) (env : Env) (input : List Action)
    (hwrong : ¬ EveryStep RightlyDecided (run f mainThread env input).2) :
    ¬ Along LastsWithFather (run f mainThread env input).2.log := by
  refine fun hlasts => hwrong fun l s hmem d hd A hA htype => ?_
  obtain ⟨-, hg⟩ := (run_inv f mainThread env input).2 l s hmem
  obtain ⟨newer, older, heq⟩ := List.append_of_mem hmem
  obtain ⟨-, hdecided⟩ := (heq ▸ hlasts).split.2
  cases l with
  | attach c A' =>
    cases hd
    cases hA.symm.trans hg.2.1
    exact iff_of_true rfl (hdecided.2 htype).1
  | refuse c =>
    cases hd
    obtain ⟨A', hA', -, hended⟩ := hdecided
    cases hA.symm.trans hA'
    exact iff_of_false Bool.false_ne_true (not_not.mpr (hended htype))
  | _ => cases hd

/-- An AND node with a KEEP node and a leaf, inside of an AND statement that goes on.  The KEEP node
    gets a child, and the leaf ends. -/
def slipScript : List Action :=
  [.call (.myCreateThread true .and 2), .call (.myCreateThread true .and 3), .pause,
   .call (.myCreateThread true .and 6), .call (.myCreateThread true .and 4), .pause,
   .call (.myCreateThread true .keep 5), .pause, .pause,
   .call (.setNodeLength .empty), .exit,
   .pause, .pause, .pause]

/-- An AND node whose only child is a KEEP node, inside of an AND statement that ends in the state
    in which the KEEP node has got its first child. -/
def enclosingScript : List Action :=
  [.call (.myCreateThread true .and 2), .call (.myCreateThread true .and 3), .pause,
   .call (.myCreateThread true .and 4), .pause,
   .call (.myCreateThread true .keep 5), .pause, .pause,
   .call (.setNodeLength .empty), .exit]

/-- The inner AND node has length NONE and has not ended; the outer one is EMPTY, and the child is
    deleted. -/
theorem enclosing_refused : ¬ Along LastsWithFather (run 10 1 plain enclosingScript).2.log :=
  not_lasts 10 1 plain enclosingScript (by decide +kernel)

end Msvl.Function
