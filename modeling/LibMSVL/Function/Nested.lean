/-
  Calls of excute nest.

  `active` is the stack of the nodes that have been entered and not left.  A function leaves the
  part of the stack that it has found: all of it when it returns, and when it stops what it has
  entered itself may stand above (`Nested`).  So whoever has entered a node finds it on the stack
  until it leaves it, wherever the run stops.
-/
import LibMSVL.Function.Kinds

namespace Msvl.Function

open Msvl.Run

/-- The steps between two calls: nothing is entered or left. -/
def Label.Level : Label → Prop
  | .enter _ | .leave _ => False
  | _ => True

/-- Walks execute nobody. -/
theorem Label.Walk.level {l : Label} (h : l.Walk) : l.Level := by
  cases l <;> first | exact h | trivial

/-- Neither do library calls. -/
theorem Label.Still.level {l : Label} (h : l.Still) : l.Level := by
  cases l <;> first | exact h | trivial

/-- Such a step leaves the stack as it is. -/
theorem Label.Level.active {l : Label} (h : l.Level) (s : State) :
    (l.apply s).active = s.active := by
  cases l with
  | edit n e => exact edit_global s n e fun _ _ _ => rfl
  | newRoot type => exact newRoot_global s type fun _ _ _ => rfl
  | newThread F id => exact newThread_global s F id fun _ _ _ => rfl
  | replace owner i n => exact replace_global s owner i n fun _ _ _ => rfl
  | enter n => exact h.elim
  | leave n => exact h.elim
  | _ => rfl

/-- The stack is `base`. -/
def Stands (base : List Ptr) (w : World State Label Action) : Prop := w.st.active = base

/-- What is found on the stack stays: it is all there is when the program returns, and the lower part
    when it stops. -/
def Nested {α : Type} (m : M α) : Prop :=
  ∀ base, Triple (Stands base) m (fun _ => Stands base) fun _ w => base <:+ w.st.active

section

variable {α β : Type} {m : M α} {f : α → M β}

/-- So does a program made of them, wherever it stops. -/
theorem Nested.level (h : Takes Label.Level m) : Nested m := by
  intro base
  refine Triple.weaken (S := fun _ => Stands base) ?_ fun _ w hw => hw ▸ List.suffix_refl _
  refine h.triple ?_ fun _ _ _ _ hw => hw
  exact fun l s _ _ hl hw => Eq.trans (hl.active s) hw

theorem Nested.pure (a : α) : Nested (pure a : M α) := Nested.level (.pure a)

theorem Nested.stop (e : Stop) : Nested (stop e : M α) := Nested.level (.stop e)

theorem Nested.act {l : Label} (h : l.Level) : Nested (act l) := Nested.level (.act h)

theorem Nested.walk (h : Takes Label.Walk m) : Nested m := Nested.level (h.mono fun _ => Label.Walk.level)

theorem Nested.still (h : Takes Label.Still m) : Nested m :=
  Nested.level (h.mono fun _ => Label.Still.level)

/-- One call after the other. -/
theorem Nested.bind (hm : Nested m) (hf : ∀ a, Nested (f a)) : Nested (m >>= f) :=
  fun base => Triple.bind (hm base) fun a => hf a base

theorem Nested.get {f : State → M β} (h : ∀ s, Nested (f s)) : Nested (get >>= f) :=
  fun base => Triple.peek fun s => h s base

theorem Nested.ite {c : Prop} [Decidable c] {m' : M α} (h : Nested m) (h' : Nested m') :
    Nested (if c then m else m') := by
  split
  · exact h
  · exact h'

end

/-! ## Entering and leaving -/

theorem suffix_below {n : Ptr} {base : List Ptr} {w : World State Label Action}
    (h : n :: base <:+ w.st.active) : base <:+ w.st.active := (List.suffix_cons n base).trans h

/-- `enter` pushes the node. -/
theorem stands_enter (n : Ptr) (base : List Ptr) : Triple (Stands base) (act (.enter n))
    (fun _ => Stands (n :: base)) fun _ w => base <:+ w.st.active :=
  Triple.act fun _ hw => congrArg (n :: ·) hw

/-- `leave` pops it. -/
theorem stands_leave (n : Ptr) (base : List Ptr) : Triple (Stands (n :: base)) (act (.leave n))
    (fun _ => Stands base) fun _ w => base <:+ w.st.active :=
  Triple.act fun _ hw => congrArg List.tail hw

/-- A program called while `n` stands on the stack. -/
theorem Nested.above {α : Type} {m : M α} (hm : Nested m) (n : Ptr) (base : List Ptr) :
    Triple (Stands (n :: base)) m (fun _ => Stands (n :: base)) fun _ w => base <:+ w.st.active :=
  (hm (n :: base)).weaken fun _ _ => suffix_below

/-! ## Turns -/

/-- A turn executes nobody. -/
theorem nested_turn (f : Nat) (n : Ptr) : Nested (turn f n) :=
  .bind (.act trivial) fun _ => .bind (.act trivial) fun _ => .get fun _ =>
    .still (takes_runThread f _)

theorem nested_leafExcute (f : Nat) (n : Ptr) : Nested (leafExcute f n) :=
  .get fun _ => .ite (.pure _) (nested_turn f n)

theorem nested_keepExcute (f : Nat) (n : Ptr) : Nested (keepExcute f n) :=
  .get fun _ => .ite (.pure _) (.bind (nested_turn f n) fun _ => .act trivial)

theorem nested_alwExcute (f : Nat) (n : Ptr) : Nested (alwExcute f n) := by
  refine .get fun _ => .ite (.pure _) (.bind (nested_turn f n) fun _ => .get fun s => ?_)
  split
  · exact .stop _
  · exact .bind (.act trivial) fun _ => .still (takes_when (takes_raiseLen f _))

theorem nested_replaceSlot (owner : Ptr) (i : Nat) (n : Ptr) : Nested (replaceSlot owner i n) :=
  .bind (.level (takes_checkErase n)) fun _ => .act trivial

/-! ## excute -/

section

variable {ex : Ptr → M Unit} (hex : ∀ n, Nested (ex n))

include hex

/-- A child is on the stack while it is executed and converted. -/
theorem nested_excuteSlot (f : Nat) (owner : Ptr) (i : Nat) : Nested (excuteSlot ex f owner i) := by
  induction f with
  | zero => exact .stop _
  | succ f ih =>
    refine .get fun s => ?_
    split
    · exact .stop _
    · next child _ =>
      intro base
      refine Triple.bind (stands_enter child base) fun _ => ?_
      refine Triple.bind ((hex child).above child base) fun _ => Triple.peek fun t => ?_
      split
      · refine Triple.bind ((nested_replaceSlot owner i child).above child base) fun _ => ?_
        exact Triple.bind (stands_leave child base) fun _ => ih base
      · exact stands_leave child base

/-- One slot after the other: the stack is `base` between them. -/
theorem nested_excuteChilds (f : Nat) (n : Ptr) : ∀ i, Nested (excuteChilds ex f n i) := by
  induction f with
  | zero => exact fun _ => .stop _
  | succ f ih =>
    intro i
    exact .get fun _ => .ite (.bind (nested_excuteSlot hex f n i) fun _ => ih (i + 1)) (.pure _)

theorem nested_prjNext (f : Nat) (n : Ptr) : Nested (prjNext ex f n) := by
  induction f with
  | zero => exact .stop _
  | succ f ih =>
    refine .get fun _ => ?_
    split
    · exact .stop _
    · refine .ite (.bind (.act trivial) fun _ => ?_) (.pure _)
      refine .bind (.walk (takes_deleteSlot f n 1 _)) fun _ => .get fun _ => .ite (.pure _) ?_
      exact .bind (nested_excuteSlot hex f n 1) fun _ => ih

theorem nested_prjP (f : Nat) (n : Ptr) : Nested (prjP ex f n) :=
  .get fun _ => .ite (.act trivial)
    (.bind (nested_excuteSlot hex f n 1) fun _ => nested_prjNext hex f n)

theorem nested_prjQ (f : Nat) (n : Ptr) : Nested (prjQ ex f n) := by
  refine .get fun _ => .bind (.act trivial) fun _ => .ite ?_ (.pure _)
  split
  · exact .stop _
  · refine .bind (.walk (takes_isCorrectAndExit f _)) fun _ => .ite (.pure _) ?_
    exact .bind (nested_excuteSlot hex f n 0) fun _ => .act trivial

theorem nested_prjExcute (f : Nat) (n : Ptr) : Nested (prjExcute ex f n) :=
  .bind (.walk (takes_prjCorrect n)) fun _ => .ite (.act trivial)
    (.bind (nested_prjP hex f n) fun _ => nested_prjQ hex f n)

/-- The iterator's check comes after the child has been left. -/
theorem nested_throughIterator (n child : Ptr) : Nested (throughIterator ex n child) :=
  .get fun _ => .bind (hex child) fun _ => .get fun _ => .ite (.stop _) (.pure _)

theorem nested_andExcute (f : Nat) (n : Ptr) : Nested (andExcute ex f n) :=
  .bind (.walk (takes_andCorrect (takes_isCorrectAndExit f) f n)) fun _ =>
    .ite (.act trivial) (nested_excuteChilds hex f n 0)

theorem nested_palExcute (f : Nat) (n : Ptr) : Nested (palExcute ex f n) :=
  .bind (.walk (takes_palCorrect (takes_isCorrectAndExit f) f n)) fun _ =>
    .ite (.act trivial) (nested_excuteChilds (nested_throughIterator hex n) f n 0)

end

/-- **`excute` nests**, by induction on its depth. -/
theorem nested_excute (f : Nat) : ∀ n, Nested (excute f n) := by
  induction f with
  | zero => exact fun _ => .stop _
  | succ f ih =>
    intro n
    refine .get fun _ => ?_
    split
    · exact nested_andExcute ih f n
    · exact nested_palExcute ih f n
    · exact nested_prjExcute ih f n
    · exact nested_keepExcute f n
    · exact nested_alwExcute f n
    · exact nested_leafExcute f n

/-- `updateNode` enters and leaves what it executes. -/
theorem nested_updateNode (f : Nat) (node : Ptr) : Nested (updateNode f node) := by
  refine .bind (.act trivial) fun _ => .get fun _ => .ite (.pure _) ?_
  split
  · exact .stop _
  · split
    · exact .stop _
    · exact .bind (nested_replaceSlot _ _ _) fun _ => nested_excuteSlot (nested_excute f) f _ _

/-! ## The manager -/

/-- A keep child is executed below its father: both are entered, and left in turn. -/
theorem nested_keepExcuteChild (f : Nat) (node father : Ptr) :
    Nested (keepExcuteChild f node father) := by
  refine .bind (.act trivial) fun _ => .bind (.still (takes_raiseLen f _)) fun _ => ?_
  intro base
  have hnode : ∀ {α : Type} {m : M α}, Nested m → Triple (Stands (node :: father :: base)) m
      (fun _ => Stands (node :: father :: base)) fun _ w => base <:+ w.st.active :=
    fun hm => (hm.above node (father :: base)).weaken fun _ _ => suffix_below
  refine Triple.bind (stands_enter father base) fun _ => ?_
  refine Triple.bind ((stands_enter node (father :: base)).weaken fun _ _ => suffix_below) fun _ => ?_
  refine Triple.bind (hnode (nested_excute f node)) fun _ => ?_
  refine Triple.bind (hnode (nested_updateNode f node)) fun _ => ?_
  refine Triple.bind ((stands_leave node (father :: base)).weaken fun _ _ => suffix_below) fun _ => ?_
  refine Triple.peek fun s => ?_
  split
  · refine Triple.stop fun w hw => suffix_below (n := father) ?_
    rw [show w.st.active = father :: base from hw]
  · next father' _ =>
    refine Triple.bind ((nested_updateNode f father').above father base) fun _ => ?_
    exact stands_leave father base

/-- Between two of them the stack is as it was found. -/
theorem nested_excuteKeepChilds (f : Nat) : Nested (excuteKeepChilds f) := by
  induction f with
  | zero => exact .stop _
  | succ f ih =>
    refine .get fun _ => ?_
    split
    · exact .act trivial
    · split
      · exact .stop _
      · refine .ite (.bind (.act trivial) fun _ => ?_) ?_
        · refine .bind (.walk (takes_deleteChilds f _)) fun _ => ?_
          exact .bind (.walk (takes_release _)) fun _ => .bind (.act trivial) fun _ => ih
        · split
          · exact .stop _
          · exact .bind (nested_keepExcuteChild f _ _) fun _ => ih

end Msvl.Function
