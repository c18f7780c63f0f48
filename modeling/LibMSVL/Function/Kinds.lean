/-
  Which steps a function of the code can take.

  Kinds of labels: `Walk`, the steps of `~Node` and `isCorrectAndExit`; `Still`, those of the
  library calls and of the moves of KEEP and ALW; `Inside`, those of `excute` and `updateNode`, these
  among them; `Keeping`, those of `excuteKeepChilds`, too; `Draining`, those of the loop over
  `$$prsnt`.  What remains is written by the manager's own loops only: ending a state or a statement.
-/
import LibMSVL.Function.Manager

namespace Msvl.Function

open Msvl.Run

/-- The steps of `~Node` and `isCorrectAndExit`. -/
def Label.Walk : Label → Prop
  | .edit _ (.len _) | .edit _ .hasEmpty | .destroy _ _ _ => True
  | _ => False

/-- The steps of library calls and moves. -/
def Label.Still : Label → Prop
  | .edit _ (.hasExtQ _) => False
  | .edit _ _ | .newRoot _ | .newThread _ _ | .moveToKeepChilds _ | .moveToFather _ _ => True
  | .push _ | .prjNode (some _) | .exit _ => True
  | _ => False

/-- The steps of `excute` and `updateNode`. -/
def Label.Inside : Label → Prop
  | .pop | .free _ | .stateEnd | .prjNode none | .changedNode _ | .destroyRoot _ | .keepClear
  | .attach _ _ | .drop _ | .refuse _ | .deferred _ => False
  | _ => True

/-- The steps of `excuteKeepChilds`. -/
def Label.Keeping : Label → Prop
  | .pop | .free _ | .stateEnd | .prjNode none | .changedNode _ | .destroyRoot _ | .deferred _ =>
    False
  | _ => True

/-- The steps of the loop over `$$prsnt`, and of the projection after the label SORT. -/
def Label.Draining : Label → Prop
  | .stateEnd | .destroyRoot _ | .attach _ _ | .drop _ | .refuse _ | .keepClear => False
  | _ => True

/-- A library call or a move is made from inside `excute`. -/
theorem Label.Still.inside {l : Label} (h : l.Still) : l.Inside := by
  cases l with
  | edit n e => cases e <;> trivial
  | prjNode n => cases n <;> trivial
  | _ => trivial

/-- Whoever executes a node walks over its children first. -/
theorem Label.Walk.inside {l : Label} (h : l.Walk) : l.Inside := by
  cases l with
  | edit n e => cases e <;> trivial
  | destroy => trivial
  | _ => exact h.elim

/-- `excuteKeepChilds` executes what it attaches. -/
theorem Label.Inside.keeping {l : Label} (h : l.Inside) : l.Keeping := by
  cases l with
  | prjNode n => cases n <;> exact h
  | _ => trivial

/-- The loop over `$$prsnt` executes nodes and updates them. -/
theorem Label.Inside.draining {l : Label} (h : l.Inside) : l.Draining := by
  cases l with
  | prjNode n => cases n <;> trivial
  | _ => first | exact h | trivial

abbrev Takes {α : Type} (A : Label → Prop) (m : M α) : Prop := Writes Label.apply A m

/-! ## Walks -/

/-- `assert(erase == 1)` passes, or the program ends; nothing is written. -/
theorem checkErase_skips (n : Ptr) (w : World State Label Action) :
    checkErase n w = (.ok (), w) ∨ ∃ e, checkErase n w = (.error e, w) := by
  show (if (w.st.threadIDToNode (w.st.heap n).thread).isSome then pure () else stop .assertErase :
      M Unit) w = _ ∨ ∃ e, (if (w.st.threadIDToNode (w.st.heap n).thread).isSome then pure ()
        else stop .assertErase : M Unit) w = (.error e, w)
  split
  · exact Or.inl rfl
  · exact Or.inr ⟨_, rfl⟩

/-- `pthread_kill` and `pthread_join` write nothing: the program goes on, stands still or is killed.
    -/
theorem joinThread_skips (n : Ptr) (w : World State Label Action) :
    joinThread n w = (.ok (), w) ∨ ∃ e, joinThread n w = (.error e, w) := by
  show (if w.st.isExit n = true then pure () else
      if w.st.threadRoot = some n then if w.st.env.joins = true then pure () else stop .deadlock
      else if w.st.env.handler = true then pure () else stop .killed : M Unit) w = _ ∨
    ∃ e, (if w.st.isExit n = true then pure () else
      if w.st.threadRoot = some n then if w.st.env.joins = true then pure () else stop .deadlock
      else if w.st.env.handler = true then pure () else stop .killed : M Unit) w = (.error e, w)
  split_ifs
  · exact Or.inl rfl
  · exact Or.inl rfl
  · exact Or.inr ⟨_, rfl⟩
  · exact Or.inl rfl
  · exact Or.inr ⟨_, rfl⟩

/-- The destructor's checks change nothing, whether the program goes on or not. -/
theorem release_skips (n : Ptr) (w : World State Label Action) :
    release n w = (.ok (), w) ∨ ∃ e, release n w = (.error e, w) := by
  show Prog.bind (checkErase n) (fun _ => joinThread n) w = _ ∨
    ∃ e, Prog.bind (checkErase n) (fun _ => joinThread n) w = (.error e, w)
  unfold Prog.bind
  rcases checkErase_skips n w with hcheck | ⟨e, hcheck⟩
  · rw [hcheck]
    exact joinThread_skips n w
  · rw [hcheck]
    exact Or.inr ⟨e, rfl⟩

/-- An assert takes no step. -/
theorem takes_checkErase {A : Label → Prop} (n : Ptr) : Takes A (checkErase n) :=
  .get fun _ => .ite (.pure _) (.stop _)

/-- Neither do the checks of the destructor. -/
theorem takes_release {A : Label → Prop} (n : Ptr) : Takes A (release n) :=
  .bind (takes_checkErase n) fun _ => .get fun _ =>
    .ite (.pure _) (.ite (.ite (.pure _) (.stop _)) (.ite (.pure _) (.stop _)))

/-- `~Node` deletes the last child as long as there is one. -/
theorem takes_deleteChilds (f : Nat) : ∀ n, Takes Label.Walk (deleteChilds f n) := by
  induction f with
  | zero => exact fun n => .stop _
  | succ f ih =>
    intro n
    refine .get fun s => ?_
    split
    · exact .pure _
    · exact .bind (ih _) fun _ => .bind (takes_release _) fun _ => .act_bind trivial (ih n)

/-- Deleting a child deletes what is below it, and takes it out of the vector. -/
theorem takes_deleteSlot (f : Nat) (owner : Ptr) (i : Nat) (n : Ptr) :
    Takes Label.Walk (deleteSlot f owner i n) :=
  .bind (takes_deleteChilds f n) fun _ => .bind (takes_release n) fun _ => .act trivial

/-- A conversion is one step. -/
theorem takes_replaceSlot (owner : Ptr) (i : Nat) (n : Ptr) :
    Takes Label.Inside (replaceSlot owner i n) :=
  .bind (takes_checkErase n) fun _ => .act trivial

section

variable {ic : Ptr → M Bool} (hic : ∀ n, Takes Label.Walk (ic n))

include hic

/-- The scan of an AND node marks it, and deletes its EMPTY leaves. -/
theorem takes_andScan (f : Nat) : ∀ n i e k, Takes Label.Walk (andScan ic f n i e k) := by
  induction f with
  | zero => exact fun _ _ _ _ => .stop _
  | succ f ih =>
    intro n i e k
    refine .get fun s => ?_
    split
    · exact .pure _
    · refine .bind (hic _) fun exited => .get fun t => ?_
      split
      · refine .act_bind trivial (.ite ?_ (ih _ _ _ _))
        exact .bind (takes_deleteSlot f _ _ _) fun _ => ih _ _ _ _
      · exact .ite (ih _ _ _ _) (ih _ _ _ _)

/-- After the scan an AND node writes its own length. -/
theorem takes_andCorrect (f : Nat) (n : Ptr) : Takes Label.Walk (andCorrect ic f n) := by
  refine .get fun s => .bind (takes_andScan hic f n 0 0 0) fun _ => .get fun t => ?_
  split
  · exact .act_bind trivial (.pure _)
  · exact .ite (.act_bind trivial (.pure _)) (.pure _)

/-- The scan of a PAL node deletes the leaves that have ended, and marks it where one was EMPTY. -/
theorem takes_palScan (f : Nat) : ∀ n i e, Takes Label.Walk (palScan ic f n i e) := by
  induction f with
  | zero => exact fun _ _ _ => .stop _
  | succ f ih =>
    intro n i e
    refine .get fun s => ?_
    split
    · exact .pure _
    · refine .bind (hic _) fun exited => .get fun t => ?_
      split
      · split
        · exact .act_bind trivial (.bind (takes_deleteSlot f _ _ _) fun _ => ih _ _ _)
        · exact .bind (takes_deleteSlot f _ _ _) fun _ => ih _ _ _
      · exact ih _ _ _

/-- After the scan a PAL node writes its own length. -/
theorem takes_palCorrect (f : Nat) (n : Ptr) : Takes Label.Walk (palCorrect ic f n) := by
  refine .get fun s => .bind (takes_palScan hic f n 0 0) fun _ => .get fun t => ?_
  exact .ite (.pure _) (.ite (.act_bind trivial (.pure _)) (.pure _))

end

/-- A PRJ node deletes nothing here, it only writes its length. -/
theorem takes_prjCorrect (n : Ptr) : Takes Label.Walk (prjCorrect n) := by
  refine .get fun s => ?_
  split
  · exact .stop _
  · exact .ite (.pure _) (.ite (.act_bind trivial (.pure _)) (.pure _))

/-- Whatever the type, `isCorrectAndExit` is a walk: lengths, marks and deletions. -/
theorem takes_isCorrectAndExit (f : Nat) : ∀ n, Takes Label.Walk (isCorrectAndExit f n) := by
  induction f with
  | zero => exact fun _ => .stop _
  | succ f ih =>
    intro n
    refine .get fun s => ?_
    split
    · exact takes_andCorrect ih f n
    · exact takes_palCorrect ih f n
    · exact takes_prjCorrect n
    all_goals exact .pure _

/-- What library calls do may be done inside `excute`. -/
theorem takes_inside {α : Type} {m : M α} (h : Takes Label.Still m) : Takes Label.Inside m :=
  .mono (fun _ => Label.Still.inside) h

/-! ## Library calls and turns -/

/-- A step that is taken sometimes. -/
theorem takes_when {A : Label → Prop} {b : Bool} {m : M Unit} (h : Takes A m) : Takes A (when b m) :=
  .ite h (.pure _)

/-- Up the chain of AND nodes: lengths, marks and the request for LEAF. -/
theorem takes_setAndLen (f : Nat) : ∀ o, Takes Label.Still (setAndLen f o) := by
  induction f with
  | zero => exact fun _ => .stop _
  | succ f ih =>
    intro o
    cases o with
    | none => exact .pure _
    | some node =>
      refine .get fun s => .ite (.pure _) ?_
      refine .bind (takes_when (.act trivial)) fun _ => .get fun t => ?_
      refine .ite (.act_bind trivial (ih _)) (.ite ?_ (.pure _))
      exact .act_bind trivial (.act trivial)

/-- A PAL node gets a length; where that is EMPTY it asks for LEAF. -/
theorem takes_setPalLen (node : Ptr) : Takes Label.Still (setPalLen node) :=
  .get fun _ => .ite (.act trivial) (.ite (.act_bind trivial (.act trivial)) (.pure _))

/-- A PRJ node that ends gets its length and asks for LEAF; otherwise it may become `prjNode`. -/
theorem takes_setPrjLen (father child : Ptr) : Takes Label.Still (setPrjLen father child) :=
  .get fun _ => .ite (.act_bind trivial (.act trivial))
    (.ite (.pure _) (.ite (.pure _) (.ite (.act trivial) (.pure _))))

/-- `setNodeLength` writes the length of the caller's node, and goes on at the father. -/
theorem takes_setNodeLength (f : Nat) (self : Tid) (type : NodeLength) :
    Takes Label.Still (setNodeLength f self type) := by
  refine .get fun s => ?_
  split
  · exact .stop _
  · refine .act_bind trivial ?_
    split
    · exact .pure _
    · split
      · exact takes_setAndLen f _
      · exact takes_setPalLen _
      · exact takes_setPrjLen _ _
      all_goals exact .pure _

/-- `Init` makes a root, or the program ends. -/
theorem takes_init {A : Label → Prop} (hroot : ∀ type, A (.newRoot type)) (type : NodeType) :
    Takes A (init type) := by
  refine .get fun s => ?_
  split
  all_goals first
    | exact .stop _
    | exact .ite (.act (hroot _)) (.stop _)

/-- `MyCreateThread` makes the root if there is none, asks for the type of the caller's node and
    makes a child of it. -/
theorem takes_myCreateThread {A : Label → Prop} (hroot : ∀ type, A (.newRoot type))
    (hrequest : ∀ n type, A (.edit n (.request type))) (hthread : ∀ F id, A (.newThread F id))
    (self : Tid) (addr : Bool) (type : CreateType) (id : Tid) :
    Takes A (myCreateThread self addr type id) := by
  unfold myCreateThread
  split
  · exact .pure _
  · refine .get fun s => .bind (takes_when (takes_init hroot _)) fun _ => .get fun t => ?_
    split
    · exact .stop _
    · refine .act_bind (hrequest _ _) (.ite (.pure _) (.ite ?_ (.stop _)))
      exact .act (hthread _ _)

/-- Every library call leaves the shape of the tree to its caller, new threads apart. -/
theorem takes_runCall (f : Nat) (self : Tid) (c : Call) : Takes Label.Still (runCall f self c) := by
  cases c with
  | myCreateThread addr type id =>
    exact takes_myCreateThread (fun _ => trivial) (fun _ _ => trivial) (fun _ _ => trivial) self addr
      type id
  | setNodeLength type => exact takes_setNodeLength f self type
  | push left right priority => exact .act trivial

/-- What a thread does until it pauses or exits. -/
theorem takes_runThread (f : Nat) (self : Tid) : Takes Label.Still (runThread f self) := by
  induction f with
  | zero => exact .stop _
  | succ f ih =>
    refine .read fun a => ?_
    cases a with
    | call c => exact .bind (takes_runCall f self c) fun _ => ih
    | pause => exact .pure _
    | exit => exact .act trivial

/-- A turn is noted, the node marked as initialised; then the thread runs. -/
theorem takes_turn (f : Nat) (n : Ptr) : Takes Label.Inside (turn f n) :=
  .act_bind trivial (.act_bind trivial (.get fun _ => takes_inside (takes_runThread f _)))

/-! ## excute -/

/-- Raising the lengths upwards. -/
theorem takes_raiseLen (f : Nat) : ∀ o, Takes Label.Still (raiseLen f o) := by
  induction f with
  | zero => exact fun _ => .stop _
  | succ f ih =>
    intro o
    cases o with
    | none => exact .pure _
    | some temp => exact .get fun _ => .ite (.pure _) (.act_bind trivial (ih _))

/-- A leaf gets one turn, or none if it has ended. -/
theorem takes_leafExcute (f : Nat) (n : Ptr) : Takes Label.Inside (leafExcute f n) :=
  .get fun _ => .ite (.pure _) (takes_turn f n)

/-- A KEEP node is given one turn, then its children wait in `keepChilds`. -/
theorem takes_keepExcute (f : Nat) (n : Ptr) : Takes Label.Inside (keepExcute f n) :=
  .get fun _ => .ite (.pure _) (.bind (takes_turn f n) fun _ => .act trivial)

/-- An ALW node is given one turn, then its father has its children. -/
theorem takes_alwExcute (f : Nat) (n : Ptr) : Takes Label.Inside (alwExcute f n) := by
  refine .get fun _ => .ite (.pure _) (.bind (takes_turn f n) fun _ => .get fun s => ?_)
  split
  · exact .stop _
  · exact .act_bind trivial (takes_when (takes_inside (takes_raiseLen f _)))

section

variable {ex : Ptr → M Unit} (hex : ∀ n, Takes Label.Inside (ex n))

include hex

/-- A slot is executed and converted, until it asks for nothing. -/
theorem takes_excuteSlot (f : Nat) : ∀ owner i, Takes Label.Inside (excuteSlot ex f owner i) := by
  induction f with
  | zero => exact fun _ _ => .stop _
  | succ f ih =>
    intro owner i
    refine .get fun s => ?_
    split
    · exact .stop _
    · refine .act_bind trivial (.bind (hex _) fun _ => .get fun t => ?_)
      refine .ite (.bind (takes_replaceSlot _ _ _) fun _ => .act_bind trivial (ih _ _)) ?_
      exact .act trivial

/-- One slot after the other. -/
theorem takes_excuteChilds (f : Nat) : ∀ n i, Takes Label.Inside (excuteChilds ex f n i) := by
  induction f with
  | zero => exact fun _ _ => .stop _
  | succ f ih =>
    intro n i
    exact .get fun s => .ite (.bind (takes_excuteSlot hex f n i) fun _ => ih _ _) (.pure _)

/-- The iterator of PAL adds a check. -/
theorem takes_throughIterator (n child : Ptr) : Takes Label.Inside (throughIterator ex n child) :=
  .get fun _ => .bind (hex child) fun _ => .get fun _ => .ite (.stop _) (.pure _)

/-- `AndNode::excute` walks, then it ends or executes its children. -/
theorem takes_andExcute (f : Nat) (n : Ptr) : Takes Label.Inside (andExcute ex f n) :=
  .bind (.mono (fun _ => Label.Walk.inside) (takes_andCorrect (takes_isCorrectAndExit f) f n))
    fun _ => .ite (.act trivial) (takes_excuteChilds hex f n 0)

/-- `PalNode::excute` likewise, by way of its iterator. -/
theorem takes_palExcute (f : Nat) (n : Ptr) : Takes Label.Inside (palExcute ex f n) :=
  .bind (.mono (fun _ => Label.Walk.inside) (takes_palCorrect (takes_isCorrectAndExit f) f n))
    fun _ => .ite (.act trivial) (takes_excuteChilds (takes_throughIterator hex n) f n 0)

/-- The p's that have ended are deleted, the next one is executed. -/
theorem takes_prjNext (f : Nat) : ∀ n, Takes Label.Inside (prjNext ex f n) := by
  induction f with
  | zero => exact fun _ => .stop _
  | succ f ih =>
    intro n
    refine .get fun s => ?_
    split
    · exact .stop _
    · refine .ite (.act_bind trivial (.bind ?_ fun _ => .get fun t => ?_)) (.pure _)
      · exact .mono (fun _ => Label.Walk.inside) (takes_deleteSlot f n 1 _)
      · exact .ite (.pure _) (.bind (takes_excuteSlot hex f n 1) fun _ => ih n)

/-- With no p left the q may go on, otherwise the first p is executed. -/
theorem takes_prjP (f : Nat) (n : Ptr) : Takes Label.Inside (prjP ex f n) :=
  .get fun _ => .ite (.act trivial) (.bind (takes_excuteSlot hex f n 1) fun _ => takes_prjNext hex f n)

/-- The q is executed if it is due and has not ended. -/
theorem takes_prjQ (f : Nat) (n : Ptr) : Takes Label.Inside (prjQ ex f n) := by
  refine .get fun s => .act_bind trivial (.ite ?_ (.pure _))
  split
  · exact .stop _
  · refine .bind (.mono (fun _ => Label.Walk.inside) (takes_isCorrectAndExit f _)) fun _ => ?_
    exact .ite (.pure _) (.bind (takes_excuteSlot hex f n 0) fun _ => .act trivial)

/-- `PrjNode::excute`: the p's, then the q. -/
theorem takes_prjExcute (f : Nat) (n : Ptr) : Takes Label.Inside (prjExcute ex f n) :=
  .bind (.mono (fun _ => Label.Walk.inside) (takes_prjCorrect n)) fun _ =>
    .ite (.act trivial) (.bind (takes_prjP hex f n) fun _ => takes_prjQ hex f n)

end

/-- **`excute` stays inside**: no element is popped, no statement is ended, nothing waiting is
    touched. -/
theorem takes_excute (f : Nat) : ∀ n, Takes Label.Inside (excute f n) := by
  induction f with
  | zero => exact fun _ => .stop _
  | succ f ih =>
    intro n
    refine .get fun s => ?_
    split
    · exact takes_andExcute ih f n
    · exact takes_palExcute ih f n
    · exact takes_prjExcute ih f n
    · exact takes_keepExcute f n
    · exact takes_alwExcute f n
    · exact takes_leafExcute f n

/-! ## updateNode and keepChilds -/

/-- `updateNode` converts the node and executes what comes of it. -/
theorem takes_updateNode (f : Nat) (node : Ptr) : Takes Label.Inside (updateNode f node) := by
  refine .act_bind trivial (.get fun s => .ite (.pure _) ?_)
  split
  · exact .stop _
  · split
    · exact .stop _
    · exact .bind (takes_replaceSlot _ _ _) fun _ => takes_excuteSlot (takes_excute f) f _ _

/-- A keep child is attached and executed, then it and its father are updated. -/
theorem takes_keepExcuteChild (f : Nat) (node father : Ptr) :
    Takes Label.Keeping (keepExcuteChild f node father) := by
  have hin : ∀ {α : Type} {m : M α}, Takes Label.Inside m → Takes Label.Keeping m :=
    .mono fun _ => Label.Inside.keeping
  refine .act_bind trivial (.bind (hin (takes_inside (takes_raiseLen f _))) fun _ => ?_)
  refine .act_bind trivial (.act_bind trivial (.bind (hin (takes_excute f _)) fun _ => ?_))
  refine .bind (hin (takes_updateNode f _)) fun _ => .act_bind trivial (.get fun s => ?_)
  split
  · exact .stop _
  · exact .bind (hin (takes_updateNode f _)) fun _ => .act trivial

/-- All that waits is attached or deleted. -/
theorem takes_excuteKeepChilds (f : Nat) : Takes Label.Keeping (excuteKeepChilds f) := by
  induction f with
  | zero => exact .stop _
  | succ f ih =>
    refine .get fun s => ?_
    split
    · exact .act trivial
    · split
      · exact .stop _
      · refine .ite (.act_bind trivial (.bind ?_ fun _ => ?_)) ?_
        · exact .mono (fun _ h => h.inside.keeping) (takes_deleteChilds f _)
        · exact .bind (takes_release _) fun _ => .act_bind trivial ih
        · split
          · exact .stop _
          · exact .bind (takes_keepExcuteChild f _ _) fun _ => ih

/-! ## The loop over `$$prsnt` -/

/-- What `excute` does may be done in the loop over `$$prsnt`. -/
theorem takes_draining {α : Type} {m : M α} (h : Takes Label.Inside m) : Takes Label.Draining m :=
  .mono (fun _ hl => hl.draining) h

/-- An element is popped, its reader executed and updated, and the element freed. -/
theorem takes_excuteElement (f : Nat) (ele : Element) :
    Takes Label.Draining (excuteElement f ele) := by
  refine .act_bind trivial (.get fun s => ?_)
  split
  · exact .stop _
  · refine .act_bind trivial (.bind (takes_draining (takes_excute f _)) fun _ => ?_)
    refine .bind (takes_draining (takes_updateNode f _)) fun _ => .act_bind trivial ?_
    refine .bind (.get fun s => ?_) fun _ => .act trivial
    split
    · exact .pure _
    · exact .bind (takes_draining (takes_updateNode f _)) fun _ => .act trivial

/-- **The loop over `$$prsnt`** ends neither a state nor the statement, and leaves `keepChilds`
    alone. -/
theorem takes_drain (f : Nat) : Takes Label.Draining (drain f) := by
  induction f with
  | zero => exact .stop _
  | succ f ih =>
    refine .get fun s => ?_
    split
    · exact .pure _
    · exact .bind (takes_excuteElement f _) fun _ => .get fun t => .ite (.pure _) ih

/-- The projection that was put off. -/
theorem takes_deferredPrj (f : Nat) : Takes Label.Draining (deferredPrj f) := by
  refine .get fun s => ?_
  split
  · exact .pure _
  · exact .act_bind trivial (.bind (takes_draining (takes_excute f _)) fun _ => .act trivial)

end Msvl.Function
