/-
  hasExtQ is written before it is read.

  No constructor assigns `hasExtQ`; `PrjNode::excute` does, between the p's and the q.  A p that ends
  in its first turn, inside the first `excute` of its projection, has `setPrjLen` read the flag
  before that (`names_unassigned`).

  * `State.AsksFlag` — the path of `setPrjLen` that comes to `getHasExtQ`; `setPrjLen_asks` is what it
    does there, and on every other path `prjNode` is not written.
  * `Obeys FlagFirst past m` — in the log of `m`, `extQ = false` comes after an assignment of
    `hasExtQ`.  One lemma for each function; the crux is `obeys_prjQ`, where the assignment is in the
    past of everything that the q does.
  * `run_written` — a read that comes after the q of the projection has been executed once comes
    after an assignment.
-/
import LibMSVL.Function.Ledger
import LibMSVL.Function.Light
import LibMSVL.Lib.Along

namespace Msvl.Function

open Msvl.Run

/-! ## Reads and assignments -/

/-- `setPrjLen(P, c)` comes to `getHasExtQ`. -/
def State.AsksFlag (s : State) (P c : Ptr) : Prop :=
  (s.childs P).countP (fun d => (s.heap d).len != .more && (s.heap d).type == .leaf) ≠
      (s.childs P).length ∧
    (s.childs P).head? ≠ some c ∧
    (if c ∈ s.childs P then (s.childs P).idxOf c + 1 == (s.childs P).length else s.env.garbage c) = false

instance (s : State) (P c : Ptr) : Decidable (s.AsksFlag P c) :=
  inferInstanceAs (Decidable (_ ∧ _ ∧ _))

/-- The value that is read. -/
def State.hasExtQ (s : State) (P : Ptr) : Bool := (s.heap P).hasExtQ.getD (s.env.garbage P)

theorem setPrjLen_asks {s : State} {P c : Ptr} (h : s.AsksFlag P c) (input : List Action)
    (log : Log) : setPrjLen P c ⟨s, input, log⟩ =
      if s.hasExtQ P = false then act (.prjNode (some P)) ⟨s, input, log⟩ else (.ok (), ⟨s, input, log⟩) := by
  obtain ⟨hsum, hhead, hend⟩ := h
  show (if (s.childs P).countP (fun d => (s.heap d).len != .more && (s.heap d).type == .leaf) =
      (s.childs P).length then _ else _ : M Unit) ⟨s, input, log⟩ = _
  rw [if_neg hsum]
  show (if (s.childs P).head? = some c then _ else _ : M Unit) ⟨s, input, log⟩ = _
  rw [if_neg hhead]
  show (if (if c ∈ s.childs P then (s.childs P).idxOf c + 1 == (s.childs P).length
    else s.env.garbage c) = true then _ else _ : M Unit) ⟨s, input, log⟩ = _
  rw [hend, if_neg (by nofun)]
  show (if s.hasExtQ P = false then _ else _ : M Unit) ⟨s, input, log⟩ = _
  split <;> rfl

/-- The projection whose `hasExtQ` `setPrjLen` reads after the step: it is the length that a thread
    sets for its node `c`.  (To a node that is no composite only `setNodeLength` writes anything but
    MORE.) -/
def Label.readsHasExtQ (l : Label) (s : State) : Option Ptr :=
  match l with
  | .edit c (.len _) => (s.father c).filter fun P =>
      s.type P = .prj ∧ ¬ (s.type c).Composite ∧ (l.apply s).AsksFlag P c
  | _ => none

def Label.AssignsHasExtQ (P : Ptr) : Label → Prop
  | .edit n (.hasExtQ _) => n = P
  | _ => False

instance (P : Ptr) (l : Label) : Decidable (l.AssignsHasExtQ P) := by
  unfold Label.AssignsHasExtQ
  split <;> infer_instance

/-- `hasExtQ` of `P` has been assigned. -/
def Assigned (log : Log) (P : Ptr) : Prop := ∃ e ∈ log, e.1.AssignsHasExtQ P

/-- The q of `P` has been executed: `PrjNode::excute` has come to its last statement, `extQ = false`. -/
def ExecutedQ (log : Log) (P : Ptr) : Prop := ∃ e ∈ log, e.1 = .edit P (.extQ false)

instance (log : Log) (P : Ptr) : Decidable (Assigned log P) :=
  inferInstanceAs (Decidable (∃ e ∈ log, e.1.AssignsHasExtQ P))

instance (log : Log) (P : Ptr) : Decidable (ExecutedQ log P) :=
  inferInstanceAs (Decidable (∃ e ∈ log, e.1 = .edit P (.extQ false)))

/-- Every read of a `hasExtQ` comes after an assignment to it. -/
def WrittenFirst (log : Log) : Prop :=
  ∀ older l s, (l, s) :: older <:+ log → ∀ P ∈ l.readsHasExtQ s, Assigned older P

/-- Every read of a `hasExtQ` comes after an execution of the q. -/
def ReadAfterQ (log : Log) : Prop :=
  ∀ older l s, (l, s) :: older <:+ log → ∀ P ∈ l.readsHasExtQ s, ExecutedQ older P

instance (log : Log) : Decidable (WrittenFirst log) := decidable_of_iff _ along_iff

instance (log : Log) : Decidable (ReadAfterQ log) := decidable_of_iff _ along_iff

/-! ## The order of the assignments -/

/-- `extQ = false` comes after an assignment of `hasExtQ`. -/
def FlagFirst (log : Log) : Label → State → Prop
  | .edit P (.extQ false), _ => Assigned log P
  | _, _ => True

/-- Steps that do not write `extQ`. -/
def Label.KeepsExtQ : Label → Prop
  | .edit _ (.extQ _) => False
  | _ => True

theorem Label.KeepsExtQ.flagFirst {l : Label} (h : l.KeepsExtQ) (log : Log) (s : State) :
    FlagFirst log l s := by
  cases l with
  | edit n e =>
    cases e with
    | extQ b => exact h.elim
    | _ => trivial
  | _ => trivial

theorem Label.Walk.keepsExtQ {l : Label} (h : l.Walk) : l.KeepsExtQ := by
  cases l with
  | edit n e =>
    cases e with
    | extQ b => exact h.elim
    | _ => trivial
  | _ => trivial

theorem Label.Light.keepsExtQ {l : Label} {s : State} (h : l.Light s) : l.KeepsExtQ := by
  cases l with
  | edit n e =>
    cases e with
    | extQ b => exact h.elim
    | _ => trivial
  | _ => trivial

/-- Once `past` has been logged, what `m` adds is in this order. -/
abbrev Orderly {α : Type} (past : Log) (m : M α) : Prop := Obeys FlagFirst past m

section

variable {α : Type} {m : M α} {past : Log}

theorem Orderly.walk (hm : Takes Label.Walk m) : Orderly past m :=
  Obeys.of_spec hm fun _ s log hl => hl.keepsExtQ.flagFirst log s

theorem Orderly.act {l : Label} (hl : l.KeepsExtQ) : Orderly past (act l) :=
  Obeys.act fun log s _ => hl.flagFirst log s

theorem Orderly.step {l : Label} {f : Unit → M α} (hl : l.KeepsExtQ) (hf : Orderly past (f ())) :
    Orderly past (Msvl.Function.act l >>= f) :=
  Obeys.bind (Orderly.act hl) fun _ => hf

end

/-! ## Turns -/

theorem orderly_checkErase (past : Log) (n : Ptr) : Orderly past (checkErase n) :=
  Orderly.walk (takes_checkErase n)

theorem orderly_release (past : Log) (n : Ptr) : Orderly past (release n) :=
  Orderly.walk (takes_release n)

theorem orderly_deleteChilds (past : Log) (f : Nat) (n : Ptr) : Orderly past (deleteChilds f n) :=
  Orderly.walk (takes_deleteChilds f n)

theorem orderly_runCall (past : Log) (f : Nat) (self : Tid) (c : Call) :
    Orderly past (runCall f self c) := by
  cases c with
  | myCreateThread addr type id =>
    refine Obeys.of_spec (takes_myCreateThread (A := Label.KeepsExtQ) (fun _ => trivial)
      (fun _ _ => trivial) (fun _ _ => trivial) self addr type id) ?_
    exact fun _ s log hl => hl.flagFirst log s
  | setNodeLength type =>
    have hspec : ∀ s, Spec Label.apply (fun l u => ∀ log, FlagFirst log l u) (fun _ => True)
        (setNodeLength f self type) s fun _ _ => True := by
      refine fun s => Spec.get ?_
      split
      · exact Spec.stop trivial
      · next node _ =>
        refine Spec.act_bind (fun _ => trivial) ?_
        refine Spec.imp (Spec.weaken (fun _ u hl log => hl.keepsExtQ.flagFirst log u)
          (lightly_setFather f node _ (sameTypes_edit s node (.len type) ()))) ?_
        exact fun _ _ _ _ => trivial
    exact Obeys.of_spec hspec fun _ _ log hl => hl log
  | push left right priority => exact Orderly.act trivial

theorem orderly_runThread (past : Log) (f : Nat) (self : Tid) : Orderly past (runThread f self) := by
  induction f with
  | zero => exact Obeys.stop _
  | succ f ih =>
    refine Obeys.read fun a => ?_
    cases a with
    | call c => exact Obeys.bind (orderly_runCall past f self c) fun _ => ih
    | pause => exact Obeys.pure _
    | exit => exact Orderly.act trivial

theorem orderly_turn (past : Log) (f : Nat) (n : Ptr) : Orderly past (turn f n) :=
  Orderly.step trivial (Orderly.step trivial (Obeys.get fun _ => orderly_runThread past f _))

theorem orderly_leafExcute (past : Log) (f : Nat) (n : Ptr) : Orderly past (leafExcute f n) :=
  Obeys.get fun _ => Obeys.ite (Obeys.pure _) (orderly_turn past f n)

theorem orderly_keepExcute (past : Log) (f : Nat) (n : Ptr) : Orderly past (keepExcute f n) :=
  Obeys.get fun _ => Obeys.ite (Obeys.pure _)
    (Obeys.bind (orderly_turn past f n) fun _ => Orderly.act trivial)

theorem orderly_raiseLen (past : Log) (f : Nat) (o : Option Ptr) : Orderly past (raiseLen f o) :=
  Obeys.of_spec (lightly_raiseLen f o) fun _ s log hl => hl.keepsExtQ.flagFirst log s

theorem orderly_alwExcute (past : Log) (f : Nat) (n : Ptr) : Orderly past (alwExcute f n) := by
  refine Obeys.get fun _ => Obeys.ite (Obeys.pure _) (Obeys.bind (orderly_turn past f n) fun _ => ?_)
  refine Obeys.get fun s => ?_
  split
  · exact Obeys.stop _
  · exact Orderly.step trivial (Obeys.ite (orderly_raiseLen past f _) (Obeys.pure _))

/-! ## excute -/

section

variable {ex : Ptr → M Unit} (hex : ∀ past n, Orderly past (ex n))

include hex

theorem orderly_excuteSlot (past : Log) (f : Nat) (owner : Ptr) (i : Nat) :
    Orderly past (excuteSlot ex f owner i) := by
  induction f with
  | zero => exact Obeys.stop _
  | succ f ih =>
    refine Obeys.get fun s => ?_
    split
    · exact Obeys.stop _
    · refine Orderly.step trivial (Obeys.bind (hex past _) fun _ => Obeys.get fun t => ?_)
      refine Obeys.ite (Obeys.bind ?_ fun _ => Orderly.step trivial ih) (Orderly.act trivial)
      exact Obeys.bind (orderly_checkErase past _) fun _ => Orderly.act trivial

theorem orderly_excuteChilds (past : Log) (f : Nat) (n : Ptr) : ∀ i,
    Orderly past (excuteChilds ex f n i) := by
  induction f with
  | zero => exact fun _ => Obeys.stop _
  | succ f ih =>
    intro i
    refine Obeys.get fun s => Obeys.ite (Obeys.bind ?_ fun _ => ih (i + 1)) (Obeys.pure _)
    exact orderly_excuteSlot hex past f n i

theorem orderly_prjNext (past : Log) (f : Nat) (n : Ptr) : Orderly past (prjNext ex f n) := by
  induction f with
  | zero => exact Obeys.stop _
  | succ f ih =>
    refine Obeys.get fun s => ?_
    split
    · exact Obeys.stop _
    · next p _ =>
      refine Obeys.ite (Obeys.bind (Obeys.act fun _ _ _ => trivial) fun _ => ?_) (Obeys.pure _)
      refine Obeys.bind ?_ fun _ => Obeys.get fun t => ?_
      · refine Obeys.bind (orderly_deleteChilds past f p) fun _ => ?_
        exact Obeys.bind (orderly_release past p) fun _ => Orderly.act trivial
      · exact Obeys.ite (Obeys.pure _)
          (Obeys.bind (orderly_excuteSlot hex past f n 1) fun _ => ih)

theorem orderly_prjP (past : Log) (f : Nat) (n : Ptr) : Orderly past (prjP ex f n) :=
  Obeys.get fun _ => Obeys.ite (Obeys.act fun _ _ _ => trivial)
    (Obeys.bind (orderly_excuteSlot hex past f n 1) fun _ => orderly_prjNext hex past f n)

/-- The assignment is in the past of what the q does. -/
theorem orderly_prjQ (past : Log) (f : Nat) (n : Ptr) : Orderly past (prjQ ex f n) := by
  refine Obeys.get fun s => Obeys.act_bind (fun _ _ _ => trivial) fun log u _ => ?_
  refine Obeys.ite ?_ (Obeys.pure _)
  split
  · exact Obeys.stop _
  · next q _ =>
    refine Obeys.bind (Orderly.walk (takes_isCorrectAndExit f q)) fun done => ?_
    refine Obeys.ite (Obeys.pure _) (Obeys.bind (orderly_excuteSlot hex _ f n 0) fun _ => ?_)
    refine Obeys.act fun log' _ hpast => ?_
    exact ⟨_, hpast.mem List.mem_cons_self, rfl⟩

theorem orderly_prjExcute (past : Log) (f : Nat) (n : Ptr) : Orderly past (prjExcute ex f n) := by
  refine Obeys.bind (Orderly.walk (takes_prjCorrect n)) fun done => ?_
  refine Obeys.ite (Orderly.act trivial) (Obeys.bind (orderly_prjP hex past f n) fun _ => ?_)
  exact orderly_prjQ hex past f n

theorem orderly_throughIterator (past : Log) (n child : Ptr) :
    Orderly past (throughIterator ex n child) :=
  Obeys.get fun _ => Obeys.bind (hex past child) fun _ =>
    Obeys.get fun _ => Obeys.ite (Obeys.stop _) (Obeys.pure _)

/-- `AndNode::excute` and `PalNode::excute`. -/
theorem orderly_done (past : Log) (f : Nat) {m : M Bool} (hm : Takes Label.Walk m) (n : Ptr) :
    Orderly past (m >>= fun done =>
      if done then act (.edit n (.leaf false)) else excuteChilds ex f n 0) :=
  Obeys.bind (Orderly.walk hm) fun _ =>
    Obeys.ite (Orderly.act trivial) (orderly_excuteChilds hex past f n 0)

end

theorem orderly_excute (f : Nat) : ∀ past n, Orderly past (excute f n) := by
  induction f with
  | zero => exact fun _ _ => Obeys.stop _
  | succ f ih =>
    intro past n
    refine Obeys.get fun s => ?_
    split
    · exact orderly_done ih past f (takes_andCorrect (takes_isCorrectAndExit f) f n) n
    · exact orderly_done (fun past => orderly_throughIterator ih past n) past f
        (takes_palCorrect (takes_isCorrectAndExit f) f n) n
    · exact orderly_prjExcute ih past f n
    · exact orderly_keepExcute past f n
    · exact orderly_alwExcute past f n
    · exact orderly_leafExcute past f n

/-! ## The manager -/

theorem orderly_updateNode (past : Log) (f : Nat) (node : Ptr) :
    Orderly past (updateNode f node) := by
  refine Orderly.step trivial (Obeys.get fun s => Obeys.ite (Obeys.pure _) ?_)
  split
  · exact Obeys.stop _
  · split
    · exact Obeys.stop _
    · refine Obeys.bind (Obeys.bind (orderly_checkErase past node) fun _ => ?_) fun _ => ?_
      · exact Orderly.act trivial
      · exact orderly_excuteSlot (orderly_excute f) past f _ _

theorem orderly_keepExcuteChild (past : Log) (f : Nat) (node father : Ptr) :
    Orderly past (keepExcuteChild f node father) := by
  refine Orderly.step trivial (Obeys.bind (orderly_raiseLen past f _) fun _ => ?_)
  refine Orderly.step trivial (Orderly.step trivial ?_)
  refine Obeys.bind (orderly_excute f past node) fun _ => ?_
  refine Obeys.bind (orderly_updateNode past f node) fun _ => Orderly.step trivial ?_
  refine Obeys.get fun s => ?_
  split
  · exact Obeys.stop _
  · exact Obeys.bind (orderly_updateNode past f _) fun _ => Orderly.act trivial

theorem orderly_excuteKeepChilds (past : Log) (f : Nat) : Orderly past (excuteKeepChilds f) := by
  induction f with
  | zero => exact Obeys.stop _
  | succ f ih =>
    refine Obeys.get fun s => ?_
    split
    · exact Orderly.act trivial
    · next node _ =>
      split
      · exact Obeys.stop _
      · refine Obeys.ite (Orderly.step trivial ?_) ?_
        · refine Obeys.bind (orderly_deleteChilds past f node) fun _ => ?_
          exact Obeys.bind (orderly_release past node) fun _ => Orderly.step trivial ih
        · split
          · exact Obeys.stop _
          · exact Obeys.bind (orderly_keepExcuteChild past f node _) fun _ => ih

theorem orderly_updateChanged (past : Log) (f : Nat) : Orderly past (updateChanged f) := by
  refine Obeys.get fun s => ?_
  split
  · exact Obeys.pure _
  · exact Obeys.bind (orderly_updateNode past f _) fun _ => Orderly.act trivial

theorem orderly_excuteElement (past : Log) (f : Nat) (ele : Element) :
    Orderly past (excuteElement f ele) := by
  refine Orderly.step trivial (Obeys.get fun s => ?_)
  split
  · exact Obeys.stop _
  · refine Orderly.step trivial (Obeys.bind (orderly_excute f past _) fun _ => ?_)
    refine Obeys.bind (orderly_updateNode past f _) fun _ => Orderly.step trivial ?_
    exact Obeys.bind (orderly_updateChanged past f) fun _ => Orderly.act trivial

theorem orderly_drain (past : Log) (f : Nat) : Orderly past (drain f) := by
  induction f with
  | zero => exact Obeys.stop _
  | succ f ih =>
    refine Obeys.get fun s => ?_
    split
    · exact Obeys.pure _
    · refine Obeys.bind (orderly_excuteElement past f _) fun _ => Obeys.get fun t => ?_
      exact Obeys.ite (Obeys.pure _) ih

theorem orderly_deferredPrj (past : Log) (f : Nat) : Orderly past (deferredPrj f) := by
  refine Obeys.get fun s => ?_
  split
  · exact Obeys.pure _
  · refine Orderly.step trivial (Obeys.bind (orderly_excute f past _) fun _ => ?_)
    exact Orderly.act trivial

theorem orderly_sort (past : Log) (f : Nat) (root : Ptr) : Orderly past (sort f root) := by
  induction f with
  | zero => exact Obeys.stop _
  | succ f ih =>
    refine Obeys.bind (orderly_deferredPrj past f) fun _ => ?_
    refine Obeys.bind (orderly_drain past f) fun again => Obeys.ite ih ?_
    refine Obeys.bind (Orderly.walk (takes_isCorrectAndExit f root)) fun _ => Obeys.get fun s => ?_
    exact Obeys.ite (Orderly.act trivial) (Obeys.bind (orderly_excuteKeepChilds past f) fun _ => ih)

theorem orderly_states (past : Log) (f : Nat) (root : Ptr) : Orderly past (states f root) := by
  induction f with
  | zero => exact Obeys.stop _
  | succ f ih =>
    refine Obeys.get fun s => Obeys.ite (Obeys.pure _) ?_
    refine Obeys.bind (orderly_excute f past root) fun _ => ?_
    refine Orderly.step trivial (Orderly.step trivial ?_)
    exact Obeys.bind (orderly_sort past f root) fun _ => ih

theorem orderly_managerThread (past : Log) (f : Nat) : Orderly past (managerThread f) := by
  refine Obeys.get fun s => ?_
  split
  · exact Obeys.pure _
  · next root _ =>
    refine Obeys.bind (orderly_states past f root) fun _ => ?_
    refine Obeys.bind (orderly_deleteChilds past f root) fun _ => ?_
    exact Obeys.bind (orderly_release past root) fun _ => Orderly.act trivial

theorem orderly_statements (past : Log) (f : Nat) : Orderly past (statements f) := by
  induction f with
  | zero => exact Obeys.stop _
  | succ f ih =>
    refine Obeys.get fun s => Obeys.bind (orderly_runThread past f s.mainThread) fun _ => ?_
    exact Obeys.bind (orderly_managerThread past f) fun _ => ih

/-! ## Runs -/

/-- What has executed the q has assigned the flag before. -/
theorem assigned_of_executedQ {log : Log} (h : Along FlagFirst log) {P : Ptr} (hq : ExecutedQ log P) :
    Assigned log P := by
  obtain ⟨⟨l, u⟩, hmem, rfl⟩ := hq
  obtain ⟨newer, older, rfl⟩ := List.append_of_mem hmem
  obtain ⟨e, he, hassigns⟩ : Assigned older P := h.split.2
  exact ⟨e, by simp [he], hassigns⟩

/-- **hasExtQ is written before it is read**, in every run in which the projections that are asked for
    it have executed their q. -/
theorem run_writtenFirst (f : Nat) (mainThread : Tid) (env : Env) (input : List Action)
    (hq : ReadAfterQ (run f mainThread env input).2.log) :
    WrittenFirst (run f mainThread env input).2.log := by
  have hrun : Along FlagFirst (run f mainThread env input).2.log :=
    (orderly_statements [] f ⟨start mainThread env, input, []⟩ (List.suffix_refl _)).2 trivial
  rintro older l s ⟨newer, hlog⟩ P hP
  rw [← hlog] at hrun
  exact assigned_of_executedQ hrun.split.1 (hq older l s ⟨newer, hlog⟩ P hP)

/-- A projection with a q and two p's, the first of which ends in the second state. -/
def secondStateEnd : List Action :=
  [.call (.myCreateThread true .prj 2), .call (.myCreateThread true .prj 3),
   .call (.myCreateThread true .prj 4), .pause,
   .pause, .pause,
   .call (.setNodeLength .empty), .exit,
   .pause, .pause]

theorem run_writtenFirst_second : WrittenFirst (run 10 1 plain secondStateEnd).2.log :=
  run_writtenFirst 10 1 plain secondStateEnd (by decide +kernel)

/-- The first p ends in its first turn. -/
def firstTurnEnd : List Action :=
  [.call (.myCreateThread true .prj 2), .call (.myCreateThread true .prj 3),
   .call (.myCreateThread true .prj 4), .pause,
   .call (.setNodeLength .empty), .exit,
   .pause, .pause]

/-- Then `setPrjLen` reads what no constructor and no `excute` has written. -/
theorem read_unassigned : ¬ WrittenFirst (run 10 1 plain firstTurnEnd).2.log := by
  decide +kernel

end Msvl.Function
