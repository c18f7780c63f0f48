/-
  What becomes of the elements of `$$prsnt`.

  Three lists are read off the log: `pushed`, `popped` and `freed`, the newest element first.

  1. `run_account` — what was pushed is popped or still on the stack.  This is about single steps.
  2. `Sound` — about the control flow of ManagerThread: an element popped is executed by the very
     next step, freed before the next is popped, and a state ends with nothing pending.  It
     survives pushes at any moment, since no function called from the loops pops, frees or ends a
     state (`Quiet`).  `Shelf now base w` is `Sound` inside of the loops, with `now` the elements that
     are popped and not freed, and `base` the calls of excute that have not returned.
  3. `Closed` — where a run may stop.  An element popped stays so only while a node is being executed:
     of what the loops do between two calls of excute, the search of `updateNode` alone could end
     the run (`keeps_updateChanged`).
  4. `Kept` — the first condition: no node is deleted while an element of its thread is pending.  It
     makes every pending element's thread have a node (`State.Served`).  Without it the `find` of the
     loop fails and the process ends in `assert(false)`.  The second is `Looking`.
-/
import LibMSVL.Function.Nested
import LibMSVL.Function.Order
import LibMSVL.Function.Search

namespace Msvl.Function

open Msvl.Run

abbrev Log := List (Label × State)

/-- The elements pushed, in the log of a run. -/
def pushed (log : Log) : List Element := log.filterMap fun x =>
  match x.1 with
  | .push e => some e
  | _ => none

/-- The elements popped. -/
def popped (log : Log) : List Element := log.filterMap fun x =>
  match x.1 with
  | .pop => x.2.prsnt.getLast?
  | _ => none

/-- The elements freed. -/
def freed (log : Log) : List Element := log.filterMap fun x =>
  match x.1 with
  | .free e => some e
  | _ => none

/-! ## Pushed and popped -/

/-- What is pushed is popped or pending, at any moment. -/
theorem account {G : Label → State → Prop} {s t : State} {es : Log}
    (h : Trace Label.apply G s es t) : (popped es ++ t.prsnt).Perm (s.prsnt ++ pushed es) := by
  induction h with
  | nil =>
    rw [pushed, List.filterMap_nil, List.append_nil]
    exact .refl _
  | @snoc t es l _ _ ih =>
    rw [apply_prsnt]
    cases l with
    | push e =>
      show (popped es ++ (t.prsnt ++ [e])).Perm (s.prsnt ++ e :: pushed es)
      rw [← List.append_assoc]
      exact List.perm_append_singleton _ _ |>.trans ((ih.cons e).trans List.perm_middle.symm)
    | pop =>
      show (popped ((.pop, t) :: es) ++ t.prsnt.dropLast).Perm (s.prsnt ++ pushed es)
      refine .trans ?_ ih
      rcases List.eq_nil_or_concat t.prsnt with hnil | ⟨rest, e, hrest⟩
      · simp [popped, hnil]
      · have hpop : popped ((.pop, t) :: es) = e :: popped es := by simp [popped, hrest]
        rw [hpop, hrest, List.concat_eq_append, List.dropLast_concat, ← List.append_assoc]
        exact (List.perm_append_singleton _ _).symm
    | _ => exact ih

/-! ## The control flow of the manager -/

/-- Every label but those of the ledger. -/
def Label.Quiet : Label → Prop
  | .pop | .free _ | .stateEnd => False
  | _ => True

theorem Label.Keeping.quiet {l : Label} (h : l.Keeping) : l.Quiet := by
  cases l <;> trivial

/-- Nothing is pending and no projection is deferred. -/
def State.Drained (s : State) : Prop := s.prsnt = [] ∧ s.prjNode = none

/-- What the log says of the loops of ManagerThread. -/
structure Sound (log : Log) : Prop where
  /-- a state ends with nothing pending, and all that was popped is freed -/
  ends : ∀ newer s older, log = newer ++ (.stateEnd, s) :: older →
    s.Drained ∧ freed older = popped older
  /-- an element popped is executed by the next step, and those before it are freed -/
  pops : ∀ newer s older, log = newer ++ (.pop, s) :: older → freed older = popped older ∧
    ∃ e ∈ s.prsnt.getLast?, newer = [] ∨ ∃ n newer',
      newer = newer' ++ [(.enter n, Label.apply .pop s)] ∧ s.threadIDToNode e.threadId = some n
  /-- elements are freed in the order they are popped, one at a time -/
  frees : ∃ now, now.length ≤ 1 ∧ popped log = now ++ freed log

theorem Sound.cons {log : Log} (h : Sound log) {l : Label} {s : State}
    (hpop : l = .pop → freed log = popped log ∧ ∃ e, e ∈ s.prsnt.getLast?)
    (hnext : ∀ u, log.head? = some (.pop, u) → ∃ e ∈ u.prsnt.getLast?, ∃ n,
      u.threadIDToNode e.threadId = some n ∧ (l, s) = (.enter n, Label.apply .pop u))
    (hend : l = .stateEnd → s.Drained ∧ freed log = popped log)
    (hnow : ∃ now, now.length ≤ 1 ∧ popped ((l, s) :: log) = now ++ freed ((l, s) :: log)) :
    Sound ((l, s) :: log) := by
  refine ⟨?_, ?_, hnow⟩
  · intro newer u older heq
    cases newer with
    | nil =>
      cases heq
      exact hend rfl
    | cons x newer =>
      injection heq with _ heq
      exact h.ends newer u older heq
  · intro newer u older heq
    cases newer with
    | nil =>
      cases heq
      obtain ⟨hfreed, e, he⟩ := hpop rfl
      exact ⟨hfreed, e, he, Or.inl rfl⟩
    | cons x newer =>
      injection heq with hx heq
      obtain ⟨hfreed, e, he, hempty | ⟨n, newer', hnewer, hn⟩⟩ := h.pops newer u older heq
      · subst hempty
        obtain ⟨e, he, n, hn, hls⟩ := hnext u (by rw [heq]; rfl)
        exact ⟨hfreed, e, he, Or.inr ⟨n, [], by rw [← hx, hls]; rfl, hn⟩⟩
      · exact ⟨hfreed, e, he, Or.inr ⟨n, x :: newer', by rw [hnewer]; rfl, hn⟩⟩

/-- `Sound` inside of the loops; `now` is popped but not freed. -/
structure Books (now : List Element) (w : World State Label Action) : Prop where
  sound : Sound w.log
  now : popped w.log = now ++ freed w.log
  clear : ∀ u, w.log.head? ≠ some (.pop, u)

/-- The steps were taken as the code takes them, and the searches of `updateNode` have ended. -/
def Followed (log : Log) : Prop := ∀ l s, (l, s) ∈ log → Inv s ∧ Guard 0 l s ∧ Finding l s

/-- Where a program stops. -/
structure Closed (e : Stop) (w : World State Label Action) : Prop where
  sound : Sound w.log
  /-- an element popped and not executed: its thread has no node -/
  lost : ∀ u, w.log.head? = some (.pop, u) → ∃ e ∈ u.prsnt.getLast?,
    u.threadIDToNode e.threadId = none
  /-- an element executed and not freed: the node is being executed, unless the bound is too small -/
  busy : Followed w.log → (∀ u, w.log.head? ≠ some (.pop, u)) →
    freed w.log = popped w.log ∨ w.st.active ≠ [] ∨ e = .fuel ∨ e = .assertErase

/-- From `P` to `Q`, or to a stop. -/
abbrev Keeps {α : Type} (P : World State Label Action → Prop) (m : M α)
    (Q : α → World State Label Action → Prop) : Prop := Triple P m Q Closed

theorem Books.closed {now : List Element} {w : World State Label Action} (h : Books now w) (e : Stop)
    (hbusy : Followed w.log → now = [] ∨ w.st.active ≠ [] ∨ e = .fuel ∨ e = .assertErase) :
    Closed e w := by
  refine ⟨h.sound, fun u hu => absurd hu (h.clear u), fun hlog _ => ?_⟩
  refine (hbusy hlog).imp_left ?_
  rintro rfl
  exact h.now.symm

/-- A step that is not of the ledger. -/
theorem Books.quiet {now : List Element} {s t : State} {i j : List Action} {log : Log} {l : Label}
    (h : Books now ⟨s, i, log⟩) (hl : l.Quiet) : Books now ⟨t, j, (l, s) :: log⟩ := by
  have hpopped : popped ((l, s) :: log) = popped log := by
    cases l <;> first | exact hl.elim | rfl
  have hfreed : freed ((l, s) :: log) = freed log := by
    cases l <;> first | exact hl.elim | rfl
  refine ⟨h.sound.cons ?_ ?_ ?_ ?_, ?_, ?_⟩
  · rintro rfl
    exact hl.elim
  · exact fun u hu => absurd hu (h.clear u)
  · rintro rfl
    exact hl.elim
  · rw [hpopped, hfreed]
    exact h.sound.frees
  · show popped ((l, s) :: log) = now ++ freed ((l, s) :: log)
    rw [hpopped, hfreed]
    exact h.now
  · intro u heq
    cases heq
    exact hl.elim

/-- What a program without steps of the ledger leaves of the books. -/
theorem books_quiet {α : Type} {m : M α} (hm : Takes Label.Quiet m) (now : List Element) :
    Triple (Books now) m (fun _ => Books now) fun _ => Books now :=
  hm.triple (fun _ _ _ _ hl h => h.quiet hl) fun _ _ _ _ h => ⟨h.sound, h.now, h.clear⟩

/-- The books between two calls: `base` is on the stack. -/
def Shelf (now : List Element) (base : List Ptr) (w : World State Label Action) : Prop :=
  Books now w ∧ Stands base w

/-- A program without steps of the ledger, called while a node is on the stack or nothing is popped. -/
theorem keeps_quiet {α : Type} {m : M α} (hm : Takes Label.Quiet m) (hn : Nested m)
    {now : List Element} {base : List Ptr} (hbase : now = [] ∨ base ≠ []) :
    Keeps (Shelf now base) m fun _ => Shelf now base := by
  refine ((books_quiet hm now).both (hn base)).weaken fun e w hw => hw.1.closed e fun _ => ?_
  refine hbase.imp_right fun hne => Or.inl fun hnil => ?_
  have hsuffix := hw.2
  rw [hnil] at hsuffix
  exact hne (List.suffix_nil.mp hsuffix)

/-- A step that neither is of the ledger nor touches the stack. -/
theorem keeps_step {l : Label} (hq : l.Quiet) (hl : l.Level) {now : List Element} {base : List Ptr} :
    Keeps (Shelf now base) (act l) fun _ => Shelf now base :=
  Triple.act fun w hw => ⟨hw.1.quiet hq, (hl.active w.st).trans hw.2⟩

theorem keeps_enter {now : List Element} {base : List Ptr} (n : Ptr) :
    Keeps (Shelf now base) (act (.enter n)) fun _ => Shelf now (n :: base) :=
  Triple.act fun _ hw => ⟨hw.1.quiet trivial, congrArg (n :: ·) hw.2⟩

theorem keeps_leave {now : List Element} {base : List Ptr} (n : Ptr) :
    Keeps (Shelf now (n :: base)) (act (.leave n)) fun _ => Shelf now base :=
  Triple.act fun _ hw => ⟨hw.1.quiet trivial, congrArg List.tail hw.2⟩

theorem takes_quiet {α : Type} {m : M α} (h : Takes Label.Inside m) : Takes Label.Quiet m :=
  .mono (fun _ hl => hl.keeping.quiet) h

theorem keeps_excute (f : Nat) (n : Ptr) {now : List Element} {base : List Ptr}
    (hbase : now = [] ∨ base ≠ []) : Keeps (Shelf now base) (excute f n) fun _ => Shelf now base :=
  keeps_quiet (takes_quiet (takes_excute f n)) (nested_excute f n) hbase

/-! ## The changed node -/

/-- There is a node in slot `i`, if the steps so far were as they should be. -/
def Filled (owner : Ptr) (i : Nat) (w : World State Label Action) : Prop :=
  Followed w.log → ∃ c, w.st.At owner i c

/-- The slot is filled again. -/
theorem keeps_replaceSlot (owner : Ptr) (i : Nat) (n : Ptr) (now : List Element) (base : List Ptr) :
    Keeps (Shelf now base) (replaceSlot owner i n)
      fun _ w => Shelf now base w ∧ Filled owner i w := by
  refine Triple.bind (T := fun _ => Shelf now base) ?_ fun _ => ?_
  · refine Triple.peek fun s => ?_
    split
    · exact Triple.pure fun _ hw => hw
    · exact Triple.stop fun w hw => hw.1.closed _ fun _ => Or.inr (Or.inr (Or.inr rfl))
  · refine Triple.act fun w hw => ⟨⟨hw.1.quiet trivial, ?_⟩, fun hlog => ⟨w.st.next, ?_⟩⟩
    · exact Eq.trans (replace_global w.st owner i n fun _ _ _ => rfl) hw.2
    · obtain ⟨h, hg, -⟩ := hlog _ _ List.mem_cons_self
      exact (replace_at h hg.1 owner i w.st.next).mpr (by rw [if_pos rfl]; exact Or.inl ⟨rfl, rfl⟩)

/-- A node is executed in its slot outside of every other execution.  The slot is never found empty. -/
theorem keeps_changedSlot (f g : Nat) (owner : Ptr) (i : Nat) (now : List Element) :
    Keeps (fun w => Shelf now [] w ∧ Filled owner i w) (excuteSlot (excute f) g owner i)
      fun _ => Shelf now [] := by
  induction g with
  | zero => exact Triple.stop fun w hw => hw.1.1.closed _ fun _ => Or.inr (Or.inr (Or.inl rfl))
  | succ g ih =>
    refine Triple.get fun s => ?_
    split
    · next hnone =>
      refine Triple.stop fun w hw => ?_
      obtain ⟨⟨hbooks, hfilled⟩, rfl⟩ := hw
      refine hbooks.1.closed _ fun hlog => ?_
      obtain ⟨c, hc⟩ := hfilled hlog
      rw [State.At, show (w.st.childs owner)[i]? = none from hnone] at hc
      cases hc
    · next child _ =>
      have hup : now = [] ∨ [child] ≠ [] := Or.inr (List.cons_ne_nil child [])
      refine Triple.imp (P := Shelf now []) ?_ (fun _ hw => hw.1.1) fun _ _ hw => hw
      refine Triple.bind (keeps_enter child) fun _ => ?_
      refine Triple.bind (keeps_excute f child hup) fun _ => Triple.get fun t => ?_
      refine Triple.imp (P := Shelf now [child]) ?_ (fun _ hw => hw.1) fun _ _ hw => hw
      split
      · refine Triple.bind (keeps_replaceSlot owner i child now [child]) fun _ => ?_
        refine Triple.bind (T := fun _ w => Shelf now [] w ∧ Filled owner i w) ?_ fun _ => ih
        refine Triple.act fun w hw => ⟨⟨hw.1.1.quiet trivial, congrArg List.tail hw.1.2⟩, ?_⟩
        exact fun hlog => hw.2 fun l s hmem => hlog l s (List.mem_cons_of_mem _ hmem)
      · exact keeps_leave child

/-- `updateNode` outside of every execution.  Its search ends in the vector. -/
theorem keeps_updateNode (f : Nat) (n : Ptr) (now : List Element) :
    Keeps (Shelf now []) (updateNode f n) fun _ => Shelf now [] := by
  refine Triple.bind (T := fun _ w => Shelf now [] w ∧ (Followed w.log → w.st.Finds n)) ?_ fun _ => ?_
  · refine Triple.act fun w hw => ⟨⟨hw.1.quiet trivial, hw.2⟩, fun hlog => ?_⟩
    exact (hlog _ _ List.mem_cons_self).2.2
  refine Triple.get fun s => ?_
  split
  · exact Triple.pure fun w hw => hw.1.1
  · next hdo =>
    have hopen : s.Open n := by tauto
    have hroot : s.threadRoot ≠ some n := by tauto
    split
    · next hnone =>
      refine Triple.stop fun w hw => ?_
      obtain ⟨⟨hbooks, hfinds⟩, rfl⟩ := hw
      refine hbooks.1.closed _ fun hlog => ?_
      obtain ⟨F, hF, -⟩ := hfinds hlog hopen hroot
      rw [show w.st.father n = none from hnone] at hF
      cases hF
    · next father hfather =>
      split
      · next hnone =>
        refine Triple.stop fun w hw => ?_
        obtain ⟨⟨hbooks, hfinds⟩, rfl⟩ := hw
        refine hbooks.1.closed _ fun hlog => ?_
        obtain ⟨F, hF, hmem⟩ := hfinds hlog hopen hroot
        rw [show w.st.father n = some father from hfather] at hF
        cases hF
        rw [List.findIdx?_eq_none_iff] at hnone
        have hne := hnone n hmem
        simp at hne
      · next i _ =>
        refine Triple.imp (P := Shelf now []) ?_ (fun _ hw => hw.1.1) fun _ _ hw => hw
        refine Triple.bind (keeps_replaceSlot father i n now []) fun _ => ?_
        exact keeps_changedSlot f f father i now

theorem keeps_updateChanged (f : Nat) (now : List Element) :
    Keeps (Shelf now []) (updateChanged f) fun _ => Shelf now [] := by
  refine Triple.peek fun s => ?_
  split
  · exact Triple.pure fun _ hw => hw
  · refine Triple.bind (keeps_updateNode f _ now) fun _ => ?_
    exact keeps_step (l := .changedNode none) trivial trivial

/-! ## One element -/

/-- The newest step popped `ele`. -/
def Popped (ele : Element) (w : World State Label Action) : Prop :=
  ∃ s log, w.st = Label.apply .pop s ∧ w.log = (.pop, s) :: log ∧ Shelf [] [] ⟨s, w.input, log⟩ ∧
    s.prsnt.getLast? = some ele

theorem Popped.popped {ele : Element} {w : World State Label Action} (h : Popped ele w) :
    popped w.log = [ele] ++ freed w.log := by
  obtain ⟨s, log, -, hlog, hbooks, hele⟩ := h
  have hnow : Function.popped log = freed log := hbooks.1.now
  rw [hlog]
  simp [Function.popped, freed, hele] at hnow ⊢
  exact hnow

theorem Popped.sound {ele : Element} {w : World State Label Action} (h : Popped ele w) :
    Sound w.log := by
  have hpopped := h.popped
  obtain ⟨s, log, -, hlog, hbooks, hele⟩ := h
  rw [hlog] at hpopped ⊢
  refine hbooks.1.sound.cons (fun _ => ⟨hbooks.1.now.symm, ele, hele⟩) ?_ (by nofun)
    ⟨[ele], Nat.le_refl 1, hpopped⟩
  exact fun u hu => absurd hu (hbooks.1.clear u)

/-- The thread has no node: the process ends here. -/
theorem Popped.closed {ele : Element} {w : World State Label Action} (h : Popped ele w)
    (hnone : w.st.threadIDToNode ele.threadId = none) (e : Stop) : Closed e w := by
  refine ⟨h.sound, ?_, ?_⟩
  all_goals obtain ⟨s, log, hst, hlog, -, hele⟩ := h
  · rintro u hu
    rw [hlog] at hu
    cases hu
    rw [hst] at hnone
    exact ⟨ele, hele, hnone⟩
  · intro _ hclear
    rw [hlog] at hclear
    exact absurd rfl (hclear s)

/-- The thread has a node, and that is executed. -/
theorem Popped.enter {ele : Element} {w : World State Label Action} {n : Ptr} (h : Popped ele w)
    (hn : w.st.threadIDToNode ele.threadId = some n) :
    Shelf [ele] [n] ⟨Label.apply (.enter n) w.st, w.input, (.enter n, w.st) :: w.log⟩ := by
  refine ⟨⟨h.sound.cons (by nofun) ?_ (by nofun) ⟨[ele], Nat.le_refl 1, h.popped⟩, h.popped, ?_⟩, ?_⟩
  · obtain ⟨s, log, hst, hlog, -, hele⟩ := h
    rintro u hu
    rw [hlog] at hu
    cases hu
    rw [hst] at hn ⊢
    exact ⟨ele, hele, n, hn, rfl⟩
  · nofun
  · obtain ⟨s, log, hst, -, hbooks, -⟩ := h
    have hact : w.st.active = [] := hst ▸ hbooks.2
    exact congrArg (n :: ·) hact

/-- `delete ele` -/
theorem Books.free {ele : Element} {w : World State Label Action} (h : Books [ele] w) (t : State) :
    Books [] ⟨t, w.input, (.free ele, w.st) :: w.log⟩ := by
  have hnow : popped w.log = [ele] ++ freed w.log := h.now
  refine ⟨h.sound.cons (by nofun) ?_ (by nofun) ⟨[], Nat.zero_le 1, hnow⟩, hnow, by nofun⟩
  exact fun u hu => absurd hu (h.clear u)

/-- The end of a state. -/
theorem Books.stateEnd {w : World State Label Action} (h : Books [] w) (hdrained : w.st.Drained)
    (t : State) : Books [] ⟨t, w.input, (.stateEnd, w.st) :: w.log⟩ := by
  have hnow : popped w.log = freed w.log := h.now
  refine ⟨h.sound.cons (by nofun) ?_ ?_ ⟨[], Nat.zero_le 1, hnow⟩, hnow, by nofun⟩
  · exact fun u hu => absurd hu (h.clear u)
  · exact fun _ => ⟨hdrained, hnow.symm⟩

/-- The element at the back is popped, executed and freed. -/
theorem keeps_excuteElement (f : Nat) (ele : Element) :
    Keeps (fun w => Shelf [] [] w ∧ w.st.prsnt.getLast? = some ele) (excuteElement f ele)
      fun _ => Shelf [] [] := by
  refine Triple.bind (T := fun _ => Popped ele) ?_ fun _ => Triple.get fun s => ?_
  · exact Triple.act fun w ⟨h, hele⟩ => ⟨w.st, w.log, rfl, rfl, h, hele⟩
  · split
    · next hnone =>
      refine Triple.stop fun w hw => ?_
      obtain ⟨h, rfl⟩ := hw
      exact h.closed hnone _
    · next n hn =>
      have hup : [ele] = [] ∨ [n] ≠ [] := Or.inr (List.cons_ne_nil n [])
      refine Triple.bind (T := fun _ => Shelf [ele] [n]) ?_ fun _ => ?_
      · refine Triple.act fun w hw => ?_
        obtain ⟨h, rfl⟩ := hw
        exact h.enter hn
      · refine Triple.bind (keeps_excute f n hup) fun _ => ?_
        refine Triple.bind (keeps_quiet (takes_quiet (takes_updateNode f n))
          (nested_updateNode f n) hup) fun _ => ?_
        refine Triple.bind (keeps_leave n) fun _ => ?_
        refine Triple.bind (keeps_updateChanged f [ele]) fun _ => ?_
        exact Triple.act fun w h => ⟨h.1.free _, h.2⟩

/-! ## The loops -/

theorem keeps_deferredPrj (f : Nat) : Keeps (Shelf [] []) (deferredPrj f)
    fun _ w => Shelf [] [] w ∧ w.st.prjNode = none := by
  refine Triple.get fun s => ?_
  split
  · next hnone =>
    refine Triple.pure fun w hw => ?_
    obtain ⟨h, rfl⟩ := hw
    exact ⟨h, hnone⟩
  · next n hn =>
    refine Triple.imp (P := Shelf [] []) ?_ (fun w hw => hw.1) fun _ _ h => h
    refine Triple.bind (keeps_step (l := .deferred n) trivial trivial) fun _ => ?_
    refine Triple.bind (keeps_excute f n (Or.inl rfl)) fun _ => ?_
    exact Triple.act fun w h => ⟨⟨h.1.quiet (l := .prjNode none) trivial, h.2⟩, rfl⟩

/-- The loop ends with an empty stack, unless it is to be entered again. -/
theorem keeps_drain (f : Nat) : Keeps (fun w => Shelf [] [] w ∧ w.st.prjNode = none) (drain f)
    fun again w => Shelf [] [] w ∧ (again = false → w.st.Drained) := by
  induction f with
  | zero => exact Triple.stop fun w h => h.1.1.closed _ fun _ => Or.inl rfl
  | succ f ih =>
    refine Triple.get fun s => ?_
    split
    · next hnone =>
      refine Triple.pure fun w hw => ?_
      obtain ⟨⟨h, hprj⟩, rfl⟩ := hw
      exact ⟨h, fun _ => ⟨List.getLast?_eq_none_iff.mp hnone, hprj⟩⟩
    · next ele hele =>
      refine Triple.bind (T := fun _ => Shelf [] []) ?_ fun _ => Triple.get fun t => ?_
      · refine (keeps_excuteElement f ele).imp (fun w hw => ?_) fun _ _ h => h
        obtain ⟨⟨h, -⟩, rfl⟩ := hw
        exact ⟨h, hele⟩
      · split
        · exact Triple.pure fun w hw => ⟨hw.1, by nofun⟩
        · next hstay =>
          refine ih.imp (fun w hw => ?_) fun _ _ h => h
          obtain ⟨h, rfl⟩ := hw
          refine ⟨h, Option.not_isSome_iff_eq_none.mp fun hsome => hstay (Or.inr hsome)⟩

/-- `isCorrectAndExit` touches neither `$$prsnt` nor `prjNode`. -/
theorem Label.Walk.drained {l : Label} (hl : l.Walk) {s : State} (h : s.Drained) :
    (l.apply s).Drained := by
  cases l with
  | edit n e =>
    cases e with
    | len | hasEmpty => exact h
    | _ => exact hl.elim
  | destroy => exact h
  | _ => exact hl.elim

theorem keeps_isCorrectAndExit (f : Nat) (n : Ptr) :
    Keeps (fun w => Shelf [] [] w ∧ w.st.Drained) (isCorrectAndExit f n)
      fun _ w => Shelf [] [] w ∧ w.st.Drained := by
  refine Triple.weaken (S := fun _ w => Shelf [] [] w ∧ w.st.Drained) ?_
    fun e w h => h.1.1.closed e fun _ => Or.inl rfl
  refine (takes_isCorrectAndExit f n).triple ?_ ?_
  · rintro l s log i hl ⟨⟨hbooks, hstands⟩, hdrained⟩
    exact ⟨⟨hbooks.quiet hl.inside.keeping.quiet, Eq.trans (hl.level.active s) hstands⟩,
      hl.drained hdrained⟩
  · rintro s log i i' ⟨⟨hbooks, hstands⟩, hdrained⟩
    exact ⟨⟨⟨hbooks.sound, hbooks.now, hbooks.clear⟩, hstands⟩, hdrained⟩

theorem keeps_sort (f : Nat) (root : Ptr) :
    Keeps (Shelf [] []) (sort f root) fun _ => Shelf [] [] := by
  induction f with
  | zero => exact Triple.stop fun w h => h.1.closed _ fun _ => Or.inl rfl
  | succ f ih =>
    refine Triple.bind (keeps_deferredPrj f) fun _ => ?_
    refine Triple.bind (keeps_drain f) fun again => ?_
    split
    · exact ih.imp (fun w hw => hw.1) fun _ _ h => h
    · next hagain =>
      refine Triple.bind (T := fun _ w => Shelf [] [] w ∧ w.st.Drained) ?_ fun _ => ?_
      · refine (keeps_isCorrectAndExit f root).imp (fun w hw => ?_) fun _ _ h => h
        exact ⟨hw.1, hw.2 (Bool.eq_false_iff.mpr hagain)⟩
      · refine Triple.get fun s => ?_
        split
        · exact Triple.act fun w hw => ⟨hw.1.1.1.stateEnd hw.1.2 _, hw.1.1.2⟩
        · refine Triple.bind (T := fun _ => Shelf [] []) ?_ fun _ => ih
          refine (keeps_quiet ?_ (nested_excuteKeepChilds f) (Or.inl rfl)).imp (fun w hw => hw.1.1)
            fun _ _ h => h
          exact .mono (fun _ h => h.quiet) (takes_excuteKeepChilds f)

theorem keeps_states (f : Nat) (root : Ptr) :
    Keeps (Shelf [] []) (states f root) fun _ => Shelf [] [] := by
  induction f with
  | zero => exact Triple.stop fun w h => h.1.closed _ fun _ => Or.inl rfl
  | succ f ih =>
    refine Triple.peek fun s => ?_
    split
    · exact Triple.pure fun w hw => hw
    · refine Triple.bind (keeps_excute f root (Or.inl rfl)) fun _ => ?_
      refine Triple.bind (keeps_step (l := .changedNode none) trivial trivial) fun _ => ?_
      refine Triple.bind (keeps_step (l := .prjNode none) trivial trivial) fun _ => ?_
      exact Triple.bind (keeps_sort f root) fun _ => ih

/-- The program does not return. -/
theorem keeps_statements (f : Nat) : Keeps (Shelf [] []) (statements f) fun _ _ => False := by
  induction f with
  | zero => exact Triple.stop fun w h => h.1.closed _ fun _ => Or.inl rfl
  | succ f ih =>
    refine Triple.peek fun s => ?_
    have hrun := takes_runThread f s.mainThread
    refine Triple.bind (keeps_quiet (takes_quiet (takes_inside hrun)) (.still hrun) (Or.inl rfl))
      fun _ => ?_
    refine Triple.bind (T := fun _ => Shelf [] []) ?_ fun _ => ih
    refine Triple.peek fun t => ?_
    split
    · exact Triple.pure fun w h => h
    · next root _ =>
      have hwalk : Takes Label.Quiet (deleteChilds f root) :=
        takes_quiet (.mono (fun _ h => h.inside) (takes_deleteChilds f root))
      refine Triple.bind (keeps_states f root) fun _ => ?_
      refine Triple.bind (keeps_quiet hwalk (.walk (takes_deleteChilds f root)) (Or.inl rfl)) fun _ => ?_
      refine Triple.bind (keeps_quiet (takes_release root) (.level (takes_release root)) (Or.inl rfl))
        fun _ => ?_
      exact keeps_step (l := .destroyRoot root) trivial trivial

/-! ## Threads with pending elements -/

/-- No node is deleted while an element its thread pushed is pending. -/
def Kept : Label → State → Prop
  | .destroy _ _ n, s | .drop n, s => ∀ e ∈ s.prsnt, e.threadId ≠ s.thread n
  | _, _ => True

instance (l : Label) (s : State) : Decidable (Kept l s) := by
  apply @Label.casesOn (fun l => Decidable (Kept l s)) l <;> intros <;> unfold Kept <;>
    infer_instance

/-- The threads of the pending elements have nodes, the main thread outside of a statement apart. -/
def State.Served (s : State) : Prop :=
  ∀ e ∈ s.prsnt, e.threadId = s.mainThread ∨ (s.threadIDToNode e.threadId).isSome

/-- The main thread stays the same. -/
theorem apply_mainThread (l : Label) (s : State) : (l.apply s).mainThread = s.mainThread := by
  cases l with
  | edit n e => exact edit_global s n e fun _ _ _ => rfl
  | newRoot type => exact newRoot_global s type fun _ _ _ => rfl
  | newThread F id => exact newThread_global s F id fun _ _ _ => rfl
  | replace owner i n => exact replace_global s owner i n fun _ _ _ => rfl
  | _ => rfl

/-- What becomes of the node of a thread with a pending element: it stays, or is converted. -/
theorem apply_mapped {l : Label} {s : State} (h : Inv s) (hg : Guard 0 l s) (hl : Kept l s)
    {e : Element} (he : e ∈ s.prsnt) {n : Ptr} (hn : s.threadIDToNode e.threadId = some n) :
    e.threadId = s.mainThread ∨ (l.apply s).threadIDToNode e.threadId = some n ∨
      (∃ owner i m, l = .replace owner i m) ∧
        (l.apply s).threadIDToNode e.threadId = some s.next := by
  have hset : ∀ id p, e.threadId ≠ id →
      (Function.update s.threadIDToNode id p) e.threadId = some n := by
    intro id p hne
    rw [Function.update_of_ne hne]
    exact hn
  cases l with
  | edit m x =>
    rw [edit_global (φ := State.threadIDToNode) s m x fun _ _ _ => rfl]
    exact Or.inr (Or.inl hn)
  | newRoot type =>
    rw [show (Label.newRoot type).apply s = newRoot s type from rfl, newRoot_map]
    exact (eq_or_ne e.threadId s.mainThread).imp_right fun hne => Or.inl (hset _ _ hne)
  | newThread F id =>
    rw [show (Label.newThread F id).apply s = newThread s F id from rfl, newThread_map]
    refine Or.inr (Or.inl (hset _ _ ?_))
    rintro rfl
    rw [hg.2.1.2.2] at hn
    cases hn
  | replace owner i m =>
    rw [replace_map]
    by_cases hm : e.threadId = s.thread m
    · refine Or.inr (Or.inr ⟨⟨owner, i, m, rfl⟩, ?_⟩)
      rw [hm, Function.update_self]
    · exact Or.inr (Or.inl (hset _ _ hm))
  | destroy owner i m => exact Or.inr (Or.inl (hset _ _ (hl e he)))
  | drop m => exact Or.inr (Or.inl (hset _ _ (hl e he)))
  | destroyRoot r =>
    rw [← (h.rootType r hg.1).2]
    exact (eq_or_ne e.threadId (s.thread r)).imp_right fun hne => Or.inl (hset _ _ hne)
  | _ => exact Or.inr (Or.inl hn)

theorem State.Served.step {l : Label} {s : State} (hs : s.Served) (h : Inv s) (hg : Guard 0 l s)
    (hl : Kept l s) : (l.apply s).Served := by
  have hold : ∀ e ∈ s.prsnt, e.threadId = s.mainThread ∨
      ((l.apply s).threadIDToNode e.threadId).isSome := by
    intro e he
    rcases hs e he with hmain | hsome
    · exact Or.inl hmain
    · obtain ⟨n, hn⟩ := Option.isSome_iff_exists.mp hsome
      refine (apply_mapped h hg hl he hn).imp_right ?_
      rintro (hn' | ⟨-, hn'⟩)
      all_goals
        rw [hn']
        rfl
  intro e he
  rw [apply_mainThread]
  rw [apply_prsnt] at he
  cases l with
  | push x =>
    rcases List.mem_append.mp he with he | he
    · exact hold e he
    · obtain rfl := List.mem_singleton.mp he
      refine Or.imp_right ?_ hg
      rintro ⟨n, -, hn⟩
      rw [show ((Label.push e).apply s).threadIDToNode e.threadId = some n from hn]
      rfl
  | pop => exact hold e (List.mem_of_mem_dropLast he)
  | _ => exact hold e he

/-- The thread of an element that is popped has a node. -/
theorem State.Served.found {s : State} (hs : s.Served) (h : Inv s) (hg : Guard 0 .pop s)
    {e : Element} (he : e ∈ s.prsnt.getLast?) : s.threadIDToNode e.threadId ≠ none := by
  rcases hs e (List.mem_of_getLast? he) with hmain | hsome
  · obtain ⟨r, hr⟩ := Option.ne_none_iff_exists'.mp hg
    have hreg : s.threadIDToNode (s.thread r) = some r := (h.root r hr).1
    rw [hmain, ← (h.rootType r hr).2, hreg]
    exact Option.some_ne_none r
  · exact Option.isSome_iff_ne_none.mp hsome

/-! ## Runs -/

/-- A run ends where it stops, in a closed world. -/
theorem run_closed (f : Nat) (mainThread : Tid) (env : Env) (input : List Action) :
    ∃ e, (run f mainThread env input).1 = .error e ∧ Closed e (run f mainThread env input).2 := by
  have hstart : Shelf [] [] (⟨start mainThread env, input, []⟩ : World State Label Action) := by
    refine ⟨⟨⟨?_, ?_, [], Nat.zero_le 1, rfl⟩, rfl, by nofun⟩, rfl⟩
    all_goals exact fun newer s older heq => absurd heq (by simp)
  have hrun := keeps_statements f _ hstart
  unfold run
  rcases hr : (statements f ⟨start mainThread env, input, []⟩).1 with e | a
  · rw [hr] at hrun
    exact ⟨e, rfl, hrun⟩
  · rw [hr] at hrun
    exact hrun.elim

/-- Each element popped is executed: the next step enters the node of its thread. -/
def Executed (log : Log) : Prop :=
  ∀ newer s older, log = newer ++ (.pop, s) :: older → ∃ e ∈ s.prsnt.getLast?, ∃ n newer',
    newer = newer' ++ [(.enter n, Label.apply .pop s)] ∧ s.threadIDToNode e.threadId = some n

/-- The manager goes on to another element only when all those before it are freed. -/
def FreedInTurn (log : Log) : Prop :=
  ∀ newer s older, log = newer ++ (.pop, s) :: older → freed older = popped older

/-- At the end of a state nothing is pending, and everything that was pushed has been popped and
    freed. -/
def Finished (log : Log) : Prop :=
  ∀ newer s older, log = newer ++ (.stateEnd, s) :: older →
    s.prsnt = [] ∧ s.keepChilds = [] ∧ s.prjNode = none ∧
    (popped older).Perm (pushed older) ∧ freed older = popped older

/-- A q and a p of a projection push an element each; how the turn of the p ends is open. -/
def projectedPush (rest : List Action) : List Action :=
  [.call (.myCreateThread true .prj 2), .call (.myCreateThread true .prj 3), .pause,
   .call (.push ['x'] [] 0)] ++ rest ++
  [.call (.push ['y'] [] 0), .pause,
   .pause, .pause]

/-- The p sets EMPTY and returns. -/
def endingP : List Action := [.call (.setNodeLength .empty), .exit]

end Msvl.Function
