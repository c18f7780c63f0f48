/-
  The manager's work, and whole runs.

  Inside of a statement there is a root and the bound is 1: every node is born later, so the root
  stays.  Between its steps the manager's stack is as it was (`Back`), which at the end of a state
  means empty.  `run_trace`: the log of a run, of any length and stopped anywhere, is a guarded trace
  from the start.
-/
import LibMSVL.Function.Excute

namespace Msvl.Function

open Msvl.Run

/-- The root stays, except between statements. -/
theorem Frame.rooted {b : Nat} {s t : State} (hf : Frame b s t) (hb : 1 ≤ b)
    (hroot : s.threadRoot ≠ none) : t.threadRoot ≠ none := by
  obtain ⟨r, hr⟩ := Option.ne_none_iff_exists'.mp hroot
  rw [hf.root hb r hr]
  exact Option.some_ne_none r

/-! ## The elements of keepChilds -/

/-- What the next element of `keepChilds` is. -/
theorem Inv.next_pending {s : State} (h : Inv s) {c : Ptr} (hc : s.keepChilds[s.keepPos]? = some c) :
    s.Reg c ∧ ∃ F, s.father c = some F ∧ F < s.next ∧ 2 ≤ s.birth c := by
  have hmem : c ∈ s.pending := by
    obtain ⟨hlt, hget⟩ := List.getElem?_eq_some_iff.mp hc
    rw [State.pending, List.drop_eq_getElem_cons hlt, hget]
    exact List.mem_cons_self
  obtain ⟨hreg, F, hF, -⟩ := h.pend c hmem
  obtain ⟨hF', hb⟩ := h.up c (h.alloc hreg) F hF
  have := (h.birth F hF').1
  exact ⟨hreg, F, hF, hF', by omega⟩

/-- A keep child is attached, executed and updated: bound 1, the manager's own. -/
theorem does_keepExcuteChild (f : Nat) {node father : Ptr} {s : State} (h : Inv s)
    (hroot : s.threadRoot ≠ none) (hc : s.keepChilds[s.keepPos]? = some node)
    (hF : s.father node = some father)
    (htop : ∃ g A, topAnd g s node = some A ∧ (s.heap A).len ≠ .empty) :
    Does 1 (keepExcuteChild f node father) s (Back s) := by
  obtain ⟨hreg, F, hF', hlt, hb⟩ := h.next_pending hc
  rw [hF] at hF'
  cases hF'
  rw [keepExcuteChild]
  refine Does.step h ⟨hc, hF, Nat.le_refl 1, htop⟩ fun hu hfu => ?_
  have hsame := sameObjects_attach s node father
  have hregu := (hsame.reg node).mpr hreg
  have hFu : ((Label.attach node father).apply s).father node = some father :=
    Eq.trans (attach_field s node father node (g := Node.father) fun _ _ => rfl) hF
  have hbu : 1 ≤ ((Label.attach node father).apply s).birth node := by
    rw [hsame.birth]
    omega
  refine Does.call hu hbu (does_raiseLen _ f _ _ hu) ?_
  intro _ t ht hf hback
  obtain ⟨hregt, -, hFt⟩ := hf.reg_of hu ht hregu (Nat.le_refl _)
  have hbt : 2 ≤ t.birth node := by
    rw [hf.birth node (hu.alloc hregu), hsame.birth]
    exact hb
  have hroott : t.threadRoot ≠ none := by
    refine hf.rooted ?_ (by rw [hsame.root]; exact hroot)
    rw [hsame.birth]
    omega
  -- the two calls whose callers look at the types afterwards
  refine Does.step ht trivial fun hv hfv => ?_
  refine Does.step hv trivial fun hw hfw => ?_
  have hready : Ready ((Label.enter node).apply ((Label.enter father).apply t)) node :=
    ⟨ht.alloc hregt, Or.inl hregt, hroott, fun _ => List.mem_cons_self⟩
  refine Does.call hw (Nat.le_of_succ_le hbt) (does_excute f node _ hw hready) ?_
  intro _ x hx hfx hbackx
  have hbackx : x.active = node :: father :: s.active := by
    refine Eq.trans hbackx ?_
    show node :: father :: t.active = node :: father :: s.active
    rw [show t.active = s.active from hback]
  have hregw : ((Label.enter node).apply ((Label.enter father).apply t)).Reg node := hregt
  obtain ⟨hregx, -, hFx⟩ := hfx.reg_of hw hx hregw (Nat.le_refl _)
  have hrootx := hfx.rooted (Nat.le_of_succ_le hbt) hroott
  refine Does.call hx (Nat.le_refl 1)
    (does_updateNode (Nat.le_refl 1) f hx (hx.alloc hregx) hrootx) ?_
  rintro _ y hy hfy ⟨hbacky, hsettled, hFy⟩
  have hbacky : y.active = node :: father :: s.active := Eq.trans hbacky hbackx
  refine Does.step hy ⟨by rw [hbacky]; rfl, hsettled⟩ fun hz hfz => ?_
  have hFz : ((Label.leave node).apply y).father node = some father :=
    hFy.trans (hFx.trans (hFt.trans hFu))
  refine Spec.get ?_
  rw [show (((Label.leave node).apply y).heap node).father = some father from hFz]
  have hlt' : father < ((Label.leave node).apply y).next := by
    refine Nat.lt_of_lt_of_le hlt ?_
    exact Nat.le_trans hfu.next (Nat.le_trans hf.next (Nat.le_trans hfx.next hfy.next))
  refine Does.call hz (Nat.le_refl 1) (does_updateNode (Nat.le_refl 1) f hz hlt'
    (hfy.rooted (Nat.le_refl 1) hrootx)) ?_
  rintro _ q _ _ ⟨hbackq, hsettledq, -⟩
  have hbackq : q.active = father :: s.active := by
    refine Eq.trans hbackq ?_
    show y.active.tail = father :: s.active
    rw [hbacky]
    rfl
  refine Spec.act ⟨by rw [hbackq]; rfl, hsettledq⟩ ?_
  show q.active.tail = s.active
  rw [hbackq]
  rfl

/-- All that waits, one after the other; the position only goes up. -/
theorem does_excuteKeepChilds (f : Nat) : ∀ s : State, Inv s → s.threadRoot ≠ none →
    Does 1 (excuteKeepChilds f) s (Back s) := by
  induction f with
  | zero => exact fun s _ _ => Spec.stop ⟨by decide, by decide⟩
  | succ f ih =>
    intro s h hroot
    rw [excuteKeepChilds]
    refine Spec.get ?_
    split
    · next hnone =>
      refine Spec.act ⟨?_, Nat.le_refl 1⟩ rfl
      rw [State.pending, List.drop_eq_nil_of_le (List.getElem?_eq_none_iff.mp hnone)]
    · next node hnode =>
      obtain ⟨hreg, -, -, -, hb⟩ := h.next_pending hnode
      split
      · exact Spec.stop ⟨by decide, by decide⟩
      · next A hA =>
        split
        · next hempty =>
          refine Does.step h ⟨hnode, f, A, hA, hempty⟩ fun _ _ => ?_
          show Does 1 _ s _
          refine Does.call h (Nat.le_of_succ_le hb)
            (does_deleteChilds f node s h (h.alloc hreg) (Or.inl hreg)) ?_
          rintro _ t ht hf ⟨hback, hnil⟩
          obtain ⟨hregt, -⟩ := hf.reg_of h ht hreg (Nat.le_refl _)
          have hnodet : t.keepChilds[t.keepPos]? = some node := by
            obtain ⟨hpos, cs, hcs⟩ := hf.keep hb
            rw [hpos, ← hcs, List.getElem?_append_left (List.getElem?_eq_some_iff.mp hnode).1, hnode]
          refine does_release ht hregt ?_
          refine Does.step ht ⟨hnodet, hnil, Nat.le_refl 1⟩ fun hu hfu => ?_
          have hrootu := (hf.mono (Nat.le_of_succ_le hb)).trans hfu |>.rooted (Nat.le_refl 1) hroot
          refine Does.last hu (Nat.le_refl 1) (ih _ hu hrootu) ?_
          intro _ v _ _ hbackv
          exact Eq.trans hbackv hback
        · next hlen =>
          split
          · exact Spec.stop ⟨by decide, by decide⟩
          · next father hfather =>
            refine Does.call h (Nat.le_refl 1)
              (does_keepExcuteChild f h hroot hnode hfather ⟨f, A, hA, hlen⟩) ?_
            intro _ t ht hf hback
            refine Does.last ht (Nat.le_refl 1) (ih t ht (hf.rooted (Nat.le_refl 1) hroot)) ?_
            intro _ u _ _ hbacku
            exact Eq.trans hbacku hback

/-! ## The elements of $$prsnt -/

/-- `updateNode(changedNode)`, if there is one. -/
theorem does_updateChanged (f : Nat) {s : State} (h : Inv s) (hroot : s.threadRoot ≠ none) :
    Does 1 (updateChanged f) s (Back s) := by
  rw [updateChanged]
  refine Spec.get ?_
  split
  · exact Spec.pure rfl
  · next n hn =>
    refine Does.call h (Nat.le_refl 1)
      (does_updateNode (Nat.le_refl 1) f h (h.changed n hn) hroot) ?_
    rintro _ t _ _ ⟨hback, -, -⟩
    exact Spec.act trivial hback

/-- An element: its reader is looked up, so it is registered when it is executed. -/
theorem does_excuteElement (f : Nat) (ele : Element) {s : State} (h : Inv s)
    (hroot : s.threadRoot ≠ none) : Does 1 (excuteElement f ele) s (Back s) := by
  rw [excuteElement]
  refine Does.step h hroot fun hu _ => ?_
  refine Spec.get ?_
  split
  · exact Spec.stop ⟨by decide, by decide⟩
  · next tempNode htemp =>
    obtain ⟨hlt, hthread⟩ := hu.map _ _ htemp
    have hreg : ((Label.apply .pop s)).Reg tempNode := by
      show (Label.apply .pop s).threadIDToNode ((Label.apply .pop s).thread tempNode) = _
      rw [hthread]
      exact htemp
    refine Does.step hu trivial fun hv _ => ?_
    have hready : Ready ((Label.enter tempNode).apply (Label.apply .pop s)) tempNode :=
      ⟨hlt, Or.inl hreg, hroot, fun _ => List.mem_cons_self⟩
    have hb := (hv.birth tempNode hlt).1
    refine Does.call hv hb (does_excute f tempNode _ hv hready) ?_
    intro _ t ht hf hback
    have hroott := hf.rooted hb hroot
    refine Does.call ht (Nat.le_refl 1)
      (does_updateNode (Nat.le_refl 1) f ht (Nat.lt_of_lt_of_le hlt hf.next) hroott) ?_
    rintro _ w hw hfw ⟨hbackw, hsettled, -⟩
    have hbackw : w.active = tempNode :: s.active := Eq.trans hbackw hback
    refine Does.step hw ⟨by rw [hbackw]; rfl, hsettled⟩ fun hx _ => ?_
    have hbackx : ((Label.leave tempNode).apply w).active = s.active := by
      show w.active.tail = s.active
      rw [hbackw]
      rfl
    refine Does.call hx (Nat.le_refl 1)
      (does_updateChanged f hx (hfw.rooted (Nat.le_refl 1) hroott)) ?_
    intro _ y _ _ hbacky
    exact Spec.act trivial (Eq.trans hbacky hbackx)

theorem does_drain (f : Nat) : ∀ s : State, Inv s → s.threadRoot ≠ none →
    Does 1 (drain f) s (Back s) := by
  induction f with
  | zero => exact fun s _ _ => Spec.stop ⟨by decide, by decide⟩
  | succ f ih =>
    intro s h hroot
    rw [drain]
    refine Spec.get ?_
    split
    · exact Spec.pure rfl
    · next ele _ =>
      refine Does.call h (Nat.le_refl 1) (does_excuteElement f ele h hroot) ?_
      intro _ t ht hf hback
      refine Spec.get ?_
      split
      · exact Spec.pure hback
      · refine Does.last ht (Nat.le_refl 1) (ih t ht (hf.rooted (Nat.le_refl 1) hroot)) ?_
        intro _ u _ _ hbacku
        exact Eq.trans hbacku hback

theorem does_deferredPrj (f : Nat) {s : State} (h : Inv s) (hroot : s.threadRoot ≠ none) :
    Does 1 (deferredPrj f) s (Back s) := by
  rw [deferredPrj]
  refine Spec.get ?_
  split
  · exact Spec.pure rfl
  · next n hn =>
    obtain ⟨hlt, hc⟩ := h.prj n hn
    have hready : Ready s n := ⟨hlt, Or.inr hc, hroot, fun hno => absurd hc hno⟩
    refine Does.step h trivial fun _ _ => ?_
    show Does 1 _ s _
    refine Does.call h (h.birth n hlt).1 (does_excute f n s h hready) ?_
    intro _ t _ _ hback
    exact Spec.act trivial hback

/-! ## States -/

/-- From the label SORT to the end of a state: nobody is being executed there. -/
theorem does_sort (f : Nat) {root : Ptr} : ∀ s : State, Inv s → s.threadRoot = some root →
    s.active = [] → Does 1 (sort f root) s (Back s) := by
  induction f with
  | zero => exact fun s _ _ _ => Spec.stop ⟨by decide, by decide⟩
  | succ f ih =>
    intro s h hroot hact
    have hne : s.threadRoot ≠ none := by
      rw [hroot]
      exact Option.some_ne_none root
    rw [sort]
    refine Does.call h (Nat.le_refl 1) (does_deferredPrj f h hne) ?_
    intro _ t ht hft hbackt
    refine Does.call ht (Nat.le_refl 1) (does_drain f t ht (hft.rooted (Nat.le_refl 1) hne)) ?_
    intro again u hu hfu hbacku
    have hrootu := hfu.root (Nat.le_refl 1) root (hft.root (Nat.le_refl 1) root hroot)
    have hbacku : u.active = s.active := Eq.trans hbacku hbackt
    split
    · refine Does.last hu (Nat.le_refl 1) (ih u hu hrootu (hbacku.trans hact)) ?_
      intro _ v _ _ hbackv
      exact Eq.trans hbackv hbacku
    · have hreg := (hu.root root hrootu).1
      have hb := (hu.birth root (hu.alloc hreg)).1
      refine Does.call hu hb
        (does_isCorrectAndExit f root u hu (hu.alloc hreg) (Or.inl hreg)) ?_
      intro _ v hv hfv hbackv
      have hrootv := hfv.root hb root hrootu
      have hbackv : v.active = s.active := Eq.trans hbackv hbacku
      refine Spec.get ?_
      split
      · next hempty =>
        exact Spec.act ⟨hbackv.trans hact, List.isEmpty_iff.mp hempty⟩ hbackv
      · have hnev : v.threadRoot ≠ none := by
          rw [hrootv]
          exact Option.some_ne_none root
        refine Does.call hv (Nat.le_refl 1) (does_excuteKeepChilds f v hv hnev) ?_
        intro _ w hw hfw hbackw
        have hbackw : w.active = s.active := Eq.trans hbackw hbackv
        refine Does.last hw (Nat.le_refl 1)
          (ih w hw (hfw.root (Nat.le_refl 1) root hrootv) (hbackw.trans hact)) ?_
        intro _ x _ _ hbackx
        exact Eq.trans hbackx hbackw

/-- The states of a statement. -/
theorem does_states (f : Nat) {root : Ptr} : ∀ s : State, Inv s → s.threadRoot = some root →
    s.active = [] → Does 1 (states f root) s (Back s) := by
  induction f with
  | zero => exact fun s _ _ _ => Spec.stop ⟨by decide, by decide⟩
  | succ f ih =>
    intro s h hroot hact
    rw [states]
    refine Spec.get ?_
    split
    · exact Spec.pure rfl
    · have hreg := (h.root root hroot).1
      have hb := (h.birth root (h.alloc hreg)).1
      have hready : Ready s root := by
        refine ⟨h.alloc hreg, Or.inl hreg, ?_, fun hno => absurd (h.rootType root hroot).1 hno⟩
        rw [hroot]
        exact Option.some_ne_none root
      refine Does.call h hb (does_excute f root s h hready) ?_
      intro _ t ht hft hbackt
      refine Does.step ht trivial fun hu _ => ?_
      refine Does.step hu trivial fun hv _ => ?_
      have hrootv := hft.root hb root hroot
      refine Does.call hv (Nat.le_refl 1) (does_sort f _ hv hrootv (Eq.trans hbackt hact)) ?_
      intro _ w hw hfw hbackw
      have hbackw : w.active = s.active := Eq.trans hbackw hbackt
      refine Does.last hw (Nat.le_refl 1)
        (ih w hw (hfw.root (Nat.le_refl 1) root hrootv) (hbackw.trans hact)) ?_
      intro _ x _ _ hbackx
      exact Eq.trans hbackx hbackw

/-! ## Runs -/

/-- A statement; only here the root is destroyed, with bound 0. -/
theorem does_managerThread (f : Nat) {s : State} (h : Inv s) (hact : s.active = []) :
    Does 0 (managerThread f) s (Back s) := by
  rw [managerThread]
  refine Spec.get ?_
  split
  · exact Spec.pure rfl
  · next root hroot =>
    refine Does.call h (Nat.zero_le 1) (does_states f s h hroot hact) ?_
    intro _ t ht hft hbackt
    have hroott := hft.root (Nat.le_refl 1) root hroot
    obtain ⟨hreg, -⟩ := ht.root root hroott
    have hb := (ht.birth root (ht.alloc hreg)).1
    refine Does.call ht (Nat.zero_le _)
      (does_deleteChilds f root t ht (ht.alloc hreg) (Or.inl hreg)) ?_
    rintro _ u hu hfu ⟨hbacku, hnil⟩
    obtain ⟨hregu, -⟩ := hfu.reg_of ht hu hreg (Nat.le_refl _)
    refine does_release hu hregu ?_
    exact Spec.act ⟨hfu.root hb root hroott, hnil, rfl⟩ (Eq.trans hbacku hbackt)

/-- The whole program, statement after statement. -/
theorem does_statements (f : Nat) : ∀ s : State, Inv s → s.active = [] →
    Does 0 (statements f) s (Back s) := by
  induction f with
  | zero => exact fun s _ _ => Spec.stop ⟨by decide, by decide⟩
  | succ f ih =>
    intro s h hact
    rw [statements]
    refine Spec.get ?_
    refine Does.call h (Nat.le_refl 0) (does_runThread f s h (Or.inl ⟨rfl, rfl⟩)) ?_
    intro _ t ht _ hbackt
    refine Does.call ht (Nat.le_refl 0) (does_managerThread f ht (Eq.trans hbackt hact)) ?_
    intro _ u hu _ hbacku
    have hbacku : u.active = s.active := Eq.trans hbacku hbackt
    refine Does.last hu (Nat.le_refl 0) (ih u hu (hbacku.trans hact)) ?_
    intro _ v _ _ hbackv
    exact Eq.trans hbackv hbacku

/-- At the start there is no object. -/
theorem inv_start (mainThread : Tid) (env : Env) : Inv (start mainThread env) where
  up n hn := absurd hn (Nat.not_lt_zero n)
  down n hn := absurd hn (Nat.not_lt_zero n)
  held n hn := absurd hn (Nat.not_lt_zero n)
  once n hn := absurd hn (Nat.not_lt_zero n)
  gone n hn := absurd hn (Nat.not_lt_zero n)
  pos := Nat.le_refl 0
  pendOnce := List.nodup_nil
  pend c hc := absurd hc List.not_mem_nil
  att x hx := by cases hx
  root r hr := by cases hr
  rootOnly x hx := by cases hx
  map t n hn := by cases hn
  birth n hn := absurd hn (Nat.not_lt_zero n)
  main n hn := by cases hn
  rootType r hr := by cases hr
  newType x hx := by cases hx
  locks x hx := by cases hx
  lockNext n hn := absurd hn (Nat.not_lt_zero n)
  mutexOwn n hn := absurd hn (Nat.not_lt_zero n)
  condOwn n hn := absurd hn (Nat.not_lt_zero n)
  changed n hn := by cases hn
  prj n hn := by cases hn

/-- `P` holds of every step that was taken, with the state before it. -/
def EveryStep (P : Label → State → Prop) (w : World State Label Action) : Prop :=
  ∀ l s, (l, s) ∈ w.log → P l s

instance (P : Label → State → Prop) [∀ l s, Decidable (P l s)] (w : World State Label Action) :
    Decidable (EveryStep P w) :=
  decidable_of_iff (∀ e ∈ w.log, P e.1 e.2) ⟨fun h l s => h (l, s), fun h e => h e.1 e.2⟩

section Run

variable (f : Nat) (mainThread : Tid) (env : Env) (input : List Action)

/-- **Runs are guarded traces**, and never stop at the assertions of insertion and erasure. -/
theorem run_trace :
    Trace Label.apply (Guard 0) (start mainThread env) (run f mainThread env input).2.log
      (run f mainThread env input).2.st ∧
    ∀ e, (run f mainThread env input).1 = .error e → Safe e :=
  (does_statements f _ (inv_start mainThread env) rfl).run input

/-- The invariant holds at the end of a run, and with the guard before every step of it. -/
theorem run_inv : Inv (run f mainThread env input).2.st ∧
    EveryStep (fun l s => Inv s ∧ Guard 0 l s) (run f mainThread env input).2 :=
  (run_trace f mainThread env input).1.keeps (fun _ _ hg hs => hg.inv hs)
    (inv_start mainThread env)

end Run

end Msvl.Function
