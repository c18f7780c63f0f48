/-
  `~Node` and `isCorrectAndExit`: the walks over a subtree.

  Each of them is specified at a node whose children are valid, with the birth of the node as the
  bound.  A child is younger, so the walk over it leaves its slot alone (`Slot.frame`), and it can be
  deleted there.  The induction is on the bound of the depth; a loop has its own below it.
-/
import LibMSVL.Function.Frame

namespace Msvl.Function

open Msvl.Run

/-- The stack of running calls is as it was in `s`. -/
def Back {α : Type} (s : State) (_ : α) (t : State) : Prop := t.active = s.active

/-! ## Deleting -/

section

variable {s : State} (h : Inv s)

include h

/-- A registered node passes the assert of its destructor. -/
theorem does_checkErase {α : Type} {b : Nat} {n : Ptr} {f : Unit → M α} {P : α → State → Prop}
    (hn : s.Reg n) (hf : Does b (f ()) s P) : Does b (checkErase n >>= f) s P := by
  refine Does.call h (Nat.le_refl b) (Q := fun _ t => t = s) ?_ ?_
  · refine Spec.get ?_
    rw [show s.threadIDToNode (s.heap n).thread = some n from hn]
    exact Spec.pure rfl
  · rintro a t - - rfl
    exact hf

/-- After the checks of the destructor nothing has changed. -/
theorem does_release {α : Type} {b : Nat} {n : Ptr} {f : Unit → M α} {P : α → State → Prop}
    (hn : s.Reg n) (hf : Does b (f ()) s P) : Does b (release n >>= f) s P := by
  have hjoin : Does b (joinThread n) s fun _ t => t = s := by
    refine Spec.get ?_
    split
    · exact Spec.pure rfl
    · split_ifs
      · exact Spec.pure rfl
      · exact Spec.stop ⟨by decide, by decide⟩
      · exact Spec.pure rfl
      · exact Spec.stop ⟨by decide, by decide⟩
  refine Does.call h (Nat.le_refl b) (Q := fun _ t => t = s) (does_checkErase h hn hjoin) ?_
  rintro a t - - rfl
  exact hf

end

/-- **`~Node`** takes from `n` and from what is below it, until `n` has no children. -/
theorem does_deleteChilds (f : Nat) : ∀ (n : Ptr) (s : State), Inv s → n < s.next → s.Held n →
    Does (s.birth n) (deleteChilds f n) s fun a t => Back s a t ∧ t.childs n = [] := by
  induction f with
  | zero =>
    intro n s h hn hheld
    exact Spec.stop ⟨by decide, by decide⟩
  | succ f ih =>
    intro n s h hn hheld
    rw [deleteChilds]
    refine Spec.get ?_
    split
    · next hnil => exact Spec.pure ⟨rfl, hnil⟩
    · next c cs hcs =>
      have hat : s.At n 0 c := by
        rw [State.At, State.childs, hcs]
        rfl
      have hs := h.slot hn hheld hat
      obtain ⟨-, hc, -, hb⟩ := hs.lt h
      refine Does.call h (Nat.le_of_lt hb) (ih c s h hc (Or.inl hs.reg)) ?_
      rintro _ t ht hf ⟨hback, hnil⟩
      have hs' := hs.frame h ht hf (Nat.le_refl _)
      refine does_release ht hs'.reg ?_
      refine Does.step ht ⟨hs', hnil, Nat.le_of_eq (hf.birth n hn).symm⟩ fun hu hfu => ?_
      obtain ⟨hnt, hheldt⟩ := hf.held h ht hn hheld (Nat.le_of_lt hb)
      obtain ⟨hnu, hheldu⟩ := hfu.held ht hu hnt hheldt (Nat.le_of_eq (hf.birth n hn))
      have hbu := (hfu.birth n hnt).trans (hf.birth n hn)
      refine Does.last hu (Nat.le_of_eq hbu.symm) (ih n _ hu hnu hheldu) ?_
      rintro a u - - ⟨hback', hnil'⟩
      exact ⟨Eq.trans hback' hback, hnil'⟩

/-- A deleted child takes what is below it along. -/
theorem does_deleteSlot {f : Nat} {owner n : Ptr} {i : Nat} {s : State} (h : Inv s)
    (hs : Slot s owner i n) : Does (s.birth owner) (deleteSlot f owner i n) s (Back s) := by
  obtain ⟨ho, hn, -, hb⟩ := hs.lt h
  refine Does.call h (Nat.le_of_lt hb) (does_deleteChilds f n s h hn (Or.inl hs.reg)) ?_
  rintro _ t ht hf ⟨hback, hnil⟩
  have hs' := hs.frame h ht hf (Nat.le_refl _)
  refine does_release ht hs'.reg ?_
  exact Spec.act ⟨hs', hnil, Nat.le_of_eq (hf.birth owner ho).symm⟩ hback

/-- A conversion is guarded where the node is in its slot and asks for another type. -/
theorem does_replaceSlot {b : Nat} {owner n : Ptr} {i : Nat} {s : State} (h : Inv s)
    (hs : Slot s owner i n) (hopen : s.Open n) (hb : b ≤ s.birth owner) :
    Does b (replaceSlot owner i n) s fun _ t => t = (Label.replace owner i n).apply s :=
  does_checkErase h hs.reg (Spec.act ⟨hs, hopen, hb⟩ rfl)

/-! ## isCorrectAndExit -/

/-- `m` can be called at any node with valid children. -/
def Walks {α : Type} (m : Ptr → M α) : Prop :=
  ∀ n s, Inv s → n < s.next → s.Held n → Does (s.birth n) (m n) s (Back s)

/-- The next round of a loop at `n`, after steps that leave `n` alone. -/
theorem Does.again {α : Type} {m : M α} {s t : State} {n : Ptr} {b : Nat} (h : Inv s)
    (hn : n < s.next) (hheld : s.Held n) (ht : Inv t) (hf : Frame b s t) (hb : s.birth n ≤ b)
    (hback : t.active = s.active)
    (hm : n < t.next → t.Held n → Does (t.birth n) m t (Back t)) :
    Does (s.birth n) m t (Back s) := by
  obtain ⟨hnt, hheldt⟩ := hf.held h ht hn hheld hb
  refine Does.last ht (Nat.le_of_eq (hf.birth n hn).symm) (hm hnt hheldt) ?_
  intro c u _ _ hback'
  exact Eq.trans hback' hback

/-- The scan of an AND node stays below the node, whatever it deletes on its way. -/
theorem does_andScan {ic : Ptr → M Bool} (hic : Walks ic) (f : Nat) : ∀ (i e k : Nat),
    Walks fun n => andScan ic f n i e k := by
  induction f with
  | zero => exact fun i e k n s _ _ _ => Spec.stop ⟨by decide, by decide⟩
  | succ f ih =>
    intro i e k n s h hn hheld
    show Does _ (andScan ic (f + 1) n i e k) _ _
    rw [andScan]
    refine Spec.get ?_
    split
    · exact Spec.pure rfl
    · next node hat =>
      have hs := h.slot hn hheld hat
      obtain ⟨-, hnode, -, hb⟩ := hs.lt h
      refine Does.call h (Nat.le_of_lt hb) (hic node s h hnode (Or.inl hs.reg)) ?_
      intro exited t ht hf hback
      have hs' := hs.frame h ht hf (Nat.le_refl _)
      refine Spec.get ?_
      split
      · -- an EMPTY leaf: it is counted, and deleted if its thread has ended
        refine Does.step ht trivial fun hu hfu => ?_
        have hfe := frame_edit (b := t.birth node) (s := t) n .hasEmpty
        have hs'' := hs'.frame ht hu hfe (Nat.le_refl _)
        have hfn := (hf.mono (Nat.le_of_lt hb)).trans hfu
        split
        · refine Does.call hu (Nat.le_of_eq (hfn.birth n hn).symm) (does_deleteSlot hu hs'') ?_
          intro _ v hv hfv hback'
          have hfn' := hfn.trans (hfv.mono (Nat.le_of_eq (hfn.birth n hn).symm))
          exact Does.again h hn hheld hv hfn' (Nat.le_refl _) (Eq.trans hback' hback)
            (ih i (e + 1) k n v hv)
        · exact Does.again h hn hheld hu hfn (Nat.le_refl _) hback (ih (i + 1) (e + 1) k n _ hu)
      · split
        · exact Does.again h hn hheld ht hf (Nat.le_of_lt hb) hback (ih (i + 1) e (k + 1) n t ht)
        · exact Does.again h hn hheld ht hf (Nat.le_of_lt hb) hback (ih (i + 1) e k n t ht)

theorem does_andCorrect {ic : Ptr → M Bool} (hic : Walks ic) (f : Nat) :
    Walks (andCorrect ic f) := by
  intro n s h hn hheld
  rw [andCorrect]
  refine Spec.get ?_
  refine Does.call h (Nat.le_refl _) (does_andScan hic f 0 0 0 n s h hn hheld) ?_
  rintro ⟨e, k⟩ t ht hf hback
  refine Spec.get ?_
  split
  · exact Does.step ht trivial fun _ _ => Spec.pure hback
  · split
    · exact Does.step ht trivial fun _ _ => Spec.pure hback
    · exact Spec.pure hback

/-- That of a PAL node likewise. -/
theorem does_palScan {ic : Ptr → M Bool} (hic : Walks ic) (f : Nat) : ∀ (i e : Nat),
    Walks fun n => palScan ic f n i e := by
  induction f with
  | zero => exact fun i e n s _ _ _ => Spec.stop ⟨by decide, by decide⟩
  | succ f ih =>
    intro i e n s h hn hheld
    show Does _ (palScan ic (f + 1) n i e) _ _
    rw [palScan]
    refine Spec.get ?_
    split
    · exact Spec.pure rfl
    · next node hat =>
      have hs := h.slot hn hheld hat
      obtain ⟨-, hnode, -, hb⟩ := hs.lt h
      refine Does.call h (Nat.le_of_lt hb) (hic node s h hnode (Or.inl hs.reg)) ?_
      intro exited t ht hf hback
      have hs' := hs.frame h ht hf (Nat.le_refl _)
      have hft := hf.mono (Nat.le_of_lt hb)
      refine Spec.get ?_
      split
      · split
        · refine Does.step ht trivial fun hu hfu => ?_
          have hfe := frame_edit (b := t.birth node) (s := t) n .hasEmpty
          have hs'' := hs'.frame ht hu hfe (Nat.le_refl _)
          have hfn := hft.trans hfu
          refine Does.call hu (Nat.le_of_eq (hfn.birth n hn).symm) (does_deleteSlot hu hs'') ?_
          intro _ v hv hfv hback'
          have hfn' := hfn.trans (hfv.mono (Nat.le_of_eq (hfn.birth n hn).symm))
          exact Does.again h hn hheld hv hfn' (Nat.le_refl _) (Eq.trans hback' hback)
            (ih i (e + 1) n v hv)
        · refine Does.call ht (Nat.le_of_eq (hft.birth n hn).symm) (does_deleteSlot ht hs') ?_
          intro _ v hv hfv hback'
          have hfn' := hft.trans (hfv.mono (Nat.le_of_eq (hft.birth n hn).symm))
          exact Does.again h hn hheld hv hfn' (Nat.le_refl _) (Eq.trans hback' hback) (ih i e n v hv)
      · exact Does.again h hn hheld ht hf (Nat.le_of_lt hb) hback (ih (i + 1) e n t ht)

theorem does_palCorrect {ic : Ptr → M Bool} (hic : Walks ic) (f : Nat) :
    Walks (palCorrect ic f) := by
  intro n s h hn hheld
  rw [palCorrect]
  refine Spec.get ?_
  refine Does.call h (Nat.le_refl _) (does_palScan hic f 0 0 n s h hn hheld) ?_
  intro e t ht hf hback
  refine Spec.get ?_
  split
  · exact Spec.pure hback
  · split
    · exact Does.step ht trivial fun _ _ => Spec.pure hback
    · exact Spec.pure hback

theorem does_prjCorrect : Walks prjCorrect := by
  intro n s h hn hheld
  rw [prjCorrect]
  refine Spec.get ?_
  split
  · exact Spec.stop ⟨by decide, by decide⟩
  · next q ps _ =>
    dsimp only
    generalize (if s.isExit q = true then 1 else 0) + ps.countP s.emptyLeaf = exitNum
    split
    · exact Spec.pure rfl
    · split
      · exact Does.step h trivial fun _ _ => Spec.pure rfl
      · exact Spec.pure rfl

/-- **`isCorrectAndExit`** takes from the node and from what is below it only. -/
theorem does_isCorrectAndExit (f : Nat) : Walks (isCorrectAndExit f) := by
  induction f with
  | zero => exact fun n s _ _ _ => Spec.stop ⟨by decide, by decide⟩
  | succ f ih =>
    intro n s h hn hheld
    rw [isCorrectAndExit]
    refine Spec.get ?_
    split
    · exact does_andCorrect ih f n s h hn hheld
    · exact does_palCorrect ih f n s h hn hheld
    · exact does_prjCorrect n s h hn hheld
    · exact Spec.pure rfl
    · exact Spec.pure rfl
    · exact Spec.pure rfl

end Msvl.Function
