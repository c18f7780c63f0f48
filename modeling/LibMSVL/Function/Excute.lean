/-
  `excute` of every node type, and `updateNode`.

  `Executes ex` is the specification of `excute`; the loops are specified over any `ex` with it, and
  the induction on the bound of the depth closes the circle.  A slot is executed with its owner's
  birth as the bound: while the child runs it stays in its slot, so it can be replaced there when it
  returns with another type asked for.
-/
import LibMSVL.Function.Calls

namespace Msvl.Function

open Msvl.Run

/-- `ex` can be called at any node that is ready. -/
def Executes (ex : Ptr → M Unit) : Prop :=
  ∀ n s, Inv s → Ready s n → Does (s.birth n) (ex n) s (Back s)

/-! ## A slot -/

/-- After the conversion the slot holds a child of the owner again. -/
theorem Slot.replaced {s : State} (h : Inv s) {owner n : Ptr} {i : Nat} (hs : Slot s owner i n)
    (c : Ptr) (hc : ((Label.replace owner i n).apply s).At owner i c) :
    Slot ((Label.replace owner i n).apply s) owner i c := by
  have hc' := hc
  rw [replace_at h hs, if_pos rfl] at hc'
  have heq : c = s.next := by
    rcases hc' with ⟨-, heq⟩ | ⟨hne, -⟩
    · exact heq
    · exact absurd rfl hne
  subst heq
  refine ⟨hc, (replace_reg hs _).mpr (Or.inl rfl), ?_⟩
  rw [replace_father, if_neg, if_pos rfl, hs.father]
  intro hk
  exact Nat.lt_irrefl _ (h.alloc (hs.kept h hk).1)

/-- **A slot** is executed and converted, by induction on the conversions: whoever is executed
    leaves the slots of older nodes alone. -/
theorem does_excuteSlot {ex : Ptr → M Unit} (hex : Executes ex) (f : Nat) :
    ∀ (owner : Ptr) (i : Nat) (s : State), Inv s → owner < s.next → s.threadRoot ≠ none →
      (∀ c, s.At owner i c → Slot s owner i c) →
      Does (s.birth owner) (excuteSlot ex f owner i) s (Back s) := by
  induction f with
  | zero => exact fun owner i s _ _ _ _ => Spec.stop ⟨by decide, by decide⟩
  | succ f ih =>
    intro owner i s h ho hroot hslot
    rw [excuteSlot]
    refine Spec.get ?_
    split
    · exact Spec.stop ⟨by decide, by decide⟩
    · next child hat =>
      have hs := hslot child hat
      obtain ⟨-, hc, -, hb⟩ := hs.lt h
      refine Does.step h trivial fun hu hfu => ?_
      have hs' : Slot ((Label.enter child).apply s) owner i child := ⟨hs.at_, hs.reg, hs.father⟩
      have hready : Ready ((Label.enter child).apply s) child :=
        ⟨hc, Or.inl hs.reg, hroot, fun _ => List.mem_cons_self⟩
      refine Does.call hu (Nat.le_of_lt hb) (hex child _ hu hready) ?_
      intro _ t ht hf hback
      have hback : t.active = child :: s.active := hback
      have hst := hs'.frame hu ht hf (Nat.le_refl _)
      have hbo : s.birth owner ≤ t.birth owner := Nat.le_of_eq (hf.birth owner ho).symm
      refine Spec.get ?_
      split
      · next hopen =>
        refine Does.call ht (Nat.le_refl _) (does_replaceSlot ht hst hopen hbo) ?_
        rintro _ v hv hfv rfl
        have hback' : ((Label.replace owner i child).apply t).active = child :: s.active :=
          Eq.trans (replace_global t owner i child fun _ _ _ => rfl) hback
        have hgone : ¬ ((Label.replace owner i child).apply t).Reg child := by
          rw [replace_reg hst]
          rintro (heq | ⟨-, hne⟩)
          · exact Nat.ne_of_lt (Nat.lt_of_lt_of_le hc hf.next) heq
          · exact hne rfl
        refine Does.step hv ⟨by rw [hback']; rfl, Or.inr (Or.inl hgone)⟩ fun hw hfw => ?_
        have hfwo := (hf.mono (Nat.le_of_lt hb)).trans (hfv.trans hfw)
        obtain ⟨r, hr⟩ := Option.ne_none_iff_exists'.mp hroot
        refine Does.last hw (Nat.le_of_eq (hfwo.birth owner ho).symm)
          (ih owner i _ hw (Nat.lt_of_lt_of_le ho hfwo.next) ?_ ?_) ?_
        · rw [hfwo.root (h.birth owner ho).1 r hr]
          exact Option.some_ne_none r
        · intro c hcat
          have hsc := hst.replaced ht c hcat
          exact ⟨hsc.at_, hsc.reg, hsc.father⟩
        · intro _ z _ _ hbackz
          refine Eq.trans hbackz ?_
          show ((Label.replace owner i child).apply t).active.tail = s.active
          rw [hback']
          rfl
      · next hclosed =>
        refine Spec.act ⟨by rw [hback]; rfl, Or.inl hclosed⟩ ?_
        show t.active.tail = s.active
        rw [hback]
        rfl

/-! ## The loops over the children -/

/-- What can be executed still can, after its children have been. -/
theorem Ready.frame {s t : State} {n : Ptr} {b : Nat} (h : Inv s) (hn : Ready s n) (ht : Inv t)
    (hf : Frame b s t) (hb : s.birth n ≤ b) (hback : t.active = s.active) : Ready t n := by
  obtain ⟨hlt, hheld⟩ := hf.held h ht hn.lt hn.held hb
  obtain ⟨r, hr⟩ := Option.ne_none_iff_exists'.mp hn.root
  refine ⟨hlt, hheld, ?_, ?_⟩
  · rw [hf.root (Nat.le_trans (h.birth n hn.lt).1 hb) r hr]
    exact Option.some_ne_none r
  · rw [hf.type n hn.lt, hback]
    exact hn.active

/-- The rest of a function at `n`, after steps that leave `n` alone. -/
theorem Ready.again {α : Type} {m : M α} {s t : State} {n : Ptr} {b : Nat} (h : Inv s)
    (hn : Ready s n) (ht : Inv t) (hf : Frame b s t) (hb : s.birth n ≤ b)
    (hback : t.active = s.active) (hm : Ready t n → Does (t.birth n) m t (Back t)) :
    Does (s.birth n) m t (Back s) := by
  refine Does.last ht (Nat.le_of_eq (hf.birth n hn.lt).symm)
    (hm (hn.frame h ht hf hb hback)) ?_
  intro c u _ _ hback'
  exact Eq.trans hback' hback

theorem Ready.excuteSlot {ex : Ptr → M Unit} (hex : Executes ex) (f : Nat) {n : Ptr} (i : Nat)
    {s : State} (h : Inv s) (hn : Ready s n) :
    Does (s.birth n) (excuteSlot ex f n i) s (Back s) :=
  does_excuteSlot hex f n i s h hn.lt hn.root fun _ hat => h.slot hn.lt hn.held hat

/-- The loop over the children: the vector may grow, the slots passed stay. -/
theorem does_excuteChilds {ex : Ptr → M Unit} (hex : Executes ex) (f : Nat) :
    ∀ (i : Nat), Executes fun n => excuteChilds ex f n i := by
  induction f with
  | zero => exact fun i n s _ _ => Spec.stop ⟨by decide, by decide⟩
  | succ f ih =>
    intro i n s h hn
    show Does _ (excuteChilds ex (f + 1) n i) _ _
    rw [excuteChilds]
    refine Spec.get ?_
    split
    · refine Does.call h (Nat.le_refl _) (Ready.excuteSlot hex f i h hn) ?_
      intro _ t ht hf hback
      exact hn.again h ht hf (Nat.le_refl _) hback (ih (i + 1) n t ht)
    · exact Spec.pure rfl

/-- Looking at the vector afterwards changes nothing. -/
theorem Executes.throughIterator {ex : Ptr → M Unit} (hex : Executes ex) (owner : Ptr) :
    Executes (throughIterator ex owner) := by
  intro n s h hn
  refine Spec.get (Does.call h (Nat.le_refl _) (hex n s h hn) ?_)
  intro _ t _ _ hback
  refine Spec.get ?_
  split
  · exact Spec.stop ⟨by decide, by decide⟩
  · exact Spec.pure hback

/-- `AndNode::excute` and `PalNode::excute`, after their `isCorrectAndExit`. -/
theorem does_done {ex : Ptr → M Unit} (hex : Executes ex) (f : Nat) {m : Ptr → M Bool}
    (hm : Walks m) {n : Ptr} {s : State} (h : Inv s) (hn : Ready s n)
    (hc : (s.type n).Composite) :
    Does (s.birth n) (m n >>= fun done =>
      if done then act (.edit n (.leaf false)) else excuteChilds ex f n 0) s (Back s) := by
  refine Does.call h (Nat.le_refl _) (hm n s h hn.lt hn.held) ?_
  intro done t ht hf hback
  split
  · refine Spec.act ⟨Nat.lt_of_lt_of_le hn.lt hf.next, ?_, by nofun⟩ hback
    rw [hf.type n hn.lt]
    exact hc
  · exact hn.again h ht hf (Nat.le_refl _) hback (does_excuteChilds hex f 0 n t ht)

/-! ## PrjNode -/

/-- Deleting the p's that have ended. -/
theorem does_prjNext {ex : Ptr → M Unit} (hex : Executes ex) (f : Nat) :
    Executes (prjNext ex f) := by
  induction f with
  | zero => exact fun n s _ _ => Spec.stop ⟨by decide, by decide⟩
  | succ f ih =>
    intro n s h hn
    rw [prjNext]
    refine Spec.get ?_
    split
    · exact Spec.stop ⟨by decide, by decide⟩
    · next p hat =>
      split
      · refine Does.step h trivial fun hu hfu => ?_
        have hnu := hn.frame h hu hfu (Nat.le_refl _) rfl
        have hs : Slot ((Label.edit n (.extQ true)).apply s) n 1 p := by
          refine hu.slot hnu.lt hnu.held ?_
          rw [State.At, edit_childs]
          exact hat
        have hbu := Nat.le_of_eq (hfu.birth n hn.lt).symm
        refine Does.call hu hbu (does_deleteSlot hu hs) ?_
        intro _ t ht hf hback
        have hnt := hnu.frame hu ht hf (Nat.le_refl _) hback
        have hft := hfu.trans (hf.mono hbu)
        refine Spec.get ?_
        split
        · exact Spec.pure hback
        · refine Does.call ht (Nat.le_of_eq (hft.birth n hn.lt).symm)
            (Ready.excuteSlot hex f 1 ht hnt) ?_
          intro _ v hv hfv hback'
          have hfv' := hft.trans (hfv.mono (Nat.le_of_eq (hft.birth n hn.lt).symm))
          exact hn.again h hv hfv' (Nat.le_refl _) (Eq.trans hback' hback) (ih n v hv)
      · exact Spec.pure rfl

theorem does_prjP {ex : Ptr → M Unit} (hex : Executes ex) (f : Nat) : Executes (prjP ex f) := by
  intro n s h hn
  rw [prjP]
  refine Spec.get ?_
  split
  · exact Spec.act trivial rfl
  · refine Does.call h (Nat.le_refl _) (Ready.excuteSlot hex f 1 h hn) ?_
    intro _ t ht hf hback
    exact hn.again h ht hf (Nat.le_refl _) hback (does_prjNext hex f n t ht)

theorem does_prjQ {ex : Ptr → M Unit} (hex : Executes ex) (f : Nat) : Executes (prjQ ex f) := by
  intro n s h hn
  rw [prjQ]
  refine Spec.get ?_
  refine Does.step h trivial fun hu hfu => ?_
  have hnu := hn.frame h hu hfu (Nat.le_refl _) rfl
  have hbu := Nat.le_of_eq (hfu.birth n hn.lt).symm
  split
  · split
    · exact Spec.stop ⟨by decide, by decide⟩
    · next q hat =>
      have hs : Slot ((Label.edit n (.hasExtQ (s.heap n).extQ)).apply s) n 0 q := by
        refine hu.slot hnu.lt hnu.held ?_
        rw [State.At, edit_childs]
        exact hat
      obtain ⟨-, hq, -, hqb⟩ := hs.lt hu
      refine Does.call hu (Nat.le_trans hbu (Nat.le_of_lt hqb))
        (does_isCorrectAndExit f q _ hu hq (Or.inl hs.reg)) ?_
      intro done t ht hf hback
      have hnt := hnu.frame hu ht hf (Nat.le_of_lt hqb) hback
      have hft := hfu.trans (hf.mono (Nat.le_trans hbu (Nat.le_of_lt hqb)))
      split
      · exact Spec.pure hback
      · refine Does.call ht (Nat.le_of_eq (hft.birth n hn.lt).symm)
          (Ready.excuteSlot hex f 0 ht hnt) ?_
        intro _ v _ _ hback'
        exact Spec.act trivial (Eq.trans hback' hback)
  · exact Spec.pure rfl

theorem does_prjExcute {ex : Ptr → M Unit} (hex : Executes ex) (f : Nat) {n : Ptr} {s : State}
    (h : Inv s) (hn : Ready s n) (hc : (s.type n).Composite) :
    Does (s.birth n) (prjExcute ex f n) s (Back s) := by
  rw [prjExcute]
  refine Does.call h (Nat.le_refl _) (does_prjCorrect n s h hn.lt hn.held) ?_
  intro done t ht hf hback
  split
  · refine Spec.act ⟨Nat.lt_of_lt_of_le hn.lt hf.next, ?_, by nofun⟩ hback
    rw [hf.type n hn.lt]
    exact hc
  · have hnt := hn.frame h ht hf (Nat.le_refl _) hback
    refine Does.call ht (Nat.le_of_eq (hf.birth n hn.lt).symm) (does_prjP hex f n t ht hnt) ?_
    intro _ u hu hfu hback'
    have hf' := hf.trans (hfu.mono (Nat.le_of_eq (hf.birth n hn.lt).symm))
    exact hn.again h hu hf' (Nat.le_refl _) (Eq.trans hback' hback) (does_prjQ hex f n u hu)

/-! ## Every type -/

/-- **`excute` is made by guarded steps**, bounded by the node it is called for. -/
theorem does_excute (f : Nat) : Executes (excute f) := by
  induction f with
  | zero => exact fun n s _ _ => Spec.stop ⟨by decide, by decide⟩
  | succ f ih =>
    intro n s h hn
    rw [excute]
    refine Spec.get ?_
    split
    · next htype =>
      exact does_done ih f (does_andCorrect (does_isCorrectAndExit f) f) h hn
        (by rw [State.type, htype]; trivial)
    · next htype =>
      exact does_done (ih.throughIterator n) f (does_palCorrect (does_isCorrectAndExit f) f) h hn
        (by rw [State.type, htype]; trivial)
    · next htype =>
      exact does_prjExcute ih f h hn (by rw [State.type, htype]; trivial)
    · next htype =>
      exact does_keepExcute f h hn htype
    · next htype =>
      exact does_alwExcute f h hn (by rw [State.type, htype]; exact id)
    · next htype =>
      exact does_leafExcute f h hn (by rw [State.type, htype]; exact id)

/-! ## updateNode -/

/-- What the search has found is registered. -/
theorem Inv.found {s : State} (h : Inv s) {node father : Ptr} {i : Nat} (hn : node < s.next)
    (hfather : s.father node = some father)
    (hi : (s.childs father).findIdx? (· == node) = some i) : Slot s father i node := by
  rw [List.findIdx?_eq_some_iff_getElem] at hi
  obtain ⟨hlt, heq, -⟩ := hi
  have hat : s.At father i node := by
    rw [State.At, List.getElem?_eq_getElem hlt, eq_of_beq heq]
  refine ⟨hat, ?_, hfather⟩
  by_contra hno
  exact h.gone node hn hno father hfather i hat

/-- After `updateNode` nothing is left to convert in the slot, and the father is the same. -/
theorem does_updateNode {b : Nat} (hb : b ≤ 1) (f : Nat) {node : Ptr} {s : State} (h : Inv s)
    (hn : node < s.next) (hroot : s.threadRoot ≠ none) :
    Does b (updateNode f node) s fun a t =>
      Back s a t ∧ t.Settled node ∧ t.father node = s.father node := by
  rw [updateNode]
  refine Does.step h hn fun _ _ => ?_
  show Does b _ s _
  refine Spec.get ?_
  split
  · next hskip => exact Spec.pure ⟨rfl, hskip.imp_right Or.inr, rfl⟩
  · next hgo =>
    obtain ⟨hopen, hne⟩ := not_or.mp hgo
    split
    · exact Spec.stop ⟨by decide, by decide⟩
    · next father hfather =>
      split
      · exact Spec.stop ⟨by decide, by decide⟩
      · next i hi =>
        have hs := h.found hn hfather hi
        obtain ⟨ho, -, hon, -⟩ := hs.lt h
        have hbo := Nat.le_trans hb (h.birth father ho).1
        refine Does.call h hbo (does_replaceSlot h hs (not_not.mp hopen) (Nat.le_refl _)) ?_
        rintro _ t ht hf rfl
        have hgone : ¬ ((Label.replace father i node).apply s).Reg node := by
          rw [replace_reg hs]
          rintro (heq | ⟨-, hne⟩)
          · exact Nat.ne_of_lt hn heq
          · exact hne rfl
        have hfather' : ((Label.replace father i node).apply s).father node = s.father node := by
          rw [replace_father, if_neg, if_neg (Nat.ne_of_lt hn)]
          intro hk
          have hf' := (hs.kept h hk).2.1
          rw [hs.father] at hf'
          cases hf'
          exact hon rfl
        have ho' := Nat.lt_of_lt_of_le ho hf.next
        have hn' := Nat.lt_of_lt_of_le hn hf.next
        obtain ⟨r, hr⟩ := Option.ne_none_iff_exists'.mp hroot
        refine Does.last ht (Nat.le_trans hbo (Nat.le_of_eq (hf.birth father ho).symm))
          (does_excuteSlot (does_excute f) f father i _ ht ho' ?_ (hs.replaced h)) ?_
        · rw [hf.root (h.birth father ho).1 r hr]
          exact Option.some_ne_none r
        · intro _ u _ hfu hback
          obtain ⟨hgone', hfu'⟩ := hfu.gone node hn' hgone
          refine ⟨?_, Or.inr (Or.inl hgone'), hfu'.trans hfather'⟩
          exact Eq.trans hback (replace_global s father i node fun _ _ _ => rfl)

end Msvl.Function
