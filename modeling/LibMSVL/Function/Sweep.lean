/-
  The walk over the tree executes every node once.

  One lemma for each function, from `excuteSlot` up to `excute` and `updateNode`.  While a child is
  executed the bound is its own birth, so no other child of its father is (`Later.below`); a loop over
  the children goes on with the rest.  For a projection `FirstP` says this of the p's.
-/
import LibMSVL.Function.Visits

namespace Msvl.Function

open Msvl.Run

/-! ## A slot -/

/-- While the child is executed, and replaced, no other child of the owner is. -/
theorem visits_excuteSlot {ex : Ptr → M Unit} (hex : Visiting ex) (f : Nat) :
    ∀ (owner : Ptr) (i : Nat) (w : Site), (Good w.log → Fine w ∧ Begun w owner ∧
      ∀ c, w.st.At owner i c → Turnable w c) →
    Visits (w.st.birth owner) (excuteSlot ex f owner i) w fun _ w' =>
      ∀ k c, w'.st.At owner k c → Seen w'.log c → k = i ∨ w.st.At owner k c ∧ Seen w.log c := by
  induction f with
  | zero => exact fun owner i w hw => Visits.stop fun hg => (hw hg).1
  | succ f ih =>
    intro owner i w hw
    rw [excuteSlot]
    refine Visits.get ?_
    split
    · exact Visits.stop fun hg => (hw hg).1
    · next child hat =>
      have hat : w.st.At owner i child := hat
      have hchild : Good w.log → w.st.father child = some owner ∧
          w.st.birth owner < w.st.birth child := by
        intro hg
        obtain ⟨hfine, hn, -⟩ := hw hg
        exact ⟨(hfine.inv.held owner hn.lt (Or.inr hn.comp) i child hat).2,
          (hfine.inv.down owner hn.lt i child hat).2.1⟩
      refine Visits.step (l := .enter child) (by simp) (fun hg => (hw hg).1) ?_ fun h1 => ?_
      · intro hg
        have hc := (hw hg.1).2.2 child hat
        refine ⟨hc.enterable, hc.due, fun F hF => ?_⟩
        cases (hchild hg.1).1.symm.trans hF
        exact Nat.le_refl _
      refine Visits.bind (T := fun _ _ => True)
        (hex child (after w (.enter child)) fun hg => ?_) (fun hg => (hchild hg.1).2.le) ?_
      · obtain ⟨hgood, hfine, -⟩ := h1 hg
        obtain ⟨hfine', -, hturn⟩ := hw hgood
        exact ⟨hfine, (hturn child hat).able hfine'⟩
      intro _ w2 h2
      have hback : Good w2.log → Begun w2 owner ∧ w2.st.birth owner = w.st.birth owner ∧
          Seen w2.log child ∧
          ∀ k c, w2.st.At owner k c → Seen w2.log c → k = i ∨ w.st.At owner k c ∧ Seen w.log c := by
        intro hg
        obtain ⟨hg1, hfine2, hlater2, -⟩ := h2 hg
        obtain ⟨hgood, hfine1, hlater1⟩ := h1 hg1
        obtain ⟨hfine, hn, -⟩ := hw hgood
        have hn1 := hn.later hlater1
        refine ⟨hn1.later hlater2, hlater2.birth owner hn1.lt, ?_, fun k c hc hs => ?_⟩
        · exact hlater2.seen ((seen_cons (by simp)).mpr (Or.inl rfl))
        · obtain ⟨hc, hs⟩ := hlater2.below owner hn1.lt hn1.comp (hchild hgood).2 k c hc hs
          have hc : w.st.At owner k c := hc
          refine ((seen_cons (by simp)).mp hs).imp ?_ fun hs => ⟨hc, hs⟩
          rintro rfl
          exact hfine.inv.once c (hfine.inv.down owner hn.lt i c hat).1 owner (hchild hgood).1 k i
            hc hat
      refine Visits.get ?_
      split
      · rw [replaceSlot, Prog.bind_assoc]
        refine Visits.checkErase (fun hg => (h2 hg).2.1) ?_
        refine Visits.step (l := .replace owner i child) (by simp) (fun hg => (h2 hg).2.1) ?_
          fun h3 => ?_
        · intro hg
          obtain ⟨-, hb, hseen, -⟩ := hback hg.1
          exact ⟨hseen, hb.ge⟩
        refine Visits.step (l := .leave child) (by simp) (fun hg => (h3 hg).2.1) (fun _ => trivial)
          fun h4 => ?_
        -- the slot holds the new object
        have hnew : Good (after w2 (.replace owner i child)).log → ∀ k c,
            (after w2 (.replace owner i child)).st.At owner k c →
              Seen (after w2 (.replace owner i child)).log c →
                k = i ∨ w2.st.At owner k c ∧ Seen w2.log c := by
          intro hg k c hc hs
          obtain ⟨-, hinv, ⟨hslot, -⟩, -, -⟩ := hg
          have hc := (replace_at hinv hslot owner k c).mp hc
          rw [if_pos rfl] at hc
          refine hc.imp And.left fun hc => ⟨hc.2, ?_⟩
          refine ((seen_cons (by simp)).mp hs).resolve_left ?_
          rintro rfl
          have ho := (hslot.lt hinv).1
          exact Nat.lt_irrefl _ (hinv.down owner ho k _ hc.2).1
        refine (ih owner i _ fun hg => ?_).last (fun hg => ?_) ?_
        · obtain ⟨hg3, hfine4, hlater4⟩ := h4 hg
          obtain ⟨hg2, hfine3, hlater3⟩ := h3 hg3
          obtain ⟨hn, -, hseen, -⟩ := hback hg2
          refine ⟨hfine4, (hn.later hlater3).later hlater4, fun c hc => ?_⟩
          obtain ⟨rfl, hent, hchilds⟩ := Turnable.replaced (h2 hg2).2.1 hg3 c hc
          have hshown : Seen (after w2 (.replace owner i child)).log w2.st.next :=
            (seen_cons (by simp)).mpr (Or.inl rfl)
          refine ⟨hfine4.once.seen _ (hlater4.seen hshown), Or.inr ⟨?_, ?_⟩⟩
          · rintro ⟨u, hu⟩
            exact hent ⟨u, (List.mem_cons.mp hu).resolve_left (by simp)⟩
          · intro hcomp k d hd hs
            exact hchilds hcomp k d hd (((seen_cons (by simp)).mp hs).resolve_left id)
        · obtain ⟨hg3, -, hlater4⟩ := h4 hg
          obtain ⟨hg2, -, hlater3⟩ := h3 hg3
          obtain ⟨hn, hb, -⟩ := hback hg2
          rw [(hlater3.trans hlater4).birth owner hn.lt]
          exact hb.ge
        · intro _ w' _ hg hfine hlater hpost k c hc hs
          rcases hpost k c hc hs with hk | ⟨hc, hs⟩
          · exact Or.inl hk
          · have hs := ((seen_cons (by simp)).mp hs).resolve_left id
            rcases hnew hg.1 k c hc hs with hk | ⟨hc, hs⟩
            · exact Or.inl hk
            · exact (hback hg.1.1).2.2.2 k c hc hs
      · refine Visits.act (l := .leave child) (by simp) (fun hg => (h2 hg).2.1) (fun _ => trivial) ?_
        intro hg _ k c hc hs
        exact (hback hg.1).2.2.2 k c hc (((seen_cons (by simp)).mp hs).resolve_left id)

/-! ## The loops over the children -/

section

variable {ex : Ptr → M Unit} (hex : Visiting ex) (f : Nat)

include hex

/-- **The loop over the children**: those from `i` on have not had a turn yet. -/
theorem visits_excuteChilds : ∀ (i : Nat) (n : Ptr) (w : Site),
    (Good w.log → Fine w ∧ Begun w n ∧ w.st.type n ≠ .prj ∧
      ∀ k c, i ≤ k → w.st.At n k c → ¬ Seen w.log c) →
    Visits (w.st.birth n) (excuteChilds ex f n i) w fun _ _ => True := by
  induction f with
  | zero => exact fun i n w hw => Visits.stop fun hg => (hw hg).1
  | succ f ih =>
    intro i n w hw
    rw [excuteChilds]
    refine Visits.get ?_
    split
    · refine Visits.bind (visits_excuteSlot hex f n i w fun hg => ?_) (fun _ => Nat.le_refl _) ?_
      · obtain ⟨hfine, hn, hprj, hno⟩ := hw hg
        refine ⟨hfine, hn, fun c hc => ?_⟩
        exact Turnable.child hfine hn hc (hno i c (Nat.le_refl i) hc) fun h => absurd h hprj
      · intro _ w1 h1
        refine (ih (i + 1) n w1 fun hg => ?_).last (fun hg => ?_) fun _ _ _ _ _ _ _ => trivial
        · obtain ⟨hgood, hfine1, hlater, hpost⟩ := h1 hg
          obtain ⟨hfine, hn, hprj, hno⟩ := hw hgood
          refine ⟨hfine1, hn.later hlater, ?_, fun k c hk hc hs => ?_⟩
          · rw [hlater.type n hn.lt]
            exact hprj
          · rcases hpost k c hc hs with rfl | ⟨hc, hs⟩
            · exact Nat.not_succ_le_self _ hk
            · exact hno k c (Nat.le_of_succ_le hk) hc hs
        · obtain ⟨hgood, -, hlater, -⟩ := h1 hg
          exact (hlater.birth n (hw hgood).2.1.lt).ge
    · exact Visits.pure fun hg => ⟨(hw hg).1, trivial⟩

theorem Visiting.throughIterator (owner : Ptr) : Visiting (throughIterator ex owner) := by
  intro n w hw
  refine Visits.get (Visits.bind (hex n w hw) (fun _ => Nat.le_refl _) ?_)
  intro _ w1 h1
  refine Visits.get ?_
  split
  · exact Visits.stop fun hg => (h1 hg).2.1
  · exact Visits.pure fun hg => ⟨(h1 hg).2.1, trivial⟩

/-- `AndNode::excute` and `PalNode::excute`, after their `isCorrectAndExit`. -/
theorem visits_done {m : Ptr → M Bool} (hm : Walks m) (ht : ∀ n, Takes Label.Walk (m n)) {n : Ptr}
    {w : Site} (hw : Good w.log → Fine w ∧ Begun w n ∧ w.st.type n ≠ .prj ∧
      ∀ k c, w.st.At n k c → ¬ Seen w.log c) :
    Visits (w.st.birth n) (m n >>= fun done =>
      if done then act (.edit n (.leaf false)) else excuteChilds ex f n 0) w fun _ _ => True := by
  refine Visits.bind (visits_walk (Q := Back w.st) (ht n) fun hg => ?_) (fun _ => Nat.le_refl _) ?_
  · obtain ⟨hfine, hn, -, -⟩ := hw hg
    exact ⟨hfine, hm n w.st hfine.inv hn.lt (Or.inr hn.comp)⟩
  · intro done w1 h1
    split
    · exact Visits.act nofun (fun hg => (h1 hg).2.1) (fun _ => trivial) fun _ _ => trivial
    · refine (visits_excuteChilds hex f 0 n w1 fun hg => ?_).last (fun hg => ?_)
        fun _ _ _ _ _ _ _ => trivial
      · obtain ⟨hgood, hfine1, hlater, hhush⟩ := h1 hg
        obtain ⟨-, hn, hprj, hno⟩ := hw hgood
        refine ⟨hfine1, hn.later hlater, ?_, fun k c _ hc hs => ?_⟩
        · rw [hlater.type n hn.lt]
          exact hprj
        · obtain ⟨j, -, hat⟩ := hhush.trail n hn.lt hn.comp k c hc hs
          exact hno j c hat (hhush.seen c hs)
      · obtain ⟨hgood, -, hlater, -⟩ := h1 hg
        exact (hlater.birth n (hw hgood).2.1.lt).ge

/-! ## PrjNode -/

/-- Of the children of a projection only the first p has been executed. -/
structure FirstP (w : Site) (n : Ptr) : Prop extends Begun w n where
  type : w.st.type n = .prj
  first : ∀ k c, w.st.At n k c → Seen w.log c → k = 1

omit hex in
/-- The first p of a projection is the only child that has had a turn. -/
theorem FirstP.later {b : Nat} {w w' : Site} {n : Ptr} (hn : FirstP w n) (h : Later b w w')
    (hfirst : ∀ k c, w'.st.At n k c → Seen w'.log c → k = 1) : FirstP w' n := by
  refine ⟨hn.toBegun.later h, ?_, hfirst⟩
  rw [h.type n hn.lt]
  exact hn.type

omit hex in
theorem FirstP.edit {b : Nat} {w : Site} {n : Ptr} (hn : FirstP w n) (e : Edit)
    (h : Later b w (after w (.edit n e))) : FirstP (after w (.edit n e)) n := by
  refine hn.later h fun k c hc hs => ?_
  rw [State.At, show (after w (.edit n e)).st.childs n = w.st.childs n from
    edit_childs w.st n e n] at hc
  exact hn.first k c hc (((seen_cons (by simp)).mp hs).resolve_left id)

omit hex in
/-- The first p is deleted. -/
theorem FirstP.destroy {w : Site} {n p : Ptr} (hn : FirstP w n) (k : Nat) (c : Ptr)
    (hc : (after w (.destroy n 1 p)).st.At n k c) : ¬ Seen (after w (.destroy n 1 p)).log c := by
  intro hs
  have hs : Seen w.log c := ((seen_cons (by nofun)).mp hs).resolve_left id
  rw [State.At, show (after w (.destroy n 1 p)).st.childs n = _ from destroy_childs w.st n 1 p n,
    if_pos rfl, List.getElem?_eraseIdx] at hc
  split at hc
  · have := hn.first k c hc hs
    omega
  · have := hn.first (k + 1) c hc hs
    omega

/-- When a p has ended the next one is due, which has had none. -/
theorem visits_prjNext : ∀ (n : Ptr) (w : Site), (Good w.log → Fine w ∧ FirstP w n) →
    Visits (w.st.birth n) (prjNext ex f n) w fun _ w' => FirstP w' n := by
  induction f with
  | zero => exact fun n w hw => Visits.stop fun hg => (hw hg).1
  | succ f ih =>
    intro n w hw
    rw [prjNext]
    refine Visits.get ?_
    split
    · exact Visits.stop fun hg => (hw hg).1
    · next p hp =>
      have hp : w.st.At n 1 p := hp
      split
      · refine Visits.step (l := .edit n (.extQ true)) (by simp) (fun hg => (hw hg).1) (fun _ => trivial)
          fun h1 => ?_
        have hfirst1 : Good (after w (.edit n (.extQ true))).log →
            FirstP (after w (.edit n (.extQ true))) n := by
          intro hg
          obtain ⟨hgood, -, hlater⟩ := h1 hg
          exact (hw hgood).2.edit _ hlater
        rw [deleteSlot, Prog.bind_assoc]
        have hwalk : Good (after w (.edit n (.extQ true))).log →
            Does (w.st.birth p) (deleteChilds f p) (after w (.edit n (.extQ true))).st
              fun _ _ => True := by
          intro hg
          obtain ⟨hgood, hfine1, -⟩ := h1 hg
          obtain ⟨hfine, hn⟩ := hw hgood
          have hreg := (hfine.inv.held n hn.lt (Or.inr hn.comp) 1 p hp).1
          have hsame := sameMap_edit w.st n (.extQ true)
          have hreg1 := (hsame.reg p).mpr hreg
          refine Does.last hfine1.inv (hsame.birth p).ge
            (does_deleteChilds f p _ hfine1.inv (hfine1.inv.alloc hreg1) (Or.inl hreg1)) ?_
          exact fun _ _ _ _ _ => trivial
        have hbirth : Good w.log → w.st.birth n < w.st.birth p := fun hg =>
          ((hw hg).1.inv.down n (hw hg).2.lt 1 p hp).2.1
        refine Visits.bind (visits_walk (takes_deleteChilds f p) fun hg => ⟨(h1 hg).2.1, hwalk hg⟩)
          (fun hg => (hbirth hg.1).le) ?_
        intro _ w2 h2
        have hfirst2 : Good w2.log → FirstP w2 n ∧ w2.st.birth n = w.st.birth n := by
          intro hg
          obtain ⟨hg1, -, hlater2, -⟩ := h2 hg
          obtain ⟨hgood, -, hlater1⟩ := h1 hg1
          have hn := (hw hgood).2
          have hn1 := hfirst1 hg1
          have hb1 := hlater1.birth n hn.lt
          have hb := hbirth hgood
          refine ⟨hn1.later hlater2 fun k c hc hs => ?_, (hlater2.birth n hn1.lt).trans hb1⟩
          obtain ⟨hc, hs⟩ := hlater2.below n hn1.lt hn1.comp (by omega) k c hc hs
          exact hn1.first k c hc hs
        rw [Prog.bind_assoc]
        refine Visits.release (fun hg => (h2 hg).2.1) ?_
        refine Visits.step (l := .destroy n 1 p) (by simp) (fun hg => (h2 hg).2.1)
          (fun hg => (hfirst2 hg.1).2.ge) fun h3 => ?_
        have hfirst3 : Good (after w2 (.destroy n 1 p)).log →
            FirstP (after w2 (.destroy n 1 p)) n := by
          intro hg
          obtain ⟨hg2, -, hlater3⟩ := h3 hg
          have hn2 := (hfirst2 hg2).1
          exact hn2.later hlater3 fun k c hc hs => absurd hs (hn2.destroy k c hc)
        refine Visits.get ?_
        split
        · exact Visits.pure fun hg => ⟨(h3 hg).2.1, hfirst3 hg⟩
        · have hb3 : Good (after w2 (.destroy n 1 p)).log →
              (after w2 (.destroy n 1 p)).st.birth n = w.st.birth n := by
            intro hg
            obtain ⟨hg2, -, hlater3⟩ := h3 hg
            obtain ⟨hn2, hb2⟩ := hfirst2 hg2
            exact (hlater3.birth n hn2.lt).trans hb2
          refine Visits.bind (visits_excuteSlot hex f n 1 _ fun hg => ?_) (fun hg => (hb3 hg).ge) ?_
          · have hn2 := (hfirst2 hg.1).1
            refine ⟨(h3 hg).2.1, (hfirst3 hg).toBegun, fun c hc => ?_⟩
            exact Turnable.child (h3 hg).2.1 (hfirst3 hg).toBegun hc (hn2.destroy 1 c hc)
              fun _ => ⟨Nat.le_refl 1, fun h0 => absurd h0 Nat.one_ne_zero⟩
          · intro _ w4 h4
            refine (ih n w4 fun hg => ?_).last (fun hg => ?_) fun _ _ _ _ _ _ h => h
            · obtain ⟨hg3, hfine4, hlater4, hpost⟩ := h4 hg
              have hn2 := (hfirst2 hg3.1).1
              refine ⟨hfine4, (hfirst3 hg3).later hlater4 fun k c hc hs => ?_⟩
              rcases hpost k c hc hs with hk | ⟨hc, hs⟩
              · exact hk
              · exact absurd hs (hn2.destroy k c hc)
            · obtain ⟨hg3, -, hlater4, -⟩ := h4 hg
              exact ((hlater4.birth n (hfirst3 hg3).lt).trans (hb3 hg3)).ge
      · exact Visits.pure hw

/-- The first p, and those after it as long as each ends at once. -/
theorem visits_prjP {n : Ptr} {w : Site} (hw : Good w.log → Fine w ∧ Begun w n ∧
      w.st.type n = .prj ∧ ∀ k c, w.st.At n k c → Seen w.log c → k = 1 ∧ w.st.Idle c) :
    Visits (w.st.birth n) (prjP ex f n) w fun _ w' => FirstP w' n := by
  have hfirst : Good w.log → FirstP w n := by
    intro hg
    obtain ⟨-, hn, htype, hchilds⟩ := hw hg
    exact ⟨hn, htype, fun k c hc hs => (hchilds k c hc hs).1⟩
  rw [prjP]
  refine Visits.get ?_
  split
  · refine Visits.act (by simp) (fun hg => (hw hg).1) (fun _ => trivial) fun hg _ => ?_
    exact (hfirst hg.1).edit _ (Later.after (b := 0) (hw hg.1).1 hg (by simp) trivial)
  · refine Visits.bind (visits_excuteSlot hex f n 1 w fun hg => ?_) (fun _ => Nat.le_refl _) ?_
    · obtain ⟨hfine, hn, htype, hchilds⟩ := hw hg
      refine ⟨hfine, hn, fun c hc => ?_⟩
      have hslot : w.st.type n = .prj →
          1 ≤ 1 ∧ (1 = 0 → Doomed w.log n ∨ (w.st.heap n).hasExtQ = some true) :=
        fun _ => ⟨Nat.le_refl 1, fun h0 => absurd h0 Nat.one_ne_zero⟩
      by_cases hs : Seen w.log c
      · exact ⟨Enterable.child hfine.inv hn.lt hn.comp hn.passed hc hslot,
          Or.inl (hchilds 1 c hc hs).2⟩
      · exact Turnable.child hfine hn hc hs hslot
    · intro _ w1 h1
      refine (visits_prjNext hex f n w1 fun hg => ?_).last (fun hg => ?_) fun _ _ _ _ _ _ h => h
      · obtain ⟨hgood, hfine1, hlater, hpost⟩ := h1 hg
        have hn := hfirst hgood
        refine ⟨hfine1, hn.later hlater fun k c hc hs => ?_⟩
        rcases hpost k c hc hs with hk | ⟨hc, hs⟩
        · exact hk
        · exact hn.first k c hc hs
      · obtain ⟨hgood, -, hlater, -⟩ := h1 hg
        exact (hlater.birth n (hfirst hgood).lt).ge

/-- Then the q, which has had none. -/
theorem visits_prjQ {n : Ptr} {w : Site} (hw : Good w.log → Fine w ∧ FirstP w n) :
    Visits (w.st.birth n) (prjQ ex f n) w fun _ _ => True := by
  rw [prjQ]
  refine Visits.get ?_
  refine Visits.step (by simp) (fun hg => (hw hg).1) (fun hg => Or.inr fun c hc hs => ?_) fun h1 => ?_
  · exact absurd ((hw hg.1).2.first 0 c hc hs) Nat.zero_ne_one
  split
  · next hextQ =>
    split
    · exact Visits.stop fun hg => (h1 hg).2.1
    · next q hq =>
      rw [hextQ] at h1 ⊢
      have hq : w.st.At n 0 q := hq
      have hsame := sameMap_edit w.st n (.hasExtQ true)
      have hbirth : Good w.log → w.st.birth n < w.st.birth q := fun hg =>
        ((hw hg).1.inv.down n (hw hg).2.lt 0 q hq).2.1
      have hwalk : Good (after w (.edit n (.hasExtQ true))).log → Does (w.st.birth q)
          (isCorrectAndExit f q) (after w (.edit n (.hasExtQ true))).st fun _ _ => True := by
        intro hg
        obtain ⟨hgood, hfine1, -⟩ := h1 hg
        obtain ⟨hfine, hn⟩ := hw hgood
        have hreg := (hfine.inv.held n hn.lt (Or.inr hn.comp) 0 q hq).1
        have hreg1 := (hsame.reg q).mpr hreg
        refine Does.last hfine1.inv (hsame.birth q).ge (does_isCorrectAndExit f q _ hfine1.inv
          (hfine1.inv.alloc hreg1) (Or.inl hreg1)) ?_
        exact fun _ _ _ _ _ => trivial
      refine Visits.bind (visits_walk (takes_isCorrectAndExit f q)
        fun hg => ⟨(h1 hg).2.1, hwalk hg⟩) (fun hg => (hbirth hg.1).le) ?_
      intro done w2 h2
      have hn2 : Good w2.log → FirstP w2 n ∧ (w2.st.heap n).hasExtQ = some true ∧
          w2.st.birth n = w.st.birth n := by
        intro hg
        obtain ⟨hg1, -, hlater2, hhush⟩ := h2 hg
        obtain ⟨hgood, -, hlater1⟩ := h1 hg1
        have hn1 := (hw hgood).2.edit _ hlater1
        have hb1 := hlater1.birth n (hw hgood).2.lt
        have hb := hbirth hgood
        refine ⟨hn1.later hlater2 fun k c hc hs => ?_,
          (hhush.flag n hn1.lt).trans (edit_hasExtQ w.st n true),
          (hlater2.birth n hn1.lt).trans hb1⟩
        obtain ⟨hc, hs⟩ := hlater2.below n hn1.lt hn1.comp (by omega) k c hc hs
        exact hn1.first k c hc hs
      split
      · exact Visits.pure fun hg => ⟨(h2 hg).2.1, trivial⟩
      · refine Visits.bind (visits_excuteSlot hex f n 0 w2 fun hg => ?_)
          (fun hg => (hn2 hg).2.2.ge) ?_
        · obtain ⟨hn, hflag, -⟩ := hn2 hg
          refine ⟨(h2 hg).2.1, hn.toBegun, fun c hc => ?_⟩
          exact Turnable.child (h2 hg).2.1 hn.toBegun hc
            (fun hs => Nat.zero_ne_one (hn.first 0 c hc hs))
            fun _ => ⟨Nat.zero_le 1, fun _ => Or.inr hflag⟩
        · intro _ w3 h3
          exact Visits.act (by simp) (fun hg => (h3 hg).2.1) (fun _ => trivial) fun _ _ => trivial
  · exact Visits.pure fun hg => ⟨(h1 hg).2.1, trivial⟩

omit hex in
/-- Where it gives false, nothing has been done. -/
theorem visits_prjCorrect {b : Nat} (n : Ptr) {w : Site} (hw : Good w.log → Fine w) :
    Visits b (prjCorrect n) w fun done w' => done = false → w' = w := by
  rw [prjCorrect]
  refine Visits.get ?_
  split
  · exact Visits.stop hw
  · next q ps _ =>
    dsimp only
    generalize (if w.st.isExit q = true then 1 else 0) + ps.countP w.st.emptyLeaf = exitNum
    split
    · exact Visits.pure fun hg => ⟨hw hg, by simp⟩
    · split
      · refine Visits.step (by simp) hw (fun _ => trivial) fun h1 => ?_
        exact Visits.pure fun hg => ⟨(h1 hg).2.1, by simp⟩
      · exact Visits.pure fun hg => ⟨hw hg, fun _ => rfl⟩

theorem visits_prjExcute {n : Ptr} {w : Site} (hw : Good w.log → Fine w ∧ Begun w n ∧
      w.st.type n = .prj ∧ ∀ k c, w.st.At n k c → Seen w.log c → k = 1 ∧ w.st.Idle c) :
    Visits (w.st.birth n) (prjExcute ex f n) w fun _ _ => True := by
  rw [prjExcute]
  refine Visits.bind (visits_prjCorrect n fun hg => (hw hg).1)
    (fun _ => Nat.le_refl (w.st.birth n)) ?_
  intro done w1 h1
  split
  · exact Visits.act (by simp) (fun hg => (h1 hg).2.1) (fun _ => trivial) fun _ _ => trivial
  · next hdone =>
    have hstay : Good w1.log → w1 = w := fun hg =>
      (h1 hg).2.2.2 (Bool.eq_false_iff.mpr hdone)
    have hb : Good w1.log → w.st.birth n ≤ w1.st.birth n := fun hg => by rw [hstay hg]
    refine Visits.bind (visits_prjP hex f fun hg => ?_) hb ?_
    · obtain rfl := hstay hg
      exact hw hg
    · intro _ w2 h2
      refine (visits_prjQ hex f fun hg => ⟨(h2 hg).2.1, (h2 hg).2.2.2⟩).last (fun hg => ?_)
        fun _ _ _ _ _ _ _ => trivial
      obtain ⟨hg1, -, hlater, -⟩ := h2 hg
      have hn := (hw (h1 hg1).1).2.1
      rw [hstay hg1] at hlater
      exact (hlater.birth n hn.lt).ge

end

/-! ## Turns -/

/-- The node has just been entered; a leaf is going to run. -/
theorem visits_turn {b : Nat} (f : Nat) {n : Ptr} {w : Site} (hw : Good w.log → Fine w ∧
      (∃ u older, w.log = (.enter n, u) :: older ∧ w.st = (Label.enter n).apply u) ∧
      (w.st.type n = .leaf → (w.st.heap n).len = .more)) :
    Visits b (turn f n) w fun _ _ => True := by
  refine Visits.step nofun (fun hg => (hw hg).1) (fun hg => (hw hg.1).2) fun h1 => ?_
  refine (visits_still ?_ fun hg => (h1 hg).2.1).last (fun _ => Nat.le_refl b)
    fun _ _ _ _ _ _ _ => trivial
  exact .act_bind trivial (.get fun _ => takes_runThread f _)

/-- A leaf has its turn, once. -/
theorem visits_leafExcute (f : Nat) {n : Ptr} {w : Site} (htype : w.st.type n = .leaf)
    (hw : Good w.log → Fine w ∧ Able w n) :
    Visits (w.st.birth n) (leafExcute f n) w fun _ _ => True := by
  have hcomp : ¬ (w.st.type n).Composite := by
    rw [htype]
    exact id
  refine Visits.get ?_
  split
  · exact Visits.pure fun hg => ⟨(hw hg).1, trivial⟩
  · next hrun =>
    refine visits_turn f fun hg => ⟨(hw hg).1, (hw hg).2.entered hcomp, fun _ => ?_⟩
    simp at hrun
    exact hrun.2

theorem visits_keepExcute (f : Nat) {n : Ptr} {w : Site} (htype : w.st.type n = .keep)
    (hw : Good w.log → Fine w ∧ Able w n) :
    Visits (w.st.birth n) (keepExcute f n) w fun _ _ => True := by
  have hcomp : ¬ (w.st.type n).Composite := by
    rw [htype]
    exact id
  refine Visits.get ?_
  split
  · exact Visits.pure fun hg => ⟨(hw hg).1, trivial⟩
  · refine Visits.bind (visits_turn f fun hg => ?_) (fun _ => Nat.le_refl _) fun _ w1 h1 => ?_
    · exact ⟨(hw hg).1, (hw hg).2.entered hcomp, fun hleaf => by simp [htype] at hleaf⟩
    · exact Visits.act nofun (fun hg => (h1 hg).2.1) (fun _ => trivial) fun _ _ => trivial

theorem visits_alwExcute (f : Nat) {n : Ptr} {w : Site} (htype : w.st.type n = .alw)
    (hw : Good w.log → Fine w ∧ Able w n) :
    Visits (w.st.birth n) (alwExcute f n) w fun _ _ => True := by
  have hcomp : ¬ (w.st.type n).Composite := by
    rw [htype]
    exact id
  refine Visits.get ?_
  split
  · exact Visits.pure fun hg => ⟨(hw hg).1, trivial⟩
  · refine Visits.bind (visits_turn f fun hg => ?_) (fun _ => Nat.le_refl _) fun _ w1 h1 => ?_
    · exact ⟨(hw hg).1, (hw hg).2.entered hcomp, fun hleaf => by simp [htype] at hleaf⟩
    · refine (visits_still (.get fun s => ?_) fun hg => (h1 hg).2.1).last (fun _ => Nat.le_refl _)
        fun _ _ _ _ _ _ _ => trivial
      split
      · exact .stop _
      · exact .act_bind trivial (takes_when (takes_raiseLen f _))

/-! ## Every type -/

/-- **`excute` gives everybody below the node one turn at most.** -/
theorem visits_excute (f : Nat) : Visiting (excute f) := by
  induction f with
  | zero => exact fun n w hw => Visits.stop fun hg => (hw hg).1
  | succ f ih =>
    intro n w hw
    have hbegun : (w.st.type n).Composite → Good w.log → Begun w n := fun hcomp hg =>
      ⟨(hw hg).2.lt, hcomp, (hw hg).2.passed⟩
    -- below an AND or PAL node that is executed nothing has been
    have hfresh : (w.st.type n).Composite → w.st.type n ≠ .prj → Good w.log → Fine w ∧ Begun w n ∧
        w.st.type n ≠ .prj ∧ ∀ k c, w.st.At n k c → ¬ Seen w.log c := fun hcomp hprj hg =>
      ⟨(hw hg).1, hbegun hcomp hg, hprj, fun k c hc hs => hprj ((hw hg).2.childs hcomp k c hc hs).1⟩
    rw [excute]
    refine Visits.get ?_
    split
    · next htype =>
      have htype : w.st.type n = .and := htype
      exact visits_done ih f (does_andCorrect (does_isCorrectAndExit f) f)
        (takes_andCorrect (takes_isCorrectAndExit f) f)
        (hfresh (by rw [htype]; trivial) (by rw [htype]; simp))
    · next htype =>
      have htype : w.st.type n = .pal := htype
      exact visits_done (ih.throughIterator n) f (does_palCorrect (does_isCorrectAndExit f) f)
        (takes_palCorrect (takes_isCorrectAndExit f) f)
        (hfresh (by rw [htype]; trivial) (by rw [htype]; simp))
    · next htype =>
      have htype : w.st.type n = .prj := htype
      have hcomp : (w.st.type n).Composite := by
        rw [htype]
        trivial
      refine visits_prjExcute ih f fun hg => ⟨(hw hg).1, hbegun hcomp hg, htype, fun k c hc hs => ?_⟩
      exact ((hw hg).2.childs hcomp k c hc hs).2
    · next htype => exact visits_keepExcute f htype hw
    · next htype => exact visits_alwExcute f htype hw
    · next htype => exact visits_leafExcute f htype hw

/-! ## updateNode -/

/-- What comes of a conversion is executed for the node converted. -/
theorem visits_updateNode (f : Nat) {node : Ptr} {w : Site}
    (hw : Good w.log → Fine w ∧ Passed w.st w.log node) :
    Visits 0 (updateNode f node) w fun _ _ => True := by
  rw [updateNode]
  refine Visits.step (l := .updateNode node) (by simp) (fun hg => (hw hg).1) (fun _ => trivial)
    fun h1 => ?_
  refine Visits.get ?_
  split
  · exact Visits.pure fun hg => ⟨(h1 hg).2.1, trivial⟩
  · split
    · exact Visits.stop fun hg => (h1 hg).2.1
    · next father hfather =>
      have hfather : w.st.father node = some father := hfather
      split
      · exact Visits.stop fun hg => (h1 hg).2.1
      · next i hi =>
        have hseen : Good w.log → Seen (after w (.updateNode node)).log node := by
          intro hg
          refine (seen_cons (by simp)).mpr (Or.inr ((hw hg).2.resolve_right ?_))
          rw [hfather]
          simp
        rw [replaceSlot, Prog.bind_assoc]
        refine Visits.checkErase (fun hg => (h1 hg).2.1) ?_
        refine Visits.step (l := .replace father i node) (by simp) (fun hg => (h1 hg).2.1)
          (fun hg => ⟨hseen hg.1.1, Nat.zero_le _⟩) fun h2 => ?_
        refine (visits_excuteSlot (visits_excute f) f father i _ fun hg => ?_).last
          (fun _ => Nat.zero_le _) fun _ _ _ _ _ _ _ => trivial
        obtain ⟨hg1, hfine2, hlater2⟩ := h2 hg
        obtain ⟨hgood, hfine1, hlater1⟩ := h1 hg1
        have hnode := hfine1.once.seen node (hseen hgood)
        obtain ⟨hcomp, hpassed⟩ := hnode.father father hfather
        have hlt := (hfine1.inv.up node hnode.lt father hfather).1
        refine ⟨hfine2, Begun.later ⟨hlt, hcomp, hpassed⟩ hlater2, fun c hc => ?_⟩
        obtain ⟨rfl, hfresh⟩ := Turnable.replaced hfine1 hg c hc
        exact ⟨hfine2.once.seen _ ((seen_cons (by simp)).mpr (Or.inl rfl)), Or.inr hfresh⟩

end Msvl.Function
