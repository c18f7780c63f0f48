/-
  How often a leaf takes the turn in a state.

  What the manager does outside of the walk, and whole runs (`leads_statements`).  `turns_le` counts:
  a turn is the first of its node in the state, or is owed to an element that has been popped
  (`Due`).  `run_turns` — at most one turn for each leaf and state, and one more for each element that
  its thread has pushed in the state (`OneTurn`).
-/
import LibMSVL.Function.Sweep

namespace Msvl.Function

open Msvl.Run

/-! ## keepChilds -/

/-- The next child of a KEEP node has been added to its father. -/
theorem Turnable.attached {w : Site} {node father : Ptr} (hw : Fine w)
    (hgood : Good (after w (.attach node father)).log) (hw1 : Fine (after w (.attach node father)))
    (hlater : Later 0 w (after w (.attach node father))) :
    Begun (after w (.attach node father)) father ∧
    Enterable (after w (.attach node father)).st (after w (.attach node father)).log node ∧
    ¬ Seen (after w (.attach node father)).log node ∧
    ∀ k d, (after w (.attach node father)).st.At node k d →
      ¬ Seen (after w (.attach node father)).log d := by
  obtain ⟨-, h, ⟨hnode, hfather, -, -⟩, ⟨-, hprj⟩, -⟩ := hgood
  have hpend := State.next_pending hnode
  have hreg := (h.pend node hpend).1
  obtain ⟨hcomp, hpassed⟩ := hw.once.pend node hpend father hfather
  have hlt := (h.up node (h.alloc hreg) father hfather).1
  have hbegun := Begun.later (n := father) ⟨hlt, hcomp, hpassed⟩ hlater
  have hat : (after w (.attach node father)).st.At father (w.st.childs father).length node := by
    rw [State.At, show (after w (.attach node father)).st.childs father = _ from
      attach_childs w.st node father father, if_pos rfl]
    simp
  have hno : ¬ Seen (after w (.attach node father)).log node := fun hs =>
    (hw.once.seen node (((seen_cons (by simp)).mp hs).resolve_left id)).here hpend
  refine ⟨hbegun, ?_, hno, fun k d hd => ?_⟩
  · refine Enterable.child hw1.inv hbegun.lt hbegun.comp hbegun.passed hat fun htype => ?_
    rw [hlater.type father hlt] at htype
    exact absurd htype hprj
  · obtain ⟨hreg1, hfather1⟩ := hw1.inv.held father hbegun.lt (Or.inr hbegun.comp) _ node hat
    exact hw1.once.unseen hw1.inv hreg1 hfather1 hno hd

theorem visits_keepExcuteChild (f : Nat) {node father : Ptr} {w : Site}
    (hw : Good w.log → Fine w) :
    Visits 0 (keepExcuteChild f node father) w fun _ _ => True := by
  rw [keepExcuteChild]
  refine Visits.step (l := .attach node father) (by simp) hw (fun _ => trivial) fun h1 => ?_
  have hnode : Good (after w (.attach node father)).log →
      (after w (.attach node father)).st.birth father <
        (after w (.attach node father)).st.birth node := by
    intro hg
    obtain ⟨-, h, ⟨hnode, hfather, -⟩, -⟩ := hg
    have hsame := sameObjects_attach w.st node father
    show ((Label.attach node father).apply w.st).birth father < _
    rw [hsame.birth, show (after w (.attach node father)).st.birth node = _ from hsame.birth node]
    exact (h.up node (h.alloc (h.next_pending hnode).1) father hfather).2
  refine Visits.bind (visits_still (takes_raiseLen f (some father)) fun hg => (h1 hg).2.1)
    (fun _ => Nat.le_refl 0) fun _ w2 h2 => ?_
  -- the father, and the child
  have hfather2 : Good w2.log → Begun w2 father := by
    intro hg
    obtain ⟨hg1, -, hlater2, -⟩ := h2 hg
    obtain ⟨hgood, hfine1, hlater1⟩ := h1 hg1
    exact (Turnable.attached (hw hgood) hg1 hfine1 hlater1).1.later hlater2
  refine Visits.step (l := .enter father) (by simp) (fun hg => (h2 hg).2.1) (fun hg => ?_) fun h3 => ?_
  · have hn := hfather2 hg.1
    have hfine2 := (h2 hg.1).2.1
    exact ⟨hn.passed.enterable hfine2.inv hfine2.once hn.lt, Or.inl hn.comp,
      fun _ _ => Nat.zero_le _⟩
  have hturn : Good (after w2 (.enter father)).log → Turnable (after w2 (.enter father)) node := by
    intro hg
    obtain ⟨hg2, hfine3, hlater3⟩ := h3 hg
    obtain ⟨hg1, hfine2, hlater2, hhush⟩ := h2 hg2
    obtain ⟨hgood, hfine1, hlater1⟩ := h1 hg1
    obtain ⟨hn, henter, hno, hchilds⟩ := Turnable.attached (hw hgood) hg1 hfine1 hlater1
    have hb : w2.st.birth father < w2.st.birth node := by
      rw [hlater2.birth father hn.lt, hlater2.birth node henter.lt]
      exact hnode hg1
    have hlog : ∀ x, Seen (after w2 (.enter father)).log x → x = father ∨
        Seen (after w (.attach node father)).log x := fun x hs =>
      ((seen_cons (by simp)).mp hs).imp_right (hhush.seen x)
    refine ⟨(hhush.enterable node henter).step hfine2.inv (l := .enter father) trivial (by simp)
      (by simp), Or.inr ⟨fun hent => ?_, fun hcomp k d hd hs => ?_⟩⟩
    · rcases hlog node hent.seen with rfl | hs
      · exact Nat.lt_irrefl _ hb
      · exact hno hs
    · have hd : w2.st.At node k d := hd
      have hlt : node < w2.st.next := Nat.lt_of_lt_of_le henter.lt hlater2.next
      rcases hlog d hs with rfl | hs1
      · exact absurd (hfine2.inv.down node hlt k d hd).2.1 (Nat.lt_asymm hb)
      · have hcomp1 : ((after w (.attach node father)).st.type node).Composite := by
          rw [← hlater2.type node henter.lt]
          exact hcomp
        obtain ⟨j, -, hj⟩ := hhush.trail node henter.lt hcomp1 k d hd (hlater2.seen hs1)
        exact hchilds j d hj hs1
  refine Visits.step (l := .enter node) (by simp) (fun hg => (h3 hg).2.1)
    (fun hg => ⟨(hturn hg.1).enterable, (hturn hg.1).due, fun _ _ => Nat.zero_le _⟩) fun h4 => ?_
  refine Visits.bind (visits_excute f node _ fun hg => ?_) (fun _ => Nat.zero_le _) fun _ w5 h5 => ?_
  · obtain ⟨hg3, hfine4, -⟩ := h4 hg
    exact ⟨hfine4, (hturn hg3).able (h3 hg3).2.1⟩
  have hseen5 : Good w5.log → Seen w5.log node := fun hg =>
    (h5 hg).2.2.1.seen ((seen_cons (by simp)).mpr (Or.inl rfl))
  refine Visits.bind (visits_updateNode f fun hg => ⟨(h5 hg).2.1, Or.inl (hseen5 hg)⟩)
    (fun _ => Nat.le_refl 0) fun _ w6 h6 => ?_
  refine Visits.step (l := .leave node) (by simp) (fun hg => (h6 hg).2.1) (fun _ => trivial)
    fun h7 => ?_
  refine Visits.get ?_
  split
  · exact Visits.stop fun hg => (h7 hg).2.1
  · next father' hfather' =>
    refine Visits.bind (visits_updateNode f fun hg => ⟨(h7 hg).2.1, ?_⟩) (fun _ => Nat.le_refl 0)
      fun _ w8 h8 => ?_
    · obtain ⟨hg6, hfine7, hlater7⟩ := h7 hg
      obtain ⟨hg5, -, hlater6, -⟩ := h6 hg6
      have hseen := hlater7.seen (hlater6.seen (hseen5 hg5))
      exact ((hfine7.once.seen node hseen).father father' hfather').2
    · exact Visits.act (by simp) (fun hg => (h8 hg).2.1) (fun _ => trivial) fun _ _ => trivial

theorem visits_excuteKeepChilds (f : Nat) : ∀ w : Site, (Good w.log → Fine w) →
    Visits 0 (excuteKeepChilds f) w fun _ _ => True := by
  induction f with
  | zero => exact fun w hw => Visits.stop hw
  | succ f ih =>
    intro w hw
    rw [excuteKeepChilds]
    refine Visits.get ?_
    split
    · exact Visits.act (by simp) hw (fun _ => trivial) fun _ _ => trivial
    · next node _ =>
      split
      · exact Visits.stop hw
      · split
        · refine Visits.step (l := .refuse node) (by simp) hw (fun _ => trivial) fun h1 => ?_
          refine Visits.bind (visits_walk_over (takes_deleteChilds f node) fun hg => (h1 hg).2.1)
            (fun _ => Nat.le_refl 0) fun _ w2 h2 => ?_
          refine Visits.release (fun hg => (h2 hg).2.1) ?_
          refine Visits.step (l := .drop node) (by simp) (fun hg => (h2 hg).2.1) (fun _ => trivial)
            fun h3 => ?_
          exact ih _ fun hg => (h3 hg).2.1
        · split
          · exact Visits.stop hw
          · refine Visits.bind (visits_keepExcuteChild f hw) (fun _ => Nat.le_refl 0)
              fun _ w1 h1 => ?_
            exact ih w1 fun hg => (h1 hg).2.1

/-! ## The elements of $$prsnt -/

/-- What was recorded before has been forgotten. -/
def Cleared (w : Site) : Prop := ∃ u, (.changedNode none, u) ∈ thisState w.log

theorem Cleared.later {b : Nat} {w w' : Site} (h : Cleared w) (hl : Later b w w') : Cleared w' := by
  obtain ⟨u, hu⟩ := h
  exact ⟨u, hl.state.mem hu⟩

theorem visits_updateChanged (f : Nat) {w : Site} (hw : Good w.log → Fine w ∧ Cleared w) :
    Visits 0 (updateChanged f) w fun _ _ => True := by
  rw [updateChanged]
  refine Visits.get ?_
  split
  · exact Visits.pure fun hg => ⟨(hw hg).1, trivial⟩
  · next n hn =>
    refine Visits.bind (visits_updateNode f fun hg => ?_) (fun _ => Nat.le_refl 0) fun _ w1 h1 => ?_
    · exact ⟨(hw hg).1, (hw hg).1.once.changed (hw hg).2 n hn⟩
    · exact Visits.act (by simp) (fun hg => (h1 hg).2.1) (fun _ => trivial) fun _ _ => trivial

theorem visits_excuteElement (f : Nat) {ele : Element} {w : Site}
    (hele : w.st.prsnt.getLast? = some ele) (hw : Good w.log → Fine w ∧ Cleared w) :
    Visits 0 (excuteElement f ele) w fun _ _ => True := by
  rw [excuteElement]
  refine Visits.step (l := .pop) (by simp) (fun hg => (hw hg).1) (fun _ => trivial) fun h1 => ?_
  refine Visits.get ?_
  split
  · exact Visits.stop fun hg => (h1 hg).2.1
  · next n hn =>
    have hn : w.st.threadIDToNode ele.threadId = some n := hn
    have hterm : Good (after w .pop).log → ¬ (w.st.type n).Composite := fun hg =>
      hg.2.2.2.1.2 ele hele n hn
    have hseen : Good (after w .pop).log → Seen (after w .pop).log n := by
      intro hg
      obtain ⟨hgood, hfine1, -⟩ := h1 hg
      have hfine := (hw hgood).1
      rcases hfine.once.pushers ele (List.mem_of_getLast? hele) with hmain | ⟨n', hn', hseen⟩
      · -- the node of the main thread is the root
        rw [hmain] at hn
        exact absurd (hfine.inv.rootType n (hfine.inv.main n hn)).1 (hterm hg)
      · cases hn.symm.trans hn'
        exact seen_old (by simp) hseen
    refine Visits.step (l := .enter n) (by simp) (fun hg => (h1 hg).2.1) (fun hg => ?_) fun h2 => ?_
    · refine ⟨(h1 hg.1).2.1.once.seen n (hseen hg.1), ?_, fun _ _ => Nat.zero_le _⟩
      exact Or.inr (Or.inr (Or.inr ⟨ele, w.st, w.log, rfl, rfl, hele, hn⟩))
    have hseen2 : Seen (after (after w .pop) (.enter n)).log n :=
      (seen_cons (by simp)).mpr (Or.inl rfl)
    refine Visits.bind (visits_excute f n _ fun hg => ?_) (fun _ => Nat.zero_le _) fun _ w3 h3 => ?_
    · obtain ⟨hg1, hfine2, -⟩ := h2 hg
      refine ⟨hfine2, (hfine2.once.seen n hseen2).lt, Or.inl hseen2, fun hcomp => ?_, fun _ => ?_⟩
      · exact absurd hcomp (hterm hg1)
      · exact ⟨_, _, rfl, rfl⟩
    refine Visits.bind (visits_updateNode f fun hg => ?_) (fun _ => Nat.le_refl 0) fun _ w4 h4 => ?_
    · exact ⟨(h3 hg).2.1, Or.inl ((h3 hg).2.2.1.seen hseen2)⟩
    refine Visits.step (l := .leave n) (by simp) (fun hg => (h4 hg).2.1) (fun _ => trivial)
      fun h5 => ?_
    refine Visits.bind (visits_updateChanged f fun hg => ?_) (fun _ => Nat.le_refl 0)
      fun _ w6 h6 => ?_
    · obtain ⟨hg4, hfine5, hlater5⟩ := h5 hg
      obtain ⟨hg3, -, hlater4, -⟩ := h4 hg4
      obtain ⟨hg2, -, hlater3, -⟩ := h3 hg3
      obtain ⟨hg1, -, hlater2⟩ := h2 hg2
      obtain ⟨hgood, -, hlater1⟩ := h1 hg1
      have hcleared := (((hw hgood).2.later hlater1).later hlater2).later hlater3
      exact ⟨hfine5, (hcleared.later hlater4).later hlater5⟩
    · exact Visits.act (by simp) (fun hg => (h6 hg).2.1) (fun _ => trivial) fun _ _ => trivial

theorem visits_drain (f : Nat) : ∀ w : Site, (Good w.log → Fine w ∧ Cleared w) →
    Visits 0 (drain f) w fun _ _ => True := by
  induction f with
  | zero => exact fun w hw => Visits.stop fun hg => (hw hg).1
  | succ f ih =>
    intro w hw
    rw [drain]
    refine Visits.get ?_
    split
    · exact Visits.pure fun hg => ⟨(hw hg).1, trivial⟩
    · next ele hele =>
      refine Visits.bind (visits_excuteElement f hele hw) (fun _ => Nat.le_refl 0) fun _ w1 h1 => ?_
      refine Visits.get ?_
      split
      · exact Visits.pure fun hg => ⟨(h1 hg).2.1, trivial⟩
      · refine ih w1 fun hg => ?_
        obtain ⟨hgood, hfine1, hlater1, -⟩ := h1 hg
        exact ⟨hfine1, (hw hgood).2.later hlater1⟩

theorem visits_deferredPrj (f : Nat) {w : Site} (hw : Good w.log → Fine w) :
    Visits 0 (deferredPrj f) w fun _ _ => True := by
  rw [deferredPrj]
  refine Visits.get ?_
  split
  · exact Visits.pure fun hg => ⟨hw hg, trivial⟩
  · next n hn =>
    refine Visits.step (l := .deferred n) (by simp) hw (fun _ => trivial) fun h1 => ?_
    refine Visits.bind (visits_excute f n _ fun hg => ?_) (fun _ => Nat.zero_le _) fun _ w2 h2 => ?_
    · obtain ⟨hgood, hfine1, -⟩ := h1 hg
      obtain ⟨hflag, hdoomed, hidle⟩ := hg.2.2.2.1.2
      have hfine := hw hgood
      obtain ⟨htype, hpassed⟩ := hfine.once.deferred n hn
      have hlt := (hfine.inv.prj n hn).1
      have hcomp := (hfine.inv.prj n hn).2
      refine ⟨hfine1, hlt, hpassed.imp_left (seen_old (by simp)), fun _ k c hc hs => ?_, ?_⟩
      · have hc : w.st.At n k c := hc
        have hs := ((seen_cons (by simp)).mp hs).resolve_left id
        have hfather := (hfine.inv.held n hlt (Or.inr hcomp) k c hc).2
        obtain ⟨hk, hk0⟩ := (hfine.once.seen c hs).slot n hfather htype k hc
        have hk1 : k = 1 := by
          rcases Nat.le_one_iff_eq_zero_or_eq_one.mp hk with h0 | h1
          · rcases hk0 h0 with hd | hq
            · exact absurd hd hdoomed
            · rw [hflag] at hq
              cases hq
          · exact h1
        subst hk1
        exact ⟨htype, rfl, hidle c hc⟩
      · exact fun hno => absurd hcomp hno
    · exact Visits.act (by simp) (fun hg => (h2 hg).2.1) (fun _ => trivial) fun _ _ => trivial

/-! ## States -/

/-- A composite node without a father, such as the root. -/
structure Topmost (w : Site) (n : Ptr) : Prop where
  lt : n < w.st.next
  comp : (w.st.type n).Composite
  father : w.st.father n = none

theorem Topmost.later {b : Nat} {w w' : Site} {n : Ptr} (hn : Topmost w n) (h : Later b w w') :
    Topmost w' n := by
  refine ⟨Nat.lt_of_lt_of_le hn.lt h.next, ?_, h.orphan n hn.lt hn.father⟩
  rw [h.type n hn.lt]
  exact hn.comp

/-- No node has been executed in this state. -/
def Untouched (w : Site) : Prop := ∀ x, ¬ Seen w.log x

/-- From `P` to `Q`, across the ends of states. -/
abbrev Leads {α : Type} (P : Site → Prop) (m : M α) (Q : α → Site → Prop) : Prop :=
  Triple (fun w => Good w.log → Fine w ∧ P w) m (fun a w => Good w.log → Fine w ∧ Q a w)
    fun _ w => Good w.log → Fine w

theorem Visits.leads {α : Type} {b : Nat} {m : M α} {P : Site → Prop} {Q : α → Site → Prop}
    (h : ∀ w, (Good w.log → Fine w ∧ P w) → Visits b m w Q) : Leads P m Q := by
  intro w hw
  obtain ⟨-, hm⟩ := h w hw
  rcases hr : (m w).1 with e | a
  · exact fun hg => (hm hg).1
  · exact fun hg => ⟨(hm hg).1, (hm hg).2.2 a hr⟩

theorem Visits.any {α : Type} {b : Nat} {m : M α} {w : Site} {Q : α → Site → Prop}
    (h : Visits b m w Q) : Visits b m w fun _ _ => True :=
  h.last (fun _ => Nat.le_refl b) fun _ _ _ _ _ _ _ => trivial

/-- What a function keeps that works inside of a state. -/
theorem Visits.keeps {α : Type} {b : Nat} {m : M α} {P : Site → Prop}
    (h : ∀ w, (Good w.log → Fine w ∧ P w) → Visits b m w fun _ _ => True)
    (hP : ∀ w w', P w → Later b w w' → P w') : Leads P m fun _ => P :=
  Visits.leads fun w hw => (h w hw).last (fun _ => Nat.le_refl b)
    fun _ w' _ hg _ hlater _ => hP w w' (hw hg).2 hlater

theorem leads_sort (f : Nat) (root : Ptr) :
    Leads (fun w => Topmost w root ∧ Cleared w) (sort f root)
      fun _ w => Topmost w root ∧ Untouched w := by
  have hkeep : ∀ w w', Topmost w root ∧ Cleared w → Later 0 w w' → Topmost w' root ∧ Cleared w' :=
    fun w w' hw hl => ⟨hw.1.later hl, hw.2.later hl⟩
  induction f with
  | zero => exact Triple.stop fun w hw hg => (hw hg).1
  | succ f ih =>
    refine Triple.bind (Visits.keeps (fun w hw => ?_) hkeep) fun _ => ?_
    · exact visits_deferredPrj f fun hg => (hw hg).1
    refine Triple.bind (Visits.keeps (fun w hw => ?_) hkeep) fun again => ?_
    · exact visits_drain f w fun hg => ⟨(hw hg).1, (hw hg).2.2⟩
    split
    · exact ih
    · refine Triple.bind (Visits.keeps (fun w hw => ?_) hkeep) fun _ => Triple.get fun s => ?_
      · exact (visits_walk_over (takes_isCorrectAndExit f root) fun hg => (hw hg).1).any
      · split
        · -- the state ends
          refine Triple.act fun w hw hg => ?_
          obtain ⟨hfine, htop, -⟩ := hw.1 hg.1
          exact ⟨hfine.after (b := 0) hg trivial, ⟨htop.lt, htop.comp, htop.father⟩,
            not_seen_end w.st w.log⟩
        · refine Triple.imp ?_ (fun w hw => hw.1) fun _ _ h => h
          refine Triple.bind (Visits.keeps (fun w hw => ?_) hkeep) fun _ => ih
          exact visits_excuteKeepChilds f w fun hg => (hw hg).1

theorem leads_states (f : Nat) (root : Ptr) :
    Leads (fun w => Topmost w root ∧ Untouched w) (states f root)
      fun _ w => Topmost w root ∧ Untouched w := by
  induction f with
  | zero => exact Triple.stop fun w hw hg => (hw hg).1
  | succ f ih =>
    refine Triple.get fun s => ?_
    split
    · exact Triple.pure fun w hw => hw.1
    · refine Triple.imp (P := fun w => Good w.log → Fine w ∧ Topmost w root ∧ Untouched w) ?_
        (fun w hw => hw.1) fun _ _ h => h
      refine Triple.bind (T := fun _ w => Good w.log → Fine w ∧ Topmost w root) ?_ fun _ => ?_
      · refine Visits.leads (b := 0) fun w hw => (visits_excute f root w fun hg => ?_).last
          (fun _ => Nat.zero_le _) fun _ _ _ hg _ hlater _ => (hw hg).2.1.later hlater
        obtain ⟨hfine, htop, hno⟩ := hw hg
        refine ⟨hfine, htop.lt, Or.inr htop.father, fun _ k c _ hs => absurd hs (hno c), ?_⟩
        exact fun hcomp => absurd htop.comp hcomp
      · refine Triple.bind (T := fun _ w => Good w.log → Fine w ∧ Topmost w root ∧ Cleared w) ?_
          fun _ => ?_
        · refine Triple.act fun w hw hg => ?_
          obtain ⟨hfine, htop⟩ := hw hg.1
          exact ⟨hfine.after (b := 0) hg trivial, ⟨htop.lt, htop.comp, htop.father⟩, w.st,
            by rw [thisState_cons (by nofun)]; exact List.mem_cons_self⟩
        · refine Triple.bind (T := fun _ w => Good w.log → Fine w ∧ Topmost w root ∧ Cleared w) ?_
            fun _ => Triple.bind (leads_sort f root) fun _ => ih
          refine Triple.act fun w hw hg => ?_
          obtain ⟨hfine, htop, hcleared⟩ := hw hg.1
          refine ⟨hfine.after (b := 0) hg trivial, ⟨htop.lt, htop.comp, htop.father⟩, ?_⟩
          exact hcleared.later (Later.after (b := 0) hfine hg nofun trivial)

theorem leads_managerThread (f : Nat) : Leads Untouched (managerThread f) fun _ => Untouched := by
  refine Triple.get fun s => ?_
  split
  · exact Triple.pure fun w hw => hw.1
  · next root hroot =>
    refine Triple.bind (T := fun _ w => Good w.log → Fine w ∧ Untouched w) ?_ fun _ => ?_
    · refine (leads_states f root).imp (fun w hw hg => ?_) fun _ _ h hg => ⟨(h hg).1, (h hg).2.2⟩
      obtain ⟨hw, rfl⟩ := hw
      obtain ⟨hfine, hno⟩ := hw hg
      obtain ⟨hreg, hfather⟩ := hfine.inv.root root hroot
      exact ⟨hfine, ⟨hfine.inv.alloc hreg, (hfine.inv.rootType root hroot).1, hfather⟩, hno⟩
    · refine Triple.bind (T := fun _ w => Good w.log → Fine w ∧ Untouched w) ?_ fun _ => ?_
      · refine Visits.leads (b := 0) fun w hw =>
          (visits_walk_over (takes_deleteChilds f root) fun hg => (hw hg).1).last
            (fun _ => Nat.le_refl 0) fun _ _ _ hg _ _ hhush x hs => ?_
        exact (hw hg).2 x (hhush.seen x hs)
      · refine Visits.leads (b := 0) fun w hw => Visits.release (fun hg => (hw hg).1) ?_
        refine Visits.act nofun (fun hg => (hw hg).1) (fun _ => trivial) fun hg _ x hs => ?_
        exact (hw hg.1).2 x (((seen_cons (by nofun)).mp hs).resolve_left id)

theorem leads_statements (f : Nat) : Leads Untouched (statements f) fun _ => Untouched := by
  induction f with
  | zero => exact Triple.stop fun w hw hg => (hw hg).1
  | succ f ih =>
    refine Triple.get fun s => Triple.imp (P := fun w => Good w.log → Fine w ∧ Untouched w) ?_
      (fun w hw => hw.1) fun _ _ h => h
    refine Triple.bind (T := fun _ w => Good w.log → Fine w ∧ Untouched w) ?_
      fun _ => Triple.bind (leads_managerThread f) fun _ => ih
    refine Visits.leads (b := 0) fun w hw =>
      (visits_still (takes_runThread f s.mainThread) fun hg => (hw hg).1).last
        (fun _ => Nat.le_refl 0) fun _ _ _ hg _ _ hhush x hs => ?_
    exact (hw hg).2 x (hhush.seen x hs)

/-! ## Counting -/

/-- The turns of the leaf `n`, whose thread is `t`. -/
def turns (log : Log) (n : Ptr) (t : Tid) : Nat :=
  log.countP fun x => x.1 = .turn n ∧ x.2.type n = .leaf ∧ x.2.thread n = t

/-- The elements of the thread `t`. -/
def ownedBy (t : Tid) (es : List Element) : Nat := es.countP fun e => e.threadId = t

theorem turns_cons {l : Label} {s : State} {log : Log} {n : Ptr} {t : Tid}
    (hl : ¬ (l = .turn n ∧ s.type n = .leaf ∧ s.thread n = t)) :
    turns ((l, s) :: log) n t = turns log n t := by simp [turns, hl]

theorem ownedBy_popped_cons (l : Label) (s : State) (log : Log) (t : Tid) :
    ownedBy t (popped log) ≤ ownedBy t (popped ((l, s) :: log)) := by
  refine List.Sublist.countP_le ?_
  unfold popped
  rw [List.filterMap_cons]
  split
  · exact List.Sublist.refl _
  · exact List.sublist_cons_self _ _

/-- A node that takes the turn has been entered. -/
theorem entered_of_turn {log : Log} (h : Told log) {n : Ptr} {s : State}
    (hs : (.turn n, s) ∈ thisState log) : Entered log n := by
  induction log with
  | nil => cases hs
  | cons x log ih =>
    obtain ⟨l, u⟩ := x
    by_cases hl : l = .stateEnd
    · subst hl
      rw [thisState_end] at hs
      cases hs
    · rw [thisState_cons hl] at hs
      unfold Entered
      rw [thisState_cons hl]
      rcases List.mem_cons.mp hs with heq | hs
      · cases heq
        obtain ⟨⟨v, older, rfl, -⟩, -⟩ := h.2
        rw [thisState_cons (by nofun)]
        exact ⟨v, List.mem_cons_of_mem _ List.mem_cons_self⟩
      · obtain ⟨v, hv⟩ := ih h.1 hs
        exact ⟨v, List.mem_cons_of_mem _ hv⟩

/-- A turn is the first of its node, or is owed to an element that has been popped. -/
theorem turns_le {n : Ptr} {t : Tid} (log : Log) (hgood : Good log) (htold : Told log) :
    turns (thisState log) n t ≤ 1 + ownedBy t (popped (thisState log)) := by
  induction hk : log.length using Nat.strong_induction_on generalizing log with
  | _ k ih =>
    cases log with
    | nil => exact Nat.zero_le _
    | cons e log =>
      obtain ⟨l, s⟩ := e
      by_cases hl : l = .stateEnd
      · subst hl
        rw [thisState_end]
        exact Nat.zero_le _
      have hlog : log.length < k := by
        rw [← hk]
        exact Nat.lt_succ_self _
      rw [thisState_cons hl]
      by_cases hturn : l = .turn n ∧ s.type n = .leaf ∧ s.thread n = t
      · obtain ⟨rfl, hleaf, hthread⟩ := hturn
        obtain ⟨⟨u, older, rfl, rfl⟩, hlen⟩ := htold.2
        obtain ⟨htold', -, hdue, -⟩ := htold.1
        have hleaf : u.type n = .leaf := hleaf
        have hthread : u.thread n = t := hthread
        have hone : turns ((.turn n, (Label.enter n).apply u) ::
            thisState ((.enter n, u) :: older)) n t = turns (thisState older) n t + 1 := by
          rw [thisState_cons (by simp)]
          simp [turns, Label.apply, State.type, State.thread, hleaf, hthread]
        rcases hdue with hcomp | hno | hidle | ⟨e, v, older, rfl, rfl, he, hmap⟩
        · rw [hleaf] at hcomp
          exact hcomp.elim
        · have hzero : turns (thisState older) n t = 0 := by
            refine List.countP_eq_zero.mpr fun x hx hcon => hno ?_
            obtain ⟨heq, -⟩ := of_decide_eq_true hcon
            exact entered_of_turn htold' (s := x.2) (by rwa [← heq])
          omega
        · exact absurd (hlen hleaf) hidle.2
        · -- the turn is for the element
          have howner : e.threadId = t := by
            rw [← hthread]
            exact (hgood.1.1.2.1.map _ _ hmap).2.symm
          have hrest := ih older.length (by simp at hlog; omega) older hgood.1.1.1 htold'.1 rfl
          have hpop : popped ((.turn n, (Label.enter n).apply (Label.apply .pop v)) ::
              thisState ((.enter n, Label.apply .pop v) :: (.pop, v) :: older)) =
                e :: popped (thisState older) := by
            rw [thisState_cons (by simp), thisState_cons (by simp)]
            simp [popped, he]
          have hturns : turns (thisState ((.pop, v) :: older)) n t = turns (thisState older) n t := by
            rw [thisState_cons (by simp)]
            exact turns_cons (by simp)
          have howned : ownedBy t (e :: popped (thisState older)) =
              ownedBy t (popped (thisState older)) + 1 := by simp [ownedBy, howner]
          rw [hone, hpop, hturns, howned]
          omega
      · have hrest := ih log.length hlog log hgood.1 htold.1 rfl
        have hmore := ownedBy_popped_cons l s (thisState log) t
        rw [turns_cons hturn]
        omega

/-! ## Runs -/

/-- Of the elements popped in a state, all have been pushed in it. -/
theorem popped_pushed {s t : State} {log : Log} (h : Trace Label.apply (Guard 0) s log t)
    (hs : s.prsnt = []) (hgood : Good log) (id : Tid) :
    ownedBy id (popped (thisState log)) ≤ ownedBy id (pushed (thisState log)) := by
  have hsplit : thisState log ++ log.dropWhile (fun x => decide (x.1 ≠ .stateEnd)) = log :=
    List.takeWhile_append_dropWhile
  rw [← hsplit] at h
  obtain ⟨u, hu, hut⟩ := h.split
  have hnil : u.prsnt = [] := by
    cases hrest : log.dropWhile (fun x => decide (x.1 ≠ .stateEnd)) with
    | nil =>
      rw [hrest] at hu
      cases hu
      exact hs
    | cons x older =>
      obtain ⟨l, v⟩ := x
      obtain rfl : l = .stateEnd := by
        have := List.head?_dropWhile_not (fun x : Label × State => decide (x.1 ≠ .stateEnd)) log
        rw [hrest] at this
        simpa using this
      have hgood' := hgood.suffix (hrest ▸ List.dropWhile_suffix _)
      rw [hrest] at hu
      cases hu
      exact (hgood'.2.2.2.2 rfl).1
  have hperm := account hut
  rw [hnil, List.nil_append] at hperm
  have hcount := hperm.countP_eq fun e => decide (e.threadId = id)
  rw [List.countP_append] at hcount
  show (popped _).countP _ ≤ (pushed _).countP _
  omega

theorem good_of {log : Log} (h : ∀ l s, (l, s) ∈ log → Inv s ∧ Guard 0 l s)
    (hcond : Undisturbed log)
    (hend : ∀ newer s older, log = newer ++ (.stateEnd, s) :: older → s.Drained) : Good log := by
  induction log with
  | nil => trivial
  | cons x log ih =>
    obtain ⟨l, s⟩ := x
    obtain ⟨hinv, hg⟩ := h l s List.mem_cons_self
    refine ⟨ih (fun l s hm => h l s (List.mem_cons_of_mem _ hm)) hcond.1 ?_, hinv, hg, hcond.2, ?_⟩
    · rintro newer u older rfl
      exact hend ((l, s) :: newer) u older rfl
    · rintro rfl
      exact hend [] s log rfl

theorem Told.suffix {log log' : Log} (h : log <:+ log') (htold : Told log') : Told log := by
  obtain ⟨es, rfl⟩ := h
  induction es with
  | nil => exact htold
  | cons e es ih => exact ih htold.1

/-- In each state of the log a leaf takes one turn at most, and one for each element that its thread
    has pushed in the state. -/
def OneTurn (log : Log) : Prop :=
  ∀ older, older <:+ log → ∀ n t,
    turns (thisState older) n t ≤ 1 + ownedBy t (pushed (thisState older))

/-- **At most one turn for each leaf and state**, in every run that meets the conditions. -/
theorem run_turns (f : Nat) (mainThread : Tid) (env : Env) (input : List Action)
    (hcond : Undisturbed (run f mainThread env input).2.log) :
    OneTurn (run f mainThread env input).2.log := by
  have htrace := (run_trace f mainThread env input).1
  have hgood : Good (run f mainThread env input).2.log := by
    refine good_of (run_inv f mainThread env input).2 hcond fun newer s older heq => ?_
    obtain ⟨e, -, hclosed⟩ := run_closed f mainThread env input
    exact (hclosed.sound.ends newer s older heq).1
  have hstart : Fine (⟨start mainThread env, input, []⟩ : Site) := by
    refine ⟨inv_start mainThread env, ⟨?_, nofun, nofun, nofun, nofun, ?_⟩, trivial⟩
    · rintro x ⟨e, he, -⟩
      cases he
    · rintro ⟨u, hu⟩
      cases hu
  have hfine : Fine (run f mainThread env input).2 := by
    have hrun := leads_statements f ⟨start mainThread env, input, []⟩
      fun _ => ⟨hstart, fun x hx => by obtain ⟨e, he, -⟩ := hx; cases he⟩
    unfold run at hgood ⊢
    split at hrun
    · exact (hrun hgood).1
    · exact hrun hgood
  rintro log ⟨newer, hlog⟩ n t
  have hsuffix : log <:+ (run f mainThread env input).2.log := ⟨newer, hlog⟩
  rw [← hlog] at htrace
  obtain ⟨u, hu, -⟩ := htrace.split
  have hpopped := popped_pushed hu rfl (hgood.suffix hsuffix) t
  exact (turns_le log (hgood.suffix hsuffix) (hfine.told.suffix hsuffix)).trans (by omega)

/-- The first p of a projection pushes an element, pauses, and ends when that is executed: the next p
    begins in the same state, with the projection executed after the label SORT. -/
def deferredScript : List Action :=
  [.call (.myCreateThread true .prj 2), .call (.myCreateThread true .prj 3),
   .call (.myCreateThread true .prj 4), .pause,
   .pause, .pause,
   .call (.push ['x'] [] 0), .pause,
   .call (.setNodeLength .empty), .exit,
   .pause, .pause]

theorem run_turns_deferred : OneTurn (run 10 1 plain deferredScript).2.log :=
  run_turns 10 1 plain deferredScript (by decide +kernel)

/-- A thread creates a child, pushes an element and pauses. -/
def parentScript : List Action :=
  [.call (.myCreateThread true .and 2), .pause,
   .call (.myCreateThread true .and 3), .call (.push ['x'] [] 0), .pause,
   .pause]

/-- A thread that has pushed an element becomes a projection when that is executed, and the first
    p ends at once. -/
def lateProjectionScript : List Action :=
  [.call (.myCreateThread true .and 2), .pause,
   .call (.push ['x'] [] 0), .pause,
   .call (.myCreateThread true .prj 3), .call (.myCreateThread true .prj 4),
   .call (.myCreateThread true .prj 5), .pause,
   .call (.setNodeLength .empty), .exit,
   .pause, .pause]

/-- In the first run the thread of the element has become an AND node, and its child, which has run,
    runs again.  In the second `hasExtQ` has not been assigned when the first p ends, and the second
    p, which has taken over, runs again after the label SORT.  Neither child has pushed anything. -/
theorem turned_twice :
    ¬ OneTurn (run 10 1 plain parentScript).2.log ∧
    ¬ OneTurn (run 10 1 plain lateProjectionScript).2.log := by
  refine ⟨fun h => ?_, fun h => ?_⟩
  · exact absurd (h _ (List.suffix_refl _) 2 3) (by decide +kernel)
  · exact absurd (h _ (List.suffix_refl _) 4 5) (by decide +kernel)

end Msvl.Function
