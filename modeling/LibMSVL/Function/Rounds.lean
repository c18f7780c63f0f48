/-
  The bounds on the depth: excute, the manager, runs.

  1. `fuel_excute` — a round of a slot is paid by a conversion, a round over the children by a number,
     a p that hands over by a deletion, one generation by the next.
  2. `fuel_excuteKeepChilds`, `fuel_drain`, `fuel_sort` — a round deals with an element of keepChilds,
     takes an element off `$$prsnt`, or clears keepChilds.
  3. `fuel_states`, `fuel_statements` — a round ends a state; a statement begins with an item of the
     input.
  4. `run_fuel` — so the bound is used up only where it is small, or where that many states have ended:
     no state of a run goes on for ever.
-/
import LibMSVL.Function.Fuel

namespace Msvl.Function

open Msvl.Run

/-! ## A slot -/

/-- A world in which the node `n` of thread number `b` can be executed. -/
structure Poised (ℓ b : Nat) (n : Ptr) (w : Site) : Prop where
  fit : Fit ℓ w
  ready : Ready w.st n
  birth : w.st.birth n = b

theorem Poised.next {ℓ b b' : Nat} {n : Ptr} {w w' : Site} (hw : Poised ℓ b n w)
    (h : Next ℓ b' w w') (hb : b ≤ b') (hback : w'.st.active = w.st.active) : Poised ℓ b n w' :=
  ⟨h.fit, hw.ready.frame hw.fit.kin.inv h.fit.kin.inv h.frame
    (Nat.le_trans (Nat.le_of_eq hw.birth) hb) hback, (h.frame.birth n hw.ready.lt).trans hw.birth⟩

theorem conversions_cons {l : Label} (hl : l.converts = true) (s : State) (log : Log) :
    conversions ((l, s) :: log) = conversions log + 1 := by
  have hcount : conversions ((l, s) :: log) = conversions log + if l.converts = true then 1 else 0 :=
    List.countP_cons
  rw [hcount, if_pos hl]

theorem fuel_replaceSlot {ℓ : Nat} {w : Site} {owner n : Ptr} {i : Nat} (hw : Fit ℓ w)
    (hs : Slot w.st owner i n) : Fuel ℓ (replaceSlot owner i n) w
      (fun _ w' => conversions w'.log = conversions w.log + 1) fun _ => False :=
  fuel_checkErase hs.reg (Fuel.act hw rfl (conversions_cons rfl w.st w.log))

/-- An invalid iterator stops the program, but not for want of a bound. -/
theorem fuel_throughIterator {ℓ : Nat} {ex : Ptr → M Unit} (hex : Executes ex) (owner : Ptr) {c : Ptr}
    {v : Site} {K : Site → Prop} (hv : Fit ℓ v) (hc : Ready v.st c) (hm : Fuel ℓ (ex c) v Any K) :
    Fuel ℓ (throughIterator ex owner c) v Any K := by
  refine Fuel.get (Fuel.call hv (hex c v.st hv.kin.inv hc) hm (fun _ _ _ hk => hk) ?_)
  intro _ v₁ hv₁ _ _
  refine Fuel.get ?_
  split
  · exact Fuel.halt hv₁.fit.credit (by decide)
  · exact Fuel.pure hv₁.fit trivial

section

variable {ℓ b : Nat} {ex : Ptr → M Unit} (hex : Executes ex) {P : Site → Prop}
  (hfuel : ∀ c w, Fit ℓ w → Ready w.st c → b < w.st.birth c → Fuel ℓ (ex c) w Any P)

include hex hfuel

/-- Each round but the last converts the child. -/
theorem fuel_excuteSlot (f : Nat) : ∀ (owner : Ptr) (i : Nat) (w : Site), Fit ℓ w →
    owner < w.st.next → w.st.threadRoot ≠ none → (∀ c, w.st.At owner i c → Slot w.st owner i c) →
    w.st.birth owner = b → Fuel ℓ (excuteSlot ex f owner i) w Any fun w' =>
      P w' ∨ f + conversions w.log ≤ conversions w'.log := by
  induction f with
  | zero =>
    intro owner i w hw _ _ _ _
    exact Fuel.stop hw fun _ => Or.inr (Nat.le_of_eq (Nat.zero_add _))
  | succ f ih =>
    intro owner i w hw ho hroot hslot hb
    have h := hw.kin.inv
    rw [excuteSlot]
    refine Fuel.get ?_
    split
    · exact Fuel.halt hw.credit (by decide)
    · next child hat =>
      have hs := hslot child hat
      obtain ⟨-, hc, -, hlt⟩ := hs.lt h
      refine Fuel.step (b := w.st.birth child) hw trivial rfl fun hw₁ => ?_
      have hs₁ : Slot (after w (.enter child)).st owner i child := ⟨hs.at_, hs.reg, hs.father⟩
      have hready : Ready (after w (.enter child)).st child :=
        ⟨hc, Or.inl hs.reg, hroot, fun _ => List.mem_cons_self⟩
      refine Fuel.call hw₁.fit (hex child _ hw₁.fit.kin.inv hready)
        (hfuel child _ hw₁.fit hready (hb ▸ hlt)) (fun _ _ _ hk => Or.inl hk) ?_
      intro _ w₂ hw₂ hback _
      have hback : w₂.st.active = child :: w.st.active := hback
      have h₂ := hw₂.fit.kin.inv
      have hs₂ := hs₁.frame hw₁.fit.kin.inv h₂ hw₂.frame (Nat.le_refl _)
      have hf₂ : Frame (w.st.birth owner) w.st w₂.st :=
        (hw₁.frame.trans hw₂.frame).mono (Nat.le_of_lt hlt)
      have hbo : w.st.birth owner ≤ w₂.st.birth owner := Nat.le_of_eq (hf₂.birth owner ho).symm
      have hconv : conversions w.log ≤ conversions w₂.log :=
        conversions_mono (hw₁.log.trans hw₂.log)
      refine Fuel.get ?_
      split
      · next hopen =>
        refine Fuel.call hw₂.fit (does_replaceSlot h₂ hs₂ hopen hbo) (fuel_replaceSlot hw₂.fit hs₂)
          (fun _ _ _ hk => hk.elim) ?_
        intro _ w₃ hw₃ heq hconv₃
        have hf₃ := hf₂.trans hw₃.frame
        have hback₃ : w₃.st.active = child :: w.st.active := by
          rw [heq]
          exact Eq.trans (replace_global w₂.st owner i child fun _ _ _ => rfl) hback
        have hgone : ¬ w₃.st.Reg child := by
          rw [heq, replace_reg hs₂]
          rintro (hnext | ⟨-, hne⟩)
          · exact Nat.ne_of_lt (Nat.lt_of_lt_of_le hc hf₂.next) hnext
          · exact hne rfl
        have hg : Guard (w.st.birth owner) (.leave child) w₃.st :=
          ⟨by rw [hback₃]; rfl, Or.inr (Or.inl hgone)⟩
        refine Fuel.step hw₃.fit hg rfl fun hw₄ => ?_
        have hf₄ := hf₃.trans hw₄.frame
        obtain ⟨r, hr⟩ := Option.ne_none_iff_exists'.mp hroot
        refine (ih owner i _ hw₄.fit (Nat.lt_of_lt_of_le ho hf₄.next) ?_ ?_
          ((hf₄.birth owner ho).trans hb)).mono fun w' hk => hk.imp_right fun hk => ?_
        · rw [hf₄.root (h.birth owner ho).1 r hr]
          exact Option.some_ne_none r
        · intro c hcat
          have hcat₃ : w₃.st.At owner i c := hcat
          rw [heq] at hcat₃
          have hsc := hs₂.replaced h₂ c hcat₃
          rw [← heq] at hsc
          exact ⟨hsc.at_, hsc.reg, hsc.father⟩
        · have := conversions_mono hw₄.log
          omega
      · exact Fuel.act hw₂.fit rfl trivial

theorem Poised.excuteSlot (f : Nat) {n : Ptr} (i : Nat) {w : Site} (hw : Poised ℓ b n w) :
    Fuel ℓ (excuteSlot ex f n i) w Any fun w' => P w' ∨ f ≤ conversions w'.log := by
  have h := hw.fit.kin.inv
  refine (fuel_excuteSlot hex hfuel f n i w hw.fit hw.ready.lt hw.ready.root
    (fun _ hat => h.slot hw.ready.lt hw.ready.held hat) hw.birth).mono fun w' hk => ?_
  exact hk.imp_right fun hk => Nat.le_trans (Nat.le_add_right _ _) hk

/-! ## The loops over the children -/

theorem fuel_excuteChilds {n : Ptr} (f : Nat) : ∀ (i : Nat) (w : Site), Poised ℓ b n w →
    i ≤ w.st.births → Fuel ℓ (excuteChilds ex f n i) w Any fun w' =>
      P w' ∨ f + i ≤ w'.st.births + conversions w'.log := by
  induction f with
  | zero => exact fun i w hw hi => Fuel.stop hw.fit fun _ => Or.inr (by omega)
  | succ f ih =>
    intro i w hw hi
    have h := hw.fit.kin.inv
    rw [excuteChilds]
    refine Fuel.get ?_
    split
    · next hlt =>
      have hlt : i < w.st.births :=
        Nat.lt_of_lt_of_le hlt (hw.fit.kin.childs_length hw.ready.lt hw.ready.held)
      refine Fuel.call hw.fit (Ready.excuteSlot hex f i h hw.ready)
        (hw.excuteSlot hex hfuel f i) ?_ ?_
      · intro w' hfit hlog hk
        have := hw.fit.births_le hfit hlog
        exact hk.imp_right fun hk => by omega
      · intro _ w₁ hw₁ hback _
        have hw' := hw.next hw₁ (Nat.le_of_eq hw.birth.symm) hback
        have hle := hw₁.births_le hw.fit
        exact (ih (i + 1) w₁ hw' (by omega)).mono fun w' hk => hk.imp_right fun hk => by omega
    · exact Fuel.pure hw.fit trivial

/-- `AndNode::excute` and `PalNode::excute`, after their `isCorrectAndExit`. -/
theorem fuel_done (f : Nat) {m : Ptr → M Bool} (hm : Walks m) {n : Ptr} {w : Site}
    (hw : Poised ℓ b n w) {K : Site → Prop} (hmf : Fuel ℓ (m n) w Any K)
    (hK : ∀ w', P w' ∨ f ≤ w'.st.births + conversions w'.log → K w') :
    Fuel ℓ (m n >>= fun done =>
      if done then act (.edit n (.leaf false)) else excuteChilds ex f n 0) w Any K := by
  refine Fuel.call hw.fit (hm n w.st hw.fit.kin.inv hw.ready.lt hw.ready.held) hmf
    (fun _ _ _ hk => hk) ?_
  intro done w₁ hw₁ hback _
  split
  · exact Fuel.act hw₁.fit rfl trivial
  · have hw' := hw.next hw₁ (Nat.le_of_eq hw.birth.symm) hback
    exact (fuel_excuteChilds hex hfuel f 0 w₁ hw' (Nat.zero_le _)).mono fun w' hk => hK w' hk

/-! ## PrjNode -/

/-- Each round deletes a p. -/
theorem fuel_prjNext {n : Ptr} (f : Nat) : ∀ w : Site, Poised ℓ b n w →
    Fuel ℓ (prjNext ex f n) w Any fun w' =>
      P w' ∨ f + deaths w.log ≤ w'.st.births + deaths w'.log + conversions w'.log + 1 := by
  induction f with
  | zero => exact fun w hw => Fuel.stop hw.fit fun _ => Or.inr (by omega)
  | succ f ih =>
    intro w hw
    have h := hw.fit.kin.inv
    rw [prjNext]
    refine Fuel.get ?_
    split
    · exact Fuel.halt hw.fit.credit (by decide)
    · next p hat =>
      split
      · refine Fuel.step (b := b) hw.fit trivial rfl fun hw₁ => ?_
        have hp₁ := hw.next hw₁ (Nat.le_refl b) rfl
        have hs : Slot (after w (.edit n (.extQ true))).st n 1 p := by
          refine hp₁.fit.kin.inv.slot hp₁.ready.lt hp₁.ready.held ?_
          show ((Label.edit n (.extQ true)).apply w.st).At n 1 p
          rw [State.At, edit_childs]
          exact hat
        have hd₁ := deaths_mono hw₁.log
        refine Fuel.call hp₁.fit (does_deleteSlot hp₁.fit.kin.inv hs) (fuel_deleteSlot f hp₁.fit hs)
          (fun w' _ _ hk => Or.inr (by omega)) ?_
        intro _ w₂ hw₂ hback hd₂
        have hp₂ := hp₁.next hw₂ (Nat.le_of_eq hp₁.birth.symm) hback
        refine Fuel.get ?_
        split
        · exact Fuel.pure hp₂.fit trivial
        · refine Fuel.call hp₂.fit (Ready.excuteSlot hex f 1 hp₂.fit.kin.inv hp₂.ready)
            (hp₂.excuteSlot hex hfuel f 1) ?_ ?_
          · intro w' _ hlog hk
            have := deaths_mono hlog
            exact hk.imp_right fun hk => by omega
          · intro _ w₃ hw₃ hback₃ _
            have hd₃ := deaths_mono hw₃.log
            refine (ih w₃ (hp₂.next hw₃ (Nat.le_of_eq hp₂.birth.symm) hback₃)).mono fun w' hk => ?_
            exact hk.imp_right fun hk => by omega
      · exact Fuel.pure hw.fit trivial

theorem fuel_prjP {n : Ptr} (f : Nat) {w : Site} (hw : Poised ℓ b n w) :
    Fuel ℓ (prjP ex f n) w Any fun w' =>
      P w' ∨ f ≤ w'.st.births + deaths w'.log + conversions w'.log + 1 := by
  rw [prjP]
  refine Fuel.get ?_
  split
  · exact Fuel.act hw.fit rfl trivial
  · refine Fuel.call hw.fit (Ready.excuteSlot hex f 1 hw.fit.kin.inv hw.ready)
      (hw.excuteSlot hex hfuel f 1) (fun w' _ _ hk => hk.imp_right fun hk => by omega) ?_
    intro _ w₁ hw₁ hback _
    have hw' := hw.next hw₁ (Nat.le_of_eq hw.birth.symm) hback
    exact (fuel_prjNext hex hfuel f w₁ hw').mono fun w' hk => hk.imp_right fun hk => by omega

theorem fuel_prjQ {n : Ptr} (f : Nat) {w : Site} (hw : Poised ℓ b n w) :
    Fuel ℓ (prjQ ex f n) w Any fun w' => P w' ∨
      f + b ≤ 3 * w'.st.births + deaths w'.log ∨ f ≤ conversions w'.log := by
  rw [prjQ]
  refine Fuel.get ?_
  refine Fuel.step (b := b) hw.fit trivial rfl fun hw₁ => ?_
  have hp₁ := hw.next hw₁ (Nat.le_refl b) rfl
  split
  · split
    · exact Fuel.halt hp₁.fit.credit (by decide)
    · next q hat =>
      have hs : Slot (after w (.edit n (.hasExtQ (w.st.heap n).extQ))).st n 0 q := by
        refine hp₁.fit.kin.inv.slot hp₁.ready.lt hp₁.ready.held ?_
        show ((Label.edit n (.hasExtQ (w.st.heap n).extQ)).apply w.st).At n 0 q
        rw [State.At, edit_childs]
        exact hat
      obtain ⟨-, hq, -, hb⟩ := hs.lt hp₁.fit.kin.inv
      rw [hp₁.birth] at hb
      refine Fuel.call hp₁.fit (does_isCorrectAndExit f q _ hp₁.fit.kin.inv hq (Or.inl hs.reg))
        (fuel_isCorrectAndExit f q _ hp₁.fit hq (Or.inl hs.reg)) ?_ ?_
      · exact fun w' _ _ hk => Or.inr (Or.inl (by omega))
      · intro done w₂ hw₂ hback _
        have hp₂ := hp₁.next hw₂ (Nat.le_of_lt hb) hback
        split
        · exact Fuel.pure hp₂.fit trivial
        · refine Fuel.call hp₂.fit (Ready.excuteSlot hex f 0 hp₂.fit.kin.inv hp₂.ready)
            (hp₂.excuteSlot hex hfuel f 0) (fun w' _ _ hk => hk.imp_right Or.inr) ?_
          exact fun _ w₃ hw₃ _ _ => Fuel.act hw₃.fit rfl trivial
  · exact Fuel.pure hp₁.fit trivial

end

/-! ## Every type -/

/-- What a call of `excute` can use up in a run that leads to `w`. -/
def excuteBound (ℓ : Nat) (w : Site) : Nat :=
  4 * w.st.births + deaths w.log + conversions w.log + ℓ + 3

theorem fuel_excute {ℓ : Nat} (f : Nat) : ∀ (n : Ptr) (w : Site), Fit ℓ w → Ready w.st n →
    Fuel ℓ (excute f n) w Any fun w' => f + w.st.birth n ≤ excuteBound ℓ w' := by
  induction f with
  | zero =>
    intro n w hw hn
    refine Fuel.stop hw fun _ => ?_
    have := (hw.kin.inv.birth n hn.lt).2
    unfold excuteBound
    omega
  | succ f ih =>
    intro n w hw hn
    have h := hw.kin.inv
    have hex : Executes (excute f) := does_excute f
    have hic : Walks (isCorrectAndExit f) := does_isCorrectAndExit f
    have hp : Poised ℓ (w.st.birth n) n w := ⟨hw, hn, rfl⟩
    have hst : Stand ℓ (w.st.birth n) n w := ⟨hw, hn.lt, hn.held, rfl⟩
    have hfuel : ∀ c v, Fit ℓ v → Ready v.st c → w.st.birth n < v.st.birth c →
        Fuel ℓ (excute f c) v Any fun w' => f + 1 + w.st.birth n ≤ excuteBound ℓ w' :=
      fun c v hv hc hb => (ih c v hv hc).mono fun w' hk => by omega
    have hwalk : ∀ c v, Fit ℓ v → c < v.st.next → v.st.Held c → w.st.birth n < v.st.birth c →
        Fuel ℓ (isCorrectAndExit f c) v Any fun w' =>
          f + 1 + w.st.birth n ≤ 3 * w'.st.births + deaths w'.log + 1 :=
      fun c v hv hc hheld hb => (fuel_isCorrectAndExit f c v hv hc hheld).mono fun w' hk => by omega
    refine Fuel.last (T := Any) (J := fun w' => f + 1 + w.st.birth n ≤ excuteBound ℓ w' ∨
      f ≤ 2 * w'.st.births + deaths w'.log + conversions w'.log + ℓ + 1) hw
      (does_excute (f + 1) n w.st h hn) ?_ ?_ fun _ _ _ _ h => h
    · have hwalked : ∀ w' : Site, (f + 1 + w.st.birth n ≤ 3 * w'.st.births + deaths w'.log + 1 ∨
          f + deaths w.log ≤ 2 * w'.st.births + deaths w'.log) →
          f + 1 + w.st.birth n ≤ excuteBound ℓ w' ∨
            f ≤ 2 * w'.st.births + deaths w'.log + conversions w'.log + ℓ + 1 := by
        intro w' hk
        refine hk.imp (fun hk => ?_) fun hk => by omega
        unfold excuteBound
        omega
      have hchilds : ∀ w' : Site, (f + 1 + w.st.birth n ≤ excuteBound ℓ w' ∨
          f ≤ w'.st.births + conversions w'.log) →
          f + 1 + w.st.birth n ≤ excuteBound ℓ w' ∨
            f ≤ 2 * w'.st.births + deaths w'.log + conversions w'.log + ℓ + 1 :=
        fun w' hk => hk.imp_right fun hk => by omega
      have hleaf : ∀ w' : Site, f ≤ ℓ + w'.st.births →
          f + 1 + w.st.birth n ≤ excuteBound ℓ w' ∨
            f ≤ 2 * w'.st.births + deaths w'.log + conversions w'.log + ℓ + 1 :=
        fun w' hk => Or.inr (by omega)
      rw [excute]
      refine Fuel.get ?_
      split
      · exact fuel_done hex hfuel f (does_andCorrect hic f) hp
          ((fuel_andCorrect hic hwalk f hst).mono hwalked) hchilds
      · refine fuel_done (hex.throughIterator n) ?_ f (does_palCorrect hic f) hp
          ((fuel_palCorrect hic hwalk f hst).mono hwalked) hchilds
        exact fun c v hv hc hb => fuel_throughIterator hex n hv hc (hfuel c v hv hc hb)
      · rw [prjExcute]
        refine Fuel.call hw (does_prjCorrect n w.st h hn.lt hn.held) (fuel_prjCorrect hw)
          (fun _ _ _ hk => hk.elim) ?_
        intro done w₁ hw₁ hback _
        split
        · exact Fuel.act hw₁.fit rfl trivial
        · have hp₁ := hp.next hw₁ (Nat.le_refl _) hback
          refine Fuel.call hp₁.fit (does_prjP hex f n w₁.st hp₁.fit.kin.inv hp₁.ready)
            (fuel_prjP hex hfuel f hp₁)
            (fun w' _ _ hk => hk.imp_right fun hk => by omega) ?_
          intro _ w₂ hw₂ hback₂ _
          have hp₂ := hp₁.next hw₂ (Nat.le_of_eq hp₁.birth.symm) hback₂
          refine (fuel_prjQ hex hfuel f hp₂).mono fun w' hk => ?_
          rcases hk with hk | hk | hk
          · exact Or.inl hk
          · refine Or.inl ?_
            unfold excuteBound
            omega
          · exact Or.inr (by omega)
      · next htype =>
        exact (fuel_keepExcute hw hn (by rw [State.type, htype]; exact id) f).mono hleaf
      · next htype =>
        exact (fuel_alwExcute hw hn (by rw [State.type, htype]; exact id) f).mono hleaf
      · next htype =>
        exact (fuel_leafExcute hw hn (by rw [State.type, htype]; exact id) f).mono hleaf
    · intro w' hfit hlog hk
      have hle := Nat.le_trans (h.birth n hn.lt).2 (hw.births_le hfit hlog)
      refine hk.elim id fun hk => ?_
      unfold excuteBound
      omega

/-! ## Counts of the manager's rounds -/

theorem cleared_mono {log log' : Log} (h : log <:+ log') : cleared log ≤ cleared log' :=
  h.sublist.countP_le

theorem dealt_mono {log log' : Log} (h : log <:+ log') : (dealt log).length ≤ (dealt log').length :=
  ((List.reverse_prefix.mpr h).filterMap _).length_le

theorem popped_mono {log log' : Log} (h : log <:+ log') :
    (popped log).length ≤ (popped log').length := (h.filterMap _).length_le

/-! ## updateNode -/

theorem excuteBound_births {ℓ : Nat} (w : Site) : w.st.births ≤ excuteBound ℓ w := by
  unfold excuteBound
  omega

theorem excuteBound_conversions {ℓ : Nat} (w : Site) : conversions w.log ≤ excuteBound ℓ w := by
  unfold excuteBound
  omega

section

variable {ℓ : Nat} {w : Site} (hw : Fit ℓ w) (hroot : w.st.threadRoot ≠ none)

include hw hroot

theorem fuel_updateNode (f : Nat) {node : Ptr} (hn : node < w.st.next) :
    Fuel ℓ (updateNode f node) w Any fun w' => f ≤ excuteBound ℓ w' := by
  have h := hw.kin.inv
  rw [updateNode]
  refine Fuel.step (b := 0) hw hn rfl fun hw₁ => ?_
  refine Fuel.get ?_
  split
  · exact Fuel.pure hw₁.fit trivial
  · next hgo =>
    obtain ⟨hopen, hne⟩ := not_or.mp hgo
    split
    · exact Fuel.halt hw₁.fit.credit (by decide)
    · next father hfather =>
      split
      · exact Fuel.halt hw₁.fit.credit (by decide)
      · next i hi =>
        have hs : Slot w.st father i node := h.found hn hfather hi
        obtain ⟨ho, -, -, -⟩ := hs.lt h
        refine Fuel.call hw₁.fit
          (does_replaceSlot hw₁.fit.kin.inv hs (not_not.mp hopen) (Nat.le_refl _))
          (fuel_replaceSlot hw₁.fit hs) (fun _ _ _ hk => hk.elim) ?_
        intro _ w₂ hw₂ heq _
        have heq : w₂.st = (Label.replace father i node).apply w.st := heq
        obtain ⟨r, hr⟩ := Option.ne_none_iff_exists'.mp hroot
        refine (fuel_excuteSlot (does_excute f) (P := fun w' => f ≤ excuteBound ℓ w') ?_ f father i
          w₂ hw₂.fit (Nat.lt_of_lt_of_le ho hw₂.frame.next) ?_ ?_ rfl).mono ?_
        · exact fun c v hv hc _ => (fuel_excute f c v hv hc).mono fun w' hk => by omega
        · rw [hw₂.frame.root (h.birth father ho).1 r hr]
          exact Option.some_ne_none r
        · rw [heq]
          exact hs.replaced h
        · intro w' hk
          refine hk.elim id fun hk => Nat.le_trans ?_ (excuteBound_conversions w')
          exact Nat.le_trans (Nat.le_add_right _ _) hk

theorem fuel_updateChanged (f : Nat) :
    Fuel ℓ (updateChanged f) w Any fun w' => f ≤ excuteBound ℓ w' := by
  have h := hw.kin.inv
  rw [updateChanged]
  refine Fuel.get ?_
  split
  · exact Fuel.pure hw trivial
  · next n hn =>
    refine Fuel.call hw (does_updateNode (Nat.le_refl 1) f h (h.changed n hn) hroot)
      (fuel_updateNode hw hroot f (h.changed n hn)) (fun _ _ _ hk => hk) ?_
    exact fun _ w₁ hw₁ _ _ => Fuel.act hw₁.fit rfl trivial

/-! ## keepChilds -/

theorem fuel_keepExcuteChild (f : Nat) {node father : Ptr}
    (hc : w.st.keepChilds[w.st.keepPos]? = some node) (hF : w.st.father node = some father)
    (htop : ∃ g A, topAnd g w.st node = some A ∧ (w.st.heap A).len ≠ .empty) :
    Fuel ℓ (keepExcuteChild f node father) w
      (fun _ w' => (dealt w.log).length < (dealt w'.log).length) fun w' => f ≤ excuteBound ℓ w' := by
  have h := hw.kin.inv
  obtain ⟨hreg, F, hF', hlt, hb⟩ := h.next_pending hc
  rw [hF] at hF'
  cases hF'
  have hg : Guard 1 (.attach node father) w.st := ⟨hc, hF, Nat.le_refl 1, htop⟩
  rw [keepExcuteChild]
  refine Fuel.step hw hg rfl fun hw₁ => ?_
  have hsame := sameObjects_attach w.st node father
  have hreg₁ : (after w (.attach node father)).st.Reg node := (hsame.reg node).mpr hreg
  have hbirth₁ : (after w (.attach node father)).st.birth node = w.st.birth node :=
    hsame.birth node
  have hlt₁ := Nat.lt_of_lt_of_le hlt hw₁.frame.next
  refine Fuel.call hw₁.fit
    (does_raiseLen ((after w (.attach node father)).st.birth node) f (some father) _
      hw₁.fit.kin.inv)
    (fuel_raiseLen f (some father) _ hw₁.fit fun m hm => ?_) ?_ ?_
  · cases hm
    exact hlt₁
  · intro w' hfit hlog hk
    refine Nat.le_trans hk (Nat.le_trans ?_ (excuteBound_births w'))
    exact Nat.le_trans (hw₁.fit.kin.inv.birth father hlt₁).2 (hw₁.fit.births_le hfit hlog)
  intro _ w₂ hw₂ hback₂ _
  have hback₂ : w₂.st.active = w.st.active := hback₂
  have h₂ := hw₂.fit.kin.inv
  obtain ⟨hreg₂, -, -⟩ := hw₂.frame.reg_of hw₁.fit.kin.inv h₂ hreg₁ (Nat.le_refl _)
  have hb₂ : 2 ≤ w₂.st.birth node := by
    rw [hw₂.frame.birth node (hw₁.fit.kin.inv.alloc hreg₁), hbirth₁]
    exact hb
  have hroot₂ : w₂.st.threadRoot ≠ none := by
    refine hw₂.frame.rooted ?_ ?_
    · rw [hbirth₁]
      exact Nat.le_of_succ_le hb
    · rw [show (after w (.attach node father)).st.threadRoot = w.st.threadRoot from hsame.root]
      exact hroot
  refine Fuel.step (b := 1) hw₂.fit trivial rfl fun hw₃ => ?_
  refine Fuel.step (b := 1) hw₃.fit trivial rfl fun hw₄ => ?_
  have hready : Ready (after (after w₂ (.enter father)) (.enter node)).st node :=
    ⟨h₂.alloc hreg₂, Or.inl hreg₂, hroot₂, fun _ => List.mem_cons_self⟩
  refine Fuel.call hw₄.fit (does_excute f node _ hw₄.fit.kin.inv hready)
    (fuel_excute f node _ hw₄.fit hready) (fun w' _ _ hk => by omega) ?_
  intro _ w₅ hw₅ hback₅ _
  have h₅ := hw₅.fit.kin.inv
  have hback₅ : w₅.st.active = node :: father :: w.st.active :=
    Eq.trans hback₅ (congrArg (fun l => node :: father :: l) hback₂)
  have hreg₄ : (after (after w₂ (.enter father)) (.enter node)).st.Reg node := hreg₂
  obtain ⟨hreg₅, -, -⟩ := hw₅.frame.reg_of hw₄.fit.kin.inv h₅ hreg₄ (Nat.le_refl _)
  have hroot₅ := hw₅.frame.rooted (Nat.le_of_succ_le hb₂) hroot₂
  refine Fuel.call hw₅.fit (does_updateNode (Nat.le_refl 1) f h₅ (h₅.alloc hreg₅) hroot₅)
    (fuel_updateNode hw₅.fit hroot₅ f (h₅.alloc hreg₅)) (fun _ _ _ hk => hk) ?_
  rintro _ w₆ hw₆ ⟨hback₆, hsettled, -⟩ -
  have hback₆ : w₆.st.active = node :: father :: w.st.active := Eq.trans hback₆ hback₅
  have hg₆ : Guard 1 (.leave node) w₆.st := ⟨by rw [hback₆]; rfl, hsettled⟩
  refine Fuel.step hw₆.fit hg₆ rfl fun hw₇ => ?_
  refine Fuel.get ?_
  split
  · exact Fuel.halt hw₇.fit.credit (by decide)
  · next father' hfather' =>
    have hlt' : father' < (after w₆ (.leave node)).st.next := by
      refine (hw₇.fit.kin.inv.up node ?_ father' hfather').1
      exact Nat.lt_of_lt_of_le (h₅.alloc hreg₅) hw₆.frame.next
    have hroot₇ : (after w₆ (.leave node)).st.threadRoot ≠ none :=
      hw₆.frame.rooted (Nat.le_refl 1) hroot₅
    refine Fuel.call hw₇.fit (does_updateNode (Nat.le_refl 1) f hw₇.fit.kin.inv hlt' hroot₇)
      (fuel_updateNode hw₇.fit hroot₇ f hlt') (fun _ _ _ hk => hk) ?_
    intro _ w₈ hw₈ _ _
    refine Fuel.act hw₈.fit rfl ?_
    have hdealt : (dealt (after w (.attach node father)).log).length = (dealt w.log).length + 1 := by
      show (dealt ((.attach node father, w.st) :: w.log)).length = _
      rw [dealt_cons, List.length_append]
      rfl
    refine Nat.lt_of_lt_of_le (Nat.lt_of_succ_le (Nat.le_of_eq hdealt.symm)) (dealt_mono ?_)
    exact (hw₂.log.trans (hw₃.log.trans (hw₄.log.trans (hw₅.log.trans (hw₆.log.trans
      (hw₇.log.trans hw₈.log)))))).trans (List.suffix_cons _ _)

end

/-! ## The rounds of excuteKeepChilds -/

/-- Only `excuteKeepChilds` clears keepChilds. -/
theorem Fuel.kept {ℓ : Nat} {α : Type} {m : M α} {w : Site} {T : α → Site → Prop}
    {K : Site → Prop} (hm : Fuel ℓ m w T K) (ht : Takes (· ≠ .keepClear) m)
    (hne : w.st.keepChilds ≠ []) :
    Fuel ℓ m w (fun a w' => T a w' ∧ w'.st.keepChilds ≠ []) K := by
  have hkeep : Ends m w (fun _ w' => w'.st.keepChilds ≠ []) fun _ _ => True := by
    have hstep : ∀ (l : Label) (s : State), l ≠ .keepClear → s.keepChilds ≠ [] →
        (l.apply s).keepChilds ≠ [] := by
      intro l s hl hs
      rw [apply_keepChilds, if_neg hl]
      exact fun hnil => hs (List.append_eq_nil_iff.mp hnil).1
    have htriple := Writes.triple (P := fun w : Site => w.st.keepChilds ≠ []) ht
      (fun l s _ _ => hstep l s) fun _ _ _ _ hP => hP
    exact (htriple.weaken fun _ _ _ => trivial) w hne
  refine (hm.both hkeep).imp ?_ fun _ _ h => h.1
  rintro a w' ⟨⟨hcredit, hinput, ht⟩, hne'⟩
  exact ⟨hcredit, hinput, ht, hne'⟩

theorem Label.Inside.ne_keepClear {l : Label} (h : l.Inside) : l ≠ .keepClear := by
  rintro rfl
  exact h

theorem takes_unclearing {α : Type} {m : M α} (h : Takes Label.Inside m) :
    Takes (· ≠ .keepClear) m := .mono (fun _ hl => hl.ne_keepClear) h

theorem unclearing_keepExcuteChild (f : Nat) (node father : Ptr) :
    Takes (· ≠ .keepClear) (keepExcuteChild f node father) := by
  refine .act_bind Label.noConfusion (.bind ?_ fun _ => ?_)
  · exact takes_unclearing (takes_inside (takes_raiseLen f _))
  refine .act_bind Label.noConfusion (.act_bind Label.noConfusion (.bind ?_ fun _ => ?_))
  · exact takes_unclearing (takes_excute f _)
  refine .bind (takes_unclearing (takes_updateNode f _)) fun _ => ?_
  refine .act_bind Label.noConfusion (.get fun s => ?_)
  split
  · exact .stop _
  · exact .bind (takes_unclearing (takes_updateNode f _)) fun _ => .act Label.noConfusion

theorem fuel_excuteKeepChilds {ℓ : Nat} (f : Nat) : ∀ w : Site, Fit ℓ w →
    w.st.threadRoot ≠ none → w.st.keepChilds ≠ [] →
    Fuel ℓ (excuteKeepChilds f) w (fun _ w' => cleared w.log < cleared w'.log) fun w' =>
      f + (dealt w.log).length ≤ (dealt w'.log).length + excuteBound ℓ w' + 1 := by
  induction f with
  | zero => exact fun w hw _ _ => Fuel.stop hw fun _ => by omega
  | succ f ih =>
    intro w hw hroot hne
    have h := hw.kin.inv
    rw [excuteKeepChilds]
    refine Fuel.get ?_
    split
    · -- the vector is cleared
      refine Fuel.act hw rfl ?_
      have hcount : cleared (after w .keepClear).log =
          cleared w.log + if ((Label.keepClear == .keepClear) && !w.st.keepChilds.isEmpty) = true
            then 1 else 0 := List.countP_cons
      rw [hcount, if_pos (by simpa using hne)]
      exact Nat.lt_succ_self _
    · next node hnode =>
      obtain ⟨hreg, -, -, -, hb⟩ := h.next_pending hnode
      -- one more has been dealt with
      have hmore : ∀ w₁ : Site, Fit ℓ w₁ → w₁.st.threadRoot ≠ none → w₁.st.keepChilds ≠ [] →
          w.log <:+ w₁.log → (dealt w.log).length < (dealt w₁.log).length →
          Fuel ℓ (excuteKeepChilds f) w₁ (fun _ w' => cleared w.log < cleared w'.log) fun w' =>
            f + 1 + (dealt w.log).length ≤ (dealt w'.log).length + excuteBound ℓ w' + 1 := by
        intro w₁ hw₁ hroot₁ hne₁ hlog hdealt
        refine (ih w₁ hw₁ hroot₁ hne₁).imp ?_ ?_
        · rintro _ w' ⟨hcredit, hinput, hlt⟩
          exact ⟨hcredit, hinput, Nat.lt_of_le_of_lt (cleared_mono hlog) hlt⟩
        · rintro e w' ⟨hcredit, hk⟩
          refine ⟨hcredit, fun he => ?_⟩
          have := hk he
          omega
      split
      · next hnone =>
        refine Fuel.stop hw fun _ => ?_
        have := topAnd_none h f node (h.alloc hreg) hnone
        have := (h.birth node (h.alloc hreg)).2
        unfold excuteBound
        omega
      · next A hA =>
        split
        · next hempty =>
          have hg : Guard 1 (.refuse node) w.st := ⟨hnode, f, A, hA, hempty⟩
          refine Fuel.step hw hg rfl fun hw₁ => ?_
          refine Fuel.call hw₁.fit (does_deleteChilds f node w.st h (h.alloc hreg) (Or.inl hreg))
            ((fuel_deleteChilds f node _ hw₁.fit (h.alloc hreg) (Or.inl hreg)).kept
              (.mono (fun _ hl => hl.inside.ne_keepClear) (takes_deleteChilds f node)) hne) ?_ ?_
          · intro w' _ hlog hk
            have := dealt_mono (hw₁.log.trans hlog)
            unfold excuteBound
            omega
          rintro _ w₂ hw₂ ⟨-, hnil⟩ ⟨-, hne₂⟩
          obtain ⟨hreg₂, -⟩ := hw₂.frame.reg_of h hw₂.fit.kin.inv hreg (Nat.le_refl _)
          have hnode₂ : w₂.st.keepChilds[w₂.st.keepPos]? = some node := by
            obtain ⟨hpos, cs, hcs⟩ := hw₂.frame.keep hb
            rw [hpos, ← hcs]
            exact (List.getElem?_append_left (List.getElem?_eq_some_iff.mp hnode).1).trans hnode
          refine fuel_release hw₂.fit hreg₂ ?_
          have hg₂ : Guard 1 (.drop node) w₂.st := ⟨hnode₂, hnil, Nat.le_refl 1⟩
          refine Fuel.step hw₂.fit hg₂ rfl fun hw₃ => ?_
          have hlog := hw₁.log.trans hw₂.log
          refine hmore _ hw₃.fit ?_ hne₂ (hlog.trans hw₃.log) ?_
          · exact hw₃.frame.rooted (Nat.le_refl 1)
              (hw₂.frame.rooted (Nat.le_of_succ_le hb) hroot)
          · show _ < (dealt ((.drop node, w₂.st) :: w₂.log)).length
            rw [dealt_cons, List.length_append]
            exact Nat.lt_succ_of_le (dealt_mono hlog)
        · next hlen =>
          split
          · exact Fuel.halt hw.credit (by decide)
          · next father hfather =>
            refine Fuel.call hw (does_keepExcuteChild f h hroot hnode hfather ⟨f, A, hA, hlen⟩)
              ((fuel_keepExcuteChild hw hroot f hnode hfather ⟨f, A, hA, hlen⟩).kept
                (unclearing_keepExcuteChild f node father) hne) ?_ ?_
            · intro w' _ hlog hk
              have := dealt_mono hlog
              omega
            rintro _ w₁ hw₁ - ⟨hdealt, hne₁⟩
            exact hmore w₁ hw₁.fit (hw₁.frame.rooted (Nat.le_refl 1) hroot) hne₁ hw₁.log hdealt

/-! ## The elements of $$prsnt -/

section

variable {ℓ : Nat} {w : Site} (hw : Fit ℓ w) (hroot : w.st.threadRoot ≠ none)

include hw hroot

theorem fuel_excuteElement (f : Nat) {ele : Element} (hback : w.st.prsnt.getLast? = some ele) :
    Fuel ℓ (excuteElement f ele) w (fun _ w' => (popped w.log).length < (popped w'.log).length)
      fun w' => f ≤ excuteBound ℓ w' := by
  rw [excuteElement]
  refine Fuel.step (b := 1) hw hroot rfl fun hw₁ => ?_
  have hpop : (popped (after w .pop).log).length = (popped w.log).length + 1 := by
    have hcons : popped (after w .pop).log = ele :: popped w.log := by
      simp [after, popped, hback]
    rw [hcons, List.length_cons]
  refine Fuel.get ?_
  split
  · exact Fuel.halt hw₁.fit.credit (by decide)
  · next tempNode htemp =>
    have h₁ := hw₁.fit.kin.inv
    obtain ⟨hlt, hthread⟩ := h₁.map _ _ htemp
    have hreg : (after w .pop).st.Reg tempNode := by
      show (after w .pop).st.threadIDToNode ((after w .pop).st.thread tempNode) = _
      rw [hthread]
      exact htemp
    refine Fuel.step (b := 1) hw₁.fit trivial rfl fun hw₂ => ?_
    have hready : Ready (after (after w .pop) (.enter tempNode)).st tempNode :=
      ⟨hlt, Or.inl hreg, hroot, fun _ => List.mem_cons_self⟩
    have hb := (h₁.birth tempNode hlt).1
    refine Fuel.call hw₂.fit (does_excute f tempNode _ hw₂.fit.kin.inv hready)
      (fuel_excute f tempNode _ hw₂.fit hready) (fun w' _ _ hk => by omega) ?_
    intro _ w₃ hw₃ hback₃ _
    have hroot₃ := hw₃.frame.rooted hb hroot
    have hlt₃ := Nat.lt_of_lt_of_le hlt hw₃.frame.next
    refine Fuel.call hw₃.fit (does_updateNode (Nat.le_refl 1) f hw₃.fit.kin.inv hlt₃ hroot₃)
      (fuel_updateNode hw₃.fit hroot₃ f hlt₃) (fun _ _ _ hk => hk) ?_
    rintro _ w₄ hw₄ ⟨hback₄, hsettled, -⟩ -
    have hback₄ : w₄.st.active = tempNode :: w.st.active := Eq.trans hback₄ hback₃
    have hg₄ : Guard 1 (.leave tempNode) w₄.st := ⟨by rw [hback₄]; rfl, hsettled⟩
    refine Fuel.step hw₄.fit hg₄ rfl fun hw₅ => ?_
    have hroot₅ : (after w₄ (.leave tempNode)).st.threadRoot ≠ none :=
      hw₄.frame.rooted (Nat.le_refl 1) hroot₃
    refine Fuel.call hw₅.fit (does_updateChanged f hw₅.fit.kin.inv hroot₅)
      (fuel_updateChanged hw₅.fit hroot₅ f) (fun _ _ _ hk => hk) ?_
    intro _ w₆ hw₆ _ _
    refine Fuel.act hw₆.fit rfl ?_
    refine Nat.lt_of_lt_of_le (Nat.lt_of_succ_le (Nat.le_of_eq hpop.symm)) (popped_mono ?_)
    exact (hw₂.log.trans (hw₃.log.trans (hw₄.log.trans (hw₅.log.trans hw₆.log)))).trans
      (List.suffix_cons _ _)

omit hw hroot in
/-- Each round takes an element off `$$prsnt`. -/
theorem fuel_drain (f : Nat) : ∀ w : Site, Fit ℓ w → w.st.threadRoot ≠ none →
    Fuel ℓ (drain f) w
      (fun again w' => again = true → (popped w.log).length < (popped w'.log).length)
      fun w' => f + (popped w.log).length ≤ (popped w'.log).length + excuteBound ℓ w' + 1 := by
  induction f with
  | zero => exact fun w hw _ => Fuel.stop hw fun _ => by omega
  | succ f ih =>
    intro w hw hroot
    rw [drain]
    refine Fuel.get ?_
    split
    · exact Fuel.pure hw fun hcon => by cases hcon
    · next ele hback =>
      refine Fuel.call hw (does_excuteElement f ele hw.kin.inv hroot)
        (fuel_excuteElement hw hroot f hback) ?_ ?_
      · intro w' _ hlog hk
        have := popped_mono hlog
        omega
      intro _ w₁ hw₁ _ hpop
      refine Fuel.get ?_
      split
      · exact Fuel.pure hw₁.fit fun _ => hpop
      · refine (ih w₁ hw₁.fit (hw₁.frame.rooted (Nat.le_refl 1) hroot)).imp ?_ ?_
        · rintro again w' ⟨hcredit, hinput, hlt⟩
          exact ⟨hcredit, hinput, fun ha => Nat.lt_trans hpop (hlt ha)⟩
        · rintro e w' ⟨hcredit, hk⟩
          refine ⟨hcredit, fun he => ?_⟩
          have := hk he
          omega

end

/-! ## States -/

/-- The states that have ended. -/
def ended (log : Log) : Nat := log.countP fun x => x.1 == .stateEnd

theorem ended_mono {log log' : Log} (h : log <:+ log') : ended log ≤ ended log' :=
  h.sublist.countP_le

/-- What a state can use up in a run that leads to `w`. -/
def stateBound (ℓ : Nat) (w : Site) : Nat :=
  (popped w.log).length + cleared w.log + (dealt w.log).length + excuteBound ℓ w + 2

section

variable {ℓ : Nat}

theorem fuel_deferredPrj (f : Nat) {w : Site} (hw : Fit ℓ w) (hroot : w.st.threadRoot ≠ none) :
    Fuel ℓ (deferredPrj f) w Any fun w' => f ≤ excuteBound ℓ w' := by
  have h := hw.kin.inv
  rw [deferredPrj]
  refine Fuel.get ?_
  split
  · exact Fuel.pure hw trivial
  · next n hn =>
    obtain ⟨hlt, hc⟩ := h.prj n hn
    have hready : Ready w.st n := ⟨hlt, Or.inr hc, hroot, fun hno => absurd hc hno⟩
    refine Fuel.step (b := 1) hw trivial rfl fun hw₁ => ?_
    refine Fuel.call hw₁.fit (does_excute f n w.st h hready) (fuel_excute f n _ hw₁.fit hready)
      (fun w' _ _ hk => by omega) ?_
    exact fun _ w₂ hw₂ _ _ => Fuel.act hw₂.fit rfl trivial

/-- Each round takes an element or clears keepChilds. -/
theorem fuel_sort (f : Nat) {root : Ptr} : ∀ w : Site, Fit ℓ w → w.st.threadRoot = some root →
    w.st.active = [] →
    Fuel ℓ (sort f root) w (fun _ w' => ended w.log < ended w'.log) fun w' =>
      f + (popped w.log).length + cleared w.log ≤ stateBound ℓ w' := by
  induction f with
  | zero =>
    intro w hw _ _
    refine Fuel.stop hw fun _ => ?_
    unfold stateBound
    omega
  | succ f ih =>
    intro w hw hroot hact
    have hne : w.st.threadRoot ≠ none := by
      rw [hroot]
      exact Option.some_ne_none root
    -- a call below the bound of `excute`, after which the counts have not fallen
    have hcall : ∀ w' : Site, w.log <:+ w'.log → f ≤ excuteBound ℓ w' →
        f + 1 + (popped w.log).length + cleared w.log ≤ stateBound ℓ w' := by
      intro w' hlog hk
      have := popped_mono hlog
      have := cleared_mono hlog
      unfold stateBound
      omega
    -- the next round
    have hagain : ∀ w₁ : Site, Fit ℓ w₁ → w₁.st.threadRoot = some root → w₁.st.active = [] →
        w.log <:+ w₁.log → (popped w.log).length + cleared w.log <
          (popped w₁.log).length + cleared w₁.log →
        Fuel ℓ (sort f root) w₁ (fun _ w' => ended w.log < ended w'.log) fun w' =>
          f + 1 + (popped w.log).length + cleared w.log ≤ stateBound ℓ w' := by
      intro w₁ hw₁ hroot₁ hact₁ hlog hlt
      refine (ih w₁ hw₁ hroot₁ hact₁).imp ?_ ?_
      · rintro _ w' ⟨hcredit, hinput, hend⟩
        exact ⟨hcredit, hinput, Nat.lt_of_le_of_lt (ended_mono hlog) hend⟩
      · rintro e w' ⟨hcredit, hk⟩
        refine ⟨hcredit, fun he => ?_⟩
        have := hk he
        omega
    rw [sort]
    refine Fuel.call hw (does_deferredPrj f hw.kin.inv hne) (fuel_deferredPrj f hw hne)
      (fun w' _ hlog hk => hcall w' hlog hk) ?_
    intro _ w₁ hw₁ hback₁ _
    have hroot₁ := hw₁.frame.root (Nat.le_refl 1) root hroot
    have hne₁ := hw₁.frame.rooted (Nat.le_refl 1) hne
    refine Fuel.call hw₁.fit (does_drain f w₁.st hw₁.fit.kin.inv hne₁) (fuel_drain f w₁ hw₁.fit hne₁)
      ?_ ?_
    · intro w' _ hlog hk
      have := popped_mono hw₁.log
      have := cleared_mono (hw₁.log.trans hlog)
      unfold stateBound
      omega
    intro again w₂ hw₂ hback₂ hpop
    have hback₂ : w₂.st.active = w.st.active := Eq.trans hback₂ hback₁
    have hroot₂ := hw₂.frame.root (Nat.le_refl 1) root hroot₁
    have hlog₂ := hw₁.log.trans hw₂.log
    split
    · next hagain₂ =>
      refine hagain w₂ hw₂.fit hroot₂ (hback₂.trans hact) hlog₂ ?_
      have := popped_mono hw₁.log
      have := hpop hagain₂
      have := cleared_mono hlog₂
      omega
    · have h₂ := hw₂.fit.kin.inv
      have hreg := (h₂.root root hroot₂).1
      have hb := (h₂.birth root (h₂.alloc hreg)).1
      refine Fuel.call hw₂.fit
        (does_isCorrectAndExit f root w₂.st h₂ (h₂.alloc hreg) (Or.inl hreg))
        (fuel_isCorrectAndExit f root w₂ hw₂.fit (h₂.alloc hreg) (Or.inl hreg)) ?_ ?_
      · intro w' _ hlog hk
        refine hcall w' (hlog₂.trans hlog) ?_
        unfold excuteBound
        omega
      intro _ w₃ hw₃ hback₃ _
      have hroot₃ := hw₃.frame.root hb root hroot₂
      have hback₃ : w₃.st.active = w.st.active := Eq.trans hback₃ hback₂
      have hlog₃ := hlog₂.trans hw₃.log
      refine Fuel.get ?_
      split
      · refine Fuel.act hw₃.fit rfl ?_
        have hend : ended (after w₃ .stateEnd).log = ended w₃.log + 1 := List.countP_cons
        rw [hend]
        exact Nat.lt_succ_of_le (ended_mono hlog₃)
      · next hkeep =>
        have hne₃ : w₃.st.threadRoot ≠ none := by
          rw [hroot₃]
          exact Option.some_ne_none root
        have hkeep : w₃.st.keepChilds ≠ [] := by simpa using hkeep
        refine Fuel.call hw₃.fit (does_excuteKeepChilds f w₃.st hw₃.fit.kin.inv hne₃)
          (fuel_excuteKeepChilds f w₃ hw₃.fit hne₃ hkeep) ?_ ?_
        · intro w' _ hlog hk
          have := popped_mono (hlog₃.trans hlog)
          have := cleared_mono (hlog₃.trans hlog)
          unfold stateBound
          omega
        intro _ w₄ hw₄ hback₄ hclear
        have hlog₄ := hlog₃.trans hw₄.log
        refine hagain w₄ hw₄.fit (hw₄.frame.root (Nat.le_refl 1) root hroot₃)
          (Eq.trans hback₄ (hback₃.trans hact)) hlog₄ ?_
        have := popped_mono hlog₄
        have := cleared_mono hlog₃
        omega

/-- Each round ends a state. -/
theorem fuel_states (f : Nat) {root : Ptr} : ∀ w : Site, Fit ℓ w → w.st.threadRoot = some root →
    w.st.active = [] →
    Fuel ℓ (states f root) w Any fun w' => f + ended w.log ≤ ended w'.log + stateBound ℓ w' + 1 := by
  induction f with
  | zero => exact fun w hw _ _ => Fuel.stop hw fun _ => by omega
  | succ f ih =>
    intro w hw hroot hact
    have h := hw.kin.inv
    rw [states]
    refine Fuel.get ?_
    split
    · exact Fuel.pure hw trivial
    · have hreg := (h.root root hroot).1
      have hb := (h.birth root (h.alloc hreg)).1
      have hready : Ready w.st root := by
        refine ⟨h.alloc hreg, Or.inl hreg, ?_, fun hno => absurd (h.rootType root hroot).1 hno⟩
        rw [hroot]
        exact Option.some_ne_none root
      refine Fuel.call hw (does_excute f root w.st h hready) (fuel_excute f root w hw hready) ?_ ?_
      · intro w' _ hlog hk
        have := ended_mono hlog
        unfold stateBound
        omega
      intro _ w₁ hw₁ hback₁ _
      refine Fuel.step (b := 1) hw₁.fit trivial rfl fun hw₂ => ?_
      refine Fuel.step (b := 1) hw₂.fit trivial rfl fun hw₃ => ?_
      have hroot₃ : (after (after w₁ (.changedNode none)) (.prjNode none)).st.threadRoot =
          some root := hw₁.frame.root hb root hroot
      have hact₃ : (after (after w₁ (.changedNode none)) (.prjNode none)).st.active = [] :=
        Eq.trans hback₁ hact
      have hlog₃ := hw₁.log.trans (hw₂.log.trans hw₃.log)
      refine Fuel.call hw₃.fit (does_sort f _ hw₃.fit.kin.inv hroot₃ hact₃)
        (fuel_sort f _ hw₃.fit hroot₃ hact₃) ?_ ?_
      · intro w' _ hlog hk
        have := ended_mono (hlog₃.trans hlog)
        omega
      intro _ w₄ hw₄ hback₄ hend
      have := ended_mono hlog₃
      refine (ih w₄ hw₄.fit (hw₄.frame.root (Nat.le_refl 1) root hroot₃)
        (Eq.trans hback₄ hact₃)).mono fun w' hk => ?_
      omega

/-! ## Runs -/

theorem fuel_managerThread (f : Nat) {w : Site} (hw : Fit ℓ w) (hact : w.st.active = []) :
    Fuel ℓ (managerThread f) w Any fun w' => f ≤ ended w'.log + stateBound ℓ w' + 1 := by
  rw [managerThread]
  refine Fuel.get ?_
  split
  · exact Fuel.pure hw trivial
  · next root hroot =>
    refine Fuel.call hw (does_states f w.st hw.kin.inv hroot hact) (fuel_states f w hw hroot hact)
      (fun w' _ _ hk => Nat.le_trans (Nat.le_add_right _ _) hk) ?_
    intro _ w₁ hw₁ _ _
    have h₁ := hw₁.fit.kin.inv
    have hroot₁ := hw₁.frame.root (Nat.le_refl 1) root hroot
    obtain ⟨hreg, -⟩ := h₁.root root hroot₁
    refine Fuel.call hw₁.fit (does_deleteChilds f root w₁.st h₁ (h₁.alloc hreg) (Or.inl hreg))
      (fuel_deleteChilds f root w₁ hw₁.fit (h₁.alloc hreg) (Or.inl hreg)) ?_ ?_
    · intro w' _ _ hk
      unfold stateBound excuteBound
      omega
    rintro _ w₂ hw₂ ⟨-, -⟩ -
    obtain ⟨hreg₂, -⟩ := hw₂.frame.reg_of h₁ hw₂.fit.kin.inv hreg (Nat.le_refl _)
    exact fuel_release hw₂.fit hreg₂ (Fuel.act hw₂.fit rfl trivial)

/-- Each round reads an item. -/
theorem fuel_statements (f : Nat) : ∀ w : Site, Fit ℓ w → w.st.active = [] →
    Fuel ℓ (statements f) w Any fun w' =>
      f ≤ w.input.length + ended w'.log + stateBound ℓ w' + 2 := by
  induction f with
  | zero => exact fun w hw _ => Fuel.stop hw fun _ => Nat.zero_le _
  | succ f ih =>
    intro w hw hact
    have h := hw.kin.inv
    have hcaller : Caller 0 w.st w.st.mainThread := Or.inl ⟨rfl, rfl⟩
    rw [statements]
    refine Fuel.get ?_
    refine Fuel.call hw (does_runThread f w.st h hcaller) (fuel_runThread f w hw hcaller) ?_ ?_
    · intro w' _ _ hk
      have := excuteBound_births (ℓ := ℓ) w'
      unfold stateBound
      omega
    intro _ w₁ hw₁ hback₁ hread
    have hact₁ : w₁.st.active = [] := Eq.trans hback₁ hact
    refine Fuel.call hw₁.fit (does_managerThread f hw₁.fit.kin.inv hact₁)
      (fuel_managerThread f hw₁.fit hact₁) (fun w' _ _ hk => by omega) ?_
    intro _ w₂ hw₂ hback₂ _
    have hle : w₂.input.length ≤ w₁.input.length := hw₂.input.length_le
    exact (ih w₂ hw₂.fit (Eq.trans hback₂ hact₁)).mono fun w' hk => by omega

end

theorem requests_eq (log : Log) : requests log = charged .request log := by
  have hsame : ∀ l : Label, l.requests = (l.charge == some .request) := by
    intro l
    cases l with
    | edit n e => cases e <;> rfl
    | _ => rfl
  unfold requests charged
  simp only [hsame]

theorem created_length (log : Log) :
    (created log).length = charged .root log + charged .thread log := by
  induction log with
  | nil => rfl
  | cons x log ih =>
    obtain ⟨l, s⟩ := x
    rw [created_cons, List.length_append, ih, charged_cons, charged_cons]
    cases l with
    | newRoot type =>
      show 1 + _ = charged .root log + 1 + (charged .thread log + 0)
      omega
    | newThread F id =>
      show 1 + _ = charged .root log + 0 + (charged .thread log + 1)
      omega
    | edit n e => cases e <;> exact Nat.zero_add _
    | _ => exact Nat.zero_add _

theorem pushed_length (log : Log) : (pushed log).length = charged .push log := by
  induction log with
  | nil => rfl
  | cons x log ih =>
    obtain ⟨l, s⟩ := x
    rw [charged_cons, ← ih]
    cases l with
    | edit n e => cases e <;> rfl
    | _ => rfl

/-- Who is joined was made. -/
theorem Threads.deaths_le {log : Log} {s : State} (h : Threads log s) :
    deaths log ≤ (created log).length := by
  have hsub : (joined log).map Prod.fst ⊆ (created log).map Prod.fst :=
    List.map_subset _ fun p hp => (h.account p).mpr (Or.inl hp)
  have hlen := (h.once.subperm hsub).length_le
  rwa [List.length_map, List.length_map] at hlen

/-- All counts of a run are bounded by the length of its input. -/
theorem stateBound_le {ℓ : Nat} {w : Site} (hcredit : Credit ℓ [] w) (ht : Totals w.log w.st)
    (hpop : (popped w.log).length ≤ (pushed w.log).length) :
    stateBound ℓ w ≤ 8 * (ℓ * ℓ) + 14 * ℓ + 5 := by
  have hcharge : ∀ k, charged k w.log ≤ ℓ := fun k => by
    have := hcredit k
    omega
  have hborn : w.st.births ≤ 2 * ℓ := by
    rw [ht.kin.births, created_length]
    have := hcharge .root
    have := hcharge .thread
    omega
  have hdeaths : deaths w.log ≤ w.st.births := ht.kin.births ▸ ht.kin.threads.deaths_le
  have hconv : conversions w.log ≤ 2 * ℓ := by
    have := ht.converted
    have := hcharge .request
    rw [requests_eq] at *
    omega
  have hmoved : (handed w.log).length ≤ 4 * (ℓ * ℓ) := by
    calc (handed w.log).length ≤ w.st.births * w.st.births :=
          Nat.le_trans (Nat.le_add_right _ _) ht.moved
      _ ≤ (2 * ℓ) * (2 * ℓ) := Nat.mul_le_mul hborn hborn
      _ = 4 * (ℓ * ℓ) := by ring
  have hdealt : (dealt w.log).length ≤ (handed w.log).length := by
    rw [← ht.queue, List.length_append]
    exact Nat.le_add_right _ _
  have hcleared : cleared w.log ≤ (handed w.log).length :=
    Nat.le_trans (Nat.le_add_right _ _) ht.cleared
  have hpushed : (pushed w.log).length ≤ ℓ := pushed_length w.log ▸ hcharge .push
  unfold stateBound excuteBound
  omega

/-- **Every state ends.**  A run on `ℓ` library calls, pauses and exits uses up its bound on the depth
    only if the bound is below a polynomial in `ℓ` and the number of states that have ended: no loop
    and no recursion of the code goes on for ever within a state, or between statements. -/
theorem run_fuel (f : Nat) (mainThread : Tid) (env : Env) (input : List Action)
    (hfuel : (run f mainThread env input).1 = .error .fuel) :
    f ≤ 8 * (input.length * input.length) + 15 * input.length + 7 +
      ended (run f mainThread env input).2.log := by
  have hstart : Fit input.length ⟨start mainThread env, input, []⟩ :=
    ⟨kin_of_trace (.nil _), fun k => by
      show 0 + input.length + 0 ≤ input.length
      omega⟩
  have hends := fuel_statements f _ hstart rfl
  unfold Fuel Ends at hends
  rw [show (statements f ⟨start mainThread env, input, []⟩).1 = .error .fuel from hfuel] at hends
  obtain ⟨hcredit, hk⟩ := hends
  have htrace := (run_trace f mainThread env input).1
  have hperm := (account htrace).length_eq
  rw [List.length_append, List.length_append] at hperm
  have hbound := stateBound_le hcredit (totals_of_trace htrace) (by
    have : (start mainThread env).prsnt.length = 0 := rfl
    show (popped (run f mainThread env input).2.log).length ≤
      (pushed (run f mainThread env input).2.log).length
    omega)
  have hk : f ≤ input.length + ended (run f mainThread env input).2.log +
      stateBound input.length (run f mainThread env input).2 + 2 := hk rfl
  have hbound : stateBound input.length (run f mainThread env input).2 ≤ _ := hbound
  omega

/-- An AND without children: every state ends, and the statement never does. -/
def emptyScript : List Action := [.call (.myCreateThread false .and 2), .pause]

theorem run_fuel_empty : 60 ≤ 8 * (emptyScript.length * emptyScript.length) +
    15 * emptyScript.length + 7 + ended (run 60 1 plain emptyScript).2.log :=
  run_fuel 60 1 plain emptyScript (by decide +kernel)

end Msvl.Function
