/-
  The bounds on the depth: the walks and the library calls.

  Every loop and recursion of the code carries a bound `f` and stops with `fuel` when it is used up.
  Here each function is gone through once more, to see what has happened when it does: as much as the
  counts of the log tell, no more.  A walk goes down one generation or deletes a node; a thread reads
  its input.

  1. `Credit` — what the calls of threads bring (a root, a request, a thread, an element) is paid with
     the items of the input, one each.
  2. `Fuel ℓ m w T K` — from `w`, `m` returns with `T`; if it stops with `fuel` then in a world with
     `K`.  The rules follow those of `Does`, which supplies the invariant.
  3. `fuel_deleteChilds`, `fuel_isCorrectAndExit`, `fuel_runThread` and what is built from them.
-/
import LibMSVL.Lib.Ends
import LibMSVL.Function.Totals
import LibMSVL.Function.Visits

namespace Msvl.Function

open Msvl.Run

/-! ## What the input pays for -/

/-- What one call of a thread can bring, each once. -/
inductive Charge
  | root
  | request
  | thread
  | push
  deriving DecidableEq

def Label.charge : Label → Option Charge
  | .newRoot _ => some .root
  | .edit _ (.request _) => some .request
  | .newThread _ _ => some .thread
  | .push _ => some .push
  | _ => none

def charged (k : Charge) (log : Log) : Nat := log.countP fun x => x.1.charge == some k

/-- With `ℓ` items at the start; what is in `ks` is still to come from the last item read. -/
def Credit (ℓ : Nat) (ks : List Charge) (w : Site) : Prop :=
  ∀ k, charged k w.log + w.input.length + (if k ∈ ks then 1 else 0) ≤ ℓ

theorem charged_cons (k : Charge) (l : Label) (s : State) (log : Log) :
    charged k ((l, s) :: log) = charged k log + if l.charge = some k then 1 else 0 := by
  have hcount : charged k ((l, s) :: log) =
      charged k log + if (l.charge == some k) = true then 1 else 0 := List.countP_cons
  rw [hcount]
  simp only [beq_iff_eq]

theorem Credit.mono {ℓ : Nat} {ks ks' : List Charge} {w : Site} (h : Credit ℓ ks w)
    (hk : ∀ k ∈ ks', k ∈ ks) : Credit ℓ ks' w := by
  intro k
  refine Nat.le_trans (Nat.add_le_add_left ?_ _) (h k)
  by_cases hmem : k ∈ ks'
  · rw [if_pos hmem, if_pos (hk k hmem)]
  · rw [if_neg hmem]
    exact Nat.zero_le _

theorem Credit.free {ℓ : Nat} {ks : List Charge} {w : Site} (h : Credit ℓ ks w) {l : Label}
    (hl : l.charge = none) : Credit ℓ ks (after w l) := by
  intro k
  show charged k ((l, w.st) :: w.log) + w.input.length + _ ≤ ℓ
  rw [charged_cons, hl, if_neg (by simp)]
  exact h k

/-- A step that is charged uses up what it is charged for. -/
theorem Credit.pay {ℓ : Nat} {ks : List Charge} {w : Site} {k : Charge} (h : Credit ℓ (k :: ks) w)
    (hk : k ∉ ks) {l : Label} (hl : l.charge = some k) : Credit ℓ ks (after w l) := by
  intro j
  have hj := h j
  show charged j ((l, w.st) :: w.log) + w.input.length + _ ≤ ℓ
  rw [charged_cons, hl]
  by_cases hjk : k = j
  · subst hjk
    rw [if_pos List.mem_cons_self] at hj
    rw [if_pos rfl, if_neg hk]
    omega
  · rw [if_neg (by simpa using hjk), Nat.add_zero]
    refine Nat.le_trans (Nat.add_le_add_left ?_ _) hj
    by_cases hmem : j ∈ ks
    · rw [if_pos hmem, if_pos (List.mem_cons_of_mem k hmem)]
    · rw [if_neg hmem]
      exact Nat.zero_le _

/-! ## Counts -/

/-- The threads joined so far. -/
def deaths (log : Log) : Nat := (joined log).length

theorem deaths_mono {log log' : Log} (h : log <:+ log') : deaths log ≤ deaths log' :=
  (h.filterMap _).length_le

theorem conversions_mono {log log' : Log} (h : log <:+ log') :
    conversions log ≤ conversions log' := h.sublist.countP_le

theorem deaths_cons {l : Label} {n : Ptr} (hl : l.deleted = some n) (s : State) (log : Log) :
    deaths ((l, s) :: log) = deaths log + 1 := by
  rw [deaths, joined_cons, hl]
  rfl

/-- A world of a run, with `ℓ` items at its start. -/
structure Fit (ℓ : Nat) (w : Site) : Prop where
  kin : Kin w.log w.st
  credit : Credit ℓ [] w

theorem Fit.births_le {ℓ : Nat} {w w' : Site} (hw : Fit ℓ w) (hw' : Fit ℓ w')
    (h : w.log <:+ w'.log) : w.st.births ≤ w'.st.births := by
  rw [hw.kin.births, hw'.kin.births]
  exact (h.filterMap _).length_le

theorem Fit.input_le {ℓ : Nat} {w : Site} (hw : Fit ℓ w) : w.input.length ≤ ℓ := by
  have := hw.credit .push
  omega

theorem Fit.step {ℓ b : Nat} {w : Site} {l : Label} (hw : Fit ℓ w) (hg : Guard b l w.st)
    (hl : l.charge = none) : Fit ℓ (after w l) :=
  ⟨hw.kin.step hg, hw.credit.free hl⟩

theorem Kin.trace {b : Nat} {log es : Log} {s t : State} (hk : Kin log s)
    (h : Trace Label.apply (Guard b) s es t) : Kin (es ++ log) t :=
  h.keeps_log (I := fun es u => Kin (es ++ log) u) (fun _ _ _ hg hu => hu.step hg) hk

/-- Siblings have different numbers. -/
theorem Kin.childs_length {log : Log} {s : State} (hk : Kin log s) {n : Ptr} (hn : n < s.next)
    (hheld : s.Held n) : (s.childs n).length ≤ s.births := by
  have h := hk.inv
  have hreg : ∀ c, c ∈ s.childs n → s.Reg c := by
    intro c hc
    obtain ⟨i, hi⟩ := State.at_iff_mem.mp hc
    exact (h.held n hn hheld i c hi).1
  have hnodup : ((s.childs n).map s.birth).Nodup := by
    refine (List.nodup_map_iff_inj_on (h.childs_nodup hn hheld)).mpr ?_
    intro x hx y hy heq
    exact hk.threads.single x y (hreg x hx) (hreg y hy) heq
  have hsub : (s.childs n).map s.birth ⊆ (List.range s.births).map (· + 1) := by
    intro k hmem
    obtain ⟨c, hc, rfl⟩ := List.mem_map.mp hmem
    obtain ⟨hpos, hle⟩ := h.birth c (h.alloc (hreg c hc))
    exact List.mem_map.mpr ⟨s.birth c - 1, List.mem_range.mpr (by omega), by omega⟩
  have hlen := (hnodup.subperm hsub).length_le
  rwa [List.length_map, List.length_map, List.length_range] at hlen

/-! ## What stopping with `fuel` tells -/

/-- From `w`, `m` returns with `T`, or stops, with `fuel` only where `K` holds. -/
def Fuel {α : Type} (ℓ : Nat) (m : M α) (w : Site) (T : α → Site → Prop) (K : Site → Prop) : Prop :=
  Ends m w (fun a w' => Credit ℓ [] w' ∧ w'.input <:+ w.input ∧ T a w')
    fun e w' => Credit ℓ [] w' ∧ (e = .fuel → K w')

/-- What is known where a call has returned. -/
structure Next (ℓ b : Nat) (w w' : Site) : Prop where
  fit : Fit ℓ w'
  log : w.log <:+ w'.log
  input : w'.input <:+ w.input
  frame : Frame b w.st w'.st

section

variable {α β : Type} {ℓ b : Nat} {w : Site} {m : M α} {f : α → M β} {Q : α → State → Prop}
  {T T' : α → Site → Prop} {U : β → Site → Prop} {K J : Site → Prop}

theorem Fuel.pure {a : α} (hw : Fit ℓ w) (h : T a w) : Fuel ℓ (Pure.pure a : M α) w T K :=
  ⟨hw.credit, List.suffix_refl _, h⟩

theorem Fuel.stop {e : Stop} (hw : Fit ℓ w) (h : e = .fuel → K w) : Fuel ℓ (stop e : M α) w T K :=
  ⟨hw.credit, h⟩

theorem Fuel.halt {e : Stop} (hw : Credit ℓ [] w) (he : e ≠ .fuel) :
    Fuel ℓ (Function.stop e : M α) w T K := ⟨hw, fun h => absurd h he⟩

theorem Fuel.get {f : State → M β} (h : Fuel ℓ (f w.st) w U K) : Fuel ℓ (get >>= f) w U K := h

theorem Fuel.act {T : Unit → Site → Prop} {l : Label} (hw : Fit ℓ w) (hl : l.charge = none)
    (h : T () (after w l)) : Fuel ℓ (act l) w T K :=
  ⟨hw.credit.free hl, List.suffix_refl _, h⟩

theorem Next.step {l : Label} (hw : Fit ℓ w) (hg : Guard b l w.st) (hl : l.charge = none) :
    Next ℓ b w (after w l) :=
  ⟨hw.step hg hl, List.suffix_cons _ _, List.suffix_refl _, hg.frame hw.kin.inv⟩

/-- A step, and the rest. -/
theorem Fuel.step {l : Label} {f : Unit → M β} (hw : Fit ℓ w) (hg : Guard b l w.st)
    (hl : l.charge = none) (h : Next ℓ b w (after w l) → Fuel ℓ (f ()) (after w l) U K) :
    Fuel ℓ (Function.act l >>= f) w U K := h (.step hw hg hl)

theorem Fuel.mono (hm : Fuel ℓ m w T J) (hK : ∀ w', J w' → K w') : Fuel ℓ m w T K :=
  hm.imp (fun _ _ h => h) fun _ w' h => ⟨h.1, fun he => hK w' (h.2 he)⟩

/-- The invariant at the end comes from the specification. -/
theorem Fuel.next (hw : Fit ℓ w) (hd : Does b m w.st Q) (hm : Fuel ℓ m w T K) :
    Ends m w (fun a w' => Next ℓ b w w' ∧ Q a w'.st ∧ T a w')
      fun e w' => Fit ℓ w' ∧ w.log <:+ w'.log ∧ (e = .fuel → K w') := by
  have hkin : ∀ {w' : Site}, (∃ es, w'.log = es ++ w.log ∧
      Trace Label.apply (Guard b) w.st es w'.st) → Kin w'.log w'.st ∧ w.log <:+ w'.log := by
    rintro w' ⟨es, hlog, htr⟩
    rw [hlog]
    exact ⟨hw.kin.trace htr, List.suffix_append es w.log⟩
  refine (hd.ends.both hm).imp ?_ ?_
  · rintro a w' ⟨⟨htr, hq⟩, hcredit, hinput, ht⟩
    obtain ⟨hk, hlog⟩ := hkin htr
    obtain ⟨es, -, htr⟩ := htr
    exact ⟨⟨⟨hk, hcredit⟩, hlog, hinput, (hw.kin.inv.reach ⟨es, htr⟩).2⟩, hq, ht⟩
  · rintro e w' ⟨htr, hcredit, hK⟩
    obtain ⟨hk, hlog⟩ := hkin htr
    exact ⟨⟨hk, hcredit⟩, hlog, hK⟩

/-- A call, and the rest. -/
theorem Fuel.call (hw : Fit ℓ w) (hd : Does b m w.st Q) (hm : Fuel ℓ m w T J)
    (hK : ∀ w', Fit ℓ w' → w.log <:+ w'.log → J w' → K w')
    (hf : ∀ a w', Next ℓ b w w' → Q a w'.st → T a w' → Fuel ℓ (f a) w' U K) :
    Fuel ℓ (m >>= f) w U K := by
  refine Ends.bind (T := fun a w' => Next ℓ b w w' ∧ Q a w'.st ∧ T a w')
    ((hm.next hw hd).imp (fun _ _ h => h) ?_) ?_
  · rintro e w' ⟨hfit, hlog, hk⟩
    exact ⟨hfit.credit, fun he => hK w' hfit hlog (hk he)⟩
  · rintro a w' ⟨hnext, hq, ht⟩
    refine (hf a w' hnext hq ht).imp ?_ fun _ _ h => h
    rintro c w'' ⟨hcredit, hinput, hu⟩
    exact ⟨hcredit, hinput.trans hnext.input, hu⟩

/-- A last call. -/
theorem Fuel.last (hw : Fit ℓ w) (hd : Does b m w.st Q) (hm : Fuel ℓ m w T J)
    (hK : ∀ w', Fit ℓ w' → w.log <:+ w'.log → J w' → K w')
    (hT : ∀ a w', Next ℓ b w w' → Q a w'.st → T a w' → T' a w') : Fuel ℓ m w T' K := by
  refine (hm.next hw hd).imp ?_ ?_
  · rintro a w' ⟨hnext, hq, ht⟩
    exact ⟨hnext.fit.credit, hnext.input, hT a w' hnext hq ht⟩
  · rintro e w' ⟨hfit, hlog, hk⟩
    exact ⟨hfit.credit, fun he => hK w' hfit hlog (hk he)⟩

end

/-- Nothing is to be known of the value. -/
abbrev Any {α : Type} (_ : α) (_ : Site) : Prop := True

/-! ## Deleting -/

section

variable {ℓ : Nat} {w : Site}

theorem ends_checkErase {n : Ptr} {F : Stop → Site → Prop} (hn : w.st.Reg n) :
    Ends (checkErase n) w (fun _ w' => w' = w) F := by
  refine Ends.get ?_
  rw [show w.st.threadIDToNode (w.st.heap n).thread = some n from hn]
  exact Ends.pure rfl

theorem fuel_checkErase {β : Type} {n : Ptr} {f : Unit → M β} {U : β → Site → Prop}
    {K : Site → Prop} (hn : w.st.Reg n) (h : Fuel ℓ (f ()) w U K) :
    Fuel ℓ (checkErase n >>= f) w U K := by
  refine Ends.bind (ends_checkErase hn) ?_
  rintro _ _ rfl
  exact h

/-- The destructor's checks do not use up the bound. -/
theorem fuel_release {β : Type} {n : Ptr} {f : Unit → M β} {U : β → Site → Prop}
    {K : Site → Prop} (hw : Fit ℓ w) (hn : w.st.Reg n) (h : Fuel ℓ (f ()) w U K) :
    Fuel ℓ (release n >>= f) w U K := by
  have hjoin : Ends (joinThread n) w (fun _ w' => w' = w)
      fun e w' => Credit ℓ [] w' ∧ (e = .fuel → K w') := by
    refine Ends.get ?_
    split_ifs
    · exact Ends.pure rfl
    · exact Ends.pure rfl
    · exact Ends.stop ⟨hw.credit, by simp⟩
    · exact Ends.pure rfl
    · exact Ends.stop ⟨hw.credit, by simp⟩
  refine Ends.bind (T := fun _ w' => w' = w) (Ends.bind (ends_checkErase hn) ?_) ?_
  · rintro _ _ rfl
    exact hjoin
  · rintro _ _ rfl
    exact h

/-- Each round of the loop deletes a child; a child is younger. -/
theorem fuel_deleteChilds (f : Nat) : ∀ (n : Ptr) (w : Site), Fit ℓ w → n < w.st.next →
    w.st.Held n → Fuel ℓ (deleteChilds f n) w Any fun w' =>
      f + w.st.birth n + deaths w.log ≤ w'.st.births + deaths w'.log := by
  induction f with
  | zero =>
    intro n w hw hn _
    refine Fuel.stop hw fun _ => ?_
    have := (hw.kin.inv.birth n hn).2
    omega
  | succ f ih =>
    intro n w hw hn hheld
    have h := hw.kin.inv
    rw [deleteChilds]
    refine Fuel.get ?_
    split
    · exact Fuel.pure hw trivial
    · next c cs hcs =>
      have hat : w.st.At n 0 c := by
        rw [State.At, State.childs, hcs]
        rfl
      have hs := h.slot hn hheld hat
      obtain ⟨-, hc, -, hb⟩ := hs.lt h
      refine Fuel.call hw (does_deleteChilds f c w.st h hc (Or.inl hs.reg))
        (ih c w hw hc (Or.inl hs.reg)) (fun w' _ _ hk => by omega) ?_
      rintro _ w₁ hw₁ ⟨-, hnil⟩ -
      have ht := hw₁.fit.kin.inv
      have hs' := hs.frame h ht hw₁.frame (Nat.le_refl _)
      refine fuel_release hw₁.fit hs'.reg ?_
      have hbirth := hw₁.frame.birth n hn
      have hg : Guard (w₁.st.birth n) (.destroy n 0 c) w₁.st := ⟨hs', hnil, Nat.le_refl _⟩
      refine Fuel.step hw₁.fit hg rfl fun hw₂ => ?_
      obtain ⟨hnt, hheldt⟩ := hw₁.frame.held h ht hn hheld (Nat.le_of_lt hb)
      obtain ⟨hnu, hheldu⟩ := hw₂.frame.held ht hw₂.fit.kin.inv hnt hheldt (Nat.le_refl _)
      have hbirth₂ : (after w₁ (.destroy n 0 c)).st.birth n = w.st.birth n :=
        (hw₂.frame.birth n hnt).trans hbirth
      have hdeath : deaths (after w₁ (.destroy n 0 c)).log = deaths w₁.log + 1 :=
        deaths_cons rfl w₁.st w₁.log
      have hmono := deaths_mono hw₁.log
      refine (ih n _ hw₂.fit hnu hheldu).mono fun w' hk => ?_
      rw [hbirth₂, hdeath] at hk
      omega

theorem fuel_deleteSlot (f : Nat) {owner n : Ptr} {i : Nat} (hw : Fit ℓ w)
    (hs : Slot w.st owner i n) : Fuel ℓ (deleteSlot f owner i n) w
      (fun _ w' => deaths w.log < deaths w'.log) fun w' =>
      f + deaths w.log ≤ w'.st.births + deaths w'.log := by
  have h := hw.kin.inv
  obtain ⟨-, hn, -, -⟩ := hs.lt h
  refine Fuel.call hw (does_deleteChilds f n w.st h hn (Or.inl hs.reg))
    (fuel_deleteChilds f n w hw hn (Or.inl hs.reg)) (fun w' _ _ hk => by omega) ?_
  rintro _ w₁ hw₁ ⟨-, -⟩ -
  have hs' := hs.frame h hw₁.fit.kin.inv hw₁.frame (Nat.le_refl _)
  refine fuel_release hw₁.fit hs'.reg (Fuel.act hw₁.fit rfl ?_)
  rw [show deaths (after w₁ (.destroy owner i n)).log = deaths w₁.log + 1 from
    deaths_cons rfl w₁.st w₁.log]
  exact Nat.lt_succ_of_le (deaths_mono hw₁.log)

end

/-! ## isCorrectAndExit -/

/-- A world in which a walk is at `n`, the node of thread number `b`. -/
structure Stand (ℓ b : Nat) (n : Ptr) (w : Site) : Prop where
  fit : Fit ℓ w
  lt : n < w.st.next
  held : w.st.Held n
  birth : w.st.birth n = b

theorem Stand.next {ℓ b b' : Nat} {n : Ptr} {w w' : Site} (hw : Stand ℓ b n w)
    (h : Next ℓ b' w w') (hb : b ≤ b') : Stand ℓ b n w' := by
  obtain ⟨hlt, hheld⟩ := h.frame.held hw.fit.kin.inv h.fit.kin.inv hw.lt hw.held
    (Nat.le_trans (Nat.le_of_eq hw.birth) hb)
  exact ⟨h.fit, hlt, hheld, (h.frame.birth n hw.lt).trans hw.birth⟩

theorem Next.births_le {ℓ b : Nat} {w w' : Site} (h : Next ℓ b w w') (hw : Fit ℓ w) :
    w.st.births ≤ w'.st.births := hw.births_le h.fit h.log

section

variable {ℓ b : Nat} {n : Ptr} {ic : Ptr → M Bool} (hic : Walks ic) {P : Site → Prop}
  (hfuel : ∀ c w, Fit ℓ w → c < w.st.next → w.st.Held c → b < w.st.birth c →
    Fuel ℓ (ic c) w Any P)

include hic hfuel

/-- Each round goes to the next child or deletes one. -/
theorem fuel_andScan (f : Nat) : ∀ (i e k : Nat) (w : Site), Stand ℓ b n w → i ≤ w.st.births →
    Fuel ℓ (andScan ic f n i e k) w Any fun w' =>
      P w' ∨ f + i + deaths w.log ≤ 2 * w'.st.births + deaths w'.log := by
  induction f with
  | zero =>
    intro i e k w hw hi
    exact Fuel.stop hw.fit fun _ => Or.inr (by omega)
  | succ f ih =>
    intro i e k w hw hi
    have h := hw.fit.kin.inv
    rw [andScan]
    refine Fuel.get ?_
    split
    · exact Fuel.pure hw.fit trivial
    · next node hat =>
      have hs := h.slot hw.lt hw.held hat
      obtain ⟨-, hnode, -, hb⟩ := hs.lt h
      rw [hw.birth] at hb
      have hlt : i < w.st.births := Nat.lt_of_lt_of_le (List.getElem?_eq_some_iff.mp hat).1
        (hw.fit.kin.childs_length hw.lt hw.held)
      -- the next round, at a later child or after a deletion
      have hagain : ∀ {w' : Site} (j e k : Nat), Stand ℓ b n w' → w.st.births ≤ w'.st.births →
          j ≤ i + 1 → i + 1 + deaths w.log ≤ j + deaths w'.log →
          Fuel ℓ (andScan ic f n j e k) w' Any fun w' =>
            P w' ∨ f + 1 + i + deaths w.log ≤ 2 * w'.st.births + deaths w'.log := by
        intro w' j e k hw' hle hj hd
        exact (ih j e k w' hw' (by omega)).mono fun w'' hk => hk.imp_right fun hk => by omega
      refine Fuel.call hw.fit (hic node w.st h hnode (Or.inl hs.reg))
        (hfuel node w hw.fit hnode (Or.inl hs.reg) hb) (fun _ _ _ hk => Or.inl hk) ?_
      intro exited w₁ hw₁ _ _
      have hs₁ := hs.frame h hw₁.fit.kin.inv hw₁.frame (Nat.le_refl _)
      have hst₁ := hw.next hw₁ (Nat.le_of_lt hb)
      have hle₁ := hw₁.births_le hw.fit
      have hd₁ := deaths_mono hw₁.log
      refine Fuel.get ?_
      split
      · refine Fuel.step (b := w₁.st.birth node) hw₁.fit trivial rfl fun hw₂ => ?_
        have hs₂ := hs₁.frame hw₁.fit.kin.inv hw₂.fit.kin.inv hw₂.frame (Nat.le_refl _)
        have hle : b ≤ w₁.st.birth node := by
          rw [hw₁.frame.birth node hnode]
          exact Nat.le_of_lt hb
        have hst₂ := hst₁.next hw₂ hle
        have hle₂ := Nat.le_trans hle₁ (hw₂.births_le hw₁.fit)
        have hd₂ := Nat.le_trans hd₁ (deaths_mono hw₂.log)
        split
        · refine Fuel.call hw₂.fit (does_deleteSlot hw₂.fit.kin.inv hs₂)
            (fuel_deleteSlot f hw₂.fit hs₂) ?_ ?_
          · intro w' hfit hlog hk
            have := hw₂.fit.births_le hfit hlog
            exact Or.inr (by omega)
          · intro _ w₃ hw₃ _ hd
            exact hagain i _ _ (hst₂.next hw₃ (Nat.le_of_eq hst₂.birth.symm))
              (Nat.le_trans hle₂ (hw₃.births_le hw₂.fit)) (Nat.le_succ i) (by omega)
        · exact hagain (i + 1) _ _ hst₂ hle₂ (Nat.le_refl _) (by omega)
      · split
        · exact hagain (i + 1) _ _ hst₁ hle₁ (Nat.le_refl _) (by omega)
        · exact hagain (i + 1) _ _ hst₁ hle₁ (Nat.le_refl _) (by omega)

theorem fuel_palScan (f : Nat) : ∀ (i e : Nat) (w : Site), Stand ℓ b n w → i ≤ w.st.births →
    Fuel ℓ (palScan ic f n i e) w Any fun w' =>
      P w' ∨ f + i + deaths w.log ≤ 2 * w'.st.births + deaths w'.log := by
  induction f with
  | zero =>
    intro i e w hw hi
    exact Fuel.stop hw.fit fun _ => Or.inr (by omega)
  | succ f ih =>
    intro i e w hw hi
    have h := hw.fit.kin.inv
    rw [palScan]
    refine Fuel.get ?_
    split
    · exact Fuel.pure hw.fit trivial
    · next node hat =>
      have hs := h.slot hw.lt hw.held hat
      obtain ⟨-, hnode, -, hb⟩ := hs.lt h
      rw [hw.birth] at hb
      have hlt : i < w.st.births := Nat.lt_of_lt_of_le (List.getElem?_eq_some_iff.mp hat).1
        (hw.fit.kin.childs_length hw.lt hw.held)
      have hagain : ∀ {w' : Site} (j e : Nat), Stand ℓ b n w' → w.st.births ≤ w'.st.births →
          j ≤ i + 1 → i + 1 + deaths w.log ≤ j + deaths w'.log →
          Fuel ℓ (palScan ic f n j e) w' Any fun w' =>
            P w' ∨ f + 1 + i + deaths w.log ≤ 2 * w'.st.births + deaths w'.log := by
        intro w' j e hw' hle hj hd
        exact (ih j e w' hw' (by omega)).mono fun w'' hk => hk.imp_right fun hk => by omega
      -- a child is deleted
      have hdelete : ∀ {w' : Site} (e : Nat), Stand ℓ b n w' → Slot w'.st n i node →
          w.st.births ≤ w'.st.births → deaths w.log ≤ deaths w'.log →
          Fuel ℓ (deleteSlot f n i node >>= fun _ => palScan ic f n i e) w' Any fun w' =>
            P w' ∨ f + 1 + i + deaths w.log ≤ 2 * w'.st.births + deaths w'.log := by
        intro w' e hw' hs' hle hd
        refine Fuel.call hw'.fit (does_deleteSlot hw'.fit.kin.inv hs')
          (fuel_deleteSlot f hw'.fit hs') ?_ ?_
        · intro w'' hfit hlog hk
          have := hw'.fit.births_le hfit hlog
          exact Or.inr (by omega)
        · intro _ w₃ hw₃ _ hd₃
          exact hagain i e (hw'.next hw₃ (Nat.le_of_eq hw'.birth.symm))
            (Nat.le_trans hle (hw₃.births_le hw'.fit)) (Nat.le_succ i) (by omega)
      refine Fuel.call hw.fit (hic node w.st h hnode (Or.inl hs.reg))
        (hfuel node w hw.fit hnode (Or.inl hs.reg) hb) (fun _ _ _ hk => Or.inl hk) ?_
      intro exited w₁ hw₁ _ _
      have hs₁ := hs.frame h hw₁.fit.kin.inv hw₁.frame (Nat.le_refl _)
      have hst₁ := hw.next hw₁ (Nat.le_of_lt hb)
      have hle₁ := hw₁.births_le hw.fit
      have hd₁ := deaths_mono hw₁.log
      refine Fuel.get ?_
      split
      · split
        · refine Fuel.step (b := w₁.st.birth node) hw₁.fit trivial rfl fun hw₂ => ?_
          have hs₂ := hs₁.frame hw₁.fit.kin.inv hw₂.fit.kin.inv hw₂.frame (Nat.le_refl _)
          have hle : b ≤ w₁.st.birth node := by
            rw [hw₁.frame.birth node hnode]
            exact Nat.le_of_lt hb
          exact hdelete (e + 1) (hst₁.next hw₂ hle) hs₂ (Nat.le_trans hle₁ (hw₂.births_le hw₁.fit))
            (Nat.le_trans hd₁ (deaths_mono hw₂.log))
        · exact hdelete e hst₁ hs₁ hle₁ hd₁
      · exact hagain (i + 1) e hst₁ hle₁ (Nat.le_refl _) (by omega)

theorem fuel_andCorrect (f : Nat) {w : Site} (hw : Stand ℓ b n w) :
    Fuel ℓ (andCorrect ic f n) w Any fun w' =>
      P w' ∨ f + deaths w.log ≤ 2 * w'.st.births + deaths w'.log := by
  rw [andCorrect]
  refine Fuel.get ?_
  refine Fuel.call hw.fit (does_andScan hic f 0 0 0 n w.st hw.fit.kin.inv hw.lt hw.held)
    (fuel_andScan hic hfuel f 0 0 0 w hw (Nat.zero_le _)) (fun _ _ _ hk => hk) ?_
  rintro ⟨e, k⟩ w₁ hw₁ _ -
  refine Fuel.get ?_
  split
  · exact Fuel.step (b := 0) hw₁.fit trivial rfl fun hw₂ => Fuel.pure hw₂.fit trivial
  · split
    · exact Fuel.step (b := 0) hw₁.fit trivial rfl fun hw₂ => Fuel.pure hw₂.fit trivial
    · exact Fuel.pure hw₁.fit trivial

theorem fuel_palCorrect (f : Nat) {w : Site} (hw : Stand ℓ b n w) :
    Fuel ℓ (palCorrect ic f n) w Any fun w' =>
      P w' ∨ f + deaths w.log ≤ 2 * w'.st.births + deaths w'.log := by
  rw [palCorrect]
  refine Fuel.get ?_
  refine Fuel.call hw.fit (does_palScan hic f 0 0 n w.st hw.fit.kin.inv hw.lt hw.held)
    (fuel_palScan hic hfuel f 0 0 w hw (Nat.zero_le _)) (fun _ _ _ hk => hk) ?_
  intro e w₁ hw₁ _ _
  refine Fuel.get ?_
  split
  · exact Fuel.pure hw₁.fit trivial
  · split
    · exact Fuel.step (b := 0) hw₁.fit trivial rfl fun hw₂ => Fuel.pure hw₂.fit trivial
    · exact Fuel.pure hw₁.fit trivial

end

theorem fuel_prjCorrect {ℓ : Nat} {n : Ptr} {w : Site} (hw : Fit ℓ w) :
    Fuel ℓ (prjCorrect n) w Any fun _ => False := by
  rw [prjCorrect]
  refine Fuel.get ?_
  split
  · exact Fuel.halt hw.credit (by decide)
  · next q ps _ =>
    dsimp only
    generalize (if w.st.isExit q = true then 1 else 0) + ps.countP w.st.emptyLeaf = exitNum
    split
    · exact Fuel.pure hw trivial
    · split
      · exact Fuel.step (b := 0) hw trivial rfl fun hw₁ => Fuel.pure hw₁.fit trivial
      · exact Fuel.pure hw trivial

/-- A walk over a tree of `births` generations at most. -/
theorem fuel_isCorrectAndExit {ℓ : Nat} (f : Nat) : ∀ (n : Ptr) (w : Site), Fit ℓ w →
    n < w.st.next → w.st.Held n → Fuel ℓ (isCorrectAndExit f n) w Any fun w' =>
      f + w.st.birth n ≤ 3 * w'.st.births + deaths w'.log + 1 := by
  induction f with
  | zero =>
    intro n w hw hn _
    refine Fuel.stop hw fun _ => ?_
    have := (hw.kin.inv.birth n hn).2
    omega
  | succ f ih =>
    intro n w hw hn hheld
    have hst : Stand ℓ (w.st.birth n) n w := ⟨hw, hn, hheld, rfl⟩
    have hle := (hw.kin.inv.birth n hn).2
    -- a child is younger
    have hfuel : ∀ c v, Fit ℓ v → c < v.st.next → v.st.Held c → w.st.birth n < v.st.birth c →
        Fuel ℓ (isCorrectAndExit f c) v Any fun w' =>
          f + 1 + w.st.birth n ≤ 3 * w'.st.births + deaths w'.log + 1 :=
      fun c v hv hc hcheld hb => (ih c v hv hc hcheld).mono fun w' hk => by omega
    have hic : Walks (isCorrectAndExit f) := does_isCorrectAndExit f
    have hend : ∀ w', Fit ℓ w' → w.log <:+ w'.log →
        (f + 1 + w.st.birth n ≤ 3 * w'.st.births + deaths w'.log + 1 ∨
          f + deaths w.log ≤ 2 * w'.st.births + deaths w'.log) →
        f + 1 + w.st.birth n ≤ 3 * w'.st.births + deaths w'.log + 1 := by
      intro w' hfit hlog hk
      have := hw.births_le hfit hlog
      omega
    rw [isCorrectAndExit]
    refine Fuel.get ?_
    split
    · exact Fuel.last hw (does_andCorrect hic f n w.st hw.kin.inv hn hheld)
        (fuel_andCorrect hic hfuel f hst) hend fun _ _ _ _ h => h
    · exact Fuel.last hw (does_palCorrect hic f n w.st hw.kin.inv hn hheld)
        (fuel_palCorrect hic hfuel f hst) hend fun _ _ _ _ h => h
    · exact (fuel_prjCorrect hw).mono fun _ hk => hk.elim
    · exact Fuel.pure hw trivial
    · exact Fuel.pure hw trivial
    · exact Fuel.pure hw trivial

/-! ## Library calls -/

theorem fuel_when {ℓ : Nat} {c : Bool} {m : M Unit} {w : Site} {T : Unit → Site → Prop}
    {K : Site → Prop} (hm : c = true → Fuel ℓ m w T K) (hw : Fit ℓ w) (ht : c = false → T () w) :
    Fuel ℓ (when c m) w T K := by
  cases c with
  | true => exact hm rfl
  | false => exact Fuel.pure hw (ht rfl)

/-- The number of the node, 0 if there is none. -/
def State.number (s : State) : Option Ptr → Nat
  | none => 0
  | some n => s.birth n

/-- A father is older. -/
theorem Inv.number_father {s : State} (h : Inv s) {n : Ptr} (hn : n < s.next) :
    s.number (s.father n) < s.birth n := by
  cases hF : s.father n with
  | none => exact (h.birth n hn).1
  | some F => exact (h.up n hn F hF).2

/-- A climb along fathers. -/
theorem fuel_setAndLen {ℓ : Nat} (f : Nat) : ∀ (o : Option Ptr) (w : Site), Fit ℓ w →
    (∀ n, o = some n → n < w.st.next) →
    Fuel ℓ (setAndLen f o) w Any fun _ => f ≤ w.st.number o := by
  induction f with
  | zero => exact fun o w hw _ => Fuel.stop hw fun _ => Nat.zero_le _
  | succ f ih =>
    intro o w hw ho
    cases o with
    | none => exact Fuel.pure hw trivial
    | some node =>
      have hnode := ho node rfl
      rw [setAndLen]
      refine Fuel.get ?_
      split
      · exact Fuel.pure hw trivial
      · refine Fuel.call (b := 0) (Q := fun _ t => t.father node = w.st.father node) (T := Any)
          (J := fun _ => False) hw ?_ ?_ (fun _ _ _ hk => hk.elim) ?_
        · exact does_when (fun _ => Spec.act trivial (edit_father w.st node .hasEmpty node))
            fun _ => rfl
        · exact fuel_when (fun _ => Fuel.act hw rfl trivial) hw fun _ => trivial
        intro _ w₁ hw₁ hfather _
        refine Fuel.get ?_
        have hlt₁ := Nat.lt_of_lt_of_le hnode hw₁.frame.next
        have hbirth₁ := hw₁.frame.birth node hnode
        split
        · refine Fuel.step (b := 0) hw₁.fit trivial rfl fun hw₂ => ?_
          have hup := hw₁.fit.kin.inv.number_father hlt₁
          have hlt₂ : ∀ n, w₁.st.father node = some n → n < w₁.st.next :=
            fun n hn => (hw₁.fit.kin.inv.up node hlt₁ n hn).1
          refine (ih _ _ hw₂.fit fun n hn => ?_).mono fun w' hk => ?_
          · exact Nat.lt_of_lt_of_le (hlt₂ n hn) hw₂.frame.next
          · have hsame : (after w₁ (.edit node (.len .none))).st.number (w₁.st.father node) =
                w₁.st.number (w₁.st.father node) := by
              cases hF : w₁.st.father node with
              | none => rfl
              | some F => exact hw₂.frame.birth F (hlt₂ F hF)
            rw [hsame] at hk
            show f + 1 ≤ w.st.birth node
            omega
        · generalize (if (w₁.st.heap node).hasEmpty = true then _ else 0) = noneNum
          split
          · exact Fuel.step (b := 0) hw₁.fit trivial rfl fun hw₂ => Fuel.act hw₂.fit rfl trivial
          · exact Fuel.pure hw₁.fit trivial

theorem fuel_raiseLen {ℓ : Nat} (f : Nat) : ∀ (o : Option Ptr) (w : Site), Fit ℓ w →
    (∀ n, o = some n → n < w.st.next) →
    Fuel ℓ (raiseLen f o) w Any fun _ => f ≤ w.st.number o := by
  induction f with
  | zero => exact fun o w hw _ => Fuel.stop hw fun _ => Nat.zero_le _
  | succ f ih =>
    intro o w hw ho
    cases o with
    | none => exact Fuel.pure hw trivial
    | some node =>
      have h := hw.kin.inv
      have hnode := ho node rfl
      rw [raiseLen]
      refine Fuel.get ?_
      split
      · exact Fuel.pure hw trivial
      · refine Fuel.step (b := 0) hw trivial rfl fun hw₁ => ?_
        have hup := h.number_father hnode
        have hlt : ∀ n, w.st.father node = some n → n < w.st.next :=
          fun n hn => (h.up node hnode n hn).1
        refine (ih _ _ hw₁.fit fun n hn => ?_).mono fun w' hk => ?_
        · exact Nat.lt_of_lt_of_le (hlt n hn) hw₁.frame.next
        · have hsame : (after w (.edit node (.len .more))).st.number (w.st.father node) =
              w.st.number (w.st.father node) := by
            cases hF : w.st.father node with
            | none => rfl
            | some F => exact hw₁.frame.birth F (hlt F hF)
          rw [hsame] at hk
          show f + 1 ≤ w.st.birth node
          omega

theorem topAnd_none {s : State} (h : Inv s) (f : Nat) : ∀ n, n < s.next → topAnd f s n = none →
    f ≤ s.birth n := by
  induction f with
  | zero => exact fun n _ _ => Nat.zero_le _
  | succ f ih =>
    intro n hn hnone
    rw [topAnd] at hnone
    split at hnone
    · cases hnone
    · next F hF =>
      split at hnone
      · obtain ⟨hlt, hb⟩ := h.up n hn F hF
        have := ih F hlt hnone
        omega
      · cases hnone

section

variable {ℓ b : Nat} {w : Site} {self : Tid}

theorem fuel_setPalLen (hw : Fit ℓ w) (node : Ptr) :
    Fuel ℓ (setPalLen node) w Any fun _ => False := by
  rw [setPalLen]
  refine Fuel.get ?_
  dsimp only
  split
  · exact Fuel.act hw rfl trivial
  · split
    · exact Fuel.step (b := 0) hw trivial rfl fun hw₁ => Fuel.act hw₁.fit rfl trivial
    · exact Fuel.pure hw trivial

theorem fuel_setPrjLen (hw : Fit ℓ w) (father child : Ptr) :
    Fuel ℓ (setPrjLen father child) w Any fun _ => False := by
  rw [setPrjLen]
  refine Fuel.get ?_
  dsimp only
  generalize (if child ∈ (w.st.heap father).childs then
    (w.st.heap father).childs.idxOf child + 1 == (w.st.heap father).childs.length
    else w.st.env.garbage child) = atEnd
  split
  · exact Fuel.step (b := 0) hw trivial rfl fun hw₁ => Fuel.act hw₁.fit rfl trivial
  · split
    · exact Fuel.pure hw trivial
    · split
      · exact Fuel.pure hw trivial
      · split
        · exact Fuel.act hw rfl trivial
        · exact Fuel.pure hw trivial

theorem fuel_setNodeLength (f : Nat) (type : NodeLength) (hw : Fit ℓ w) :
    Fuel ℓ (setNodeLength f self type) w Any fun _ => f ≤ w.st.births := by
  have h := hw.kin.inv
  rw [setNodeLength]
  refine Fuel.get ?_
  split
  · exact Fuel.halt hw.credit (by decide)
  · next node hself =>
    have hnode := (h.map self node hself).1
    refine Fuel.step (b := 0) hw trivial rfl fun hw₁ => ?_
    split
    · exact Fuel.pure hw₁.fit trivial
    · next temp htemp =>
      have hlt := (h.up node hnode temp htemp).1
      have hle := (h.birth temp hlt).2
      split
      · refine (fuel_setAndLen f (some temp) _ hw₁.fit fun n hn => ?_).mono fun w' hk => ?_
        · cases hn
          exact Nat.lt_of_lt_of_le hlt hw₁.frame.next
        · have hbirth := hw₁.frame.birth temp hlt
          change f ≤ (after w (.edit node (.len type))).st.birth temp at hk
          omega
      · exact (fuel_setPalLen hw₁.fit temp).mono fun _ hk => hk.elim
      · exact (fuel_setPrjLen hw₁.fit temp node).mono fun _ hk => hk.elim
      all_goals exact Fuel.pure hw₁.fit trivial

/-- A call of `MyCreateThread` makes at most a root, a request and a thread. -/
theorem fuel_myCreateThread (addr : Bool) (type : CreateType) (id : Tid)
    (hw : Credit ℓ [.root, .request, .thread] w) :
    Fuel ℓ (myCreateThread self addr type id) w Any fun _ => False := by
  have hnone : Credit ℓ [] w := hw.mono (by simp)
  rw [myCreateThread]
  split
  · exact ⟨hnone, List.suffix_refl _, trivial⟩
  · next type _ =>
    refine Fuel.get ?_
    refine Ends.bind (T := fun _ w' => Credit ℓ [.request, .thread] w' ∧ w'.input = w.input) ?_ ?_
    · cases w.st.threadRoot.isNone with
      | false => exact Ends.pure ⟨hw.mono (by simp), rfl⟩
      | true =>
        have hroot : Ends (act (.newRoot type)) w
            (fun _ w' => Credit ℓ [.request, .thread] w' ∧ w'.input = w.input)
            fun e w' => Credit ℓ [] w' ∧ (e = .fuel → False) := ⟨hw.pay (by decide) rfl, rfl⟩
        show Ends (init type) w _ _
        rw [init]
        refine Ends.get ?_
        split
        · split
          · exact hroot
          · exact Ends.stop ⟨hnone, fun he => absurd he (by decide)⟩
        · split
          · exact hroot
          · exact Ends.stop ⟨hnone, fun he => absurd he (by decide)⟩
        · split
          · exact hroot
          · exact Ends.stop ⟨hnone, fun he => absurd he (by decide)⟩
        all_goals exact Ends.stop ⟨hnone, fun he => absurd he (by decide)⟩
    · rintro _ w₁ ⟨hw₁, hinput⟩
      have hsuffix : w₁.input <:+ w.input := hinput ▸ List.suffix_refl _
      refine Ends.get ?_
      split
      · exact Ends.stop ⟨hw₁.mono (by simp), fun he => absurd he (by decide)⟩
      · next father _ =>
        have hw₂ : Credit ℓ [.thread] (after w₁ (.edit father (.request type))) :=
          hw₁.pay (by decide) rfl
        refine Ends.act_bind ?_
        split
        · exact ⟨hw₂.mono (by simp), hsuffix, trivial⟩
        · split
          · exact ⟨hw₂.pay (by decide) rfl, hsuffix, trivial⟩
          · exact Ends.stop ⟨hw₂.mono (by simp), fun he => absurd he (by decide)⟩

theorem fuel_runCall (f : Nat) (c : Call) (hw : Fit ℓ w)
    (hcredit : Credit ℓ [.root, .request, .thread, .push] w) :
    Fuel ℓ (runCall f self c) w Any fun _ => f ≤ w.st.births := by
  cases c with
  | myCreateThread addr type id =>
    exact (fuel_myCreateThread addr type id (hcredit.mono (by simp))).mono fun _ hk => hk.elim
  | setNodeLength type => exact fuel_setNodeLength f type hw
  | push left right priority =>
    have hpush : Credit ℓ [.push] w := hcredit.mono (by simp)
    exact ⟨hpush.pay (by decide) rfl, List.suffix_refl _, trivial⟩

/-- A thread reads an item in each round. -/
theorem fuel_runThread (f : Nat) : ∀ w : Site, Fit ℓ w → Caller b w.st self →
    Fuel ℓ (runThread f self) w (fun _ w' => w'.input.length < w.input.length)
      fun w' => f ≤ w.input.length + w'.st.births := by
  induction f with
  | zero => exact fun w hw _ => Fuel.stop hw fun _ => Nat.zero_le _
  | succ f ih =>
    intro w hw hc
    rw [runThread]
    refine Ends.read (fun _ => ⟨hw.credit, fun he => absurd he (by decide)⟩) ?_
    intro x l hinput
    have hlen : w.input.length = l.length + 1 := by rw [hinput, List.length_cons]
    have hw₀ : Fit ℓ { w with input := l } := by
      refine ⟨hw.kin, fun k => ?_⟩
      have := hw.credit k
      show charged k w.log + l.length + _ ≤ ℓ
      omega
    have hcredit : Credit ℓ [.root, .request, .thread, .push] { w with input := l } := by
      intro k
      have := hw.credit k
      rw [if_pos (by cases k <;> simp)]
      show charged k w.log + l.length + 1 ≤ ℓ
      omega
    refine Ends.imp (T := fun _ w' => Credit ℓ [] w' ∧ w'.input <:+ l ∧ w'.input.length ≤ l.length)
      (F := fun e w' => Credit ℓ [] w' ∧ (e = .fuel → f ≤ l.length + w'.st.births)) ?_ ?_ ?_
    · show Fuel ℓ _ { w with input := l } (fun _ w' => w'.input.length ≤ l.length)
        fun w' => f ≤ l.length + w'.st.births
      rcases x with c | - | -
      · refine Fuel.call hw₀ (does_runCall f c hw.kin.inv hc) (fuel_runCall f c hw₀ hcredit) ?_ ?_
        · intro w' hfit hlog hk
          have := hw₀.births_le hfit hlog
          exact Nat.le_trans hk (Nat.le_trans this (Nat.le_add_left _ _))
        · intro _ w₁ hw₁ hback _
          have hle : w₁.input.length ≤ l.length := hw₁.input.length_le
          refine Fuel.last hw₁.fit
            (does_runThread f _ hw₁.fit.kin.inv (hc.frame hw.kin.inv hw₁.frame hback))
            (ih w₁ hw₁.fit (hc.frame hw.kin.inv hw₁.frame hback)) ?_ ?_
          · intro w' _ _ hk
            omega
          · intro _ w' _ _ hlt
            omega
      · exact Fuel.pure hw₀ (Nat.le_refl _)
      · exact Fuel.act hw₀ rfl (Nat.le_refl _)
    · rintro a w' ⟨hfit, hsuffix, hle⟩
      refine ⟨hfit, hsuffix.trans ?_, by omega⟩
      rw [hinput]
      exact List.suffix_cons x l
    · rintro e w' ⟨hfit, hk⟩
      refine ⟨hfit, fun he => ?_⟩
      have := hk he
      omega

end

/-! ## Turns -/

section

variable {ℓ : Nat} {w : Site} {n : Ptr} (hw : Fit ℓ w) (hn : Ready w.st n)
  (hc : ¬ (w.st.type n).Composite)

include hw hn hc

theorem fuel_turn (f : Nat) :
    Fuel ℓ (turn f n) w Any fun w' => f ≤ ℓ + w'.st.births := by
  have h := hw.kin.inv
  have hreg := hn.reg hc
  rw [turn]
  refine Fuel.step (b := w.st.birth n) hw ⟨hreg, hc, hn.active hc⟩ rfl fun hw₁ => ?_
  refine Fuel.step (b := w.st.birth n) hw₁.fit trivial rfl fun hw₂ => ?_
  refine Fuel.get ?_
  have hsame := sameMap_edit w.st n .isInit
  have hreg' := (hsame.reg n).mpr hreg
  have hcaller : Caller (w.st.birth n) (after (after w (.turn n)) (.edit n .isInit)).st
      ((after (after w (.turn n)) (.edit n .isInit)).st.thread n) := by
    refine Or.inr ⟨?_, n, hreg', (hsame.birth n).symm, ?_, hn.active hc⟩
    · show ((Label.edit n .isInit).apply w.st).threadRoot ≠ none
      rw [hsame.root]
      exact hn.root
    · show ¬ (((Label.edit n .isInit).apply w.st).type n).Composite
      rw [hsame.type]
      exact hc
  refine Fuel.last hw₂.fit (does_runThread f _ hw₂.fit.kin.inv hcaller)
    (fuel_runThread f _ hw₂.fit hcaller) ?_ fun _ _ _ _ _ => trivial
  intro w' _ _ hk
  have := hw₂.fit.input_le
  omega

theorem fuel_leafExcute (f : Nat) :
    Fuel ℓ (leafExcute f n) w Any fun w' => f ≤ ℓ + w'.st.births := by
  rw [leafExcute]
  refine Fuel.get ?_
  split
  · exact Fuel.pure hw trivial
  · exact fuel_turn hw hn hc f

theorem fuel_keepExcute (f : Nat) :
    Fuel ℓ (keepExcute f n) w Any fun w' => f ≤ ℓ + w'.st.births := by
  rw [keepExcute]
  refine Fuel.get ?_
  split
  · exact Fuel.pure hw trivial
  · refine Fuel.call hw (does_turn f hw.kin.inv hn hc) (fuel_turn hw hn hc f)
      (fun _ _ _ hk => hk) ?_
    exact fun _ w₁ hw₁ _ _ => Fuel.act hw₁.fit rfl trivial

theorem fuel_alwExcute (f : Nat) :
    Fuel ℓ (alwExcute f n) w Any fun w' => f ≤ ℓ + w'.st.births := by
  rw [alwExcute]
  refine Fuel.get ?_
  split
  · exact Fuel.pure hw trivial
  · refine Fuel.call hw (does_turn f hw.kin.inv hn hc) (fuel_turn hw hn hc f)
      (fun _ _ _ hk => hk) ?_
    intro _ w₁ hw₁ hback _
    have h₁ := hw₁.fit.kin.inv
    obtain ⟨hreg, -, -⟩ := hw₁.frame.reg_of hw.kin.inv h₁ (hn.reg hc) (Nat.le_refl _)
    refine Fuel.get ?_
    split
    · exact Fuel.halt hw₁.fit.credit (by decide)
    · next father hfather =>
      have hlt := (h₁.up n (h₁.alloc hreg) father hfather).1
      have hg : Guard 0 (.moveToFather n father) w₁.st := by
        refine ⟨hreg, hfather, Nat.zero_le _, ?_, ?_⟩
        · rw [hw₁.frame.type n hn.lt]
          exact hc
        · rw [show w₁.st.active = w.st.active from hback]
          exact hn.active hc
      refine Fuel.step hw₁.fit hg rfl fun hw₂ => ?_
      have hlt₂ := Nat.lt_of_lt_of_le hlt hw₂.frame.next
      refine fuel_when (fun _ => ?_) hw₂.fit fun _ => trivial
      refine Fuel.last hw₂.fit (does_raiseLen 0 f (some father) _ hw₂.fit.kin.inv)
        (fuel_raiseLen f (some father) _ hw₂.fit fun m hm => ?_) ?_ fun _ _ _ _ h => h
      · cases hm
        exact hlt₂
      · intro w' hfit hlog hk
        have hle := (hw₂.fit.kin.inv.birth father hlt₂).2
        have := hw₂.fit.births_le hfit hlog
        change f ≤ (after w₁ (.moveToFather n father)).st.birth father at hk
        omega

end

end Msvl.Function
