/-
  Worlds in which nothing has been executed twice, and specifications over them.

  1. `Fine w` — the invariant `Once`, and that the code has seen to everything (`Told`), in a run
     whose steps all meet the conditions (`Good`).
  2. `Visits b m w Q` — from `w` the program `m` leads to fine worlds, enters, makes and deletes only
     children of nodes born from `b` on (`Later`), and returns with `Q`.  All this is about good logs
     only; that the log grows is always true, and lets what holds at the end hold before.
  3. `Hush` — what is left by programs that execute nothing.
  4. `Able`, `Turnable` — what `excute` needs at a node, and at a child that is to be entered.
-/
import LibMSVL.Function.Once
import LibMSVL.Lib.Under

namespace Msvl.Function

open Msvl.Run

abbrev Site := World State Label Action

/-! ## Fine worlds -/

/-- The steps are guarded, meet the conditions, and no state ends too early. -/
def Good : Log → Prop
  | [] => True
  | (l, s) :: log => Good log ∧ Inv s ∧ Guard 0 l s ∧ Cond log l s ∧ (l = .stateEnd → s.Drained)

/-- The code has seen to everything. -/
def Told : Log → Prop
  | [] => True
  | (l, s) :: log => Told log ∧ Entry 0 log l s

structure Fine (w : Site) : Prop where
  inv : Inv w.st
  once : Once w.st w.log
  told : Told w.log

/-- The world after a step. -/
def after (w : Site) (l : Label) : Site := ⟨l.apply w.st, w.input, (l, w.st) :: w.log⟩

theorem Entry.mono {b b' : Nat} (hb : b ≤ b') {log : Log} {l : Label} {s : State}
    (he : Entry b' log l s) : Entry b log l s := by
  cases l with
  | enter m => exact ⟨he.1, he.2.1, fun F hF => Nat.le_trans hb (he.2.2 F hF)⟩
  | replace o i n => exact ⟨he.1, Nat.le_trans hb he.2⟩
  | destroy o i n => exact Nat.le_trans hb he
  | edit n e => cases e <;> exact he
  | changedNode n => cases n <;> exact he
  | _ => exact he

theorem Fine.after {b : Nat} {w : Site} {l : Label} (hw : Fine w) (hgood : Good (after w l).log)
    (he : Entry b w.log l w.st) : Fine (after w l) :=
  have ⟨_, _, hg, hc, hend⟩ := hgood
  ⟨hg.inv hw.inv, hw.once.step hw.inv hg hc.1 he hend, hw.told, he.mono (Nat.zero_le b)⟩

/-- What a program leaves, that works below nodes born from `b` on, in one state. -/
structure Later (b : Nat) (w w' : Site) : Prop where
  next : w.st.next ≤ w'.st.next
  type : ∀ x < w.st.next, w'.st.type x = w.st.type x
  birth : ∀ x < w.st.next, w'.st.birth x = w.st.birth x
  state : thisState w.log <:+ thisState w'.log
  orphan : ∀ x < w.st.next, w.st.father x = none → w'.st.father x = none
  /-- of the children of older nodes no more are executed -/
  below : ∀ z < w.st.next, (w.st.type z).Composite → w.st.birth z < b → ∀ k c,
    w'.st.At z k c → Seen w'.log c → w.st.At z k c ∧ Seen w.log c

theorem Later.refl (b : Nat) (w : Site) : Later b w w :=
  ⟨Nat.le_refl _, fun _ _ => rfl, fun _ _ => rfl, List.suffix_refl _, fun _ _ hno => hno,
    fun _ _ _ _ _ _ hat hs => ⟨hat, hs⟩⟩

theorem Later.trans {b : Nat} {w w' w'' : Site} (h : Later b w w') (h' : Later b w' w'') :
    Later b w w'' where
  next := Nat.le_trans h.next h'.next
  type x hx := (h'.type x (Nat.lt_of_lt_of_le hx h.next)).trans (h.type x hx)
  birth x hx := (h'.birth x (Nat.lt_of_lt_of_le hx h.next)).trans (h.birth x hx)
  state := h.state.trans h'.state
  orphan x hx hno := h'.orphan x (Nat.lt_of_lt_of_le hx h.next) (h.orphan x hx hno)
  below := by
    intro z hz hcomp hb k c hat hs
    have hz' := Nat.lt_of_lt_of_le hz h.next
    obtain ⟨hat, hs⟩ := h'.below z hz' (by rwa [h.type z hz]) (by rwa [h.birth z hz]) k c hat hs
    exact h.below z hz hcomp hb k c hat hs

theorem Later.mono {b b' : Nat} {w w' : Site} (hb : b ≤ b') (h : Later b' w w') : Later b w w' :=
  { h with below := fun z hz hcomp hzb => h.below z hz hcomp (Nat.lt_of_lt_of_le hzb hb) }

theorem Later.seen {b : Nat} {w w' : Site} (h : Later b w w') {x : Ptr} (hx : Seen w.log x) :
    Seen w'.log x := by
  obtain ⟨e, he, hshows⟩ := hx
  exact ⟨e, h.state.mem he, hshows⟩

theorem Later.passed {b : Nat} {w w' : Site} (h : Later b w w') {x : Ptr} (hx : x < w.st.next)
    (hp : Passed w.st w.log x) : Passed w'.st w'.log x :=
  hp.imp h.seen (h.orphan x hx)

theorem Later.after {b : Nat} {w : Site} {l : Label} (hw : Fine w) (hgood : Good (after w l).log)
    (hl : l ≠ .stateEnd) (he : Entry b w.log l w.st) : Later b w (after w l) := by
  obtain ⟨-, -, hg, -, -⟩ := hgood
  have h := hw.inv
  have hf := hg.frame h
  refine ⟨hf.next, hf.type, hf.birth, ?_, fun x hx => stays_fatherless h hg hx, ?_⟩
  · show thisState w.log <:+ thisState ((l, w.st) :: w.log)
    rw [thisState_cons hl]
    exact List.suffix_cons _ _
  intro z hz hcomp hb k c hat hs
  have hz' : z < (l.apply w.st).next := Nat.lt_of_lt_of_le hz hf.next
  have hcomp' : ((l.apply w.st).type z).Composite := by
    rw [hf.type z hz]
    exact hcomp
  -- what is shown has another father
  have hno : ¬ l.Shows w.st c := by
    intro hshows
    have hfather := ((hg.inv h).held z hz' (Or.inr hcomp') k c hat).2
    cases l with
    | enter m =>
      obtain rfl : c = m := hshows
      have := he.2.2 z hfather
      omega
    | replace owner i n =>
      obtain rfl : c = w.st.next := hshows
      have hs := hg.1
      rw [replace_father, if_neg fun hk => Nat.lt_irrefl _ (h.alloc (hs.kept h hk).1), if_pos rfl,
        hs.father] at hfather
      cases hfather
      have := he.2
      omega
    | _ => exact hshows
  have hs := ((seen_cons hl).mp hs).resolve_left hno
  have hnew := (hw.once.seen c hs).not_newcomer h
  obtain ⟨-, j, hj, -, hsame⟩ := (came_at h hg hz' hat).resolve_left hnew
  rcases hsame with rfl | ⟨i, q, rfl, -⟩
  · exact ⟨hj, hs⟩
  · have : b ≤ w.st.birth z := he
    omega

/-! ## Specifications -/

def Visits {α : Type} (b : Nat) (m : M α) (w : Site) (Q : α → Site → Prop) : Prop :=
  w.log <:+ (m w).2.log ∧ (Good (m w).2.log → Fine (m w).2 ∧ Later b w (m w).2 ∧
    ∀ a, (m w).1 = .ok a → Q a (m w).2)

theorem Good.suffix {log log' : Log} (h : log <:+ log') (hgood : Good log') : Good log := by
  obtain ⟨es, rfl⟩ := h
  induction es with
  | nil => exact hgood
  | cons e es ih => exact ih hgood.1

section

variable {α β : Type} {b b' : Nat} {w : Site} {m : M α} {f : α → M β} {Q T : α → Site → Prop}
  {P : β → Site → Prop}

theorem Visits.pure {a : α} (hw : Good w.log → Fine w ∧ Q a w) : Visits b (pure a : M α) w Q :=
  Under.pure (Later.refl b) hw

theorem Visits.stop {e : Stop} (hw : Good w.log → Fine w) : Visits b (stop e : M α) w Q :=
  Under.stop (Later.refl b) hw

theorem Visits.get {f : State → M β} (h : Visits b (f w.st) w P) : Visits b (get >>= f) w P := h

/-- A call, and the rest; what is known after the call is known of good logs. -/
theorem Visits.bind (hm : Visits b' m w T) (hb : Good w.log → b ≤ b')
    (hf : ∀ a w', (Good w'.log → Good w.log ∧ Fine w' ∧ Later b' w w' ∧ T a w') →
      Visits b (f a) w' P) : Visits b (m >>= f) w P :=
  Under.bind Good.suffix (fun _ _ _ => Later.trans) hm (fun hg _ => Later.mono (hb hg)) hf

/-- A last call. -/
theorem Visits.last (hm : Visits b' m w T) (hb : Good w.log → b ≤ b')
    (hq : ∀ a w', Good w'.log → Good w.log → Fine w' → Later b' w w' → T a w' → Q a w') :
    Visits b m w Q :=
  Under.last Good.suffix hm (fun hg _ => Later.mono (hb hg)) hq

/-- A last step. -/
theorem Visits.act {l : Label} {Q : Unit → Site → Prop} (hl : l ≠ .stateEnd)
    (hw : Good w.log → Fine w) (he : Good (after w l).log → Entry b w.log l w.st)
    (hq : Good (after w l).log → Fine (after w l) → Q () (after w l)) :
    Visits b (act l) w Q := by
  refine Under.act fun hgood => ?_
  have hfine := (hw hgood.1).after hgood (he hgood)
  exact ⟨hfine, Later.after (hw hgood.1) hgood hl (he hgood), hq hgood hfine⟩

/-- A step, and the rest. -/
theorem Visits.step {l : Label} {f : Unit → M β} (hl : l ≠ .stateEnd) (hw : Good w.log → Fine w)
    (he : Good (after w l).log → Entry b w.log l w.st)
    (hf : (Good (after w l).log → Good w.log ∧ Fine (after w l) ∧ Later b w (after w l)) →
      Visits b (f ()) (after w l) P) : Visits b (Msvl.Function.act l >>= f) w P := by
  refine Under.act_bind Good.suffix (fun _ _ _ => Later.trans) (fun hgood => ?_) hf
  exact ⟨(hw hgood.1).after hgood (he hgood), Later.after (hw hgood.1) hgood hl (he hgood)⟩

theorem Visits.checkErase {n : Ptr} {f : Unit → M β} (hw : Good w.log → Fine w)
    (hf : Visits b (f ()) w P) : Visits b (Msvl.Function.checkErase n >>= f) w P :=
  Under.skip (Later.refl b) hw (checkErase_skips n w) hf

theorem Visits.release {n : Ptr} {f : Unit → M β} (hw : Good w.log → Fine w)
    (hf : Visits b (f ()) w P) : Visits b (Msvl.Function.release n >>= f) w P :=
  Under.skip (Later.refl b) hw (release_skips n w) hf

end

/-! ## Steps that execute nothing -/

/-- What such steps leave. -/
structure Hush (w w' : Site) : Prop where
  seen : ∀ x, Seen w'.log x → Seen w.log x
  enterable : ∀ m, Enterable w.st w.log m → Enterable w'.st w'.log m
  flag : ∀ x < w.st.next, (w'.st.heap x).hasExtQ = (w.st.heap x).hasExtQ
  /-- slots are erased, and newcomers arrive -/
  trail : ∀ z < w.st.next, (w.st.type z).Composite → ∀ k c, w'.st.At z k c → Seen w'.log c →
    ∃ j, k ≤ j ∧ w.st.At z j c

def Label.Mute : Label → Prop
  | .enter _ | .replace _ _ _ | .edit _ (.hasExtQ _) | .stateEnd => False
  | _ => True

theorem Label.Mute.stays {l : Label} (hl : l.Mute) : l ≠ .stateEnd := by
  rintro rfl
  exact hl

theorem Hush.refl (w : Site) : Hush w w :=
  ⟨fun _ hs => hs, fun _ he => he, fun _ _ => rfl, fun _ _ _ k _ hat _ => ⟨k, Nat.le_refl k, hat⟩⟩

theorem Hush.after {w : Site} {l : Label} (hw : Fine w) (hgood : Good (Msvl.Function.after w l).log)
    (hl : l.Mute) : Hush w (Msvl.Function.after w l) := by
  obtain ⟨-, -, hg, -, -⟩ := hgood
  have hseen : ∀ x, Seen ((l, w.st) :: w.log) x → Seen w.log x := by
    intro x hs
    refine ((seen_cons hl.stays).mp hs).resolve_left fun hshows => ?_
    cases l with
    | enter | replace => exact hl
    | _ => exact hshows
  refine ⟨hseen, fun m he => he.step hw.inv hg hl.stays ?_, fun x hx => apply_hasExtQ hx ?_, ?_⟩
  · rintro P q rfl
    exact hl.elim
  · rintro q rfl
    exact hl.elim
  · intro z hz _ k c hat hs
    have hnew := (hw.once.seen c (hseen c hs)).not_newcomer hw.inv
    have hz' := Nat.lt_of_lt_of_le hz (hg.frame hw.inv).next
    obtain ⟨-, j, hj, hkj, -⟩ := (came_at hw.inv hg hz' hat).resolve_left hnew
    exact ⟨j, hkj, hj⟩

theorem Hush.trans {b : Nat} {w w' w'' : Site} (h : Hush w w') (hl : Later b w w')
    (h' : Hush w' w'') : Hush w w'' where
  seen x hs := h.seen x (h'.seen x hs)
  enterable m he := h'.enterable m (h.enterable m he)
  flag x hx := (h'.flag x (Nat.lt_of_lt_of_le hx hl.next)).trans (h.flag x hx)
  trail := by
    intro z hz hcomp k c hat hs
    have hcomp' : (w'.st.type z).Composite := by
      rw [hl.type z hz]
      exact hcomp
    obtain ⟨j, hkj, hat⟩ := h'.trail z (Nat.lt_of_lt_of_le hz hl.next) hcomp' k c hat hs
    obtain ⟨i, hji, hat⟩ := h.trail z hz hcomp j c hat (h'.seen c hs)
    exact ⟨i, Nat.le_trans hkj hji, hat⟩

section

variable {α : Type} {b : Nat} {w : Site} {m : M α}

/-- A program that executes nothing. -/
theorem Visits.quiet {G : Label → State → Prop} {E : Stop → Prop} {Q : α → State → Prop}
    (hgrow : w.log <:+ (m w).2.log)
    (hw : Good w.log → Fine w ∧ Spec Label.apply G E m w.st Q)
    (hG : ∀ l s log, G l s → l.Mute ∧ Entry b log l s) :
    Visits b m w fun a w' => Hush w w' ∧ Q a w'.st := by
  have hstart : Good w.log → Fine w ∧ Later b w w ∧ Hush w w ∧ Spec Label.apply G E m w.st Q :=
    fun hg => ⟨(hw hg).1, Later.refl b w, Hush.refl w, (hw hg).2⟩
  refine Under.spec hgrow Good.suffix hstart ?_ ?_
  · rintro l u hl hgood ⟨hfine, hlater, hhush⟩
    obtain ⟨hmute, he⟩ := hG l u.st u.log hl
    have hlater' : Later b u (after u l) := Later.after hfine hgood hmute.stays he
    exact ⟨hfine.after hgood he, hlater.trans hlater',
      hhush.trans hlater (Hush.after hfine hgood hmute)⟩
  · rintro u i ⟨hfine, hlater, hhush⟩
    exact ⟨{ hfine with }, { hlater with }, { hhush with }⟩

/-- Library calls and moves. -/
theorem visits_still (hm : Takes Label.Still m) (hw : Good w.log → Fine w) :
    Visits b m w fun _ w' => Hush w w' := by
  refine (Visits.quiet (hm.grows w) (fun hg => ⟨hw hg, hm w.st⟩) ?_).last (fun _ => Nat.le_refl b)
    fun _ _ _ _ _ _ h => h.1
  intro l s log hl
  cases l with
  | edit n e => cases e <;> first | exact hl.elim | exact ⟨trivial, trivial⟩
  | changedNode n => exact hl.elim
  | _ => first | exact hl.elim | exact ⟨trivial, trivial⟩

/-- Walks of the manager. -/
theorem visits_walk_over (hm : Takes Label.Walk m) (hw : Good w.log → Fine w) :
    Visits 0 m w fun _ w' => Hush w w' := by
  refine (Visits.quiet (hm.grows w) (fun hg => ⟨hw hg, hm w.st⟩) ?_).last (fun _ => Nat.le_refl 0)
    fun _ _ _ _ _ _ h => h.1
  intro l s log hl
  cases l with
  | edit n e => cases e <;> first | exact hl.elim | exact ⟨trivial, trivial⟩
  | destroy owner i n => exact ⟨trivial, Nat.zero_le _⟩
  | _ => exact hl.elim

/-- Walks below a node. -/
theorem visits_walk {Q : α → State → Prop} (hm : Takes Label.Walk m)
    (hw : Good w.log → Fine w ∧ Does b m w.st Q) : Visits b m w fun _ w' => Hush w w' := by
  refine (Visits.quiet (hm.grows w) (fun hg => ⟨(hw hg).1, (hw hg).2.both (hm w.st)⟩) ?_).last
    (fun _ => Nat.le_refl b) fun _ _ _ _ _ _ h => h.1
  rintro l s log ⟨hg, hl⟩
  cases l with
  | edit n e => cases e <;> first | exact hl.elim | exact ⟨trivial, trivial⟩
  | destroy owner i n => exact ⟨trivial, hg.2.2⟩
  | _ => exact hl.elim

end

/-! ## Before a call -/

/-- An AND, PAL or PRJ node that the manager works at. -/
structure Begun (w : Site) (n : Ptr) : Prop where
  lt : n < w.st.next
  comp : (w.st.type n).Composite
  passed : Passed w.st w.log n

theorem Begun.later {b : Nat} {w w' : Site} {n : Ptr} (hn : Begun w n) (h : Later b w w') :
    Begun w' n := by
  refine ⟨Nat.lt_of_lt_of_le hn.lt h.next, ?_, h.passed hn.lt hn.passed⟩
  rw [h.type n hn.lt]
  exact hn.comp

/-- The child `c` can be entered and executed. -/
structure Turnable (w : Site) (c : Ptr) : Prop where
  enterable : Enterable w.st w.log c
  fresh : w.st.Idle c ∨ ¬ Entered w.log c ∧
    ((w.st.type c).Composite → ∀ k d, w.st.At c k d → ¬ Seen w.log d)

/-- What `excute` needs at `n`. -/
structure Able (w : Site) (n : Ptr) : Prop where
  lt : n < w.st.next
  passed : Passed w.st w.log n
  /-- its children have not been executed, but for the first p of a deferred projection -/
  childs : (w.st.type n).Composite → ∀ k c, w.st.At n k c → Seen w.log c →
    w.st.type n = .prj ∧ k = 1 ∧ w.st.Idle c
  entered : ¬ (w.st.type n).Composite →
    ∃ u older, w.log = (.enter n, u) :: older ∧ w.st = (Label.enter n).apply u

def Visiting (ex : Ptr → M Unit) : Prop :=
  ∀ n w, (Good w.log → Fine w ∧ Able w n) → Visits (w.st.birth n) (ex n) w fun _ _ => True

section

variable {w : Site} (hw : Fine w)

include hw

/-- A child that has not been seen. -/
theorem Turnable.child {n c : Ptr} {k : Nat} (hn : Begun w n) (hat : w.st.At n k c)
    (hno : ¬ Seen w.log c) (hk : w.st.type n = .prj →
      k ≤ 1 ∧ (k = 0 → Doomed w.log n ∨ (w.st.heap n).hasExtQ = some true)) :
    Turnable w c := by
  refine ⟨Enterable.child hw.inv hn.lt hn.comp hn.passed hat hk, Or.inr ⟨?_, fun _ j d hd => ?_⟩⟩
  · exact fun hentered => hno hentered.seen
  · obtain ⟨hreg, hfather⟩ := hw.inv.held n hn.lt (Or.inr hn.comp) k c hat
    exact hw.once.unseen hw.inv hreg hfather hno hd

/-- After `enter` a turnable child can be executed. -/
theorem Turnable.able {c : Ptr} (hc : Turnable w c) : Able (after w (.enter c)) c := by
  have hseen : ∀ x, Seen (after w (.enter c)).log x ↔ x = c ∨ Seen w.log x :=
    fun x => seen_cons nofun
  refine ⟨hc.enterable.lt, Or.inl ((hseen c).mpr (Or.inl rfl)), ?_, fun _ => ⟨w.st, w.log, rfl, rfl⟩⟩
  intro hcomp k d hat hs
  exfalso
  rcases hc.fresh with ⟨hleaf, -⟩ | ⟨-, hunseen⟩
  · rw [show (after w (.enter c)).st.type c = .leaf from hleaf] at hcomp
    exact hcomp
  · rcases (hseen d).mp hs with rfl | hs
    · exact Nat.lt_irrefl _ (hw.inv.down d hc.enterable.lt k d hat).2.1
    · exact hunseen hcomp k d hat hs

omit hw in
theorem Turnable.due {c : Ptr} (hc : Turnable w c) : Due w.log w.st c := by
  rcases hc.fresh with hidle | ⟨hno, -⟩
  · exact Or.inr (Or.inr (Or.inl hidle))
  · exact Or.inr (Or.inl hno)

/-- What a conversion leaves in the slot. -/
theorem Turnable.replaced {owner n : Ptr} {i : Nat}
    (hgood : Good (after w (.replace owner i n)).log) :
    ∀ c, (after w (.replace owner i n)).st.At owner i c → c = w.st.next ∧
      ¬ Entered (after w (.replace owner i n)).log c ∧
      (((after w (.replace owner i n)).st.type c).Composite →
        ∀ k d, (after w (.replace owner i n)).st.At c k d →
          ¬ Seen (after w (.replace owner i n)).log d) := by
  obtain ⟨-, -, ⟨hs, hopen, -⟩, -, -⟩ := hgood
  have h := hw.inv
  obtain ⟨ho, -⟩ := hs.lt h
  have hlog : ∀ x, Seen (after w (.replace owner i n)).log x ↔ x = w.st.next ∨ Seen w.log x :=
    fun x => seen_cons nofun
  have hnext : ¬ Seen w.log w.st.next := fun hcon =>
    Nat.lt_irrefl _ (hw.once.seen _ hcon).lt
  intro c hat
  obtain rfl : c = w.st.next := by
    have hat := (replace_at h hs owner i c).mp hat
    rw [if_pos rfl] at hat
    rcases hat with ⟨-, rfl⟩ | ⟨hne, -⟩
    · rfl
    · exact absurd rfl hne
  refine ⟨rfl, ?_, fun _ k d hd => ?_⟩
  · rintro ⟨u, hu⟩
    rw [show (after w (.replace owner i n)).log = (.replace owner i n, w.st) :: w.log from rfl,
      thisState_cons (by nofun)] at hu
    rcases List.mem_cons.mp hu with heq | hu
    · cases heq
    · exact hnext ⟨_, hu, rfl⟩
  · have hd := (replace_at h hs w.st.next k d).mp hd
    rw [if_neg (Nat.ne_of_gt ho), if_pos (Or.inl rfl)] at hd
    have hloose := hs.loose h hopen hd.1 hd.2
    rw [hlog]
    rintro (rfl | hsd)
    · exact Nat.lt_irrefl _ (h.down n (h.alloc hs.reg) k _ hd.2).1
    · exact (hw.once.seen d hsd).not_newcomer h (Or.inl hloose)

end

end Msvl.Function
