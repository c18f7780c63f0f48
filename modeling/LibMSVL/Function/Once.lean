/-
  What the log of a state says of the nodes that have been executed.

  1. `Seen log x` — in this state `x` has been entered, or made by a conversion.  `Enterable` says
     where such a node is: below a node that has been passed, too, and in a projection it is the
     first p, or the q once that is noted in `hasExtQ`.
  2. `Once` — the invariant.  `Once.unseen` is what the walk over the tree lives on: below a node
     that has not been seen nothing has.
  3. `Cond` — what goes wrong in the code, and is excluded here.
  4. `Entry` — what the code has to see to at each step, and `Once.step`: then the invariant is kept.
-/
import LibMSVL.Function.Newcomer

namespace Msvl.Function

open Msvl.Run

/-! ## The log of a state -/

/-- The entries since the last state ended. -/
def thisState (log : Log) : Log := log.takeWhile fun x => x.1 ≠ .stateEnd

theorem thisState_cons {l : Label} {s : State} {log : Log} (hl : l ≠ .stateEnd) :
    thisState ((l, s) :: log) = (l, s) :: thisState log := by simp [thisState, hl]

theorem thisState_end (s : State) (log : Log) : thisState ((.stateEnd, s) :: log) = [] := by
  simp [thisState]

/-- The step enters `x`, or makes it. -/
def Label.Shows : Label → State → Ptr → Prop
  | .enter n, _, x => x = n
  | .replace _ _ _, s, x => x = s.next
  | _, _, _ => False

/-- In this state `x` has been entered, or made by a conversion. -/
def Seen (log : Log) (x : Ptr) : Prop := ∃ e ∈ thisState log, e.1.Shows e.2 x

def Entered (log : Log) (x : Ptr) : Prop := ∃ s, (.enter x, s) ∈ thisState log

theorem Entered.seen {log : Log} {x : Ptr} (h : Entered log x) : Seen log x := by
  obtain ⟨s, hs⟩ := h
  exact ⟨_, hs, rfl⟩

theorem seen_cons {l : Label} {s : State} {log : Log} {x : Ptr} (hl : l ≠ .stateEnd) :
    Seen ((l, s) :: log) x ↔ l.Shows s x ∨ Seen log x := by
  unfold Seen
  rw [thisState_cons hl]
  simp

theorem seen_old {l : Label} {s : State} {log : Log} {x : Ptr} (hl : l ≠ .stateEnd)
    (h : Seen log x) : Seen ((l, s) :: log) x := (seen_cons hl).mpr (Or.inr h)

theorem not_seen_end (s : State) (log : Log) (x : Ptr) : ¬ Seen ((.stateEnd, s) :: log) x := by
  unfold Seen
  rw [thisState_end]
  simp

/-- The q of `x`, or what has come into its slot, is deleted. -/
def Label.Dooms (x : Ptr) : Label → Prop
  | .destroy owner i _ => owner = x ∧ i = 0
  | _ => False

instance (x : Ptr) (l : Label) : Decidable (l.Dooms x) := by
  apply @Label.casesOn (fun l => Decidable (l.Dooms x)) l <;> intros <;> unfold Label.Dooms <;>
    infer_instance

def Doomed (log : Log) (x : Ptr) : Prop := ∃ e ∈ log, e.1.Dooms x

instance (log : Log) (x : Ptr) : Decidable (Doomed log x) :=
  inferInstanceAs (Decidable (∃ e ∈ log, e.1.Dooms x))

theorem Doomed.old {log : Log} {x : Ptr} (h : Doomed log x) (e : Label × State) :
    Doomed (e :: log) x := by
  obtain ⟨d, hd, hx⟩ := h
  exact ⟨d, List.mem_cons_of_mem _ hd, hx⟩

/-! ## The invariant -/

/-- `F` has been seen, or is the root, or deleted. -/
def Passed (s : State) (log : Log) (F : Ptr) : Prop := Seen log F ∨ s.father F = none

structure Enterable (s : State) (log : Log) (m : Ptr) : Prop where
  lt : m < s.next
  father : ∀ F, s.father m = some F → (s.type F).Composite ∧ Passed s log F
  here : m ∉ s.pending
  slot : ∀ P, s.father m = some P → s.type P = .prj → ∀ k, s.At P k m →
    k ≤ 1 ∧ (k = 0 → Doomed log P ∨ (s.heap P).hasExtQ = some true)

structure Once (s : State) (log : Log) : Prop where
  seen : ∀ x, Seen log x → Enterable s log x
  active : ∀ x ∈ s.active, Seen log x
  pushers : ∀ e ∈ s.prsnt, e.threadId = s.mainThread ∨
    ∃ n, s.threadIDToNode e.threadId = some n ∧ Seen log n
  pend : ∀ c ∈ s.pending, ∀ F, s.father c = some F → (s.type F).Composite ∧ Passed s log F
  deferred : ∀ P, s.prjNode = some P → s.type P = .prj ∧ Passed s log P
  /-- once the manager has forgotten what was recorded in the last state -/
  changed : (∃ u, (.changedNode none, u) ∈ thisState log) →
    ∀ n, s.changedNode = some n → Passed s log n

section

variable {l : Label} {s : State} {log : Log} (h : Inv s)

include h

theorem Enterable.not_newcomer {m : Ptr} (he : Enterable s log m) : ¬ s.Newcomer m := by
  rintro (hloose | hpend)
  · rcases hloose.father h with rfl | ⟨n, -, hn, hcomp, -⟩
    · exact Nat.lt_irrefl _ he.lt
    · exact hcomp (he.father n hn).1
  · exact he.here hpend

/-- Below a node that has not been seen nothing has. -/
theorem Once.unseen (ho : Once s log) {n F d : Ptr} {k : Nat} (hn : s.Reg n)
    (hF : s.father n = some F) (hno : ¬ Seen log n) (hat : s.At n k d) : ¬ Seen log d := by
  intro hd
  have hfather := (h.held n (h.alloc hn) (Or.inl hn) k d hat).2
  rcases ((ho.seen d hd).father n hfather).2 with hseen | hnone
  · exact hno hseen
  · rw [hF] at hnone
    cases hnone

omit h in
/-- Upwards from a node on the call stack, everything has been passed. -/
theorem Once.above (ho : Once s log) {c n : Ptr} (hc : Seen log c) (hn : s.Above c n) :
    Passed s log n := by
  induction hn with
  | father hF => exact ((ho.seen c hc).father _ hF).2
  | next _ hG ih =>
    rcases ih with hseen | hnone
    · exact ((ho.seen _ hseen).father _ hG).2
    · rw [hG] at hnone
      cases hnone

/-- A child that the manager is going to enter. -/
theorem Enterable.child {n c : Ptr} {k : Nat} (hn : n < s.next) (hcomp : (s.type n).Composite)
    (hp : Passed s log n) (hat : s.At n k c)
    (hk : s.type n = .prj → k ≤ 1 ∧ (k = 0 → Doomed log n ∨ (s.heap n).hasExtQ = some true)) :
    Enterable s log c := by
  obtain ⟨hreg, hfather⟩ := h.held n hn (Or.inr hcomp) k c hat
  refine ⟨h.alloc hreg, ?_, fun hpend => h.pending_not_at hpend hn (Or.inr hcomp) k hat, ?_⟩
  · intro F hF
    cases hfather.symm.trans hF
    exact ⟨hcomp, hp⟩
  · intro P hP htype j hj
    cases hfather.symm.trans hP
    rw [h.once c (h.alloc hreg) n hfather j k hj hat]
    exact hk htype

/-- The root, or a node that has been entered. -/
theorem Passed.enterable (ho : Once s log) {F : Ptr} (hF : F < s.next) (hp : Passed s log F) :
    Enterable s log F := by
  rcases hp with hseen | hnone
  · exact ho.seen F hseen
  · refine ⟨hF, ?_, ?_, ?_⟩
    · intro G hG
      rw [hnone] at hG
      cases hG
    · intro hpend
      obtain ⟨-, G, hG, -⟩ := h.pend F hpend
      rw [hnone] at hG
      cases hG
    · intro P hP
      rw [hnone] at hP
      cases hP

end

/-! ## The conditions -/

/-- A leaf that does not take the turn. -/
def State.Idle (s : State) (n : Ptr) : Prop := s.type n = .leaf ∧ (s.heap n).len ≠ .more

instance (s : State) (n : Ptr) : Decidable (s.Idle n) := inferInstanceAs (Decidable (_ ∧ _))

/-- What the code does not see to.
    * No node is deleted while an element of its thread is pending.
    * The thread of an element that is popped has no AND, PAL or PRJ node.
    * A projection that is executed after the label SORT exists, its q has not been executed, which is
      on record, and its first p is a leaf that is not going to run.
    * No child of a KEEP node is added to a projection. -/
def Cond (log : Log) (l : Label) (s : State) : Prop :=
  Kept l s ∧ match l with
    | .pop => ∀ e ∈ s.prsnt.getLast?, ∀ n ∈ s.threadIDToNode e.threadId, ¬ (s.type n).Composite
    | .deferred P => (s.heap P).hasExtQ = some false ∧ ¬ Doomed log P ∧
        ∀ p ∈ (s.childs P)[1]?, s.Idle p
    | .attach _ F => s.type F ≠ .prj
    | _ => True

instance (log : Log) (l : Label) (s : State) : Decidable (Cond log l s) := by
  apply @Label.casesOn (fun l => Decidable (Cond log l s)) l <;> intros <;> unfold Cond <;>
    infer_instance

/-- The conditions hold of every step. -/
def Undisturbed : Log → Prop
  | [] => True
  | (l, s) :: log => Undisturbed log ∧ Cond log l s

instance : ∀ log, Decidable (Undisturbed log)
  | [] => .isTrue trivial
  | (_, _) :: log =>
    have := instDecidableUndisturbed log
    inferInstanceAs (Decidable (_ ∧ _))

/-! ## One step -/

/-- Entering `m` gives its thread no second turn, or an element that it has pushed does. -/
def Due (log : Log) (s : State) (m : Ptr) : Prop :=
  (s.type m).Composite ∨ ¬ Entered log m ∨ s.Idle m ∨
    ∃ e u older, log = (.pop, u) :: older ∧ s = Label.apply .pop u ∧
      u.prsnt.getLast? = some e ∧ u.threadIDToNode e.threadId = some m

/-- What the code sees to at the step `l`.  `b` bounds from below the birth of the nodes whose
    children are entered, made or deleted. -/
def Entry (b : Nat) (log : Log) : Label → State → Prop
  | .enter m, s => Enterable s log m ∧ Due log s m ∧ ∀ F, s.father m = some F → b ≤ s.birth F
  | .turn n, s => (∃ u older, log = (.enter n, u) :: older ∧ s = (Label.enter n).apply u) ∧
      (s.type n = .leaf → (s.heap n).len = .more)
  | .replace owner _ n, s => Seen log n ∧ b ≤ s.birth owner
  | .destroy owner _ _, s => b ≤ s.birth owner
  | .edit n (.hasExtQ q), s => q = true ∨ ∀ c, s.At n 0 c → ¬ Seen log c
  | .changedNode (some _), _ => False
  | _, _ => True

theorem apply_active (l : Label) (s : State) : (l.apply s).active =
    match l with
    | .enter n => n :: s.active
    | .leave _ => s.active.tail
    | _ => s.active := by
  cases l with
  | edit n e => exact edit_global s n e fun _ _ _ => rfl
  | newRoot type => exact newRoot_global s type fun _ _ _ => rfl
  | newThread F id => exact newThread_global s F id fun _ _ _ => rfl
  | replace owner i n => exact replace_global s owner i n fun _ _ _ => rfl
  | _ => rfl

theorem apply_prjNode (l : Label) (s : State) : (l.apply s).prjNode =
    match l with
    | .prjNode n => n
    | _ => s.prjNode := by
  cases l with
  | edit n e => exact edit_global s n e fun _ _ _ => rfl
  | newRoot type => exact newRoot_global s type fun _ _ _ => rfl
  | newThread F id => exact newThread_global s F id fun _ _ _ => rfl
  | replace owner i n => exact replace_global s owner i n fun _ _ _ => rfl
  | _ => rfl

theorem apply_changedNode (l : Label) (s : State) : (l.apply s).changedNode =
    match l with
    | .changedNode n => n
    | .edit n (.leaf true) => some n
    | _ => s.changedNode := by
  cases l with
  | edit n e => cases e with
    | leaf record => cases record <;> rfl
    | _ => rfl
  | newRoot type => exact newRoot_global s type fun _ _ _ => rfl
  | newThread F id => exact newThread_global s F id fun _ _ _ => rfl
  | replace owner i n => exact replace_global s owner i n fun _ _ _ => rfl
  | _ => rfl

section

variable {l : Label} {s : State} {log : Log} (h : Inv s) (hg : Guard 0 l s)

include h hg

theorem Passed.step (hl : l ≠ .stateEnd) {F : Ptr} (hF : F < s.next) (hp : Passed s log F) :
    Passed (l.apply s) ((l, s) :: log) F :=
  hp.imp (seen_old hl) (stays_fatherless h hg hF)

theorem Enterable.step {m : Ptr} (he : Enterable s log m) (hl : l ≠ .stateEnd)
    (hq : ∀ P q, l = .edit P (.hasExtQ q) → q = true ∨ ¬ s.At P 0 m) :
    Enterable (l.apply s) ((l, s) :: log) m := by
  have hf := hg.frame h
  have hnew := he.not_newcomer h
  have hold : ∀ F, (l.apply s).father m = some F → s.father m = some F ∧ F < s.next := by
    intro F hF
    have hF := (came_father h hg hF).resolve_left fun hloose => hnew (Or.inl hloose)
    exact ⟨hF, (h.up m he.lt F hF).1⟩
  refine ⟨Nat.lt_of_lt_of_le he.lt hf.next, ?_, fun hp => hnew (newcomer_of_pending h hg hp), ?_⟩
  · intro F hF
    obtain ⟨hF, hlt⟩ := hold F hF
    obtain ⟨hcomp, hp⟩ := he.father F hF
    rw [hf.type F hlt]
    exact ⟨hcomp, hp.step h hg hl hlt⟩
  · intro P hP htype k hat
    obtain ⟨hP, hlt⟩ := hold P hP
    rw [hf.type P hlt] at htype
    have hcame := (came_at h hg (Nat.lt_of_lt_of_le hlt hf.next) hat).resolve_left hnew
    obtain ⟨-, j, hj, hkj, hsame⟩ := hcame
    obtain ⟨hj1, hj0⟩ := he.slot P hP htype j hj
    refine ⟨Nat.le_trans hkj hj1, ?_⟩
    rintro rfl
    rcases hsame with rfl | ⟨i, q, rfl, hi⟩
    · -- the flag is not written, or it is set
      refine (hj0 rfl).imp (fun hd => hd.old _) fun hset => ?_
      by_cases hedit : ∃ q, l = .edit P (.hasExtQ q)
      · obtain ⟨q, rfl⟩ := hedit
        obtain rfl := (hq P q rfl).resolve_right (not_not.mpr hj)
        exact edit_hasExtQ s P true
      · rw [apply_hasExtQ hlt fun q heq => hedit ⟨q, heq⟩]
        exact hset
    · exact Or.inl ⟨_, List.mem_cons_self, rfl, Nat.le_zero.mp hi⟩

omit hg in
/-- The object that a conversion makes takes the place of the old one. -/
theorem Enterable.replaced {owner n : Ptr} {i : Nat} (hs : Slot s owner i n)
    (hg : Guard 0 (.replace owner i n) s) (he : Enterable s log n) :
    Enterable ((Label.replace owner i n).apply s) ((.replace owner i n, s) :: log) s.next := by
  have hf := hg.frame h
  obtain ⟨ho, -⟩ := hs.lt h
  obtain ⟨hcomp, hp⟩ := he.father owner hs.father
  have hfather : ((Label.replace owner i n).apply s).father s.next = some owner := by
    rw [replace_father, if_neg fun hk => Nat.lt_irrefl _ (h.alloc (hs.kept h hk).1), if_pos rfl,
      hs.father]
  refine ⟨?_, ?_, ?_, ?_⟩
  · rw [show ((Label.replace owner i n).apply s).next = s.next + 1 from
      replace_global s owner i n fun _ _ _ => rfl]
    exact Nat.lt_succ_self _
  · intro F hF
    cases hfather.symm.trans hF
    rw [hf.type owner ho]
    exact ⟨hcomp, hp.step h hg nofun ho⟩
  · rw [show ((Label.replace owner i n).apply s).pending = s.pending from
      replace_global s owner i n fun _ _ _ => rfl]
    exact fun hpend => Nat.lt_irrefl _ (h.alloc (h.pend _ hpend).1)
  · intro P hP htype k hat
    cases hfather.symm.trans hP
    rw [hf.type owner ho] at htype
    rw [replace_at h hs, if_pos rfl] at hat
    rcases hat with ⟨rfl, -⟩ | ⟨-, hat⟩
    · refine (he.slot owner hs.father htype k hs.at_).imp_right fun h0 hk => ?_
      rw [apply_hasExtQ (l := .replace owner k n) ho (by nofun)]
      exact (h0 hk).imp_left fun hd => hd.old _
    · exact absurd (h.down owner ho k _ hat).1 (Nat.lt_irrefl _)

/-! ## The parts of the invariant -/

variable {b : Nat} (ho : Once s log) (hl : l ≠ .stateEnd)

include ho hl

theorem Once.step_seen (he : Entry b log l s) {x : Ptr} (hx : Seen ((l, s) :: log) x) :
    Enterable (l.apply s) ((l, s) :: log) x := by
  rcases (seen_cons hl).mp hx with hshows | hold
  · cases l with
    | enter m =>
      obtain rfl : x = m := hshows
      exact he.1.step h hg hl nofun
    | replace owner i n =>
      obtain rfl : x = s.next := hshows
      exact (ho.seen n he.1).replaced h hg.1 hg
    | _ => exact hshows.elim
  · refine (ho.seen x hold).step h hg hl ?_
    rintro P q rfl
    exact he.imp_right fun hno hat => hno x hat hold

omit h hg in
theorem Once.step_active {x : Ptr} (hx : x ∈ (l.apply s).active) : Seen ((l, s) :: log) x := by
  rw [apply_active] at hx
  cases l with
  | enter n =>
    refine (seen_cons hl).mpr ?_
    exact (List.mem_cons.mp hx).imp_right (ho.active x)
  | leave n => exact seen_old hl (ho.active x (List.mem_of_mem_tail hx))
  | _ => exact seen_old hl (ho.active x hx)

theorem Once.step_pushers (hc : Kept l s) {e : Element} (hx : e ∈ (l.apply s).prsnt) :
    e.threadId = (l.apply s).mainThread ∨
      ∃ n, (l.apply s).threadIDToNode e.threadId = some n ∧ Seen ((l, s) :: log) n := by
  have hold : e ∈ s.prsnt → e.threadId = s.mainThread ∨
      ∃ n, (l.apply s).threadIDToNode e.threadId = some n ∧ Seen ((l, s) :: log) n := by
    intro hx
    rcases ho.pushers e hx with hmain | ⟨n, hn, hseen⟩
    · exact Or.inl hmain
    · refine (apply_mapped h hg hc hx hn).imp_right ?_
      rintro (hn' | ⟨⟨owner, i, m, rfl⟩, hn'⟩)
      · exact ⟨n, hn', seen_old hl hseen⟩
      · exact ⟨s.next, hn', (seen_cons hl).mpr (Or.inl rfl)⟩
  rw [apply_mainThread]
  rw [apply_prsnt] at hx
  cases l with
  | push x =>
    rcases List.mem_append.mp hx with hx | hx
    · exact hold hx
    · obtain rfl := List.mem_singleton.mp hx
      refine Or.imp_right ?_ hg
      rintro ⟨n, hact, hn⟩
      exact ⟨n, hn, seen_old hl (ho.active n hact)⟩
  | pop => exact hold (List.mem_of_mem_dropLast hx)
  | _ => exact hold hx

theorem Once.step_pend {c F : Ptr} (hx : c ∈ (l.apply s).pending)
    (hF : (l.apply s).father c = some F) :
    ((l.apply s).type F).Composite ∧ Passed (l.apply s) ((l, s) :: log) F := by
  have hf := hg.frame h
  have hnow : ∀ {F}, F < s.next → (s.type F).Composite ∧ Passed s log F →
      ((l.apply s).type F).Composite ∧ Passed (l.apply s) ((l, s) :: log) F := by
    rintro F hlt ⟨hcomp, hp⟩
    rw [hf.type F hlt]
    exact ⟨hcomp, hp.step h hg hl hlt⟩
  rcases came_pending h hg hx with hpend | ⟨n, rfl, hmem⟩
  · -- what waits is in no vector, so it keeps its father
    obtain ⟨hreg, G, hG, hno⟩ := h.pend c hpend
    rcases came_father h hg hF with hloose | hF
    · rcases hloose.father h with rfl | ⟨n, k, hn, -, hat⟩
      · exact absurd (h.alloc hreg) (Nat.lt_irrefl _)
      · cases hG.symm.trans hn
        exact absurd hat (hno k)
    · exact hnow (h.up c (h.alloc hreg) F hF).1 (ho.pend c hpend F hF)
  · -- the children of a KEEP node get its father
    have hF : (moveToKeepChilds s n).father c = some F := hF
    rw [moveToKeepChilds_father, if_pos hmem] at hF
    exact hnow (h.up n (h.alloc hg.1) F hF).1
      ((ho.seen n (ho.active n hg.2.2.2.2)).father F hF)

theorem Once.step_deferred {P : Ptr} (hP : (l.apply s).prjNode = some P) :
    (l.apply s).type P = .prj ∧ Passed (l.apply s) ((l, s) :: log) P := by
  have hf := hg.frame h
  have hold : s.prjNode = some P → (l.apply s).type P = .prj ∧
      Passed (l.apply s) ((l, s) :: log) P := by
    intro hP
    have hlt := (h.prj P hP).1
    obtain ⟨htype, hp⟩ := ho.deferred P hP
    rw [hf.type P hlt]
    exact ⟨htype, hp.step h hg hl hlt⟩
  rw [apply_prjNode] at hP
  cases l with
  | prjNode o =>
    obtain rfl : o = some P := hP
    obtain ⟨hlt, htype, c, hact, hfather⟩ := hg
    refine ⟨htype, Passed.step (l := .prjNode (some P)) h ⟨hlt, htype, c, hact, hfather⟩ hl hlt ?_⟩
    exact ((ho.seen c (ho.active c hact)).father P hfather).2
  | _ => exact hold hP

theorem Once.step_changed (he : Entry b log l s)
    (hcleared : ∃ u, (.changedNode none, u) ∈ thisState ((l, s) :: log)) {n : Ptr}
    (hn : (l.apply s).changedNode = some n) : Passed (l.apply s) ((l, s) :: log) n := by
  rw [thisState_cons hl] at hcleared
  have hold : l ≠ .changedNode none → s.changedNode = some n →
      Passed (l.apply s) ((l, s) :: log) n := by
    intro hne hn
    obtain ⟨u, hu⟩ := hcleared
    have hu := (List.mem_cons.mp hu).resolve_left fun heq => hne (Prod.mk.inj heq).1.symm
    exact (ho.changed ⟨u, hu⟩ n hn).step h hg hl (h.changed n hn)
  rw [apply_changedNode] at hn
  cases l with
  | changedNode o =>
    cases o with
    | none => cases hn
    | some m => exact he.elim
  | edit m e =>
    cases e with
    | leaf record =>
      cases record with
      | true =>
        obtain rfl : m = n := Option.some.inj hn
        obtain ⟨c, hact, habove⟩ := hg.2.2 rfl
        exact (ho.above (ho.active c hact) habove).step h hg hl hg.1
      | false => exact hold nofun hn
    | _ => exact hold nofun hn
  | _ => exact hold nofun hn

omit ho hl in
/-- **A step keeps the invariant.** -/
theorem Once.step (ho : Once s log) (hc : Kept l s) (he : Entry b log l s)
    (hend : l = .stateEnd → s.Drained) : Once (l.apply s) ((l, s) :: log) := by
  by_cases hl : l = .stateEnd
  · -- the state ends: nothing is left
    subst hl
    obtain ⟨hprsnt, hprj⟩ := hend rfl
    obtain ⟨hact, hkeep⟩ := hg
    refine ⟨fun x hx => absurd hx (not_seen_end s log x), ?_, ?_, ?_, ?_, ?_⟩
    · intro x hx
      rw [show (Label.stateEnd.apply s).active = [] from hact] at hx
      cases hx
    · intro e hx
      rw [show (Label.stateEnd.apply s).prsnt = [] from hprsnt] at hx
      cases hx
    · intro c hx
      rw [show (Label.stateEnd.apply s).pending = [] from by simp [Label.apply, State.pending, hkeep]]
        at hx
      cases hx
    · intro P hP
      rw [show (Label.stateEnd.apply s).prjNode = none from hprj] at hP
      cases hP
    · rintro ⟨u, hu⟩
      rw [thisState_end] at hu
      cases hu
  · exact ⟨fun x => ho.step_seen h hg hl he, fun x => ho.step_active hl,
      fun e => ho.step_pushers h hg hl hc, fun c hx F => ho.step_pend h hg hl hx,
      fun P => ho.step_deferred h hg hl, fun hcl n => ho.step_changed h hg hl he hcl⟩

end

end Msvl.Function
