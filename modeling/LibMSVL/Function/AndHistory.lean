/-
  Completion of an AND node over the whole history of its checks.

  Between two calls of isCorrectAndExit leaf children set their lengths and new children come.  EMPTY
  leaves are deleted on the way, so a call sees only what is left.  Of what is gone the node keeps
  one bit, `hasEmpty`, and that is enough:

  1. `andHistory_summary`: the bit says whether a leaf child has been EMPTY at an earlier check.
  2. `and_history`: hence the call decides by the whole history.
  3. `andChange_setNodeLength`, `andRound_ends`: what happens between the calls is what
     `setNodeLength` does, and the end of a thread.

  An EMPTY leaf is deleted by the next call, so by then its thread has exited (`gone`), or the signal
  ends threads only.
-/
import LibMSVL.Function.Check
import LibMSVL.Lib.System

namespace Msvl.Function

open Msvl.Run Msvl.Trans

/-! ## Rounds -/

/-- An AND node none of whose children has been EMPTY. -/
structure AndStart (n : Ptr) (s : State) : Prop where
  flat : Flat s n
  type : s.type n = .and
  fresh : (s.heap n).hasEmpty = false

/-- Leaf children set their length, and new children come.  A child that sets its length to EMPTY
    marks the node already (`setAndLen`). -/
structure AndChange (n : Ptr) (s t : State) : Prop where
  flat : Flat t n
  type : t.type n = s.type n
  childs : ∃ new, t.childs n = s.childs n ++ new
  types : ∀ c ∈ s.childs n, t.type c = s.type c
  len : ∀ c ∈ s.childs n, (t.heap c).len = (s.heap c).len ∨
    s.type c = .leaf ∧ (s.heap c).len = .more ∧ (t.heap c).len ≠ .more
  flag : (t.heap n).hasEmpty = (s.heap n).hasEmpty ∨
    (t.heap n).hasEmpty = true ∧ ∃ c ∈ t.childs n, t.emptyLeaf c = true
  fate : ∀ c ∈ s.childs n, s.Deletable c → t.Deletable c

/-- By the time of the call the threads of the EMPTY leaves are gone. -/
structure AndRound (n : Ptr) (s t : State) : Prop extends AndChange n s t where
  gone : ∀ c ∈ t.childs n, t.emptyLeaf c = true → t.Deletable c

abbrev AndHistory (n : Ptr) : State → List (Check State) → State → Prop :=
  History (AndStart n) (AndRound n) (Returns n)

/-- Some leaf child was EMPTY at a check. -/
def EverEmpty (n : Ptr) (past : List (Check State)) : Prop :=
  ∃ k ∈ past, ∃ c ∈ k.before.childs n, k.before.emptyLeaf c = true

/-! ## The summary -/

/-- `hasEmpty` keeps the past. -/
structure Summary (n : Ptr) (past : List (Check State)) (s : State) : Prop where
  flat : Flat s n
  type : s.type n = .and
  flag : (s.heap n).hasEmpty = true ↔ EverEmpty n past

/-- Before the call, the flag and the children present tell the past. -/
theorem Summary.round {n : Ptr} {past : List (Check State)} {s t : State} (h : Summary n past s)
    (hr : AndChange n s t) :
    ((t.heap n).hasEmpty || (t.childs n).any t.emptyLeaf) = true ↔
      EverEmpty n past ∨ ∃ c ∈ t.childs n, t.emptyLeaf c = true := by
  rw [Bool.or_eq_true, List.any_eq_true]
  rcases hr.flag with hflag | ⟨hflag, hsome⟩
  · rw [hflag, h.flag]
  · exact iff_of_true (Or.inl hflag) (Or.inr hsome)

theorem everEmpty_cons {n : Ptr} {past : List (Check State)} {k : Check State} :
    EverEmpty n (k :: past) ↔ EverEmpty n past ∨ ∃ c ∈ k.before.childs n, k.before.emptyLeaf c = true := by
  unfold EverEmpty
  rw [List.exists_mem_cons_iff]
  exact or_comm

/-- **The summary is kept**, by induction over the rounds. -/
theorem andHistory_summary {n : Ptr} {s₀ s : State} {past : List (Check State)}
    (h : AndHistory n s₀ past s) : Summary n past s := by
  induction h with
  | start hs =>
    refine ⟨hs.flat, hs.type, ?_⟩
    rw [hs.fresh]
    simp [EverEmpty]
  | @check _ u _ past _ _ hround hcall ih =>
    have hand : u.type n = .and := hround.type.trans ih.type
    obtain ⟨hk, hflag, -⟩ := hcall.of_yields
      fun f hf => yields_andCorrect_flat hround.flat hand hround.gone hf
    refine ⟨hk.flat, hk.type.trans hand, ?_⟩
    rw [hflag, ih.round hround.toAndChange, everEmpty_cons]

/-- **AND completion over its whole history.**  After any history and any round, the call returns,
    and this is what it returns and leaves. -/
theorem and_history {n : Ptr} {s₀ s t : State} {past : List (Check State)}
    (h : AndHistory n s₀ past s) (hr : AndRound n s t) {f : Nat} (hf : (t.childs n).length < f) :
    Yields (isCorrectAndExit (f + 1) n) t fun b u =>
      (b = true ↔ (EverEmpty n past ∨ ∃ c ∈ t.childs n, t.emptyLeaf c = true) ∧
        ∀ c ∈ t.childs n, t.emptyLeaf c = true ∨ (t.heap c).len = .none) ∧
      (b = true → (u.heap n).len = .empty) ∧
      u.childs n = (t.childs n).filter (fun c => !t.emptyLeaf c) ∧
      (¬ (EverEmpty n past ∨ ∃ c ∈ t.childs n, t.emptyLeaf c = true) →
        (u.heap n).len = if ∀ c ∈ t.childs n, (t.heap c).len = .none then .none else .more) ∧
      (b = false → (EverEmpty n past ∨ ∃ c ∈ t.childs n, t.emptyLeaf c = true) →
        (u.heap n).len = (t.heap n).len) := by
  have hsum := andHistory_summary h
  refine (yields_andCorrect_flat hr.flat (hr.type.trans hsum.type) hr.gone hf).imp ?_
  rintro b u ⟨hk, hflag, hb, hempty, hnone, hsame⟩
  have hever := hsum.round hr.toAndChange
  rw [← hflag] at hever
  refine ⟨?_, hempty, hk.childs, fun hno => hnone ?_, fun hfalse hsome => hsame hfalse (hever.mpr hsome)⟩
  · rw [hb, hever]
  · rw [← Bool.not_eq_true, hever]
    exact hno

/-! ## setNodeLength makes a round -/

/-- What `setAndLen` writes: never to a leaf, and the flag only over an EMPTY leaf. -/
def Upward : Label → State → Prop
  | .edit x e, s => s.type x = .and ∧ (e = .hasEmpty → ∃ c ∈ s.childs x, s.emptyLeaf c = true)
  | _, _ => False

theorem spec_setAndLen (f : Nat) : ∀ (o : Option Ptr) (s : State),
    Spec Label.apply Upward (fun _ => True) (setAndLen f o) s fun _ _ => True := by
  induction f with
  | zero => exact fun o s => Spec.stop trivial
  | succ f ih =>
    intro o s
    cases o with
    | none => exact Spec.pure trivial
    | some node =>
      rw [setAndLen]
      refine Spec.get ?_
      split
      · exact Spec.pure trivial
      · next hand =>
        have hand : s.type node = .and := not_not.mp hand
        have htype : ∀ (u : State) (e : Edit), ((Label.edit node e).apply u).type node = u.type node :=
          fun u e => (sameMap_edit u node e).type node
        refine Spec.bind (Q := fun _ t => t.type node = .and) ?_ ?_
        · rw [when]
          split
          · next hemp =>
            refine Spec.act ⟨hand, fun _ => ?_⟩ ((htype s _).trans hand)
            exact List.countP_pos_iff.mp (of_decide_eq_true hemp)
          · exact Spec.pure hand
        · intro _ t _ ht
          refine Spec.get ?_
          split
          · exact Spec.act_bind ⟨ht, by simp⟩ (ih _ _)
          · generalize (if (t.heap node).hasEmpty = true then _ else 0) = noneNum
            split
            · exact Spec.act_bind ⟨ht, by simp⟩ (Spec.act ⟨(htype t _).trans ht, by simp⟩ trivial)
            · exact Spec.pure trivial

/-- The leaves are as they were, and the flag of `n` tells no lie. -/
structure Beside (n : Ptr) (s t : State) : Prop where
  type : ∀ x, t.type x = s.type x
  childs : ∀ x, t.childs x = s.childs x
  leaf : ∀ x, s.type x ≠ .and → t.heap x = s.heap x
  flag : (t.heap n).hasEmpty = (s.heap n).hasEmpty ∨
    (t.heap n).hasEmpty = true ∧ ∃ c ∈ s.childs n, s.emptyLeaf c = true
  flat : Flat s n → Flat t n
  fate : ∀ x, s.Deletable x → t.Deletable x

theorem Beside.empty {n c : Ptr} {s t : State} (h : Beside n s t) (hc : t.emptyLeaf c = true) :
    s.emptyLeaf c = true := by
  have hleaf := (h.type c).symm.trans (type_of_emptyLeaf hc).2
  rw [← State.emptyLeaf_congr (h.leaf c (by simp [hleaf]))]
  exact hc

theorem Beside.trans {n : Ptr} {s t u : State} (h : Beside n s t) (h' : Beside n t u) :
    Beside n s u := by
  refine ⟨fun x => (h'.type x).trans (h.type x), fun x => (h'.childs x).trans (h.childs x), ?_, ?_,
    fun hs => h'.flat (h.flat hs), fun x hx => h'.fate x (h.fate x hx)⟩
  · intro x hx
    rw [h'.leaf x (by rwa [h.type]), h.leaf x hx]
  · rcases h'.flag with hflag | ⟨hflag, c, hc, hempty⟩
    · rw [hflag]
      exact h.flag
    · exact Or.inr ⟨hflag, c, h.childs n ▸ hc, h.empty hempty⟩

theorem Upward.beside {l : Label} {s : State} (h : Upward l s) (n : Ptr) :
    Beside n s (l.apply s) := by
  cases l with
  | edit x e =>
    obtain ⟨hand, hflag⟩ := h
    refine ⟨(sameMap_edit s x e).type, edit_childs s x e, ?_, ?_, fun hs => hs.edit x e,
      fun y => (deletable_edit s x e y).mpr⟩
    · intro y hy
      rw [apply_edit]
      refine if_neg ?_
      rintro rfl
      exact hy hand
    · by_cases he : e = .hasEmpty
      · subst he
        by_cases hxn : n = x
        · subst hxn
          exact Or.inr ⟨congrArg Node.hasEmpty (if_pos rfl), hflag rfl⟩
        · exact Or.inl (congrArg Node.hasEmpty (if_neg hxn))
      · refine Or.inl (edit_field (g := Node.hasEmpty) (fun y => ?_) n)
        cases e with
        | hasEmpty => exact absurd rfl he
        | _ => rfl
  | _ => exact h.elim

/-- A leaf child that is not done sets its length: the write. -/
theorem andChange_edit {n c : Ptr} {s : State} {l : NodeLength} (h : Flat s n) (hc : c ∈ s.childs n)
    (hleaf : s.type c = .leaf) (hmore : (s.heap c).len = .more) (hl : l ≠ .more) :
    AndChange n s ((Label.edit c (.len l)).apply s) := by
  have htype := (sameMap_edit s c (.len l)).type
  refine ⟨h.edit c _, htype n, ⟨[], ?_⟩, fun x _ => htype x, fun x _ => ?_, Or.inl ?_,
    fun x _ => (deletable_edit s c _ x).mpr⟩
  · rw [edit_childs, List.append_nil]
  · by_cases hx : x = c
    · subst hx
      refine Or.inr ⟨hleaf, hmore, ?_⟩
      rw [show ((Label.edit x (.len l)).apply s).heap x = { s.heap x with len := l } from if_pos rfl]
      exact hl
    · exact Or.inl (congrArg Node.len (if_neg hx))
  · exact edit_field (g := Node.hasEmpty) (fun _ => rfl) n

theorem AndChange.beside {n : Ptr} {s t u : State} (h : AndChange n s t) (hb : Beside n t u) :
    AndChange n s u := by
  obtain ⟨new, hnew⟩ := h.childs
  have hmem : ∀ c ∈ s.childs n, c ∈ t.childs n := fun c hc => hnew ▸ List.mem_append_left _ hc
  have hsame : ∀ c ∈ t.childs n, u.heap c = t.heap c := by
    intro c hc
    refine hb.leaf c fun hand => h.flat.terminal c hc ?_
    rw [hand]
    trivial
  refine ⟨hb.flat h.flat, (hb.type n).trans h.type, ⟨new, (hb.childs n).trans hnew⟩, ?_, ?_, ?_,
    fun c hc hdel => hb.fate c (h.fate c hc hdel)⟩
  · exact fun c hc => (hb.type c).trans (h.types c hc)
  · intro c hc
    rw [hsame c (hmem c hc)]
    exact h.len c hc
  · rcases hb.flag with hflag | ⟨hflag, c, hc, hempty⟩
    · rw [hflag]
      rcases h.flag with hold | ⟨htrue, c, hc, hempty⟩
      · exact Or.inl hold
      · refine Or.inr ⟨htrue, c, by rwa [hb.childs], ?_⟩
        rw [State.emptyLeaf_congr (hsame c hc)]
        exact hempty
    · refine Or.inr ⟨hflag, c, by rwa [hb.childs], ?_⟩
      rw [State.emptyLeaf_congr (hsame c hc)]
      exact hempty

/-- A leaf child ends its interval, or gives it up, however far up `setAndLen` goes. -/
theorem andChange_setNodeLength {n c : Ptr} {s : State} {l : NodeLength} (h : Flat s n)
    (hand : s.type n = .and) (hc : c ∈ s.childs n) (hfather : s.father c = some n)
    (hleaf : s.type c = .leaf) (hmore : (s.heap c).len = .more) (hl : l ≠ .more) (f : Nat) :
    Spec Label.apply (fun _ _ => True) (fun _ => True) (setNodeLength f (s.thread c) l) s
      fun _ t => AndChange n s t ∧ t.childs n = s.childs n ∧
        ∀ x ∈ s.childs n, t.heap x = ((Label.edit c (.len l)).apply s).heap x := by
  have hround := andChange_edit h hc hleaf hmore hl
  rw [setNodeLength]
  refine Spec.get ?_
  rw [show s.threadIDToNode (s.thread c) = some c from h.reg c hc]
  refine Spec.act_bind trivial ?_
  rw [show (s.heap c).father = some n from hfather]
  dsimp only
  rw [show (s.heap n).type = .and from hand]
  refine ((spec_setAndLen f (some n) _).weaken fun _ _ _ => trivial).imp ?_
  rintro _ t - ⟨-, es, htr⟩
  have hbeside : Beside n ((Label.edit c (.len l)).apply s) t :=
    htr.rel (I := fun _ => True) (fun _ _ _ _ => trivial)
      (fun u => ⟨fun _ => rfl, fun _ => rfl, fun _ _ => rfl, Or.inl rfl, id, fun _ => id⟩)
      (fun _ _ _ hb hb' => hb.trans hb') (fun _ _ hg _ => hg.beside n) trivial
  refine ⟨hround.beside hbeside, (hbeside.childs n).trans (edit_childs s c _ n), fun x hx => ?_⟩
  refine hbeside.leaf x ?_
  rw [(sameMap_edit s c _).type]
  exact fun hand => h.terminal x hx (hand ▸ trivial)

/-- The thread exits. -/
theorem AndChange.exit {n : Ptr} {s t : State} (h : AndChange n s t) (id : Tid) :
    AndChange n s ((Label.exit id).apply t) := by
  refine ⟨⟨h.flat.composite, h.flat.terminal, h.flat.reg, h.flat.bare, h.flat.nodup, h.flat.root⟩,
    h.type, h.childs, h.types, h.len, h.flag, fun c hc hdel => deletable_exit id (h.fate c hc hdel)⟩

/-- **A leaf child that ends its interval and exits makes a round.** -/
theorem andRound_ends {n c : Ptr} {s : State} {l : NodeLength} (h : Flat s n)
    (hand : s.type n = .and) (hc : c ∈ s.childs n) (hfather : s.father c = some n)
    (hleaf : s.type c = .leaf) (hmore : (s.heap c).len = .more) (hl : l ≠ .more)
    (hgone : ∀ x ∈ s.childs n, s.emptyLeaf x = true → s.Deletable x) (f : Nat) :
    Spec Label.apply (fun _ _ => True) (fun _ => True) (do
      setNodeLength f (s.thread c) l
      act (.exit (s.thread c))) s fun _ t => AndRound n s t := by
  refine Spec.bind (andChange_setNodeLength h hand hc hfather hleaf hmore hl f) ?_
  rintro _ t - ⟨hchange, hchilds, hheap⟩
  refine Spec.act trivial ⟨hchange.exit _, fun x hx hempty => ?_⟩
  replace hx : x ∈ s.childs n := hchilds ▸ (show x ∈ t.childs n from hx)
  by_cases hxc : x = c
  · subst hxc
    refine Or.inl ((Bool.or_eq_true _ _).mpr (Or.inr ?_))
    show Function.update t.exited (s.thread x) true (t.heap x).thread = true
    rw [hheap x hx, show ((Label.edit x (.len l)).apply s).heap x = { s.heap x with len := l } from
      if_pos rfl]
    exact Function.update_self _ _ _
  · have hsame : t.heap x = s.heap x := (hheap x hx).trans (if_neg hxc)
    have hold : s.emptyLeaf x = true :=
      (State.emptyLeaf_congr (hsame : t.heap x = s.heap x)).symm.trans hempty
    exact deletable_exit _ (hchange.fate x hx (hgone x hx hold))

/-- An AND root with two threads under it. -/
def andTwo : State := newThread (newThread (newRoot (start 1 plain) .and) 0 2) 0 3

theorem andTwo_start : AndStart 0 andTwo :=
  ⟨⟨by decide, by decide, by decide, by decide, by decide, by decide⟩, by decide, by decide⟩

/-- The first thread ends its interval and exits. -/
def andOne : State := (Label.exit 2).apply ((Label.edit 1 (.len .empty)).apply andTwo)

theorem andOne_round : AndRound 0 andTwo andOne :=
  ⟨(andChange_edit andTwo_start.flat (by decide) (by decide) (by decide) (by decide)).exit 2, by decide⟩

/-- One thread is EMPTY at the first check and deleted, the other NONE at the second: the node
    becomes EMPTY. -/
theorem and_history_andTwo : ∃ k : Check State,
    k.before = andOne ∧ AndHistory 0 andTwo [k] k.after ∧
      Yields (isCorrectAndExit 3 0) ((Label.edit 2 (.len .none)).apply k.after) fun b _ => b = true := by
  have hround := andOne_round
  obtain ⟨b, es, u, hev, hk, -⟩ := yields_andCorrect_flat hround.flat (by decide) hround.gone
    (Nat.lt_succ_self _)
  have hhist : AndHistory 0 andTwo [⟨_, b, u⟩] u :=
    (History.start andTwo_start).check hround ⟨_, es, Nat.lt_succ_self _, hev⟩
  refine ⟨_, rfl, hhist, ?_⟩
  have hchilds : u.childs 0 = [2] := hk.childs.trans (by decide)
  have hchilds' : ((Label.edit 2 (.len .none)).apply u).childs 0 = [2] := by
    rw [edit_childs, hchilds]
  have hlen : (((Label.edit 2 (.len .none)).apply u).heap 2).len = .none :=
    congrArg Node.len (if_pos rfl)
  have hround' : AndRound 0 u ((Label.edit 2 (.len .none)).apply u) := by
    have hheap := hk.same 2 (by decide)
    refine ⟨andChange_edit hk.flat (by simp [hchilds]) ?_ ?_ (by decide), fun c hc hempty => ?_⟩
    · rw [State.type, hheap]
      decide
    · rw [hheap]
      decide
    · rw [hchilds', List.mem_singleton] at hc
      subst hc
      have := (type_of_emptyLeaf hempty).1
      simp [hlen] at this
  refine (and_history hhist hround' (f := 2) (by simp [hchilds'])).imp ?_
  rintro b' t ⟨hb, -⟩
  have hempty : 1 ∈ andOne.childs 0 ∧ andOne.emptyLeaf 1 = true := by decide
  refine hb.mpr ⟨Or.inl ⟨_, List.mem_cons_self, 1, hempty⟩, fun c hc => Or.inr ?_⟩
  rw [hchilds', List.mem_singleton] at hc
  rw [hc, hlen]

end Msvl.Function
