/-
  setAndLen and setPalLen: the walk upwards that a length sets off.

  `Climb s u a`: the walk began in `s` and is in `u`; every AND and PAL node but `a` has the length
  its children determine, and from `a` upwards all lengths are MORE.  One round writes the length of
  `a`.  NONE hands the doubt on to the father; EMPTY does not, since to the father an AND node that
  is EMPTY looks like one that is MORE; so the walk may stop there.
-/
import LibMSVL.Function.Recompute

namespace Msvl.Function

open Msvl.Run

/-! ## Marks -/

/-- `setNewNodeType(LEAF)` on `x` is among the steps. -/
def Marks (es : List (Label × State)) (x : Ptr) : Prop :=
  ∃ b u, (Label.edit x (.leaf b), u) ∈ es

theorem marks_append {es fs : List (Label × State)} {x : Ptr} :
    Marks (es ++ fs) x ↔ Marks es x ∨ Marks fs x := by
  constructor
  · rintro ⟨b, u, hmem⟩
    rcases List.mem_append.mp hmem with hmem | hmem
    · exact Or.inl ⟨b, u, hmem⟩
    · exact Or.inr ⟨b, u, hmem⟩
  · rintro (⟨b, u, hmem⟩ | ⟨b, u, hmem⟩)
    · exact ⟨b, u, List.mem_append_left _ hmem⟩
    · exact ⟨b, u, List.mem_append_right _ hmem⟩

theorem not_marks_nil (x : Ptr) : ¬ Marks [] x := by
  rintro ⟨b, u, hmem⟩
  cases hmem

theorem marks_single {n x : Ptr} {e : Edit} {u : State} :
    Marks [(.edit n e, u)] x ↔ x = n ∧ ∃ b, e = .leaf b := by
  constructor
  · rintro ⟨b, v, hmem⟩
    have heq := List.mem_singleton.mp hmem
    cases heq
    exact ⟨rfl, b, rfl⟩
  · rintro ⟨rfl, b, rfl⟩
    exact ⟨b, u, List.mem_singleton.mpr rfl⟩

/-! ## Writes -/

section

variable (u : State) (a x : Ptr)

theorem edit_len (l : NodeLength) :
    ((Label.edit a (.len l)).apply u).len x = if x = a then l else u.len x := by
  rw [apply_edit, State.len]
  show ((u.modify a _).heap x).len = _
  rw [heap_modify]
  split <;> rfl

theorem edit_len_of {e : Edit} (he : ∀ y, (e.apply y).len = y.len) :
    ((Label.edit a e).apply u).len x = u.len x :=
  edit_field (g := Node.len) he x

theorem edit_emptyLeaf {e : Edit} (he : ∀ y, (e.apply y).len = y.len) :
    ((Label.edit a e).apply u).emptyLeaf x = u.emptyLeaf x := by
  unfold State.emptyLeaf
  rw [show (((Label.edit a e).apply u).heap x).len = (u.heap x).len from edit_len_of u a x he,
    show (((Label.edit a e).apply u).heap x).type = (u.heap x).type from (sameMap_edit u a e).type x]

theorem edit_flag {e : Edit} (he : ∀ y, (e.apply y).len = y.len) :
    ((Label.edit a e).apply u).flag x =
      ((((Label.edit a e).apply u).heap x).hasEmpty || (u.childs x).any u.emptyLeaf) := by
  unfold State.flag
  rw [any_congr (edit_childs u a e x) fun c _ => edit_emptyLeaf u a c he]

theorem edit_hasEmpty : (((Label.edit a .hasEmpty).apply u).heap x).hasEmpty =
    if x = a then true else (u.heap x).hasEmpty := by
  rw [apply_edit]
  show ((u.modify a _).heap x).hasEmpty = _
  rw [heap_modify]
  split <;> rfl

end

theorem Own.congr {u v : State} {x : Ptr} (h : Own u x) (htype : v.type x = u.type x)
    (hchilds : v.childs x = u.childs x) (hlen : v.len x = u.len x) (hflag : v.flag x = u.flag x)
    (hempty : ∀ c ∈ u.childs x, v.emptyLeaf c = u.emptyLeaf c)
    (hnone : ∀ c ∈ u.childs x, (v.len c == .none) = (u.len c == .none)) : Own v x where
  and := by
    rw [htype, hlen, hflag, andLen_congr hchilds hempty hnone]
    exact h.and
  pal := by
    rw [htype, hlen, palLen_congr hchilds hempty]
    exact h.pal

/-! ## The walk -/

structure Climb (s u : State) (a : Option Ptr) : Prop where
  behind : Behind s u
  inv : Inv u
  own : ∀ x, s.InTree x → a ≠ some x → Own u x
  inTree : ∀ b ∈ a, s.InTree b
  above : ∀ b ∈ a, ∀ x, s.InTree x → s.Below x b → u.len x = .more

section

variable {s u : State} {a : Ptr}

/-- A write that changes no length and no flag that counts. -/
theorem Climb.edit {o : Option Ptr} (hc : Climb s u o) {n : Ptr} {e : Edit}
    (hinv : Inv ((Label.edit n e).apply u)) (he : ∀ y, (e.apply y).len = y.len)
    (hflag : ∀ x, ((Label.edit n e).apply u).flag x = u.flag x) :
    Climb s ((Label.edit n e).apply u) o := by
  have hsame := sameMap_edit u n e
  have hlen := fun x => edit_len_of u n x he
  refine ⟨hc.behind.trans ?_, hinv, ?_, hc.inTree, ?_⟩
  · constructor
    · exact hsame.root.symm
    · exact hsame.next.symm
    · exact hsame.births.symm
    · exact fun x => (hsame.type x).symm
    · exact fun x => (edit_childs u n e x).symm
    · exact fun x => (edit_father u n e x).symm
    · exact fun x => (hsame.birth x).symm
    · exact fun x => Or.inl (hlen x).symm
    · exact fun x => (hflag x).symm
  · intro x hx hxo
    refine (hc.own x hx hxo).congr (hsame.type x) (edit_childs u n e x) (hlen x) (hflag x) ?_ ?_
    · exact fun c _ => edit_emptyLeaf u n c he
    · exact fun c _ => by rw [hlen]
  · intro b hb x hx hxb
    rw [hlen]
    exact hc.above b hb x hx hxb

theorem Climb.tree (hc : Climb s u (some a)) : s.InTree a := hc.inTree a rfl

theorem Climb.len_self (hc : Climb s u (some a)) : u.len a = .more :=
  hc.above a rfl a hc.tree .refl

/-- The length of `a` is written. -/
theorem Climb.behind_len (hc : Climb s u (some a)) (hcomp : (s.type a).Composite)
    (l : NodeLength) : Behind s ((Label.edit a (.len l)).apply u) := by
  have hsame := sameMap_edit u a (.len l)
  have hb := hc.behind
  have hno : ∀ v : State, v.type a = s.type a → v.emptyLeaf a = false := by
    intro v hv
    rw [Bool.eq_false_iff]
    intro hcon
    exact not_composite_leaf (hv.symm.trans (type_of_emptyLeaf hcon).2) hcomp
  have hempty : ∀ x, ((Label.edit a (.len l)).apply u).emptyLeaf x = u.emptyLeaf x := by
    intro x
    by_cases hxa : x = a
    · rw [hxa, hno _ ((hsame.type a).trans (hb.type a).symm), hno u (hb.type a).symm]
    · exact State.emptyLeaf_congr (if_neg hxa)
  constructor
  · exact hb.root.trans hsame.root.symm
  · exact hb.next.trans hsame.next.symm
  · exact hb.births.trans hsame.births.symm
  · exact fun x => (hb.type x).trans (hsame.type x).symm
  · exact fun x => (hb.childs x).trans (edit_childs u a _ x).symm
  · exact fun x => (hb.father x).trans (edit_father u a _ x).symm
  · exact fun x => (hb.birth x).trans (hsame.birth x).symm
  · intro x
    by_cases hxa : x = a
    · subst hxa
      refine Or.inr ⟨hcomp, ?_⟩
      rcases hb.len x with hlen | ⟨-, hlen⟩
      · exact hlen.trans hc.len_self
      · exact hlen
    · rw [edit_len, if_neg hxa]
      exact hb.len x
  · intro x
    rw [hb.flag x]
    unfold State.flag
    rw [any_congr (edit_childs u a _ x) fun c _ => hempty c]
    exact congrArg (· || _) (edit_field (g := Node.hasEmpty) (fun _ => rfl) x).symm

/-- Who does not have `a` among its children, or need not see the difference, keeps its length. -/
theorem Climb.own_len (hs : Inv s) (hc : Climb s u (some a)) (hcomp : (s.type a).Composite)
    {l : NodeLength} {x : Ptr} (hx : s.InTree x) (hxa : x ≠ a)
    (hl : l = .none → s.father a ≠ some x) : Own ((Label.edit a (.len l)).apply u) x := by
  have hb := hc.behind_len hcomp l
  have hflag : ((Label.edit a (.len l)).apply u).flag x = u.flag x := by
    rw [← hb.flag, hc.behind.flag]
  refine (hc.own x hx fun hcon => hxa (Option.some.inj hcon).symm).congr ?_
    (edit_childs u a _ x) ?_ hflag ?_ ?_
  · exact (sameMap_edit u a _).type x
  · rw [edit_len, if_neg hxa]
  · exact fun c _ => (hb.emptyLeaf c).symm.trans (hc.behind.emptyLeaf c)
  · intro c hcx
    rw [edit_len]
    split
    · next hca =>
      subst hca
      rw [hc.len_self]
      have hcs : c ∈ s.childs x := by
        rw [hc.behind.childs]
        exact hcx
      have hfather := hs.child_father (hs.inTree_reg hx) hcs
      rw [beq_eq_false_iff_ne.mpr fun hcon => hl hcon hfather]
      rfl
    · rfl

/-- What a walk has done: all lengths are right, and what has become EMPTY is marked. -/
structure Done (s u : State) (es : List (Label × State)) (t : State) : Prop where
  climb : Climb s t none
  marks : ∀ x, Marks es x ↔ u.len x ≠ .empty ∧ t.len x = .empty

/-- No length is written: MORE is right. -/
theorem Climb.stay (hc : Climb s u (some a)) (hown : Own u a) : Climb s u none where
  behind := hc.behind
  inv := hc.inv
  own := by
    intro x hx _
    by_cases hxa : x = a
    · rw [hxa]
      exact hown
    · exact hc.own x hx fun hcon => hxa (Option.some.inj hcon).symm
  inTree := nofun
  above := nofun

/-- `a` becomes EMPTY and is marked; the father of `a` need not know. -/
theorem Climb.finish (hs : Inv s) (hc : Climb s u (some a)) (hcomp : (s.type a).Composite)
    (hown : Own ((Label.edit a (.len .empty)).apply u) a) :
    Done s u ([(.edit a (.leaf true), (Label.edit a (.len .empty)).apply u)] ++
        [(.edit a (.len .empty), u)])
      ((Label.edit a (.leaf true)).apply ((Label.edit a (.len .empty)).apply u)) := by
  have hlen := fun x => edit_len u a x .empty
  have hb := hc.behind_len hcomp .empty
  have hg : Guard 0 (.edit a (.len .empty)) u := trivial
  have hv : Climb s ((Label.edit a (.len .empty)).apply u) none := by
    refine ⟨hb, hg.inv hc.inv, ?_, nofun, nofun⟩
    intro x hx _
    by_cases hxa : x = a
    · rw [hxa]
      exact hown
    · exact hc.own_len hs hcomp hx hxa fun hcon => nomatch hcon
  generalize (Label.edit a (.len .empty)).apply u = v at *
  constructor
  · refine hv.edit ?_ (fun _ => rfl) ?_
    · refine inv_edit_leaf hv.inv (hv.inv.alloc ?_) ?_
      · exact hv.inv.inTree_reg ((hv.behind.inTree a).mp hc.tree)
      · rwa [← hv.behind.type]
    · intro x
      rw [edit_flag v a x fun _ => rfl, edit_field (g := Node.hasEmpty) (fun _ => rfl) x]
      rfl
  · intro x
    rw [marks_append, marks_single, marks_single, edit_len_of v a x fun _ => rfl, hlen]
    constructor
    · rintro (⟨rfl, -⟩ | ⟨-, b, hcon⟩)
      · rw [hc.len_self, if_pos rfl]
        exact ⟨(nomatch ·), rfl⟩
      · cases hcon
    · rintro ⟨hne, heq⟩
      split at heq
      · next hxa => exact Or.inl ⟨hxa, true, rfl⟩
      · exact absurd heq hne

/-- `if (emp > 0) node->setHasEmpty(true)` -/
theorem Climb.when_flag (hc : Climb s u (some a)) : ∃ es v,
    Eval (when (0 < (u.childs a).countP u.emptyLeaf) (act (.edit a .hasEmpty))) u () es v ∧
      Climb s v (some a) ∧ (v.heap a).hasEmpty = u.flag a ∧ (∀ x, v.len x = u.len x) ∧
      ∀ x, ¬ Marks es x := by
  have hg : Guard 0 (.edit a .hasEmpty) u := trivial
  by_cases hpos : 0 < (u.childs a).countP u.emptyLeaf
  · have hany : (u.childs a).any u.emptyLeaf = true := by
      rw [List.any_eq_true]
      exact List.countP_pos_iff.mp hpos
    have hflag : u.flag a = true := by
      unfold State.flag
      rw [hany, Bool.or_true]
    refine ⟨[(.edit a .hasEmpty, u)], (Label.edit a .hasEmpty).apply u, ?_,
      hc.edit (hg.inv hc.inv) (fun _ => rfl) ?_, ?_, fun x => edit_len_of u a x fun _ => rfl, ?_⟩
    · rw [when, if_pos (decide_eq_true hpos)]
      exact Eval.act _ _
    · intro x
      rw [edit_flag u a x fun _ => rfl, edit_hasEmpty]
      split
      · next hxa => rw [hxa, hflag, Bool.true_or]
      · rfl
    · rw [edit_hasEmpty, if_pos rfl, hflag]
    · intro x hcon
      obtain ⟨-, b, hb⟩ := marks_single.mp hcon
      cases hb
  · have hany : (u.childs a).any u.emptyLeaf = false := by
      rw [Bool.eq_false_iff]
      intro hcon
      rw [List.any_eq_true] at hcon
      exact hpos (List.countP_pos_iff.mpr hcon)
    refine ⟨[], u, ?_, hc, ?_, fun _ => rfl, not_marks_nil⟩
    · rw [when, if_neg (by rw [decide_eq_true_eq]; exact hpos)]
      exact Eval.pure _ _
    · unfold State.flag
      rw [hany, Bool.or_false]

/-- The length written is the one the children determine. -/
theorem Climb.own_self (hs : Inv s) (hc : Climb s u (some a)) (hcomp : (s.type a).Composite)
    {l : NodeLength}
    (hand : s.type a = .and → u.andLen u.len a (u.flag a) = l)
    (hpal : s.type a = .pal → u.palLen a = l) :
    Own ((Label.edit a (.len l)).apply u) a := by
  have hb := hc.behind_len hcomp l
  have hchilds := edit_childs u a (.len l) a
  have hempty : ∀ c ∈ u.childs a,
      ((Label.edit a (.len l)).apply u).emptyLeaf c = u.emptyLeaf c :=
    fun c _ => (hb.emptyLeaf c).symm.trans (hc.behind.emptyLeaf c)
  have hne : ∀ c ∈ u.childs a, c ≠ a := by
    rintro c hcm rfl
    refine hs.not_below_child (hs.inTree_reg hc.tree) ?_ .refl
    rw [hc.behind.childs]
    exact hcm
  constructor
  · intro htype
    rw [edit_len, if_pos rfl]
    refine (hand ((hb.type a).trans htype)).symm.trans (Eq.symm ?_)
    calc ((Label.edit a (.len l)).apply u).andLen ((Label.edit a (.len l)).apply u).len a
          (((Label.edit a (.len l)).apply u).flag a)
        = u.andLen u.len a (((Label.edit a (.len l)).apply u).flag a) :=
          andLen_congr hchilds hempty fun c hcm => by rw [edit_len, if_neg (hne c hcm)]
      _ = _ := by rw [← hb.flag, hc.behind.flag]
  · intro htype
    rw [edit_len, if_pos rfl, palLen_congr hchilds hempty]
    exact (hpal ((hb.type a).trans htype)).symm

theorem not_pal_of_and {s : State} {a : Ptr} {P : Prop} (hand : s.type a = .and)
    (hpal : s.type a = .pal) : P := by
  rw [hand] at hpal
  cases hpal

end

/-- What a round of setAndLen counts is the length of `a`. -/
theorem Climb.counted {s u v : State} {a : Ptr} (hc : Climb s u (some a)) (hv : Climb s v (some a))
    (hflag : (v.heap a).hasEmpty = u.flag a) (hlen : ∀ x, v.len x = u.len x) :
    v.andLen v.len a (v.flag a) =
      if ((u.childs a).countP fun c => u.len c == .none) = (u.childs a).length ∧
          (v.heap a).hasEmpty = false then .none
      else if (u.childs a).countP u.emptyLeaf + (if (v.heap a).hasEmpty then
          (u.childs a).countP fun c => u.len c == .none else 0) = (u.childs a).length then .empty
      else .more := by
  calc v.andLen v.len a (v.flag a)
      = u.andLen u.len a (v.flag a) := by
        refine andLen_congr ((hv.behind.childs a).symm.trans (hc.behind.childs a)) ?_ ?_
        · exact fun c _ => (hv.behind.emptyLeaf c).symm.trans (hc.behind.emptyLeaf c)
        · exact fun c _ => by rw [hlen]
    _ = u.andLen u.len a (u.flag a) := by rw [← hv.behind.flag, hc.behind.flag]
    _ = _ := by
        rw [hflag]
        refine State.andLen_counted (fun c _ hempty => (type_of_emptyLeaf hempty).1) ?_
        intro hfalse
        rw [State.flag, Bool.or_eq_false_iff, List.any_eq_false] at hfalse
        exact List.countP_eq_zero.mpr hfalse.2

/-- A round of setAndLen, after the flag. -/
theorem eval_setAndLen {f : Nat} {u v t : State} {a : Ptr} {es fs : List (Label × State)}
    (hand : u.type a = .and)
    (hev : Eval (when (0 < (u.childs a).countP u.emptyLeaf) (act (.edit a .hasEmpty))) u () es v)
    (h : Eval (do
        if ((u.childs a).countP fun c => u.len c == .none) = (u.childs a).length ∧
            (v.heap a).hasEmpty = false then do
          act (.edit a (.len .none))
          setAndLen f (v.heap a).father
        else if (u.childs a).countP u.emptyLeaf + (if (v.heap a).hasEmpty then
            (u.childs a).countP fun c => u.len c == .none else 0) = (u.childs a).length then do
          act (.edit a (.len .empty))
          act (.edit a (.leaf true))
        else pure ()) v () fs t) :
    Eval (setAndLen (f + 1) (some a)) u () (fs ++ es) t := by
  rw [setAndLen]
  refine Eval.get ?_
  rw [if_neg (not_not.mpr hand)]
  exact hev.bind (Eval.get h)

section

variable {s : State} (hs : Inv s)

include hs

/-- `a` becomes NONE, and the doubt goes on to its father. -/
theorem Climb.up {u : State} {a F : Ptr} (hc : Climb s u (some a)) (hand : s.type a = .and)
    (hF : s.father a = some F) (hnone : u.andLen u.len a (u.flag a) = .none) :
    Climb s ((Label.edit a (.len .none)).apply u) (some F) ∧ a ∈ s.childs F := by
  have hcomp : (s.type a).Composite := by
    rw [hand]
    trivial
  have hg : Guard 0 (.edit a (.len .none)) u := trivial
  obtain ⟨hFtree, hmem⟩ : s.InTree F ∧ a ∈ s.childs F := by
    obtain ⟨p, hpath⟩ := hc.tree
    cases hpath with
    | root hr =>
      rw [(hs.root a hr).2] at hF
      cases hF
    | child hG hat =>
      have heq := (hs.path_father hG hat).symm.trans hF
      cases heq
      exact ⟨⟨_, hG⟩, State.at_iff_mem.mpr ⟨_, hat⟩⟩
  refine ⟨⟨hc.behind_len hcomp .none, hg.inv hc.inv, ?_, ?_, ?_⟩, hmem⟩
  · intro x hx hxF
    by_cases hxa : x = a
    · rw [hxa]
      exact hc.own_self hs hcomp (fun _ => hnone) (not_pal_of_and hand)
    · refine hc.own_len hs hcomp hx hxa fun _ hcon => hxF ?_
      rw [← hF, hcon]
  · rintro b hb
    cases hb
    exact hFtree
  · rintro b hb x hx hxF
    cases hb
    have hxa : x ≠ a := by
      rintro rfl
      exact hs.not_below_child (hs.inTree_reg hFtree) hmem hxF
    obtain ⟨i, hi⟩ := State.at_iff_mem.mp hmem
    rw [edit_len, if_neg hxa]
    exact hc.above a rfl x hx (hxF.child hi)

/-- `a` becomes NONE, and has no father. -/
theorem Climb.top {u : State} {a : Ptr} (hc : Climb s u (some a))
    (hand : s.type a = .and) (hF : s.father a = none)
    (hnone : u.andLen u.len a (u.flag a) = .none) :
    Climb s ((Label.edit a (.len .none)).apply u) none := by
  have hcomp : (s.type a).Composite := by
    rw [hand]
    trivial
  have hg : Guard 0 (.edit a (.len .none)) u := trivial
  refine ⟨hc.behind_len hcomp .none, hg.inv hc.inv, ?_, nofun, nofun⟩
  intro x hx _
  by_cases hxa : x = a
  · rw [hxa]
    exact hc.own_self hs hcomp (fun _ => hnone) (not_pal_of_and hand)
  · refine hc.own_len hs hcomp hx hxa fun _ hcon => ?_
    rw [hF] at hcon
    cases hcon

/-- **setAndLen repairs the lengths**, and marks what becomes EMPTY.  `a` is an AND node, or a child
    of `a` has become NONE; then it has to be an AND node. -/
theorem Climb.setAndLen (hp : Plain s) (f : Nat) : ∀ (u : State) (a : Ptr),
    Climb s u (some a) → (s.type a ≠ .and → ∃ c ∈ s.childs a, u.len c = .none) → s.birth a < f →
    ∃ es t, Eval (setAndLen f (some a)) u () es t ∧ Behind s t ∧ (t.NoNone → Done s u es t) := by
  induction f with
  | zero =>
    intro u a _ _ hf
    omega
  | succ f ih =>
    intro u a hc hbad hf
    have ha := hc.tree
    by_cases hand : s.type a = .and
    · have htype : u.type a = .and := (hc.behind.type a).symm.trans hand
      have hcomp : (s.type a).Composite := by
        rw [hand]
        trivial
      obtain ⟨es, v, hev, hv, hflag, hlen, hno⟩ := hc.when_flag
      have hval := hc.counted hv hflag hlen
      -- it is enough to go on from `v`
      suffices htail : ∃ fs t, Eval (Function.setAndLen (f + 1) (some a)) u () (fs ++ es) t ∧
          Behind s t ∧ (t.NoNone → Done s v fs t) by
        obtain ⟨fs, t, hev', hb, hdone⟩ := htail
        refine ⟨fs ++ es, t, hev', hb, fun hok => ⟨(hdone hok).climb, fun x => ?_⟩⟩
        rw [marks_append, or_iff_left (hno x), (hdone hok).marks x, hlen]
      by_cases h1 : ((u.childs a).countP fun c => u.len c == .none) = (u.childs a).length ∧
          (v.heap a).hasEmpty = false
      · -- NONE: the walk goes on
        rw [if_pos h1] at hval
        have hno' : ∀ x, ¬ Marks [(Label.edit a (.len .none), v)] x := by
          intro x hcon
          obtain ⟨-, b, hb⟩ := marks_single.mp hcon
          cases hb
        have hw : ∀ x, ((Label.edit a (.len .none)).apply v).len x = .empty ↔ v.len x = .empty := by
          intro x
          rw [edit_len]
          split
          · next hxa =>
            rw [hxa, hv.len_self]
            exact iff_of_false (nomatch ·) (nomatch ·)
          · exact Iff.rfl
        cases hF : s.father a with
        | none =>
          obtain ⟨f, rfl⟩ : ∃ g, f = g + 1 := by
            have := (hs.birth a (hs.alloc (hs.inTree_reg ha))).1
            exact Nat.exists_eq_succ_of_ne_zero (by omega)
          have htop := hv.top hs hand hF hval
          refine ⟨[(.edit a (.len .none), v)], _, eval_setAndLen htype hev ?_, htop.behind,
            fun _ => ⟨htop, fun x => ?_⟩⟩
          · rw [if_pos h1, show (v.heap a).father = none from (hv.behind.father a).symm.trans hF]
            exact Eval.act_bind (Eval.pure _ _)
          · rw [hw]
            exact iff_of_false (hno' x) fun hcon => hcon.1 hcon.2
        | some F =>
          obtain ⟨hup, hmem⟩ := hv.up hs hand hF hval
          have hbirth := (hs.mem_child (hs.inTree_reg hup.tree) hmem).2
          obtain ⟨fs, t, hev', hb, hdone⟩ := ih _ F hup
            (fun _ => ⟨a, hmem, by rw [edit_len, if_pos rfl]⟩) (by omega)
          refine ⟨fs ++ [(.edit a (.len .none), v)], t, eval_setAndLen htype hev ?_, hb,
            fun hok => ⟨(hdone hok).climb, fun x => ?_⟩⟩
          · rw [if_pos h1, show (v.heap a).father = some F from (hv.behind.father a).symm.trans hF]
            exact Eval.act_bind hev'
          · rw [marks_append, or_iff_left (hno' x), (hdone hok).marks x, Ne, hw]
      · rw [if_neg h1] at hval
        by_cases h2 : (u.childs a).countP u.emptyLeaf + (if (v.heap a).hasEmpty then
            (u.childs a).countP fun c => u.len c == .none else 0) = (u.childs a).length
        · -- EMPTY: the walk ends
          rw [if_pos h2] at hval
          have hdone := hv.finish hs hcomp
            (hv.own_self hs hcomp (fun _ => hval) (not_pal_of_and hand))
          refine ⟨_, _, eval_setAndLen htype hev ?_, hdone.climb.behind, fun _ => hdone⟩
          rw [if_neg h1, if_pos h2]
          exact Eval.act_bind (Eval.act _ _)
        · -- MORE: nothing has changed
          rw [if_neg h2] at hval
          refine ⟨[], v, eval_setAndLen htype hev ?_, hv.behind, fun _ => ⟨hv.stay ?_, ?_⟩⟩
          · rw [if_neg h1, if_neg h2]
            exact Eval.pure _ _
          · exact ⟨fun _ => hv.len_self.trans hval.symm,
              fun hcon => not_pal_of_and hand ((hv.behind.type a).trans hcon)⟩
          · intro x
            refine iff_of_false (not_marks_nil x) ?_
            rintro ⟨hne, heq⟩
            exact hne heq
    · -- a NONE child
      obtain ⟨c, hcm, hnone⟩ := hbad hand
      have hpal : s.type a = .pal := (hp.father_type ha hcm).resolve_left hand
      refine ⟨[], u, ?_, hc.behind, ?_⟩
      · rw [Function.setAndLen]
        refine Eval.get ?_
        rw [if_pos]
        · exact Eval.pure _ _
        · exact fun hcon => hand ((hc.behind.type a).trans hcon)
      · intro hok
        refine absurd hnone (hok a ((hc.behind.inTree a).mp ha) ?_ c ?_)
        · rwa [← hc.behind.type]
        · rwa [← hc.behind.childs]

/-- setPalLen writes the length of a PAL node whose children are not NONE. -/
theorem Climb.setPalLen {u : State} {a : Ptr} (hc : Climb s u (some a)) (hpal : s.type a = .pal)
    (hne : s.childs a ≠ []) (hnone : ∀ c ∈ s.childs a, u.len c ≠ .none) :
    ∃ es t, Eval (setPalLen a) u () es t ∧ Done s u es t := by
  have hcomp : (s.type a).Composite := by
    rw [hpal]
    trivial
  have hcs := hc.behind.childs a
  have hzero : ((u.childs a).countP fun c => u.len c == .none) = 0 := by
    rw [List.countP_eq_zero, ← hcs]
    exact fun c hcm hcon => hnone c hcm (beq_iff_eq.mp hcon)
  have hpos : 0 ≠ (u.childs a).length := by
    rw [← hcs]
    exact fun hcon => hne (List.length_eq_zero_iff.mp hcon.symm)
  have hstep : ∀ {fs t}, Eval (do
        if (u.childs a).countP u.emptyLeaf = (u.childs a).length then do
          act (.edit a (.len .empty))
          act (.edit a (.leaf true))
        else pure ()) u () fs t → Eval (Function.setPalLen a) u () fs t := by
    intro fs t h
    rw [Function.setPalLen]
    refine Eval.get ?_
    show Eval (if ((u.childs a).countP fun c => u.len c == .none) = (u.childs a).length then _
      else if (u.childs a).countP u.emptyLeaf + ((u.childs a).countP fun c => u.len c == .none) =
        (u.childs a).length then _ else _) u () fs t
    rw [hzero, if_neg hpos, Nat.add_zero]
    exact h
  have hval : u.palLen a =
      if (u.childs a).countP u.emptyLeaf = (u.childs a).length then .empty else .more :=
    if_congr countP_eq_length_iff.symm rfl rfl
  by_cases hall : (u.childs a).countP u.emptyLeaf = (u.childs a).length
  · rw [if_pos hall] at hval
    refine ⟨_, _, hstep ?_, hc.finish hs hcomp (hc.own_self hs hcomp ?_ fun _ => hval)⟩
    · rw [if_pos hall]
      exact Eval.act_bind (Eval.act _ _)
    · intro hand
      rw [hpal] at hand
      cases hand
  · rw [if_neg hall] at hval
    refine ⟨[], u, hstep ?_, hc.stay ?_, ?_⟩
    · rw [if_neg hall]
      exact Eval.pure _ _
    · refine ⟨fun hcon => ?_, fun _ => hc.len_self.trans hval.symm⟩
      rw [← hc.behind.type, hpal] at hcon
      cases hcon
    · intro x
      refine iff_of_false (not_marks_nil x) ?_
      rintro ⟨hne, heq⟩
      exact hne heq

end

end Msvl.Function
