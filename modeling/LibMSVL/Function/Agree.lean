/-
  The two computations of lengths agree.

  Incremental: `setNodeLength` writes the length of a leaf, and setAndLen and setPalLen carry the
  consequences upwards.  Full: `isCorrectAndExit`.  In a tree whose lengths are right (`Lengths`)
  both end with the same lengths of all AND and PAL nodes, wherever the full computation starts:
  before or after the walk upwards, with stored lengths or with MORE instead (`reset`).  What the
  signal does to the thread of a leaf that isCorrectAndExit deletes is another matter, so there the
  signal is handled.

  The walk marks a node when its length becomes EMPTY; a node that has been EMPTY before is not
  marked again.
-/
import LibMSVL.Function.Check
import LibMSVL.Function.Climb
import Mathlib.Data.List.Perm.Subperm

namespace Msvl.Function

open Msvl.Run

/-! ## Trees with right lengths -/

/-- The lengths of AND and PAL nodes are right. -/
structure State.Lengths (s : State) : Prop extends Plain s where
  pal : ∀ x, s.InTree x → s.type x = .pal → s.childs x ≠ [] ∧
    (∀ c ∈ s.childs x, s.len c ≠ .none) ∧ s.len x = s.palLen x
  and : ∀ x, s.InTree x → s.type x = .and →
    ((s.childs x).any s.emptyLeaf = true → (s.heap x).hasEmpty = true) ∧
    s.len x = s.andLen s.len x (s.heap x).hasEmpty

/-- The leaf `n`, of length MORE, may call `setNodeLength(k)`. -/
structure State.Completes (s : State) (n : Ptr) (k : NodeLength) : Prop where
  tree : s.InTree n
  leaf : s.type n = .leaf
  more : s.len n = .more
  kind : k = .empty ∨ k = .none ∧ ∀ F ∈ s.father n, s.type F = .and

/-- The AND and PAL nodes in `p` have their first length, MORE; and SIGUSR2 ends threads only. -/
def State.reset (s : State) (p : Ptr → Bool) : State :=
  { s with
    heap := fun x => { s.heap x with
      len := if p x ∧ (s.type x).Composite then .more else (s.heap x).len }
    env := { s.env with handler := true } }

/-- isCorrectAndExit, called in `u`, agrees with a walk upwards from `s` to `t`. -/
structure Agree (f : Nat) (s : State) (es : List (Label × State)) (t u : State) : Prop where
  lens : ∀ r, s.threadRoot = some r → Yields (isCorrectAndExit f r) u fun _ v =>
    ∀ x, s.InTree x → (s.type x).Composite → v.len x = t.len x
  marks : ∀ x, s.InTree x → (s.type x).Composite → (Marks es x ↔
    s.len x ≠ .empty ∧ Yields (isCorrectAndExit f x) u fun b _ => b = true)

theorem behind_reset (s : State) (p : Ptr → Bool) : Behind (s.reset p) s := by
  have hlen : ∀ x, (s.reset p).len x = s.len x ∨
      (s.type x).Composite ∧ (s.reset p).len x = .more := by
    intro x
    by_cases hpx : p x ∧ (s.type x).Composite
    · exact Or.inr ⟨hpx.2, if_pos hpx⟩
    · exact Or.inl (if_neg hpx)
  have hempty : ∀ c, (s.reset p).emptyLeaf c = s.emptyLeaf c := by
    intro c
    unfold State.emptyLeaf
    by_cases hpc : p c ∧ (s.type c).Composite
    · have hno : (s.type c == .leaf) = false :=
        beq_eq_false_iff_ne.mpr fun hleaf => not_composite_leaf hleaf hpc.2
      rw [show ((s.reset p).heap c).type = s.type c from rfl,
        show (s.heap c).type = s.type c from rfl, hno, Bool.and_false, Bool.and_false]
    · rw [show ((s.reset p).heap c).len = (s.heap c).len from if_neg hpc]
      rfl
  exact {
    root := rfl, next := rfl, births := rfl
    type := fun _ => rfl, childs := fun _ => rfl, father := fun _ => rfl, birth := fun _ => rfl
    len := hlen
    flag := fun x => congrArg _ (any_congr (s := s) (u := s.reset p) rfl fun c _ => hempty c) }

theorem inv_reset {s : State} (h : Inv s) (p : Ptr → Bool) : Inv (s.reset p) where
  up := h.up
  down := h.down
  held := h.held
  once := h.once
  gone := h.gone
  pos := h.pos
  pendOnce := h.pendOnce
  pend := h.pend
  att := h.att
  root := h.root
  rootOnly := h.rootOnly
  map := h.map
  birth := h.birth
  main := h.main
  rootType := h.rootType
  newType := h.newType
  locks := h.locks
  lockNext := h.lockNext
  mutexOwn := h.mutexOwn
  condOwn := h.condOwn
  changed := h.changed
  prj := h.prj

/-! ## The start -/

theorem Plain.edit {s : State} (hp : Plain s) (n : Ptr) (e : Edit) :
    Plain ((Label.edit n e).apply s) where
  prj := by
    intro x hx
    rw [inTree_congr (sameMap_edit s n e).root (edit_childs s n e)] at hx
    rw [(sameMap_edit s n e).type]
    exact hp.prj x hx
  term := by
    intro x hx
    rw [inTree_congr (sameMap_edit s n e).root (edit_childs s n e)] at hx
    rw [(sameMap_edit s n e).type, edit_childs]
    exact hp.term x hx

/-- A child of length MORE makes the father MORE. -/
theorem Own.more {s : State} {x c : Ptr} (hown : Own s x) (htype : s.type x = .and ∨ s.type x = .pal)
    (hc : c ∈ s.childs x) (hmore : s.len c = .more) : s.len x = .more := by
  have hempty : s.emptyLeaf c = false := by
    rw [Bool.eq_false_iff]
    intro hcon
    have hlen : s.len c = .empty := (type_of_emptyLeaf hcon).1
    rw [hmore] at hlen
    cases hlen
  have hno : ∀ p : Ptr → Bool, p c = false → ¬ (s.childs x).all p = true := by
    intro p hpc hall
    rw [List.all_eq_true] at hall
    rw [hall c hc] at hpc
    cases hpc
  have hnone : (s.len c == .none) = false := by
    rw [hmore]
    rfl
  rcases htype with hand | hpal
  · rw [hown.and hand, State.andLen, if_neg (hno _ (by rw [hempty, hnone]; rfl)),
      if_neg (hno _ hnone), ite_self]
  · rw [hown.pal hpal, State.palLen, if_neg (hno _ hempty)]

/-- setNodeLength writes the length and calls the walk for the type of the father. -/
theorem eval_setNodeLength {s : State} {n F : Ptr} {k : NodeLength} {f : Nat}
    {es : List (Label × State)} {t : State} (hreg : s.Reg n) (hfather : (s.heap n).father = some F)
    (hev : s.type F = .and ∧ Eval (setAndLen f (some F)) ((Label.edit n (.len k)).apply s) () es t ∨
      s.type F = .pal ∧ Eval (setPalLen F) ((Label.edit n (.len k)).apply s) () es t) :
    Eval (Function.setNodeLength f (s.thread n) k) s () (es ++ [(.edit n (.len k), s)]) t := by
  rw [Function.setNodeLength]
  refine Eval.get ?_
  rw [show s.threadIDToNode (s.thread n) = some n from hreg]
  refine Eval.act_bind ?_
  rw [hfather]
  dsimp only
  rcases hev with ⟨hand, hev⟩ | ⟨hpal, hev⟩
  · rw [show (s.heap F).type = .and from hand]
    exact hev
  · rw [show (s.heap F).type = .pal from hpal]
    exact hev

section

variable {s : State} (hl : s.Lengths)

include hl

theorem State.Lengths.own {x : Ptr} (hx : s.InTree x) : Own s x where
  and := by
    intro hand
    obtain ⟨hflag, hlen⟩ := hl.and x hx hand
    rw [hlen, State.flag]
    by_cases hany : (s.childs x).any s.emptyLeaf = true
    · rw [hany, hflag hany]
      rfl
    · rw [Bool.eq_false_iff.mpr hany, Bool.or_false]
  pal := fun hpal => (hl.pal x hx hpal).2.2

/-- Above a node of length MORE all lengths are MORE. -/
theorem State.Lengths.more_above {x y : Ptr} (hx : s.InTree x) (hb : s.Below x y) :
    s.len y = .more → s.len x = .more := by
  induction hb with
  | refl => exact id
  | child hF hat ih =>
    intro hmore
    have hFtree := hx.below hF
    have hc := State.at_iff_mem.mpr ⟨_, hat⟩
    exact ih ((hl.own hFtree).more (hl.toPlain.father_type hFtree hc) hc hmore)

/-- The length of the leaf is written; only its father may be wrong. -/
theorem Climb.start (h : Inv s) {n F : Ptr} {k : NodeLength} (hc : s.Completes n k)
    (hF : s.InTree F) (hmem : n ∈ s.childs F) :
    Climb ((Label.edit n (.len k)).apply s) ((Label.edit n (.len k)).apply s) (some F) := by
  have hg : Guard 0 (.edit n (.len k)) s := trivial
  have hsame := sameMap_edit s n (.len k)
  have hchilds := edit_childs s n (.len k)
  have hlen := fun x => edit_len s n x k
  have hheap : ∀ x, x ≠ n → ((Label.edit n (.len k)).apply s).heap x = s.heap x :=
    fun x hx => if_neg hx
  refine ⟨Behind.refl _, hg.inv h, ?_, ?_, ?_⟩
  · intro x hx hxF
    rw [inTree_congr hsame.root hchilds] at hx
    by_cases hxn : x = n
    · -- a leaf
      subst hxn
      refine ⟨fun hcon => ?_, fun hcon => ?_⟩
      all_goals
        rw [hsame.type, hc.leaf] at hcon
        cases hcon
    · have hne : ∀ c ∈ s.childs x, c ≠ n := by
        rintro c hcm rfl
        have heq := (h.child_father (h.inTree_reg hF) hmem).symm.trans
          (h.child_father (h.inTree_reg hx) hcm)
        exact hxF heq
      have hempty : ∀ c ∈ s.childs x,
          ((Label.edit n (.len k)).apply s).emptyLeaf c = s.emptyLeaf c :=
        fun c hcm => State.emptyLeaf_congr (hheap c (hne c hcm))
      refine (hl.own hx).congr (hsame.type x) (hchilds x) ?_ ?_ hempty ?_
      · rw [hlen, if_neg hxn]
      · unfold State.flag
        rw [hheap x hxn, any_congr (hchilds x) hempty]
      · exact fun c hcm => by rw [hlen, if_neg (hne c hcm)]
  · rintro b hb
    cases hb
    exact (inTree_congr hsame.root hchilds).mpr hF
  · rintro b hb x hx hxF
    cases hb
    rw [inTree_congr hsame.root hchilds] at hx
    rw [below_congr hchilds] at hxF
    have hxn : x ≠ n := by
      rintro rfl
      exact h.not_below_child (h.inTree_reg hF) hmem hxF
    rw [hlen, if_neg hxn]
    obtain ⟨i, hi⟩ := State.at_iff_mem.mp hmem
    exact hl.more_above hx (hxF.child hi) hc.more

/-- setNodeLength returns; if no NONE child has come below a PAL node, all lengths are right. -/
theorem State.Lengths.setNodeLength (h : Inv s) {n : Ptr} {k : NodeLength}
    (hc : s.Completes n k) {f : Nat} (hf : s.births < f) :
    ∃ es t, Eval (setNodeLength f (s.thread n) k) s () (es ++ [(.edit n (.len k), s)]) t ∧
      Behind ((Label.edit n (.len k)).apply s) t ∧
      (t.NoNone → Done ((Label.edit n (.len k)).apply s) ((Label.edit n (.len k)).apply s) es t) := by
  have hg : Guard 0 (.edit n (.len k)) s := trivial
  have hsame := sameMap_edit s n (.len k)
  have hchilds := edit_childs s n (.len k)
  have hlen := fun x => edit_len s n x k
  obtain ⟨F, hFtree, hmem⟩ : ∃ F, s.InTree F ∧ n ∈ s.childs F := by
    obtain ⟨p, hpath⟩ := hc.tree
    cases hpath with
    | root hr => exact absurd (h.rootType n hr).1 (not_composite_leaf hc.leaf)
    | child hF hat => exact ⟨_, ⟨_, hF⟩, State.at_iff_mem.mpr ⟨_, hat⟩⟩
  have hreg := h.inTree_reg hc.tree
  have hFreg := h.inTree_reg hFtree
  have hfather : (s.heap n).father = some F := h.child_father hFreg hmem
  have hbirth := (h.birth F (h.alloc hFreg)).2
  have hstart := Climb.start hl h hc hFtree hmem
  have hs' := hg.inv h
  have hp' := hl.toPlain.edit n (.len k)
  rcases hl.toPlain.father_type hFtree hmem with hand | hpal
  · obtain ⟨es, t, hev, hb, hdone⟩ := hstart.setAndLen hs' hp' f _ F
      (fun hne => absurd ((hsame.type F).trans hand) hne)
      (by rw [hsame.birth]; exact Nat.lt_of_le_of_lt hbirth hf)
    exact ⟨es, t, eval_setNodeLength hreg hfather (Or.inl ⟨hand, hev⟩), hb, hdone⟩
  · have hk : k = .empty := by
      rcases hc.kind with hk | ⟨-, hand⟩
      · exact hk
      · have := (hand F hfather).symm.trans hpal
        cases this
    obtain ⟨hne, hnone, -⟩ := hl.pal F hFtree hpal
    obtain ⟨es, t, hev, hdone⟩ := hstart.setPalLen hs' ((hsame.type F).trans hpal)
      (by rw [hchilds]; exact hne) (by
        intro c hcm
        rw [hchilds] at hcm
        rw [hlen]
        split
        · rw [hk]
          decide
        · exact hnone c hcm)
    exact ⟨es, t, eval_setNodeLength hreg hfather (Or.inr ⟨hpal, hev⟩), hdone.climb.behind,
      fun _ => hdone⟩

end

/-! ## The end -/

theorem Inv.childs_length {s : State} (h : Inv s) {n : Ptr} (hn : s.Reg n) :
    (s.childs n).length ≤ s.next := by
  have hsub : s.childs n ⊆ List.range s.next := by
    intro c hc
    rw [List.mem_range]
    exact h.alloc (h.mem_child hn hc).1
  have hnodup := h.childs_nodup (h.alloc hn) (Or.inl hn)
  rw [← List.length_range (n := s.next)]
  exact (List.subperm_of_subset hnodup hsub).length_le

/-- Where the walk has put all lengths right, isCorrectAndExit computes them. -/
theorem Climb.recompute {s t u : State} (hp : Plain s) (hc : Climb s t none) (hb : Behind u t)
    (hu : Inv u) (hhandler : u.env.handler = true) {f : Nat} (hf : u.births + u.next + 2 ≤ f)
    {x : Ptr} (hx : u.InTree x) :
    Yields (isCorrectAndExit f x) u (Walked t.len u x) := by
  have hreg := hu.inTree_reg hx
  refine yields_isCorrectAndExit (K := u.next) f x u hu hreg ⟨?_, ?_, ?_⟩ hhandler
  · intro y hy
    have hyt := (hb.inTree y).mp (hx.below hy)
    exact hb.fits (hc.behind.plain hp) hyt
      (hc.own y ((hc.behind.inTree y).mpr hyt) nofun)
  · exact fun y hy => hu.childs_length (hu.inTree_reg (hx.below hy))
  · intro y hy
    have := (hu.birth y (hu.alloc (hu.inTree_reg (hx.below hy)))).2
    omega

/-- What has been computed on the way up agrees with what isCorrectAndExit computes in `u`. -/
theorem Done.agree {s t u : State} {n : Ptr} {k : NodeLength} {es : List (Label × State)} {f : Nat}
    (hleaf : s.type n = .leaf) (hp : Plain ((Label.edit n (.len k)).apply s))
    (hd : Done ((Label.edit n (.len k)).apply s) ((Label.edit n (.len k)).apply s) es t)
    (hb : Behind u t) (hu : Inv u) (hhandler : u.env.handler = true)
    (hf : u.births + u.next + 2 ≤ f) :
    Agree f s (es ++ [(.edit n (.len k), s)]) t u := by
  have hsame := sameMap_edit s n (.len k)
  have htree : ∀ x, s.InTree x → u.InTree x := by
    intro x hx
    rw [hb.inTree, ← hd.climb.behind.inTree, inTree_congr hsame.root (edit_childs s n _)]
    exact hx
  have htype : ∀ x, u.type x = s.type x := fun x =>
    (hb.type x).trans ((hd.climb.behind.type x).symm.trans (hsame.type x))
  have hroot : u.threadRoot = s.threadRoot :=
    hb.root.trans (hd.climb.behind.root.symm.trans hsame.root)
  have hcompute := fun x hx => hd.climb.recompute hp hb hu hhandler hf (htree x hx)
  constructor
  · intro r hr
    refine (hcompute r ⟨[], .root hr⟩).imp fun _ v hw => ?_
    intro x hx hcomp
    obtain ⟨r', hr', hbelow⟩ := State.inTree_iff.mp (htree x hx)
    rw [hroot, hr] at hr'
    cases hr'
    exact hw.len x hbelow (by rwa [htype])
  · intro x hx hcomp
    have hxn : x ≠ n := by
      rintro rfl
      exact not_composite_leaf hleaf hcomp
    have hno : ¬ Marks [(Label.edit n (.len k), s)] x := by
      intro hcon
      exact hxn (marks_single.mp hcon).1
    rw [marks_append, or_iff_left hno, hd.marks x, edit_len, if_neg hxn, Ne]
    refine and_congr_right fun _ => ?_
    have hw := hcompute x hx
    constructor
    · exact fun hlen => hw.imp fun b v hwb => (hwb.comp (by rwa [htype])).mpr hlen
    · intro htrue
      obtain ⟨b, -, v, -, hwb, hb'⟩ := hw.both htrue
      exact (hwb.comp (by rwa [htype])).mp hb'

/-- **Incremental and full computation agree.**  In a tree with right lengths, a leaf of length MORE
    completes; `t` is the state after the walk upwards.  If there is no NONE child below a PAL node
    then, isCorrectAndExit on the root stores the lengths of `t` in all AND and PAL nodes, from `t`
    and from the state before the walk, with any of the lengths reset; and the walk marks a node if
    and only if its own isCorrectAndExit gives true and the node has not been EMPTY before. -/
theorem lengths_agree {s : State} (h : Inv s) (hl : s.Lengths) {n : Ptr} {k : NodeLength}
    (hc : s.Completes n k) {f : Nat} (hf : s.births + s.next + 2 ≤ f) :
    ∃ es t, Eval (setNodeLength f (s.thread n) k) s () es t ∧
      (t.NoNone → ∀ p, Agree f s es t (((Label.edit n (.len k)).apply s).reset p) ∧
        Agree f s es t (t.reset p)) := by
  have hg : Guard 0 (.edit n (.len k)) s := trivial
  have hsame := sameMap_edit s n (.len k)
  obtain ⟨es, t, hev, hb, hdone⟩ := hl.setNodeLength h hc (f := f) (by omega)
  refine ⟨es ++ [(.edit n (.len k), s)], t, hev, fun hok p => ?_⟩
  have hd := hdone hok
  have hbound : ((Label.edit n (.len k)).apply s).births + ((Label.edit n (.len k)).apply s).next +
      2 ≤ f := by
    rw [hsame.births, hsame.next]
    exact hf
  refine ⟨?_, ?_⟩
  · exact hd.agree hc.leaf (hl.toPlain.edit n (.len k)) ((behind_reset _ p).trans hb)
      (inv_reset (hg.inv h) p) rfl hbound
  · refine hd.agree hc.leaf (hl.toPlain.edit n (.len k)) (behind_reset t p)
      (inv_reset hd.climb.inv p) rfl ?_
    show t.births + t.next + 2 ≤ f
    rw [← hb.births, ← hb.next]
    exact hbound

/-- `Lengths` at one node. -/
def State.LengthsAt (s : State) (x : Ptr) : Prop :=
  s.type x ≠ .prj ∧ (¬ (s.type x).Composite → s.childs x = []) ∧
  (s.type x = .pal → s.childs x ≠ [] ∧ (∀ c ∈ s.childs x, s.len c ≠ .none) ∧
    s.len x = s.palLen x) ∧
  (s.type x = .and → ((s.childs x).any s.emptyLeaf = true → (s.heap x).hasEmpty = true) ∧
    s.len x = s.andLen s.len x (s.heap x).hasEmpty)

instance (s : State) (x : Ptr) : Decidable (s.LengthsAt x) :=
  inferInstanceAs (Decidable (_ ∧ _ ∧ _ ∧ _))

/-- The tree has no other nodes than those in `l`. -/
def State.Within (s : State) (l : List Ptr) : Prop :=
  (∀ r ∈ s.threadRoot, r ∈ l) ∧ ∀ x ∈ l, ∀ c ∈ s.childs x, c ∈ l

instance (s : State) (l : List Ptr) : Decidable (s.Within l) :=
  inferInstanceAs (Decidable (_ ∧ _))

section

variable {s : State} {l : List Ptr} (hw : s.Within l)

include hw

theorem State.Within.mem {x : Ptr} (hx : s.InTree x) : x ∈ l := by
  obtain ⟨p, hp⟩ := hx
  induction hp with
  | root hr => exact hw.1 _ hr
  | child _ hat ih => exact hw.2 _ ih _ (State.at_iff_mem.mpr ⟨_, hat⟩)

theorem State.Within.lengths (hall : ∀ x ∈ l, s.LengthsAt x) : s.Lengths where
  prj := fun x hx => (hall x (hw.mem hx)).1
  term := fun x hx => (hall x (hw.mem hx)).2.1
  pal := fun x hx => (hall x (hw.mem hx)).2.2.1
  and := fun x hx => (hall x (hw.mem hx)).2.2.2

theorem State.Within.noNone (hall : ∀ x ∈ l, s.type x = .pal → ∀ c ∈ s.childs x, s.len c ≠ .none) :
    s.NoNone :=
  fun x hx => hall x (hw.mem hx)

end

/-- Two AND nodes, one below the other, and a leaf that is at its turn. -/
def chainScript : List Action :=
  [.call (.myCreateThread true .and 2), .pause,
   .call (.myCreateThread true .and 4), .pause]

def chainState : State := (run 10 1 plain chainScript).2.st

/-- The leaf becomes NONE; the two AND nodes become NONE with it. -/
theorem lengths_agree_chain :
    ∃ es t, Eval (setNodeLength 20 (chainState.thread 2) .none) chainState () es t ∧
      t.len 3 = .none ∧ t.len 0 = .none ∧
      ∀ p, Agree 20 chainState es t (((Label.edit 2 (.len .none)).apply chainState).reset p) ∧
        Agree 20 chainState es t (t.reset p) := by
  have h : Inv chainState := (run_inv 10 1 plain chainScript).1
  have hw : chainState.Within [0, 3, 2] := by decide +kernel
  have hroot : chainState.InTree 0 := ⟨[], .root (by decide +kernel)⟩
  have htree : chainState.InTree 2 :=
    (hroot.child (n := 3) (by decide +kernel)).child (by decide +kernel)
  have hc : chainState.Completes 2 .none :=
    ⟨htree, by decide +kernel, by decide +kernel, Or.inr ⟨rfl, by decide +kernel⟩⟩
  obtain ⟨es, t, hev, hagree⟩ := lengths_agree h (hw.lengths (by decide +kernel)) hc (f := 20)
    (by decide +kernel)
  have ht : t = (setNodeLength 20 (chainState.thread 2) .none ⟨chainState, [], []⟩).2.st :=
    (congrArg (fun w => w.2.st) (hev [] [])).symm
  have hwt : t.Within [0, 3, 2] := by
    rw [ht]
    decide +kernel
  refine ⟨es, t, hev, ?_, ?_, hagree (hwt.noNone ?_)⟩
  all_goals
    rw [ht]
    decide +kernel

/-- An AND node whose children are an EMPTY leaf and then a KEEP node, next to a leaf that is at its
    turn in the second state.  Meanwhile isCorrectAndExit has stored EMPTY in the AND node. -/
def storedScript : List Action :=
  [.call (.myCreateThread true .and 3), .call (.myCreateThread true .and 2), .pause,
   .pause,
   .call (.myCreateThread true .and 4), .call (.myCreateThread true .and 5), .pause,
   .call (.setNodeLength .empty), .exit,
   .call (.myCreateThread false .keep 6), .pause, .pause]

def storedState : State := (run 10 1 plain storedScript).2.st

/-- A node that has been EMPTY before the call gives true, and is not marked. -/
theorem stored_not_marked :
    Inv storedState ∧ storedState.Lengths ∧ storedState.Completes 1 .empty ∧ storedState.InTree 5 ∧
    storedState.type 5 = .and ∧
    ∃ es t, Eval (setNodeLength 20 (storedState.thread 1) .empty) storedState () es t ∧ t.NoNone ∧
      t.newType 5 ≠ .leaf ∧
      ¬ (Marks es 5 ↔ Yields (isCorrectAndExit 20 5) t fun b _ => b = true) := by
  have h : Inv storedState := (run_inv 10 1 plain storedScript).1
  have hw : storedState.Within [0, 1, 5, 6] := by decide +kernel
  have hl : storedState.Lengths := hw.lengths (by decide +kernel)
  have hroot : storedState.InTree 0 := ⟨[], .root (by decide +kernel)⟩
  have htree : storedState.InTree 5 := hroot.child (by decide +kernel)
  have htype : storedState.type 5 = .and := by decide +kernel
  have hempty : storedState.len 5 = .empty := by decide +kernel
  have hc : storedState.Completes 1 .empty :=
    ⟨hroot.child (by decide +kernel), by decide +kernel, by decide +kernel, Or.inl rfl⟩
  obtain ⟨es, t, hev, hb, hdone⟩ := hl.setNodeLength h hc (f := 20) (by decide +kernel)
  have ht : t = (setNodeLength 20 (storedState.thread 1) .empty ⟨storedState, [], []⟩).2.st :=
    (congrArg (fun w => w.2.st) (hev [] [])).symm
  have hwt : t.Within [0, 1, 5, 6] := by
    rw [ht]
    decide +kernel
  have hok : t.NoNone := hwt.noNone (by rw [ht]; decide +kernel)
  refine ⟨h, hl, hc, htree, htype, _, t, hev, hok, ?_, ?_⟩
  · rw [ht]
    decide +kernel
  · intro hiff
    have hd := hdone hok
    have hbehind := hd.climb.behind
    have hlen : ((Label.edit 1 (.len .empty)).apply storedState).len 5 = .empty := by
      rw [edit_len, if_neg (by decide)]
      exact hempty
    have hlent : t.len 5 = .empty := by
      rcases hbehind.len 5 with heq | ⟨-, heq⟩
      · exact heq.symm.trans hlen
      · rw [hlen] at heq
        cases heq
    have hno : ¬ Marks (es ++ [(.edit 1 (.len .empty), storedState)]) 5 := by
      rw [marks_append, marks_single]
      rintro (hm | ⟨hm, -⟩)
      · exact ((hd.marks 5).mp hm).1 hlen
      · cases hm
    refine hno (hiff.mpr ?_)
    have hflat : Flat t 5 := by
      rw [ht]
      exact ⟨by decide +kernel, by decide +kernel, by decide +kernel, by decide +kernel,
        by decide +kernel, by decide +kernel⟩
    have hand : t.type 5 = .and := by
      rw [← hbehind.type, (sameMap_edit storedState 1 _).type, htype]
    have hdel : ∀ c ∈ t.childs 5, t.emptyLeaf c = true → t.Deletable c := by
      rw [ht]
      decide +kernel
    refine (yields_andCorrect_flat hflat hand hdel (f := 19) ?_).imp ?_
    · rw [ht]
      decide +kernel
    · rintro b v ⟨-, hflag, hb, -⟩
      refine hb.mpr ⟨hflag.trans ?_, ?_⟩
      all_goals
        rw [ht]
        decide +kernel

end Msvl.Function
