/-
  isCorrectAndExit as a computation of lengths.

  Where the lengths `τ` fit in the whole subtree of `n`, isCorrectAndExit returns, stores `τ` in
  every AND and PAL node of the subtree, changes nothing outside, and its value says whether `τ n` is
  EMPTY (`Walked`).  This is about lengths: the signal to the threads of the leaves it deletes is
  taken to be handled.

  The loops delete the EMPTY leaves they meet.  `Mid` describes a loop between two children: what
  stands before the iterator has been walked, what is left is untouched (`todo`).
-/
import LibMSVL.Function.Lengths

namespace Msvl.Function

open Msvl.Run

/-! ## Between two children -/

/-- isCorrectAndExit has been called at `n`, with result `b`. -/
structure Walked (τ : Ptr → NodeLength) (s : State) (n : Ptr) (b : Bool) (t : State) : Prop where
  off : ∀ x, ¬ s.Below n x → t.heap x = s.heap x
  len : ∀ x, s.Below n x → (s.type x).Composite → (t.heap x).len = τ x
  term : ¬ (s.type n).Composite → t = s ∧ (s.emptyLeaf n = true → b = true)
  comp : (s.type n).Composite → (b = true ↔ τ n = .empty)
  env : t.env = s.env

/-- A loop over the children of `n`: `done` is left of what has been walked, `rest` is to be walked.
    The call at `n` began in `s`. -/
structure Mid (τ : Ptr → NodeLength) (s : State) (n : Ptr) (done rest : List Ptr) (u : State) :
    Prop where
  inv : Inv u
  frame : Frame (s.birth n) s u
  childs : u.childs n = done ++ rest
  todo : ∀ c ∈ rest, ∀ x, s.Below c x → u.heap x = s.heap x
  off : ∀ x, ¬ s.Below n x → u.heap x = s.heap x
  len : ∀ x, s.Below n x → (s.type x).Composite → x ≠ n → (∀ c ∈ rest, ¬ s.Below c x) →
    (u.heap x).len = τ x
  self : (u.heap n).len = (s.heap n).len
  sub : ∀ c ∈ rest, c ∈ s.childs n
  nodup : rest.Nodup
  env : u.env = s.env

section

variable {τ : Ptr → NodeLength} {s u t : State} {n c : Ptr} {done rest : List Ptr} {b : Bool}
  (h : Inv s) (hn : s.Reg n)

include h hn

theorem Mid.start : Mid τ s n [] (s.childs n) s where
  inv := h
  frame := Frame.refl _ s
  childs := rfl
  todo := fun _ _ _ _ => rfl
  off := fun _ _ => rfl
  len := by
    intro x hx _ hxn hno
    exfalso
    -- whatever is below `n` is `n` or below a child of it
    have hup : ∀ y, s.Below n y → y = n ∨ ∃ c ∈ s.childs n, s.Below c y := by
      intro y hy
      induction hy with
      | refl => exact Or.inl rfl
      | @child F i y _ hat ih =>
        rcases ih with rfl | ⟨c, hc, hF⟩
        · exact Or.inr ⟨y, State.at_iff_mem.mpr ⟨i, hat⟩, .refl⟩
        · exact Or.inr ⟨c, hc, hF.child hat⟩
    rcases hup x hx with rfl | ⟨c, hc, hcx⟩
    · exact hxn rfl
    · exact hno c hc hcx
  self := rfl
  sub := fun _ hc => hc
  nodup := h.childs_nodup (h.alloc hn) (Or.inl hn)
  env := rfl

/-- The next child is a child indeed. -/
theorem Mid.slot (hm : Mid τ s n done (c :: rest) u) : Slot u n done.length c := by
  obtain ⟨hreg, -, -⟩ := hm.frame.reg_of h hm.inv hn (Nat.le_refl _)
  refine hm.inv.slot (hm.inv.alloc hreg) (Or.inl hreg) ?_
  rw [State.At, hm.childs, List.getElem?_append_right (Nat.le_refl _), Nat.sub_self]
  rfl

theorem Mid.walk (hm : Mid τ s n done (c :: rest) u) (hw : Walked τ u c b t) (ht : Inv t)
    (hf : Frame (u.birth c) u t) : Mid τ s n (done ++ [c]) rest t := by
  have hc := hm.sub c List.mem_cons_self
  have hagree := hm.todo c List.mem_cons_self
  have hbelow : ∀ x, u.Below c x ↔ s.Below c x := fun x => State.Below.agree hagree
  have hbc : u.birth c = s.birth c := by rw [State.birth, hagree c .refl]
  have hb := (h.mem_child hn hc).2
  have hsame : ∀ x, ¬ s.Below c x → t.heap x = u.heap x :=
    fun x hx => hw.off x fun hx' => hx ((hbelow x).mp hx')
  have hself := hsame n (h.not_below_child hn hc)
  constructor
  · exact ht
  · refine hm.frame.trans (hf.mono ?_)
    rw [hbc]
    omega
  · rw [State.childs, hself, List.append_assoc]
    exact hm.childs
  · intro c' hc' x hx
    have hne : c ≠ c' := by
      rintro rfl
      exact (List.nodup_cons.mp hm.nodup).1 hc'
    have hmem := hm.sub c' (List.mem_cons_of_mem _ hc')
    rw [hsame x (h.below_disjoint hn hmem hc (Ne.symm hne) hx)]
    exact hm.todo c' (List.mem_cons_of_mem _ hc') x hx
  · intro x hx
    rw [hsame x fun hcx => hx (.trans_child hc hcx)]
    exact hm.off x hx
  · intro x hx hcomp hxn hno
    by_cases hcx : s.Below c x
    · refine hw.len x ((hbelow x).mpr hcx) ?_
      rw [State.type, hagree x hcx]
      exact hcomp
    · rw [hsame x hcx]
      refine hm.len x hx hcomp hxn ?_
      intro c' hc'
      rcases List.mem_cons.mp hc' with rfl | hc'
      · exact hcx
      · exact hno c' hc'
  · rw [hself]
    exact hm.self
  · exact fun c' hc' => hm.sub c' (List.mem_cons_of_mem _ hc')
  · exact (List.nodup_cons.mp hm.nodup).2
  · exact hw.env.trans hm.env

/-- A write to the flag of `n` itself. -/
theorem Mid.hasEmpty (hm : Mid τ s n done rest u) :
    Mid τ s n done rest ((Label.edit n .hasEmpty).apply u) := by
  have hoff : ∀ x, x ≠ n → ((Label.edit n .hasEmpty).apply u).heap x = u.heap x :=
    fun x hx => if_neg hx
  have hlen : ∀ x, (((Label.edit n .hasEmpty).apply u).heap x).len = (u.heap x).len :=
    edit_field (g := Node.len) fun _ => rfl
  have hg : Guard (s.birth n) (.edit n .hasEmpty) u := trivial
  constructor
  · exact hg.inv hm.inv
  · exact hm.frame.trans (hg.frame hm.inv)
  · rw [edit_childs]
    exact hm.childs
  · intro c hc x hx
    rw [hoff x]
    · exact hm.todo c hc x hx
    · rintro rfl
      exact h.not_below_child hn (hm.sub c hc) hx
  · intro x hx
    rw [hoff x]
    · exact hm.off x hx
    · rintro rfl
      exact hx .refl
  · intro x hx hcomp hxn hno
    rw [hlen]
    exact hm.len x hx hcomp hxn hno
  · rw [hlen]
    exact hm.self
  · exact hm.sub
  · exact hm.nodup
  · exact hm.env

/-- The child that has been walked is deleted. -/
theorem Mid.destroy (hm : Mid τ s n (done ++ [c]) rest u) (hs : Slot u n done.length c)
    (hc : c ∈ s.childs n) (hcr : c ∉ rest) (hnil : u.childs c = []) :
    Mid τ s n done rest ((Label.destroy n done.length c).apply u) := by
  have hg : Guard (s.birth n) (.destroy n done.length c) u :=
    ⟨hs, hnil, Nat.le_of_eq (hm.frame.birth n (h.alloc hn)).symm⟩
  have hoff : ∀ x, x ≠ n → x ≠ c →
      ((Label.destroy n done.length c).apply u).heap x = u.heap x := by
    intro x hxn hxc
    rw [apply_destroy, heap_modify, if_neg hxn, destroyNode_eq, heap_modify, if_neg hxc]
  have hlen : ∀ x, (((Label.destroy n done.length c).apply u).heap x).len = (u.heap x).len := by
    intro x
    rw [destroy_field u n done.length c x (g := Node.len) fun _ _ => rfl]
    exact destroyNode_field u c x (g := Node.len) fun _ _ _ _ _ => rfl
  constructor
  · exact hg.inv hm.inv
  · exact hm.frame.trans (hg.frame hm.inv)
  · rw [destroy_childs, if_pos rfl, hm.childs, List.append_assoc,
      List.eraseIdx_append_of_length_le (Nat.le_refl _), Nat.sub_self]
    rfl
  · intro c' hc' x hx
    rw [hoff x]
    · exact hm.todo c' hc' x hx
    · rintro rfl
      exact h.not_below_child hn (hm.sub c' hc') hx
    · rintro rfl
      refine h.below_disjoint hn (hm.sub c' hc') hc ?_ hx .refl
      rintro rfl
      exact hcr hc'
  · intro x hx
    rw [hoff x]
    · exact hm.off x hx
    · rintro rfl
      exact hx .refl
    · rintro rfl
      exact hx (.trans_child hc .refl)
  · intro x hx hcomp hxn hno
    rw [hlen]
    exact hm.len x hx hcomp hxn hno
  · rw [hlen]
    exact hm.self
  · exact hm.sub
  · exact hm.nodup
  · exact hm.env

end

theorem yields_release {u : State} {c : Ptr} (hc : u.Reg c) (hjoin : u.Joinable c) :
    Yields (release c) u fun _ t => t = u := by
  refine Yields.bind (Q := fun _ t => t = u) ?_ ?_
  · refine Yields.get ?_
    rw [show u.threadIDToNode (u.heap c).thread = some c from hc]
    exact Yields.pure rfl
  · rintro _ t rfl
    refine Yields.get ?_
    by_cases hexit : t.isExit c = true
    · rw [if_pos hexit]
      exact Yields.pure rfl
    · rw [if_neg hexit]
      rcases hjoin with h | ⟨hroot, hjoins⟩ | ⟨hroot, hhandler⟩
      · exact absurd h hexit
      · rw [if_pos hroot, if_pos hjoins]
        exact Yields.pure rfl
      · rw [if_neg hroot, if_pos hhandler]
        exact Yields.pure rfl

/-- Deleting a node without children. -/
theorem yields_deleteSlot {f : Nat} {u : State} {n c : Ptr} {i : Nat} (hc : u.Reg c)
    (hnil : u.childs c = []) (hjoin : u.Joinable c) :
    Yields (deleteSlot (f + 1) n i c) u fun _ t => t = (Label.destroy n i c).apply u := by
  refine Yields.bind (Q := fun _ t => t = u) ?_ ?_
  · rw [deleteChilds]
    refine Yields.get ?_
    rw [show (u.heap c).childs = [] from hnil]
    exact Yields.pure rfl
  · rintro _ t rfl
    refine Yields.bind (yields_release hc hjoin) ?_
    rintro _ v rfl
    exact Yields.act rfl

/-! ## The loops -/

/-- The child `c` after the call at `c`, which gave `b`. -/
structure Met (τ : Ptr → NodeLength) (s : State) (c : Ptr) (b : Bool) (t : State) : Prop where
  type : t.type c = s.type c
  empty : t.emptyLeaf c = s.emptyLeaf c
  len : (t.heap c).len = τ c
  exited : s.emptyLeaf c = true → b = true
  childs : s.type c = .leaf → t.childs c = []

/-- What a loop at `n` needs of the function it calls. -/
structure Calls (τ : Ptr → NodeLength) (ic : Ptr → M Bool) (s : State) (n : Ptr) : Prop where
  walks : Walks ic
  fits : ∀ c ∈ s.childs n, Fits τ s c
  yields : ∀ c ∈ s.childs n, ∀ u, Inv u → u.Reg c → (∀ x, s.Below c x → u.heap x = s.heap x) →
    u.env = s.env → Yields (ic c) u (Walked τ u c)

section

variable {τ : Ptr → NodeLength} {s u : State} {n c : Ptr} {done rest : List Ptr}
  {ic : Ptr → M Bool} (h : Inv s) (hn : s.Reg n)

include h hn

theorem Mid.call (hm : Mid τ s n done (c :: rest) u) (hcalls : Calls τ ic s n) :
    Yields (ic c) u fun b t => Mid τ s n (done ++ [c]) rest t ∧ Slot t n done.length c ∧
      Met τ s c b t ∧ (t.heap n).hasEmpty = (u.heap n).hasEmpty := by
  have hc := hm.sub c List.mem_cons_self
  have hagree := hm.todo c List.mem_cons_self
  have hs := hm.slot h hn
  obtain ⟨-, hcu, -, -⟩ := hs.lt hm.inv
  have hfits := hcalls.fits c hc
  have hyield := (hcalls.yields c hc u hm.inv hs.reg hagree hm.env).spec
    (hcalls.walks c u hm.inv hcu (Or.inl hs.reg))
  obtain ⟨b, es, t, hev, hw, -, hr⟩ := hyield
  obtain ⟨ht, hf⟩ := hm.inv.reach hr
  have htype : t.type c = s.type c := by
    rw [hf.type c hcu, State.type, hagree c .refl]
  have htypeu : u.type c = s.type c := by rw [State.type, hagree c .refl]
  refine ⟨b, es, t, hev, hm.walk h hn hw ht hf, hs.frame hm.inv ht hf (Nat.le_refl _), ?_, ?_⟩
  · by_cases hcomp : (s.type c).Composite
    · have hleaf : s.type c ≠ .leaf := fun hleaf => not_composite_leaf hleaf hcomp
      have hno : ∀ v : State, v.type c = s.type c → v.emptyLeaf c = false := by
        intro v hv
        rw [Bool.eq_false_iff]
        exact fun hcon => hleaf (hv ▸ (type_of_emptyLeaf hcon).2)
      refine ⟨htype, (hno t htype).trans (hno s rfl).symm, ?_, ?_, fun hl => absurd hl hleaf⟩
      · exact hw.len c .refl (by rwa [htypeu])
      · intro hcon
        rw [hno s rfl] at hcon
        cases hcon
    · obtain ⟨rfl, hexit⟩ := hw.term (by rwa [htypeu])
      have heq : t.heap c = s.heap c := hagree c .refl
      have hempty := State.emptyLeaf_congr heq
      refine ⟨htype, hempty, ?_, fun hcon => hexit (hempty.trans hcon), ?_⟩
      · rw [heq]
        exact (hfits.term hcomp).2
      · intro _
        rw [State.childs, heq]
        exact (hfits.term hcomp).1
  · rw [hw.off n]
    intro hcon
    exact h.not_below_child hn hc ((State.Below.agree hagree).mp hcon)

theorem Mid.delete (hm : Mid τ s n (done ++ [c]) rest u) (hhandler : s.env.handler = true)
    (hs : Slot u n done.length c) (hc : c ∈ s.childs n) (hcr : c ∉ rest) (hnil : u.childs c = []) (g : Nat) :
    Yields (deleteSlot (g + 1) n done.length c) u fun _ t => Mid τ s n done rest t ∧
      (t.heap n).hasEmpty = (u.heap n).hasEmpty := by
  have hjoin : u.Joinable c := by
    refine Or.inr (Or.inr ⟨fun hroot => ?_, by rw [hm.env, hhandler]⟩)
    cases hs.father.symm.trans (hm.inv.root c hroot).2
  obtain ⟨a, es, t, hev, rfl⟩ := yields_deleteSlot (f := g) hs.reg hnil hjoin
  refine ⟨a, es, _, hev, hm.destroy h hn hs hc hcr hnil, ?_⟩
  rw [destroy_field u n done.length c n (g := Node.hasEmpty) fun _ _ => rfl]
  exact destroyNode_field u c n (g := Node.hasEmpty) fun _ _ _ _ _ => rfl

end

theorem yields_andScan {τ : Ptr → NodeLength} {s : State} {n : Ptr} {ic : Ptr → M Bool}
    (h : Inv s) (hn : s.Reg n) (hcalls : Calls τ ic s n) (hhandler : s.env.handler = true)
    (rest : List Ptr) :
    ∀ (g : Nat) (done : List Ptr) (u : State) (e k : Nat), rest.length < g →
      Mid τ s n done rest u →
      Yields (andScan ic g n done.length e k) u fun r t =>
        r = (e + rest.countP s.emptyLeaf, k + rest.countP fun c => τ c == .none) ∧
        (∃ done', Mid τ s n done' [] t) ∧
        (t.heap n).hasEmpty = ((u.heap n).hasEmpty || rest.any s.emptyLeaf) := by
  induction rest with
  | nil =>
    intro g done u e k hg hm
    obtain ⟨g, rfl⟩ := Nat.exists_eq_succ_of_ne_zero (Nat.ne_of_gt hg)
    rw [andScan]
    refine Yields.get ?_
    rw [show (u.heap n).childs[done.length]? = none by
      rw [show (u.heap n).childs = done ++ [] from hm.childs, List.append_nil]
      exact List.getElem?_eq_none (Nat.le_refl _)]
    exact Yields.pure ⟨rfl, ⟨done, hm⟩, (Bool.or_false _).symm⟩
  | cons c rest ih =>
    intro g done u e k hg hm
    obtain ⟨g, rfl⟩ := Nat.exists_eq_succ_of_ne_zero (Nat.ne_of_gt (Nat.zero_lt_of_lt hg))
    have hg : rest.length < g := Nat.lt_of_succ_lt_succ hg
    have hc := hm.sub c List.mem_cons_self
    have hcr : c ∉ rest := (List.nodup_cons.mp hm.nodup).1
    rw [andScan]
    refine Yields.get ?_
    rw [show (u.heap n).childs[done.length]? = some c from (hm.slot h hn).at_]
    refine Yields.bind (hm.call h hn hcalls) ?_
    rintro b t ⟨hmt, hs, hmet, hflag⟩
    refine Yields.get ?_
    rw [hmet.empty, List.countP_cons, List.countP_cons, List.any_cons]
    by_cases hempty : s.emptyLeaf c = true
    · -- an EMPTY leaf: it is counted and deleted
      rw [if_pos hempty, hmet.exited hempty]
      obtain ⟨hlen, hleaf⟩ := type_of_emptyLeaf (hmet.empty.trans hempty)
      have hτ : (τ c == .none) = false := by
        rw [← hmet.len, hlen]
        rfl
      have hu := hmt.hasEmpty h hn
      have hs' := hs.frame hmt.inv hu.inv (frame_edit (b := t.birth c) n .hasEmpty) (Nat.le_refl _)
      refine Yields.act_bind ?_
      rw [if_pos rfl]
      obtain ⟨g, rfl⟩ := Nat.exists_eq_succ_of_ne_zero (Nat.ne_of_gt (Nat.zero_lt_of_lt hg))
      have hnil : ((Label.edit n .hasEmpty).apply t).childs c = [] := by
        rw [edit_childs]
        exact hmet.childs (hmet.type ▸ hleaf)
      refine Yields.bind (hu.delete h hn hhandler hs' hc hcr hnil g) ?_
      rintro _ v ⟨hmv, hflag'⟩
      obtain ⟨r, es, w, hev, hres, hdone, hw⟩ := ih (g + 1) done v (e + 1) k hg hmv
      refine ⟨r, es, w, hev, ?_, hdone, ?_⟩
      · rw [hres, hempty, hτ]
        simp only [Bool.false_eq_true, if_true, if_false, Nat.add_zero]
        rw [show e + 1 + rest.countP s.emptyLeaf = e + (rest.countP s.emptyLeaf + 1) by omega]
      · have htrue : (((Label.edit n .hasEmpty).apply t).heap n).hasEmpty = true := by
          rw [apply_edit]
          show ((t.modify n _).heap n).hasEmpty = true
          rw [heap_modify, if_pos rfl]
          rfl
        rw [hw, hflag', htrue, hempty, Bool.true_or, Bool.or_true]
    · -- it stays
      rw [if_neg hempty]
      rw [Bool.not_eq_true] at hempty
      have hnext : ∀ k', Yields (andScan ic g n (done.length + 1) e k') t fun r w =>
          r = (e + rest.countP s.emptyLeaf, k' + rest.countP fun c => τ c == .none) ∧
          (∃ done', Mid τ s n done' [] w) ∧
          (w.heap n).hasEmpty = ((t.heap n).hasEmpty || rest.any s.emptyLeaf) := by
        intro k'
        have := ih g (done ++ [c]) t e k' hg hmt
        rwa [List.length_append] at this
      rw [hempty, Bool.false_or, ← hflag]
      simp only [Bool.false_eq_true, if_false, Nat.add_zero]
      split
      · next hnone =>
        have hτ : (τ c == .none) = true := by
          rw [← hmet.len, hnone]
          rfl
        rw [hτ, if_pos rfl, show k + (rest.countP (fun c => τ c == .none) + 1) =
          k + 1 + rest.countP (fun c => τ c == .none) by omega]
        exact hnext (k + 1)
      · next hnone =>
        have hτ : (τ c == .none) = false := by
          rw [← hmet.len]
          exact beq_eq_false_iff_ne.mpr hnone
        rw [hτ]
        simp only [Bool.false_eq_true, if_false, Nat.add_zero]
        exact hnext k

theorem yields_palScan {τ : Ptr → NodeLength} {s : State} {n : Ptr} {ic : Ptr → M Bool}
    (h : Inv s) (hn : s.Reg n) (hcalls : Calls τ ic s n) (hhandler : s.env.handler = true)
    (rest : List Ptr) :
    ∀ (g : Nat) (done : List Ptr) (u : State) (e : Nat), rest.length < g →
      Mid τ s n done rest u →
      Yields (palScan ic g n done.length e) u fun r t =>
        r = e + rest.countP s.emptyLeaf ∧ ∃ done', Mid τ s n done' [] t := by
  induction rest with
  | nil =>
    intro g done u e hg hm
    obtain ⟨g, rfl⟩ := Nat.exists_eq_succ_of_ne_zero (Nat.ne_of_gt hg)
    rw [palScan]
    refine Yields.get ?_
    rw [show (u.heap n).childs[done.length]? = none by
      rw [show (u.heap n).childs = done ++ [] from hm.childs, List.append_nil]
      exact List.getElem?_eq_none (Nat.le_refl _)]
    exact Yields.pure ⟨rfl, done, hm⟩
  | cons c rest ih =>
    intro g done u e hg hm
    obtain ⟨g, rfl⟩ := Nat.exists_eq_succ_of_ne_zero (Nat.ne_of_gt (Nat.zero_lt_of_lt hg))
    have hg : rest.length < g := Nat.lt_of_succ_lt_succ hg
    have hc := hm.sub c List.mem_cons_self
    have hcr : c ∉ rest := (List.nodup_cons.mp hm.nodup).1
    rw [palScan]
    refine Yields.get ?_
    rw [show (u.heap n).childs[done.length]? = some c from (hm.slot h hn).at_]
    refine Yields.bind (hm.call h hn hcalls) ?_
    rintro b t ⟨hmt, hs, hmet, -⟩
    refine Yields.get ?_
    rw [List.countP_cons]
    split
    · next hexit =>
      -- a leaf that has ended: it is deleted, and counted if it is EMPTY
      rw [Bool.and_eq_true, beq_iff_eq] at hexit
      have hleaf : s.type c = .leaf := hmet.type ▸ hexit.2
      obtain ⟨g, rfl⟩ := Nat.exists_eq_succ_of_ne_zero (Nat.ne_of_gt (Nat.zero_lt_of_lt hg))
      have hempty : s.emptyLeaf c = ((t.heap c).len == .empty) := by
        rw [← hmet.empty, State.emptyLeaf, hexit.2]
        exact Bool.and_true _
      rw [hempty]
      split
      · next hlen =>
        have hu := hmt.hasEmpty h hn
        have hs' := hs.frame hmt.inv hu.inv (frame_edit (b := t.birth c) n .hasEmpty)
          (Nat.le_refl _)
        refine Yields.act_bind ?_
        have hnil : ((Label.edit n .hasEmpty).apply t).childs c = [] := by
          rw [edit_childs]
          exact hmet.childs hleaf
        refine Yields.bind (hu.delete h hn hhandler hs' hc hcr hnil g) ?_
        rintro _ v ⟨hmv, -⟩
        rw [if_pos (beq_iff_eq.mpr hlen), show e + (rest.countP s.emptyLeaf + 1) =
          e + 1 + rest.countP s.emptyLeaf by omega]
        exact ih (g + 1) done v (e + 1) hg hmv
      · next hlen =>
        rw [if_neg fun hcon => hlen (beq_iff_eq.mp hcon)]
        refine Yields.bind (hmt.delete h hn hhandler hs hc hcr (hmet.childs hleaf) g) ?_
        rintro _ v ⟨hmv, -⟩
        exact ih (g + 1) done v e hg hmv
    · next hexit =>
      have hempty : ¬ s.emptyLeaf c = true := by
        intro hcon
        refine hexit ?_
        rw [hmet.exited hcon, Bool.true_and, beq_iff_eq]
        exact (type_of_emptyLeaf (hmet.empty.trans hcon)).2
      rw [if_neg hempty]
      have := ih g (done ++ [c]) t e hg hmt
      rwa [List.length_append] at this

/-! ## The nodes -/

section

variable {τ : Ptr → NodeLength} {s u : State} {n : Ptr} {done : List Ptr} {b : Bool}

/-- The loop is over, and the length of `n` is right. -/
theorem Mid.walked (hm : Mid τ s n done [] u) (hcomp : (s.type n).Composite)
    (hlen : (u.heap n).len = τ n) (hb : b = true ↔ τ n = .empty) : Walked τ s n b u where
  off := hm.off
  len := by
    intro x hx hxc
    by_cases hxn : x = n
    · rw [hxn]
      exact hlen
    · exact hm.len x hx hxc hxn fun c hc => nomatch hc
  term := fun hno => absurd hcomp hno
  comp := fun _ => hb
  env := hm.env

/-- The loop is over, and the length of `n` is written. -/
theorem Mid.walked_edit (hm : Mid τ s n done [] u) (hcomp : (s.type n).Composite)
    (hb : b = true ↔ τ n = .empty) : Walked τ s n b ((Label.edit n (.len (τ n))).apply u) := by
  have hoff : ∀ x, x ≠ n → ((Label.edit n (.len (τ n))).apply u).heap x = u.heap x :=
    fun x hx => if_neg hx
  constructor
  · intro x hx
    rw [hoff x]
    · exact hm.off x hx
    · rintro rfl
      exact hx .refl
  · intro x hx hxc
    by_cases hxn : x = n
    · rw [hxn, show ((Label.edit n (.len (τ n))).apply u).heap n = { u.heap n with len := τ n } from
        if_pos rfl]
    · rw [hoff x hxn]
      exact hm.len x hx hxc hxn fun c hc => nomatch hc
  · exact fun hno => absurd hcomp hno
  · exact fun _ => hb
  · exact hm.env

end

theorem yields_andCorrect {τ : Ptr → NodeLength} {s : State} {n : Ptr} {ic : Ptr → M Bool}
    {f : Nat} (h : Inv s) (hn : s.Reg n) (hcalls : Calls τ ic s n)
    (hhandler : s.env.handler = true) (hf : (s.childs n).length < f)
    (hfits : Fits τ s n) (hand : s.type n = .and) :
    Yields (andCorrect ic f n) s (Walked τ s n) := by
  have hcomp : (s.type n).Composite := by
    rw [hand]
    trivial
  have hτ : ∀ c ∈ s.childs n, s.emptyLeaf c = true → τ c = .empty := by
    intro c hc hempty
    obtain ⟨hlen, hleaf⟩ := type_of_emptyLeaf hempty
    rw [← ((hcalls.fits c hc).term (not_composite_leaf hleaf)).2]
    exact hlen
  rw [andCorrect]
  refine Yields.get ?_
  refine Yields.bind (yields_andScan h hn hcalls hhandler (s.childs n) f [] s 0 0 hf (Mid.start h hn)) ?_
  rintro ⟨e, k⟩ t ⟨hres, ⟨done, hm⟩, hflag⟩
  rw [Nat.zero_add, Nat.zero_add] at hres
  cases hres
  have hval := hfits.and hand
  rw [← hflag] at hval
  refine Yields.get ?_
  unfold State.andLen at hval
  split
  · next hno =>
    -- no child has been EMPTY, ever
    rw [hno, if_neg Bool.false_ne_true] at hval
    refine Yields.act_bind (Yields.pure ?_)
    have hlen : (if ((s.childs n).countP fun c => τ c == .none) = (s.childs n).length
        then NodeLength.none else .more) = τ n := by
      rw [hval]
      exact if_congr countP_eq_length_iff rfl rfl
    rw [show (s.heap n).childs.length = (s.childs n).length from rfl, hlen]
    refine hm.walked_edit hcomp ?_
    rw [hval]
    split <;> simp
  · next hyes =>
    rw [Bool.not_eq_false] at hyes
    rw [hyes, if_pos rfl] at hval
    split
    · next hall =>
      rw [if_pos ((State.all_ended hτ).mp hall)] at hval
      refine Yields.act_bind (Yields.pure ?_)
      rw [← hval]
      exact hm.walked_edit hcomp (iff_of_true rfl hval)
    · next hall =>
      rw [if_neg fun hcon => hall ((State.all_ended hτ).mpr hcon)] at hval
      refine Yields.pure (hm.walked hcomp ?_ ?_)
      · -- the length is not written: it has been MORE
        rw [hm.self, hval]
        rcases hfits.stale hcomp with hs | hs
        · rw [hs, hval]
        · exact hs
      · rw [hval]
        simp

theorem yields_palCorrect {τ : Ptr → NodeLength} {s : State} {n : Ptr} {ic : Ptr → M Bool}
    {f : Nat} (h : Inv s) (hn : s.Reg n) (hcalls : Calls τ ic s n)
    (hhandler : s.env.handler = true) (hf : (s.childs n).length < f)
    (hfits : Fits τ s n) (hpal : s.type n = .pal) :
    Yields (palCorrect ic f n) s (Walked τ s n) := by
  have hcomp : (s.type n).Composite := by
    rw [hpal]
    trivial
  have hval := hfits.pal hpal
  unfold State.palLen at hval
  rw [palCorrect]
  refine Yields.get ?_
  refine Yields.bind (yields_palScan h hn hcalls hhandler (s.childs n) f [] s 0 hf (Mid.start h hn)) ?_
  rintro e t ⟨hres, done, hm⟩
  rw [Nat.zero_add] at hres
  subst hres
  refine Yields.get ?_
  rw [hm.self]
  split
  · next hlen =>
    -- it has been EMPTY before
    have hempty : τ n = .empty := by
      rcases hfits.stale hcomp with hs | hs
      · rw [← hs]
        exact hlen
      · rw [hlen] at hs
        cases hs
    exact Yields.pure (hm.walked hcomp (by rw [hm.self, hlen, hempty]) (iff_of_true rfl hempty))
  · next hlen =>
    split
    · next hall =>
      rw [if_pos (countP_eq_length_iff.mp hall)] at hval
      refine Yields.act_bind (Yields.pure ?_)
      rw [← hval]
      exact hm.walked_edit hcomp (iff_of_true rfl hval)
    · next hall =>
      rw [if_neg fun hcon => hall (countP_eq_length_iff.mpr hcon)] at hval
      refine Yields.pure (hm.walked hcomp ?_ ?_)
      · rw [hm.self, hval]
        rcases hfits.stale hcomp with hs | hs
        · rw [hs, hval]
        · exact hs
      · rw [hval]
        simp

/-- **isCorrectAndExit computes the lengths**, in the whole subtree. -/
theorem yields_isCorrectAndExit {τ : Ptr → NodeLength} {K : Nat} (f : Nat) :
    ∀ (n : Ptr) (s : State), Inv s → s.Reg n → Sub τ K f s n → s.env.handler = true →
      Yields (isCorrectAndExit f n) s (Walked τ s n) := by
  induction f with
  | zero =>
    intro n s _ _ hsub _
    have := hsub.depth n .refl
    omega
  | succ f ih =>
    intro n s h hn hsub hhandler
    have hfits := hsub.fits n .refl
    have hf : (s.childs n).length < f := by
      have := hsub.width n .refl
      have := hsub.depth n .refl
      omega
    have hcalls : Calls τ (isCorrectAndExit f) s n := by
      refine ⟨does_isCorrectAndExit f, ?_, ?_⟩
      · exact fun c hc => hsub.fits c (.trans_child hc .refl)
      · intro c hc u hu hcu hagree henv
        exact ih c u hu hcu ((hsub.child h hn hc).agree hagree) (by rw [henv, hhandler])
    -- a node that has no children to execute
    have hterm : ∀ b, ¬ (s.type n).Composite → (s.emptyLeaf n = true → b = true) →
        Walked τ s n b s := by
      intro b hno hb
      refine ⟨fun _ _ => rfl, ?_, fun _ => ⟨rfl, hb⟩, fun hcomp => absurd hcomp hno, rfl⟩
      intro x hx hxc
      rw [hx.eq_of_nil (hfits.term hno).1] at hxc
      exact absurd hxc hno
    rw [isCorrectAndExit]
    refine Yields.get ?_
    split
    · next hand => exact yields_andCorrect h hn hcalls hhandler hf hfits hand
    · next hpal => exact yields_palCorrect h hn hcalls hhandler hf hfits hpal
    · next hprj => exact absurd hprj hfits.type
    · next hkeep =>
      have hno : s.emptyLeaf n ≠ true := fun hcon => by
        have hleaf := (type_of_emptyLeaf hcon).2
        rw [State.type, hkeep] at hleaf
        cases hleaf
      refine Yields.pure (hterm _ ?_ fun hcon => absurd hcon hno)
      rw [State.type, hkeep]
      exact id
    · next halw =>
      have hno : s.emptyLeaf n ≠ true := fun hcon => by
        have hleaf := (type_of_emptyLeaf hcon).2
        rw [State.type, halw] at hleaf
        cases hleaf
      refine Yields.pure (hterm _ ?_ fun hcon => absurd hcon hno)
      rw [State.type, halw]
      exact id
    · next hleaf =>
      refine Yields.pure (hterm _ (not_composite_leaf hleaf) fun hcon => ?_)
      rw [(type_of_emptyLeaf hcon).1]
      exact Bool.or_true _

end Msvl.Function
