/-
  isCorrectAndExit at a node whose children are leaves, KEEP and ALW nodes.

  At such a child isCorrectAndExit only reads, so a call at the node is its loop and what follows it.
  `Left` describes the loop between two children: `done` is what it has kept of the children before
  the iterator, `rest` is still to come, and the objects of both are as they were.

  `yields_andCorrect_flat` and `yields_palCorrect_flat` say what one call does at an AND and at a PAL
  node; `Checked` is what it leaves.
-/
import LibMSVL.Function.Recompute

namespace Msvl.Function

open Msvl.Run

/-! ## Terminal children -/

/-- The children of the composite `n` are nodes that are not. -/
structure Flat (s : State) (n : Ptr) : Prop where
  composite : (s.type n).Composite
  terminal : ∀ c ∈ s.childs n, ¬ (s.type c).Composite
  reg : ∀ c ∈ s.childs n, s.Reg c
  bare : ∀ c ∈ s.childs n, s.type c = .leaf → s.childs c = []
  nodup : (s.childs n).Nodup
  root : ∀ c ∈ s.childs n, s.threadRoot ≠ some c

/-- What isCorrectAndExit returns at a node that is not composite. -/
def State.ended (s : State) (c : Ptr) : Bool :=
  s.isExit c || s.type c == .leaf && (s.heap c).len != .more

theorem Flat.own {s : State} {n : Ptr} (h : Flat s n) : n ∉ s.childs n :=
  fun hn => h.terminal n hn h.composite

/-- Writing to an object ends no thread, -/
theorem deletable_edit (s : State) (x : Ptr) (e : Edit) (y : Ptr) :
    ((Label.edit x e).apply s).Deletable y ↔ s.Deletable y := by
  have hthread : (((Label.edit x e).apply s).heap y).thread = (s.heap y).thread :=
    (sameMap_edit s x e).thread y
  rw [State.Deletable, State.Deletable, State.isExit, State.isExit, hthread,
    edit_global (φ := State.exited) s x e fun _ _ _ => rfl,
    edit_global (φ := State.env) s x e fun _ _ _ => rfl]

/-- and a thread that has ended stays so. -/
theorem deletable_exit {s : State} {c : Ptr} (id : Tid) (h : s.Deletable c) :
    ((Label.exit id).apply s).Deletable c := by
  refine h.imp_left fun hexit => ?_
  rcases (Bool.or_eq_true _ _).mp hexit with hzero | hold
  · exact (Bool.or_eq_true _ _).mpr (Or.inl hzero)
  · refine (Bool.or_eq_true _ _).mpr (Or.inr ?_)
    show Function.update s.exited id true (s.heap c).thread = true
    rw [Function.update_apply, hold, ite_self]

theorem Flat.joinable {s : State} {n c : Ptr} (h : Flat s n) (hc : c ∈ s.childs n)
    (hdel : s.Deletable c) : s.Joinable c :=
  hdel.imp_right fun hhandler => Or.inr ⟨h.root c hc, hhandler⟩

theorem Flat.edit {s : State} {n : Ptr} (h : Flat s n) (x : Ptr) (e : Edit) :
    Flat ((Label.edit x e).apply s) n := by
  have hchilds := edit_childs s x e
  obtain ⟨htype, hthread⟩ : (∀ y, ((Label.edit x e).apply s).type y = s.type y) ∧
      ∀ y, (((Label.edit x e).apply s).heap y).thread = (s.heap y).thread :=
    ⟨(sameMap_edit s x e).type, (sameMap_edit s x e).thread⟩
  refine ⟨?_, ?_, ?_, ?_, ?_, ?_⟩
  · rw [htype]
    exact h.composite
  · rw [hchilds]
    intro c hc
    rw [htype]
    exact h.terminal c hc
  · rw [hchilds]
    intro c hc
    rw [State.Reg, hthread, (sameMap_edit s x e).map]
    exact h.reg c hc
  · rw [hchilds]
    intro c hc
    rw [htype, hchilds]
    exact h.bare c hc
  · rw [hchilds]
    exact h.nodup
  · rw [hchilds, (sameMap_edit s x e).root]
    exact h.root

theorem yields_terminal {s : State} {c : Ptr} (hc : ¬ (s.type c).Composite) (f : Nat) :
    Yields (isCorrectAndExit (f + 1) c) s fun b t => t = s ∧ b = s.ended c := by
  rw [isCorrectAndExit]
  refine Yields.get ?_
  have hended : ∀ type, s.type c = type →
      s.ended c = (s.isExit c || type == .leaf && (s.heap c).len != .more) := by
    rintro _ rfl
    rfl
  split
  · next hand => exact absurd trivial (show ¬ NodeType.Composite .and from hand ▸ hc)
  · next hpal => exact absurd trivial (show ¬ NodeType.Composite .pal from hpal ▸ hc)
  · next hprj => exact absurd trivial (show ¬ NodeType.Composite .prj from hprj ▸ hc)
  · next hkeep => exact Yields.pure ⟨rfl, by rw [hended _ hkeep]; simp⟩
  · next halw => exact Yields.pure ⟨rfl, by rw [hended _ halw]; simp⟩
  · next hleaf => exact Yields.pure ⟨rfl, by rw [hended _ hleaf]; simp⟩

/-! ## Between two children -/

/-- A loop over the children of `n`: `done` is left of what it has passed, `rest` is to come.  The
    call at `n` began in `s`. -/
structure Left (s : State) (n : Ptr) (done rest : List Ptr) (u : State) : Prop where
  childs : u.childs n = done ++ rest
  same : ∀ c ∈ done ++ rest, u.heap c = s.heap c
  reg : ∀ c ∈ done ++ rest, u.Reg c
  exited : u.exited = s.exited
  root : u.threadRoot = s.threadRoot
  env : u.env = s.env
  type : u.type n = s.type n
  len : (u.heap n).len = (s.heap n).len
  sub : (done ++ rest).Sublist (s.childs n)

section

variable {s u : State} {n c : Ptr} {done rest : List Ptr} (h : Flat s n)

include h

theorem Left.start : Left s n [] (s.childs n) s where
  childs := rfl
  same := fun _ _ => rfl
  reg := h.reg
  exited := rfl
  root := rfl
  env := rfl
  type := rfl
  len := rfl
  sub := List.Sublist.refl _

theorem Left.ne (hl : Left s n done (c :: rest) u) : n ≠ c ∧ c ∉ done ++ rest := by
  have hnodup := h.nodup.sublist hl.sub
  refine ⟨?_, ?_⟩
  · rintro rfl
    exact h.own (hl.sub.subset (by simp))
  · rw [List.nodup_middle, List.nodup_cons] at hnodup
    exact hnodup.1

omit h in
/-- What is asked about the next child has not changed. -/
theorem Left.read (hl : Left s n done (c :: rest) u) :
    u.ended c = s.ended c ∧ u.emptyLeaf c = s.emptyLeaf c ∧ (u.Deletable c ↔ s.Deletable c) := by
  have hc : u.heap c = s.heap c := hl.same c (by simp)
  have hexit : u.isExit c = s.isExit c := by
    rw [State.isExit, State.isExit, hc, hl.exited]
  refine ⟨?_, State.emptyLeaf_congr hc, ?_⟩
  · rw [State.ended, State.ended, hexit, State.type, State.type, hc]
  · rw [State.Deletable, State.Deletable, hexit, hl.env]

theorem Left.call (hl : Left s n done (c :: rest) u) (f : Nat) :
    Yields (isCorrectAndExit (f + 1) c) u fun b t => t = u ∧ b = s.ended c := by
  have hterm : ¬ (u.type c).Composite := by
    rw [State.type, hl.same c (by simp)]
    exact h.terminal c (hl.sub.subset (by simp))
  refine (yields_terminal hterm f).imp fun b t hb => ?_
  rw [← hl.read.1]
  exact hb

omit h in
theorem Left.keep (hl : Left s n done (c :: rest) u) : Left s n (done ++ [c]) rest u := by
  have happend : done ++ [c] ++ rest = done ++ c :: rest := by rw [List.append_assoc]; rfl
  constructor
  · rw [happend]
    exact hl.childs
  · rw [happend]
    exact hl.same
  · rw [happend]
    exact hl.reg
  · exact hl.exited
  · exact hl.root
  · exact hl.env
  · exact hl.type
  · exact hl.len
  · rw [happend]
    exact hl.sub

/-- A write to the flag of `n` itself. -/
theorem Left.hasEmpty (hl : Left s n done rest u) :
    Left s n done rest ((Label.edit n .hasEmpty).apply u) := by
  have hne : ∀ c ∈ done ++ rest, c ≠ n := by
    rintro c hc rfl
    exact h.own (hl.sub.subset hc)
  constructor
  · rw [edit_childs]
    exact hl.childs
  · intro c hc
    exact (if_neg (hne c hc)).trans (hl.same c hc)
  · intro c hc
    show u.threadIDToNode (if c = n then _ else u.heap c).thread = some c
    rw [if_neg (hne c hc)]
    exact hl.reg c hc
  · exact hl.exited
  · exact hl.root
  · exact hl.env
  · exact (edit_field (g := Node.type) (fun _ => rfl) n).trans hl.type
  · exact (edit_field (g := Node.len) (fun _ => rfl) n).trans hl.len
  · exact hl.sub

/-- The next child is deleted. -/
theorem Left.destroy (hl : Left s n done (c :: rest) u) :
    Left s n done rest ((Label.destroy n done.length c).apply u) := by
  obtain ⟨hnc, hout⟩ := Left.ne h hl
  have hmem : ∀ x ∈ done ++ rest, x ∈ done ++ c :: rest := fun x hx => by
    rcases List.mem_append.mp hx with hx | hx
    · exact List.mem_append_left _ hx
    · exact List.mem_append_right _ (List.mem_cons_of_mem _ hx)
  have hheap : ∀ x ∈ done ++ rest, ((Label.destroy n done.length c).apply u).heap x = u.heap x := by
    intro x hx
    have hxn : x ≠ n := by
      rintro rfl
      exact h.own (hl.sub.subset (hmem x hx))
    have hxc : x ≠ c := by
      rintro rfl
      exact hout hx
    rw [apply_destroy, heap_modify, if_neg hxn, destroyNode_eq, heap_modify, if_neg hxc]
  constructor
  · rw [destroy_childs, if_pos rfl, hl.childs, List.eraseIdx_append_of_length_le (Nat.le_refl _),
      Nat.sub_self]
    rfl
  · exact fun x hx => (hheap x hx).trans (hl.same x (hmem x hx))
  · intro x hx
    have hreg := hl.reg x (hmem x hx)
    -- the threads of two registered nodes differ
    have hthread : (u.heap x).thread ≠ u.thread c := by
      intro heq
      have hcx : some x = some c := hreg.symm.trans (heq ▸ hl.reg c (by simp))
      exact hout (Option.some.inj hcx ▸ hx)
    rw [State.Reg, destroy_map, hheap x hx, Function.update_of_ne hthread]
    exact hreg
  · exact hl.exited
  · exact hl.root
  · exact hl.env
  · rw [State.type, destroy_field u n done.length c n (g := Node.type) fun _ _ => rfl]
    exact (destroyNode_field u c n (g := Node.type) fun _ _ _ _ _ => rfl).trans hl.type
  · rw [destroy_field u n done.length c n (g := Node.len) fun _ _ => rfl]
    exact (destroyNode_field u c n (g := Node.len) fun _ _ _ _ _ => rfl).trans hl.len
  · refine List.Sublist.trans ?_ hl.sub
    exact (List.Sublist.refl done).append (List.sublist_cons_self c rest)

omit h in
/-- The children in `rest`, and where the iterator stands. -/
theorem Left.at (hl : Left s n done rest u) : (u.heap n).childs[done.length]? = rest.head? := by
  rw [show (u.heap n).childs = done ++ rest from hl.childs,
    List.getElem?_append_right (Nat.le_refl _), Nat.sub_self]
  exact List.head?_eq_getElem?.symm

/-! ## The loops -/

omit h in
theorem State.ended_of_emptyLeaf {s : State} {c : Ptr} (hc : s.emptyLeaf c = true) :
    s.ended c = true := by
  obtain ⟨hlen, hleaf⟩ := type_of_emptyLeaf hc
  rw [State.ended, hleaf, hlen]
  exact Bool.or_true _

theorem Left.delete (hl : Left s n done (c :: rest) u) (hleaf : s.type c = .leaf)
    (hdel : s.Deletable c) (g : Nat) :
    Yields (deleteSlot (g + 1) n done.length c) u fun _ t => Left s n done rest t ∧
      (t.heap n).hasEmpty = (u.heap n).hasEmpty := by
  have hnil : u.childs c = [] := by
    rw [State.childs, hl.same c (by simp)]
    exact h.bare c (hl.sub.subset (by simp)) hleaf
  have hjoin : u.Joinable c := by
    refine (hl.read.2.2.mpr hdel).imp_right fun hhandler => Or.inr ⟨?_, hhandler⟩
    rw [hl.root]
    exact h.root c (hl.sub.subset (by simp))
  obtain ⟨a, es, t, hev, rfl⟩ := yields_deleteSlot (f := g) (n := n) (i := done.length)
    (hl.reg c (by simp)) hnil hjoin
  refine ⟨a, es, _, hev, Left.destroy h hl, ?_⟩
  rw [destroy_field u n done.length c n (g := Node.hasEmpty) fun _ _ => rfl]
  exact destroyNode_field u c n (g := Node.hasEmpty) fun _ _ _ _ _ => rfl

theorem yields_andScan_flat (hdel : ∀ c ∈ s.childs n, s.emptyLeaf c = true → s.Deletable c)
    (f : Nat) (rest : List Ptr) :
    ∀ (g : Nat) (done : List Ptr) (u : State) (e k : Nat), rest.length < g → Left s n done rest u →
      Yields (andScan (isCorrectAndExit (f + 1)) g n done.length e k) u fun r t =>
        r = (e + rest.countP s.emptyLeaf, k + rest.countP fun c => (s.heap c).len == .none) ∧
        Left s n (done ++ rest.filter fun c => !s.emptyLeaf c) [] t ∧
        (t.heap n).hasEmpty = ((u.heap n).hasEmpty || rest.any s.emptyLeaf) := by
  induction rest with
  | nil =>
    intro g done u e k hg hl
    obtain ⟨g, rfl⟩ := Nat.exists_eq_succ_of_ne_zero (Nat.ne_of_gt hg)
    rw [andScan]
    refine Yields.get ?_
    rw [hl.at]
    refine Yields.pure ⟨rfl, ?_, (Bool.or_false _).symm⟩
    rw [List.filter_nil, List.append_nil]
    exact hl
  | cons c rest ih =>
    intro g done u e k hg hl
    obtain ⟨g, rfl⟩ := Nat.exists_eq_succ_of_ne_zero (Nat.ne_of_gt (Nat.zero_lt_of_lt hg))
    have hg : rest.length < g := Nat.lt_of_succ_lt_succ hg
    rw [andScan]
    refine Yields.get ?_
    rw [hl.at]
    refine Yields.bind (hl.call h f) ?_
    rintro b t ⟨rfl, rfl⟩
    refine Yields.get ?_
    have hmem : c ∈ s.childs n := hl.sub.subset (by simp)
    rw [hl.read.2.1, List.countP_cons, List.countP_cons, List.any_cons, List.filter_cons]
    by_cases hempty : s.emptyLeaf c = true
    · -- an EMPTY leaf: it is counted and deleted
      obtain ⟨hlen, hleaf⟩ := type_of_emptyLeaf hempty
      rw [if_pos hempty, State.ended_of_emptyLeaf hempty, hempty]
      refine Yields.act_bind ?_
      rw [if_pos rfl]
      obtain ⟨g, rfl⟩ := Nat.exists_eq_succ_of_ne_zero (Nat.ne_of_gt (Nat.zero_lt_of_lt hg))
      refine Yields.bind ((hl.hasEmpty h).delete h hleaf (hdel c hmem hempty) g) ?_
      rintro _ v ⟨hv, hflag⟩
      refine (ih (g + 1) done v (e + 1) k hg hv).imp ?_
      rintro r w ⟨hr, hw, hwflag⟩
      refine ⟨?_, hw, ?_⟩
      · rw [hr, hlen]
        simp
        omega
      · have htrue : (((Label.edit n .hasEmpty).apply t).heap n).hasEmpty = true := by
          show ((t.modify n _).heap n).hasEmpty = true
          rw [heap_modify, if_pos rfl]
          rfl
        rw [hwflag, hflag, htrue, Bool.true_or, Bool.or_true]
    · -- it stays
      rw [if_neg hempty]
      rw [Bool.not_eq_true] at hempty
      rw [hempty, show (t.heap c).len = (s.heap c).len by rw [hl.same c (by simp)]]
      have hnext : ∀ k', Yields (andScan (isCorrectAndExit (f + 1)) g n (done.length + 1) e k') t
          fun r w =>
            r = (e + rest.countP s.emptyLeaf, k' + rest.countP fun c => (s.heap c).len == .none) ∧
            Left s n (done ++ c :: rest.filter fun c => !s.emptyLeaf c) [] w ∧
            (w.heap n).hasEmpty = ((t.heap n).hasEmpty || rest.any s.emptyLeaf) := by
        intro k'
        have := ih g (done ++ [c]) t e k' hg hl.keep
        rwa [List.length_append, List.append_assoc] at this
      by_cases hnone : (s.heap c).len = .none
      · rw [if_pos hnone, hnone]
        refine (hnext (k + 1)).imp ?_
        rintro r w ⟨hr, hw, hflag⟩
        refine ⟨?_, hw, by rw [hflag, Bool.false_or]⟩
        rw [hr]
        simp
        omega
      · rw [if_neg hnone]
        refine (hnext k).imp ?_
        rintro r w ⟨hr, hw, hflag⟩
        refine ⟨?_, hw, by rw [hflag, Bool.false_or]⟩
        rw [hr]
        simp [hnone]

theorem yields_palScan_flat
    (hdel : ∀ c ∈ s.childs n, (s.ended c && s.type c == .leaf) = true → s.Deletable c)
    (f : Nat) (rest : List Ptr) :
    ∀ (g : Nat) (done : List Ptr) (u : State) (e : Nat), rest.length < g → Left s n done rest u →
      Yields (palScan (isCorrectAndExit (f + 1)) g n done.length e) u fun r t =>
        r = e + rest.countP s.emptyLeaf ∧
        Left s n (done ++ rest.filter fun c => !(s.ended c && s.type c == .leaf)) [] t := by
  induction rest with
  | nil =>
    intro g done u e hg hl
    obtain ⟨g, rfl⟩ := Nat.exists_eq_succ_of_ne_zero (Nat.ne_of_gt hg)
    rw [palScan]
    refine Yields.get ?_
    rw [hl.at]
    refine Yields.pure ⟨rfl, ?_⟩
    rw [List.filter_nil, List.append_nil]
    exact hl
  | cons c rest ih =>
    intro g done u e hg hl
    obtain ⟨g, rfl⟩ := Nat.exists_eq_succ_of_ne_zero (Nat.ne_of_gt (Nat.zero_lt_of_lt hg))
    have hg : rest.length < g := Nat.lt_of_succ_lt_succ hg
    rw [palScan]
    refine Yields.get ?_
    rw [hl.at]
    refine Yields.bind (hl.call h f) ?_
    rintro b t ⟨rfl, rfl⟩
    refine Yields.get ?_
    rw [show t.heap c = s.heap c from hl.same c (by simp), List.countP_cons, List.filter_cons]
    by_cases hexit : (s.ended c && s.type c == .leaf) = true
    · -- a leaf that has ended: it is deleted, and counted if it is EMPTY
      have hleaf : s.type c = .leaf := by
        rw [Bool.and_eq_true, beq_iff_eq] at hexit
        exact hexit.2
      have hempty : s.emptyLeaf c = ((s.heap c).len == .empty) := by
        rw [State.emptyLeaf, show (s.heap c).type = .leaf from hleaf]
        exact Bool.and_true _
      rw [if_pos (show (s.ended c && (s.heap c).type == .leaf) = true from hexit), hexit, hempty]
      obtain ⟨g, rfl⟩ := Nat.exists_eq_succ_of_ne_zero (Nat.ne_of_gt (Nat.zero_lt_of_lt hg))
      have hdel := hdel c (hl.sub.subset (by simp)) hexit
      by_cases hlen : (s.heap c).len = .empty
      · rw [if_pos hlen, hlen]
        refine Yields.act_bind ?_
        refine Yields.bind ((hl.hasEmpty h).delete h hleaf hdel g) ?_
        rintro _ v ⟨hv, -⟩
        refine (ih (g + 1) done v (e + 1) hg hv).imp ?_
        rintro r w ⟨hr, hw⟩
        refine ⟨?_, hw⟩
        rw [hr]
        simp
        omega
      · rw [if_neg hlen]
        refine Yields.bind (hl.delete h hleaf hdel g) ?_
        rintro _ v ⟨hv, -⟩
        refine (ih (g + 1) done v e hg hv).imp ?_
        rintro r w ⟨hr, hw⟩
        refine ⟨?_, hw⟩
        rw [hr]
        simp [hlen]
    · have hempty : s.emptyLeaf c = false := by
        rw [Bool.eq_false_iff]
        intro hcon
        refine hexit ?_
        rw [State.ended_of_emptyLeaf hcon, (type_of_emptyLeaf hcon).2]
        rfl
      rw [if_neg (show ¬ (s.ended c && (s.heap c).type == .leaf) = true from hexit), hempty]
      rw [Bool.not_eq_true] at hexit
      rw [hexit]
      have := ih g (done ++ [c]) t e hg hl.keep
      rw [List.length_append, List.append_assoc] at this
      exact this

/-! ## The call -/

omit h in
/-- After a call at `n` that began in `s`: `kept` are the children that have not been deleted. -/
structure Checked (s : State) (n : Ptr) (kept : List Ptr) (u : State) : Prop where
  flat : Flat u n
  childs : u.childs n = kept
  same : ∀ c ∈ kept, u.heap c = s.heap c
  exited : u.exited = s.exited
  env : u.env = s.env
  type : u.type n = s.type n

theorem Left.checked (hl : Left s n done rest u) : Checked s n (done ++ rest) u := by
  have hsub : ∀ c ∈ done ++ rest, c ∈ s.childs n := fun c hc => hl.sub.subset hc
  refine ⟨⟨?_, ?_, ?_, ?_, ?_, ?_⟩, hl.childs, hl.same, hl.exited, hl.env, hl.type⟩
  · rw [hl.type]
    exact h.composite
  · rw [hl.childs]
    intro c hc
    rw [State.type, hl.same c hc]
    exact h.terminal c (hsub c hc)
  · rw [hl.childs]
    exact hl.reg
  · rw [hl.childs]
    intro c hc
    rw [State.type, State.childs, hl.same c hc]
    exact h.bare c (hsub c hc)
  · rw [hl.childs]
    exact h.nodup.sublist hl.sub
  · rw [hl.childs, hl.root]
    exact fun c hc => h.root c (hsub c hc)

omit h in
/-- The length of `n` is written last. -/
theorem Checked.edit {kept : List Ptr} (hk : Checked s n kept u) (l : NodeLength) :
    Checked s n kept ((Label.edit n (.len l)).apply u) := by
  have htype : ((Label.edit n (.len l)).apply u).type n = u.type n :=
    edit_field (g := Node.type) (fun _ => rfl) n
  refine ⟨hk.flat.edit n _, ?_, ?_, hk.exited, hk.env, htype.trans hk.type⟩
  · rw [edit_childs]
    exact hk.childs
  · intro c hc
    rw [← hk.same c hc]
    refine if_neg ?_
    rintro rfl
    exact hk.flat.own (hk.childs ▸ hc)

/-- **One call at an AND node.** -/
theorem yields_andCorrect_flat (hand : s.type n = .and)
    (hdel : ∀ c ∈ s.childs n, s.emptyLeaf c = true → s.Deletable c) {f : Nat}
    (hf : (s.childs n).length < f) :
    Yields (isCorrectAndExit (f + 1) n) s fun b u =>
      Checked s n ((s.childs n).filter fun c => !s.emptyLeaf c) u ∧
      (u.heap n).hasEmpty = ((s.heap n).hasEmpty || (s.childs n).any s.emptyLeaf) ∧
      (b = true ↔ (u.heap n).hasEmpty = true ∧
        ∀ c ∈ s.childs n, s.emptyLeaf c = true ∨ (s.heap c).len = .none) ∧
      (b = true → (u.heap n).len = .empty) ∧
      ((u.heap n).hasEmpty = false →
        (u.heap n).len = if ∀ c ∈ s.childs n, (s.heap c).len = .none then .none else .more) ∧
      (b = false → (u.heap n).hasEmpty = true → (u.heap n).len = (s.heap n).len) := by
  obtain ⟨f, rfl⟩ := Nat.exists_eq_succ_of_ne_zero (Nat.ne_of_gt (Nat.zero_lt_of_lt hf))
  rw [isCorrectAndExit]
  refine Yields.get ?_
  rw [show (s.heap n).type = .and from hand]
  refine Yields.get ?_
  refine Yields.bind (yields_andScan_flat h hdel f (s.childs n) _ [] s 0 0 hf (Left.start h)) ?_
  rintro ⟨e, k⟩ t ⟨hr, hl, hflag⟩
  rw [Nat.zero_add, Nat.zero_add, Prod.mk.injEq] at hr
  obtain ⟨rfl, rfl⟩ := hr
  have hk := Left.checked h hl
  rw [List.nil_append, List.append_nil] at hk
  have hkeep : ∀ l, (((Label.edit n (.len l)).apply t).heap n).hasEmpty = (t.heap n).hasEmpty :=
    fun l => edit_field (g := Node.hasEmpty) (fun _ => rfl) n
  have hlen : ∀ l, (((Label.edit n (.len l)).apply t).heap n).len = l := by
    intro l
    show ((t.modify n _).heap n).len = l
    rw [heap_modify, if_pos rfl]
    rfl
  have hempty : ∀ c ∈ s.childs n, s.emptyLeaf c = true → (fun c => (s.heap c).len) c = .empty :=
    fun c _ hc => (type_of_emptyLeaf hc).1
  have hall := State.all_ended hempty
  refine Yields.get ?_
  split
  · next hno =>
    -- no child has been EMPTY, ever
    refine Yields.act_bind (Yields.pure ⟨hk.edit _, (hkeep _).trans hflag, ?_, by simp, fun _ => ?_,
      fun _ hcon => ?_⟩)
    · rw [hkeep, hno]
      simp
    · rw [hlen]
      refine if_congr ?_ rfl rfl
      rw [show (s.heap n).childs.length = (s.childs n).length from rfl, countP_eq_length_iff]
      simp
    · rw [hkeep, hno] at hcon
      cases hcon
  · next hyes =>
    rw [Bool.not_eq_false] at hyes
    split
    · next hcount =>
      refine Yields.act_bind (Yields.pure ⟨hk.edit _, (hkeep _).trans hflag, ?_, fun _ => hlen _, ?_,
        fun hcon => ?_⟩)
      · rw [hkeep, hyes]
        simpa using hall.mp hcount
      · rw [hkeep, hyes]
        simp
      · cases hcon
    · next hcount =>
      refine Yields.pure ⟨hk, hflag, ?_, by simp, ?_, fun _ _ => hl.len⟩
      · refine ⟨by simp, fun hcon => absurd (hall.mpr ?_) hcount⟩
        simpa using hcon.2
      · rw [hyes]
        simp

/-- **One call at a PAL node.** -/
theorem yields_palCorrect_flat (hpal : s.type n = .pal)
    (hdel : ∀ c ∈ s.childs n, (s.ended c && s.type c == .leaf) = true → s.Deletable c) {f : Nat}
    (hf : (s.childs n).length < f) :
    Yields (isCorrectAndExit (f + 1) n) s fun b u =>
      Checked s n ((s.childs n).filter fun c => !(s.ended c && s.type c == .leaf)) u ∧
      (b = true ↔ (s.heap n).len = .empty ∨ ∀ c ∈ s.childs n, s.emptyLeaf c = true) ∧
      (u.heap n).len = if b then .empty else (s.heap n).len := by
  obtain ⟨f, rfl⟩ := Nat.exists_eq_succ_of_ne_zero (Nat.ne_of_gt (Nat.zero_lt_of_lt hf))
  rw [isCorrectAndExit]
  refine Yields.get ?_
  rw [show (s.heap n).type = .pal from hpal]
  refine Yields.get ?_
  refine Yields.bind (yields_palScan_flat h hdel f (s.childs n) _ [] s 0 hf (Left.start h)) ?_
  rintro e t ⟨hr, hl⟩
  rw [Nat.zero_add] at hr
  subst hr
  have hk := Left.checked h hl
  rw [List.nil_append, List.append_nil] at hk
  have hall := countP_eq_length_iff (p := s.emptyLeaf) (l := s.childs n)
  rw [List.all_eq_true] at hall
  refine Yields.get ?_
  rw [hl.len]
  split
  · next hlen => exact Yields.pure ⟨hk, by simp [hlen], by rw [hl.len, hlen]; rfl⟩
  · next hlen =>
    split
    · next hcount =>
      refine Yields.act_bind (Yields.pure ⟨hk.edit _, ?_, ?_⟩)
      · exact iff_of_true rfl (Or.inr (hall.mp hcount))
      · show ((t.modify n _).heap n).len = _
        rw [heap_modify, if_pos rfl]
        rfl
    · next hcount =>
      refine Yields.pure ⟨hk, iff_of_false Bool.false_ne_true ?_, hl.len⟩
      rintro (hcon | hcon)
      · exact hlen hcon
      · exact hcount (hall.mpr hcon)

end

/-- isCorrectAndExit at `n`, with a bound that is large enough. -/
def Returns (n : Ptr) (s : State) (b : Bool) (t : State) : Prop :=
  ∃ f es, (s.childs n).length < f ∧ Eval (isCorrectAndExit (f + 1) n) s b es t

/-- What every large enough bound yields holds where the call has returned. -/
theorem Returns.of_yields {n : Ptr} {s t : State} {b : Bool} {Q : Bool → State → Prop}
    (h : Returns n s b t)
    (hq : ∀ f, (s.childs n).length < f → Yields (isCorrectAndExit (f + 1) n) s Q) : Q b t := by
  obtain ⟨f, es, hf, hev⟩ := h
  have hone : Yields (isCorrectAndExit (f + 1) n) s fun b' t' => b' = b ∧ t' = t :=
    ⟨b, es, t, hev, rfl, rfl⟩
  obtain ⟨_, _, _, -, ⟨rfl, rfl⟩, hq⟩ := hone.both (hq f hf)
  exact hq

end Msvl.Function
