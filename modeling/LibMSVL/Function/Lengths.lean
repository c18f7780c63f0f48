/-
  Lengths of AND and PAL nodes.

  `andLen`, `palLen`: the length that the children of a node, and its flag, determine.  `Fits τ s x`:
  at `x`, the lengths `τ` are the ones determined; the stored length of an AND or PAL node is `τ` or
  still MORE.  `Sub` is `Fits` in a whole subtree.
-/
import LibMSVL.Function.Orphan

namespace Msvl.Function

/-! ## Below a node -/

theorem State.Below.trans_child {s : State} {n c x : Ptr} (hc : c ∈ s.childs n)
    (hx : s.Below c x) : s.Below n x := by
  induction hx with
  | refl =>
    obtain ⟨i, hi⟩ := State.at_iff_mem.mp hc
    exact .child .refl hi
  | child _ hat ih => exact ih.child hat

theorem State.Below.eq_of_nil {s : State} {n x : Ptr} (hnil : s.childs n = [])
    (hx : s.Below n x) : x = n := by
  induction hx with
  | refl => rfl
  | child _ hat ih =>
    rw [ih, State.At, hnil] at hat
    cases hat

theorem State.InTree.below {s : State} {n x : Ptr} (hn : s.InTree n) (hx : s.Below n x) :
    s.InTree x := by
  induction hx with
  | refl => exact hn
  | child _ hat ih => exact ih.child (State.at_iff_mem.mpr ⟨_, hat⟩)

/-- The tree is what is below the root. -/
theorem State.inTree_iff {s : State} {x : Ptr} :
    s.InTree x ↔ ∃ r, s.threadRoot = some r ∧ s.Below r x := by
  constructor
  · rintro ⟨p, hp⟩
    induction hp with
    | root hr => exact ⟨_, hr, .refl⟩
    | child _ hat ih =>
      obtain ⟨r, hr, hF⟩ := ih
      exact ⟨r, hr, hF.child hat⟩
  · rintro ⟨r, hr, hx⟩
    exact State.InTree.below ⟨[], .root hr⟩ hx

theorem below_congr {s u : State} (hchilds : ∀ x, u.childs x = s.childs x) {n x : Ptr} :
    u.Below n x ↔ s.Below n x := by
  have hbelow : ∀ {v w : State}, (∀ y, v.childs y = w.childs y) →
      ∀ y, v.Below n y → w.Below n y := by
    intro v w hchilds y hy
    induction hy with
    | refl => exact .refl
    | @child F i y _ hat ih =>
      refine ih.child (i := i) ?_
      rwa [State.At, hchilds] at hat
  exact ⟨hbelow hchilds x, hbelow (fun y => (hchilds y).symm) x⟩

theorem inTree_congr {s u : State} (hroot : u.threadRoot = s.threadRoot)
    (hchilds : ∀ x, u.childs x = s.childs x) {x : Ptr} : u.InTree x ↔ s.InTree x := by
  rw [State.inTree_iff, State.inTree_iff, hroot]
  exact exists_congr fun r => and_congr_right fun _ => below_congr hchilds

/-- The subtree of `c` is the same in states that agree on it. -/
theorem State.Below.agree {s u : State} {c : Ptr} (h : ∀ x, s.Below c x → u.heap x = s.heap x)
    {x : Ptr} : u.Below c x ↔ s.Below c x := by
  constructor
  · intro hx
    induction hx with
    | refl => exact .refl
    | @child F i x _ hat ih =>
      refine ih.child (i := i) ?_
      rwa [State.At, State.childs, h _ ih] at hat
  · intro hx
    induction hx with
    | refl => exact .refl
    | @child F i x hF hat ih =>
      refine ih.child (i := i) ?_
      rwa [State.At, State.childs, h F hF]

section

variable {s : State} (h : Inv s)

include h

theorem Inv.below_reg {n x : Ptr} (hn : s.Reg n) (hx : s.Below n x) :
    s.Reg x ∧ s.birth n ≤ s.birth x := by
  induction hx with
  | refl => exact ⟨hn, Nat.le_refl _⟩
  | child _ hat ih =>
    obtain ⟨hF, hb⟩ := ih
    obtain ⟨hreg, hlt⟩ := h.mem_child hF (State.at_iff_mem.mpr ⟨_, hat⟩)
    exact ⟨hreg, by omega⟩

theorem Inv.child_father {n c : Ptr} (hn : s.Reg n) (hc : c ∈ s.childs n) :
    s.father c = some n := by
  obtain ⟨i, hi⟩ := State.at_iff_mem.mp hc
  exact (h.held n (h.alloc hn) (Or.inl hn) i c hi).2

/-- A node is not below its children. -/
theorem Inv.not_below_child {n c : Ptr} (hn : s.Reg n) (hc : c ∈ s.childs n) :
    ¬ s.Below c n := by
  intro hx
  obtain ⟨hreg, hlt⟩ := h.mem_child hn hc
  have := (h.below_reg hreg hx).2
  omega

/-- The subtrees of two children are disjoint. -/
theorem Inv.below_disjoint {n c c' x : Ptr} (hn : s.Reg n) (hc : c ∈ s.childs n)
    (hc' : c' ∈ s.childs n) (hne : c ≠ c') (hx : s.Below c x) : ¬ s.Below c' x := by
  have hcr := (h.mem_child hn hc).1
  have hcr' := (h.mem_child hn hc').1
  -- a node below `c'` is `c'` or has its father there
  have hup : ∀ y, s.Below c' y → y = c' ∨ ∃ F, s.father y = some F ∧ s.Below c' F := by
    intro y hy
    cases hy with
    | refl => exact Or.inl rfl
    | child hF hat =>
      have hFr := (h.below_reg hcr' hF).1
      exact Or.inr ⟨_, h.child_father hFr (State.at_iff_mem.mpr ⟨_, hat⟩), hF⟩
  induction hx with
  | refl =>
    intro hy
    rcases hup c hy with heq | ⟨F, hF, hF'⟩
    · exact hne heq
    · rw [h.child_father hn hc] at hF
      cases hF
      exact h.not_below_child hn hc' hF'
  | child hF hat ih =>
    intro hy
    have hFr := (h.below_reg hcr hF).1
    have hfather := h.child_father hFr (State.at_iff_mem.mpr ⟨_, hat⟩)
    rcases hup _ hy with rfl | ⟨G, hG, hG'⟩
    · rw [h.child_father hn hc'] at hfather
      cases hfather
      exact h.not_below_child hn hc hF
    · rw [hfather] at hG
      cases hG
      exact ih hG'

end

/-! ## Counting -/

/-- Counts of properties that exclude each other. -/
theorem countP_or {α : Type} {p q : α → Bool} {l : List α}
    (h : ∀ c ∈ l, p c = true → q c = false) :
    l.countP p + l.countP q = l.countP fun c => p c || q c := by
  induction l with
  | nil => rfl
  | cons c l ih =>
    have ih := ih fun x hx => h x (List.mem_cons_of_mem _ hx)
    have hc := h c List.mem_cons_self
    rw [List.countP_cons, List.countP_cons, List.countP_cons]
    cases hp : p c with
    | true =>
      rw [hc hp]
      simp only [Bool.true_or, Bool.false_eq_true, if_true, if_false]
      omega
    | false =>
      simp only [Bool.false_or, Bool.false_eq_true, if_false]
      omega

theorem countP_eq_length_iff {α : Type} {p : α → Bool} {l : List α} :
    l.countP p = l.length ↔ l.all p = true := by
  rw [List.countP_eq_length, List.all_eq_true]

/-! ## Lengths -/

/-- The length of an AND node whose children have the lengths `len`. -/
def State.andLen (s : State) (len : Ptr → NodeLength) (n : Ptr) (hasEmpty : Bool) : NodeLength :=
  if hasEmpty then
    if (s.childs n).all fun c => s.emptyLeaf c || len c == .none then .empty else .more
  else if (s.childs n).all fun c => len c == .none then .none else .more

/-- The length of a PAL node. -/
def State.palLen (s : State) (n : Ptr) : NodeLength :=
  if (s.childs n).all s.emptyLeaf then .empty else .more

/-- At `x`, the lengths `τ` are the ones to compute. -/
structure Fits (τ : Ptr → NodeLength) (s : State) (x : Ptr) : Prop where
  type : s.type x ≠ .prj
  term : ¬ (s.type x).Composite → s.childs x = [] ∧ (s.heap x).len = τ x
  and : s.type x = .and →
    τ x = s.andLen τ x ((s.heap x).hasEmpty || (s.childs x).any s.emptyLeaf)
  pal : s.type x = .pal → τ x = s.palLen x
  stale : (s.type x).Composite → (s.heap x).len = τ x ∨ (s.heap x).len = .more

/-- The subtree of `n` fits, and the bound `f` is enough for it. -/
structure Sub (τ : Ptr → NodeLength) (K f : Nat) (s : State) (n : Ptr) : Prop where
  fits : ∀ x, s.Below n x → Fits τ s x
  width : ∀ x, s.Below n x → (s.childs x).length ≤ K
  depth : ∀ x, s.Below n x → s.birth x + K + 2 ≤ f + s.birth n

theorem State.emptyLeaf_congr {s u : State} {c : Ptr} (h : u.heap c = s.heap c) :
    u.emptyLeaf c = s.emptyLeaf c := by
  unfold State.emptyLeaf
  rw [h]

theorem not_composite_leaf {s : State} {c : Ptr} (hc : s.type c = .leaf) :
    ¬ (s.type c).Composite := by
  rw [hc]
  exact id

theorem type_of_emptyLeaf {s : State} {c : Ptr} (hc : s.emptyLeaf c = true) :
    (s.heap c).len = .empty ∧ s.type c = .leaf := by
  unfold State.emptyLeaf at hc
  rw [Bool.and_eq_true, beq_iff_eq, beq_iff_eq] at hc
  exact hc

/-- The condition for EMPTY, counted. -/
theorem State.all_ended {s : State} {τ : Ptr → NodeLength} {cs : List Ptr}
    (hτ : ∀ c ∈ cs, s.emptyLeaf c = true → τ c = .empty) :
    cs.countP s.emptyLeaf + cs.countP (fun c => τ c == .none) = cs.length ↔
      (cs.all fun c => s.emptyLeaf c || τ c == .none) = true := by
  rw [countP_or, countP_eq_length_iff]
  intro c hc hempty
  rw [hτ c hc hempty]
  rfl

/-- The length of an AND node, counted. -/
theorem State.andLen_counted {s : State} {τ : Ptr → NodeLength} {x : Ptr} {b : Bool}
    (hτ : ∀ c ∈ s.childs x, s.emptyLeaf c = true → τ c = .empty)
    (hb : b = false → (s.childs x).countP s.emptyLeaf = 0) :
    s.andLen τ x b =
      if ((s.childs x).countP fun c => τ c == .none) = (s.childs x).length ∧ b = false then .none
      else if (s.childs x).countP s.emptyLeaf +
          (if b then (s.childs x).countP fun c => τ c == .none else 0) = (s.childs x).length
        then .empty
      else .more := by
  unfold State.andLen
  cases b with
  | true =>
    simp only [Bool.true_eq_false, and_false, if_true, if_false]
    exact if_congr (State.all_ended hτ).symm rfl rfl
  | false =>
    simp only [Bool.false_eq_true, if_false, hb rfl, Nat.add_zero, and_true]
    by_cases hall : (s.childs x).all (fun c => τ c == .none) = true
    · rw [if_pos hall, if_pos (countP_eq_length_iff.mpr hall)]
    · rw [if_neg hall, if_neg fun hcon => hall (countP_eq_length_iff.mp hcon)]
      -- without children, all of them would be NONE
      rw [if_neg]
      intro hlen
      rw [List.length_eq_zero_iff.mp hlen.symm] at hall
      exact hall rfl

/-! What the children look like is enough. -/

section

variable {s u : State} {x : Ptr} (hchilds : u.childs x = s.childs x)
  (hempty : ∀ c ∈ s.childs x, u.emptyLeaf c = s.emptyLeaf c)

include hchilds hempty

theorem any_congr : (u.childs x).any u.emptyLeaf = (s.childs x).any s.emptyLeaf := by
  rw [hchilds, Bool.eq_iff_iff, List.any_eq_true, List.any_eq_true]
  exact exists_congr fun c => and_congr_right fun hc => by rw [hempty c hc]

theorem andLen_congr {τ τ' : Ptr → NodeLength} {b : Bool}
    (hnone : ∀ c ∈ s.childs x, (τ' c == .none) = (τ c == .none)) :
    u.andLen τ' x b = s.andLen τ x b := by
  have hall : ∀ p q : Ptr → Bool, (∀ c ∈ s.childs x, p c = q c) →
      (s.childs x).all p = (s.childs x).all q := by
    intro p q hpq
    rw [Bool.eq_iff_iff, List.all_eq_true, List.all_eq_true]
    exact forall₂_congr fun c hc => by rw [hpq c hc]
  unfold State.andLen
  rw [hchilds, hall _ _ hnone, hall _ _ fun c hc => by rw [hempty c hc, hnone c hc]]

theorem palLen_congr : u.palLen x = s.palLen x := by
  have hall : (s.childs x).all u.emptyLeaf = (s.childs x).all s.emptyLeaf := by
    rw [Bool.eq_iff_iff, List.all_eq_true, List.all_eq_true]
    exact forall₂_congr fun c hc => by rw [hempty c hc]
  unfold State.palLen
  rw [hchilds, hall]

end

section

variable {τ : Ptr → NodeLength} {K f : Nat} {s u : State} {n c x : Ptr}

theorem Fits.agree (hf : Fits τ s x) (hx : u.heap x = s.heap x)
    (hc : ∀ c ∈ s.childs x, u.heap c = s.heap c) : Fits τ u x := by
  have hchilds : u.childs x = s.childs x := by rw [State.childs, hx]
  have htype : u.type x = s.type x := by rw [State.type, hx]
  have hempty : ∀ c ∈ s.childs x, u.emptyLeaf c = s.emptyLeaf c :=
    fun c hmem => State.emptyLeaf_congr (hc c hmem)
  constructor
  · rw [htype]
    exact hf.type
  · rw [htype, hchilds, hx]
    exact hf.term
  · intro hand
    rw [htype] at hand
    rw [hf.and hand, andLen_congr hchilds hempty fun _ _ => rfl, any_congr hchilds hempty, hx]
  · intro hpal
    rw [htype] at hpal
    rw [hf.pal hpal, palLen_congr hchilds hempty]
  · rw [htype, hx]
    exact hf.stale

theorem Sub.agree (hsub : Sub τ K f s c) (h : ∀ x, s.Below c x → u.heap x = s.heap x) :
    Sub τ K f u c := by
  have hb : ∀ x, s.Below c x → u.birth x = s.birth x := fun x hx => by rw [State.birth, h x hx]
  constructor
  · intro x hx
    have hx := (State.Below.agree h).mp hx
    refine (hsub.fits x hx).agree (h x hx) fun y hy => h y ?_
    obtain ⟨i, hi⟩ := State.at_iff_mem.mp hy
    exact hx.child hi
  · intro x hx
    have hx := (State.Below.agree h).mp hx
    rw [State.childs, h x hx]
    exact hsub.width x hx
  · intro x hx
    have hx := (State.Below.agree h).mp hx
    rw [hb x hx, hb c .refl]
    exact hsub.depth x hx

theorem Sub.child (h : Inv s) (hn : s.Reg n) (hsub : Sub τ K (f + 1) s n) (hc : c ∈ s.childs n) :
    Sub τ K f s c := by
  have hb := (h.mem_child hn hc).2
  refine ⟨fun x hx => hsub.fits x (.trans_child hc hx),
    fun x hx => hsub.width x (.trans_child hc hx), ?_⟩
  intro x hx
  have := hsub.depth x (.trans_child hc hx)
  omega

end

/-! ## Stored lengths -/

abbrev State.len (s : State) (x : Ptr) : NodeLength := (s.heap x).len

/-- The flag an AND node has after it has looked at its children. -/
def State.flag (s : State) (x : Ptr) : Bool :=
  (s.heap x).hasEmpty || (s.childs x).any s.emptyLeaf

/-- The stored length of an AND or PAL node is the one its children determine. -/
structure Own (s : State) (x : Ptr) : Prop where
  and : s.type x = .and → s.len x = s.andLen s.len x (s.flag x)
  pal : s.type x = .pal → s.len x = s.palLen x

/-- Trees of AND and PAL nodes, whose leaves, KEEP and ALW nodes have no children. -/
structure Plain (s : State) : Prop where
  prj : ∀ x, s.InTree x → s.type x ≠ .prj
  term : ∀ x, s.InTree x → ¬ (s.type x).Composite → s.childs x = []

/-- Who has children is AND or PAL. -/
theorem Plain.father_type {s : State} (hl : Plain s) {x c : Ptr} (hx : s.InTree x)
    (hc : c ∈ s.childs x) :
    s.type x = .and ∨ s.type x = .pal := by
  have hprj := hl.prj x hx
  have hterm := hl.term x hx
  cases ht : s.type x with
  | and => exact Or.inl rfl
  | pal => exact Or.inr rfl
  | prj => exact absurd ht hprj
  | _ =>
    rw [ht] at hterm
    rw [hterm id] at hc
    cases hc

/-- No child of a PAL node is NONE. -/
def State.NoNone (s : State) : Prop :=
  ∀ x, s.InTree x → s.type x = .pal → ∀ c ∈ s.childs x, s.len c ≠ .none

/-- `u` has the tree of `t`; the length of an AND or PAL node may be MORE yet, and its flag may wait
    to be set. -/
structure Behind (u t : State) : Prop where
  root : u.threadRoot = t.threadRoot
  next : u.next = t.next
  births : u.births = t.births
  type : ∀ x, u.type x = t.type x
  childs : ∀ x, u.childs x = t.childs x
  father : ∀ x, u.father x = t.father x
  birth : ∀ x, u.birth x = t.birth x
  len : ∀ x, u.len x = t.len x ∨ (u.type x).Composite ∧ u.len x = .more
  flag : ∀ x, u.flag x = t.flag x

theorem Behind.refl (s : State) : Behind s s where
  root := rfl
  next := rfl
  births := rfl
  type := fun _ => rfl
  childs := fun _ => rfl
  father := fun _ => rfl
  birth := fun _ => rfl
  len := fun _ => Or.inl rfl
  flag := fun _ => rfl

theorem Behind.trans {s u t : State} (h : Behind s u) (h' : Behind u t) : Behind s t where
  root := h.root.trans h'.root
  next := h.next.trans h'.next
  births := h.births.trans h'.births
  type := fun x => (h.type x).trans (h'.type x)
  childs := fun x => (h.childs x).trans (h'.childs x)
  father := fun x => (h.father x).trans (h'.father x)
  birth := fun x => (h.birth x).trans (h'.birth x)
  len := by
    intro x
    rcases h.len x with hs | hs
    · rcases h'.len x with hu | ⟨hc, hu⟩
      · exact Or.inl (hs.trans hu)
      · exact Or.inr ⟨h.type x ▸ hc, hs.trans hu⟩
    · exact Or.inr hs
  flag := fun x => (h.flag x).trans (h'.flag x)

section

variable {u t : State} (hb : Behind u t)

include hb

theorem Behind.emptyLeaf (c : Ptr) : u.emptyLeaf c = t.emptyLeaf c := by
  rcases hb.len c with hlen | ⟨hcomp, -⟩
  · unfold State.emptyLeaf
    rw [show (u.heap c).len = (t.heap c).len from hlen,
      show (u.heap c).type = (t.heap c).type from hb.type c]
  · have hno : ∀ v : State, v.type c = u.type c → v.emptyLeaf c = false := by
      intro v hv
      rw [Bool.eq_false_iff]
      intro hcon
      exact not_composite_leaf (hv.symm.trans (type_of_emptyLeaf hcon).2) hcomp
    rw [hno u rfl, hno t (hb.type c).symm]

theorem Behind.inTree (x : Ptr) : u.InTree x ↔ t.InTree x :=
  inTree_congr hb.root hb.childs

theorem Behind.plain (hu : Plain u) : Plain t where
  prj := by
    intro x hx
    rw [← hb.type]
    exact hu.prj x ((hb.inTree x).mpr hx)
  term := by
    intro x hx
    rw [← hb.type, ← hb.childs]
    exact hu.term x ((hb.inTree x).mpr hx)

theorem Behind.fits {x : Ptr} (ht : Plain t) (hx : t.InTree x) (hown : Own t x) :
    Fits t.len u x := by
  constructor
  · rw [hb.type]
    exact ht.prj x hx
  · intro hno
    refine ⟨?_, ?_⟩
    · rw [hb.type] at hno
      rw [hb.childs]
      exact ht.term x hx hno
    · rcases hb.len x with hlen | ⟨hcomp, -⟩
      · exact hlen
      · exact absurd hcomp hno
  · intro hand
    rw [hb.type] at hand
    rw [hown.and hand, andLen_congr (hb.childs x) (fun c _ => hb.emptyLeaf c) fun _ _ => rfl]
    exact congrArg _ (hb.flag x).symm
  · intro hpal
    rw [hb.type] at hpal
    rw [hown.pal hpal, palLen_congr (hb.childs x) fun c _ => hb.emptyLeaf c]
  · intro _
    exact (hb.len x).imp_right And.right

end

end Msvl.Function
