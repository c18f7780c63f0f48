/-
  insertChild, which adds children to an AND node.

  The children are to stand in two parts, those that are not KEEP nodes before those that are, and
  what is inserted belongs between the parts.  `getInsertPos` looks for the last child that is not a
  KEEP node through a reverse iterator.  The base of that iterator already is the place behind the
  child, and `++` goes one further: past the end when there is no KEEP node, else behind the first
  KEEP node.

  1. `getInsertPos_split`: the position, from the two parts.
  2. `insertChild_between_iff`: when the insertion goes between them.
-/
import LibMSVL.Function.State

namespace Msvl.Function

/-! ## The insertion -/

/-- The loop of `getInsertPos`, over what the reverse iterator has left.  Its base is an iterator
    behind the child it stands at. -/
def insertPosFrom (s : State) : List Ptr → Nat
  | [] => 0
  | c :: rest =>
      if (s.heap c).type ≠ .keep then
        let base := rest.length + 1
        base + 1
      else insertPosFrom s rest

/-- `getInsertPos`, as an index of `childs` -/
def getInsertPos (s : State) (n : Ptr) : Nat := insertPosFrom s (s.heap n).childs.reverse

/-- `vector::insert`.  A place behind the end is no iterator of the vector. -/
def vectorInsert (cs : List Ptr) (pos : Nat) (xs : List Ptr) : Option (List Ptr) :=
  if pos ≤ cs.length then some (cs.take pos ++ xs ++ cs.drop pos) else none

/-- `insertChild(vector<Node*>&)` -/
def insertChilds (s : State) (n : Ptr) (child : List Ptr) : Option State :=
  (vectorInsert (s.heap n).childs (getInsertPos s n) child).map fun cs =>
    s.modify n fun a => { a with childs := cs }

/-- `insertChild(Node*)` -/
def insertChild (s : State) (n child : Ptr) : Option State :=
  (vectorInsert (s.heap n).childs (getInsertPos s n) [child]).map fun cs =>
    s.modify n fun a => { a with childs := cs }

/-! ## The two parts -/

/-- The children of `n`: `nonKeep`, then `keep`. -/
structure Split (s : State) (n : Ptr) (nonKeep keep : List Ptr) : Prop where
  childs : (s.heap n).childs = nonKeep ++ keep
  nonKeep : ∀ c ∈ nonKeep, (s.heap c).type ≠ .keep
  keep : ∀ c ∈ keep, (s.heap c).type = .keep

/-- The insertion stays inside the vector and adds `xs` behind the last child that is not a KEEP node. -/
def Between (s : State) (n : Ptr) (nonKeep keep xs : List Ptr) (result : Option State) : Prop :=
  getInsertPos s n ≤ (s.heap n).childs.length ∧
    ∃ t, result = some t ∧ Split t n (nonKeep ++ xs) keep

/-- KEEP nodes at the end are passed. -/
theorem insertPosFrom_keep {s : State} {keep : List Ptr} (hkeep : ∀ c ∈ keep, (s.heap c).type = .keep)
    (rest : List Ptr) : insertPosFrom s (keep ++ rest) = insertPosFrom s rest := by
  induction keep with
  | nil => rfl
  | cons c keep ih =>
    have hc := hkeep c List.mem_cons_self
    rw [List.cons_append, insertPosFrom, if_neg (not_not_intro hc)]
    exact ih fun c hc => hkeep c (List.mem_cons_of_mem _ hc)

/-- **The position**: one further than the end of the first part, unless that part is empty. -/
theorem getInsertPos_split {s : State} {n : Ptr} {nonKeep keep : List Ptr}
    (h : Split s n nonKeep keep) :
    getInsertPos s n = if nonKeep = [] then 0 else nonKeep.length + 1 := by
  have hkeep : ∀ c ∈ keep.reverse, (s.heap c).type = .keep :=
    fun c hc => h.keep c (List.mem_reverse.mp hc)
  rw [getInsertPos, h.childs, List.reverse_append, insertPosFrom_keep hkeep]
  cases hrev : nonKeep.reverse with
  | nil => rw [insertPosFrom, if_pos (List.reverse_eq_nil_iff.mp hrev)]
  | cons c rest =>
    have hc : (s.heap c).type ≠ .keep := by
      apply h.nonKeep
      rw [← List.mem_reverse, hrev]
      exact List.mem_cons_self
    have hne : nonKeep ≠ [] := by
      rintro rfl
      simp at hrev
    have hlen := congrArg List.length hrev
    rw [List.length_reverse, List.length_cons] at hlen
    rw [insertPosFrom, if_pos hc, if_neg hne, hlen]

/-! ## Between the parts -/

/-- What an insertion at a place of the vector leaves. -/
theorem insertChilds_eq {s : State} {n : Ptr} {xs : List Ptr} {cs : List Ptr}
    (h : vectorInsert (s.heap n).childs (getInsertPos s n) xs = some cs) :
    ∃ t, insertChilds s n xs = some t ∧ (t.heap n).childs = cs ∧
      ∀ c, (t.heap c).type = (s.heap c).type := by
  refine ⟨_, by rw [insertChilds, h, Option.map_some], ?_, fun c => ?_⟩
  · simp [State.modify]
  · simp only [State.modify]
    split <;> rfl

/-- **Where the insertion goes**: past the first KEEP node, and so between the parts only when it
    has nothing to pass or nothing to insert. -/
theorem insertChilds_between_iff {s : State} {n : Ptr} {nonKeep keep xs : List Ptr}
    (h : Split s n nonKeep keep) (hxs : ∀ x ∈ xs, (s.heap x).type ≠ .keep) :
    Between s n nonKeep keep xs (insertChilds s n xs) ↔ nonKeep = [] ∨ xs = [] ∧ keep ≠ [] := by
  have hpos := getInsertPos_split h
  by_cases hnon : nonKeep = []
  · -- only KEEP nodes: the insertion is at the front
    subst hnon
    rw [if_pos rfl] at hpos
    have hins : vectorInsert (s.heap n).childs (getInsertPos s n) xs = some (xs ++ keep) := by
      simp [vectorInsert, hpos, h.childs]
    obtain ⟨t, ht, hchilds, htype⟩ := insertChilds_eq hins
    refine ⟨fun _ => Or.inl rfl, fun _ => ⟨hpos ▸ Nat.zero_le _, t, ht, ?_⟩⟩
    refine ⟨by simp [hchilds], fun c hc => ?_, fun c hc => ?_⟩
    · rw [htype]
      exact hxs c (by simpa using hc)
    · rw [htype]
      exact h.keep c hc
  rw [if_neg hnon] at hpos
  have hlen : (s.heap n).childs.length = nonKeep.length + keep.length := by
    rw [h.childs, List.length_append]
  cases keep with
  | nil =>
    -- no KEEP node: the position is no place of the vector
    constructor
    · rintro ⟨hle, -⟩
      rw [hpos, hlen, List.length_nil] at hle
      omega
    · rintro (hno | ⟨-, hno⟩)
      · exact absurd hno hnon
      · exact absurd rfl hno
  | cons k keep =>
    have hins : vectorInsert (s.heap n).childs (getInsertPos s n) xs =
        some (nonKeep ++ [k] ++ xs ++ keep) := by
      have hle : nonKeep.length + 1 ≤ (s.heap n).childs.length := by
        rw [hlen, List.length_cons]
        omega
      have hat : (nonKeep ++ [k]).length = nonKeep.length + 1 := by simp
      rw [vectorInsert, hpos, if_pos hle, h.childs, List.append_cons, ← hat, List.take_left',
        List.drop_left'] <;> rfl
    obtain ⟨t, ht, hchilds, htype⟩ := insertChilds_eq hins
    constructor
    · rintro ⟨-, u, hu, hsplit⟩
      rw [ht, Option.some.injEq] at hu
      subst hu
      have heq := hchilds.symm.trans hsplit.childs
      cases xs with
      | nil => exact Or.inr ⟨rfl, List.cons_ne_nil _ _⟩
      | cons x xs =>
        rw [List.append_assoc, List.append_assoc, List.append_assoc, List.append_cancel_left_eq] at heq
        have hkx : k = x := (List.cons.inj heq).1
        exact absurd (h.keep k List.mem_cons_self) (hkx ▸ hxs x List.mem_cons_self)
    · rintro (hno | ⟨rfl, -⟩)
      · exact absurd hno hnon
      · refine ⟨?_, t, ht, ?_, fun c hc => ?_, fun c hc => ?_⟩
        · rw [hpos, hlen, List.length_cons]
          omega
        · simp [hchilds]
        · rw [htype]
          exact h.nonKeep c (by simpa using hc)
        · rw [htype]
          exact h.keep c hc

/-- **AND children under insertion**, for a vector and for a single node. -/
theorem insertChild_between_iff {s : State} {n : Ptr} {nonKeep keep : List Ptr}
    (h : Split s n nonKeep keep) :
    (∀ xs : List Ptr, (∀ x ∈ xs, (s.heap x).type ≠ .keep) →
      (Between s n nonKeep keep xs (insertChilds s n xs) ↔ nonKeep = [] ∨ xs = [] ∧ keep ≠ [])) ∧
    ∀ c : Ptr, (s.heap c).type ≠ .keep →
      (Between s n nonKeep keep [c] (insertChild s n c) ↔ nonKeep = []) := by
  refine ⟨fun xs hxs => insertChilds_between_iff h hxs, fun c hc => ?_⟩
  have hone : insertChild s n c = insertChilds s n [c] := rfl
  rw [hone, insertChilds_between_iff h (by simpa using hc)]
  simp

/-- An AND root with one thread under it. -/
def oneLeaf : State := newThread (newRoot (start 1 plain) .and) 0 2

theorem oneLeaf_split : Split oneLeaf 0 [1] [] := ⟨by decide, by decide, by decide⟩

/-- No second thread gets between the parts of the root. -/
theorem insertChild_between_oneLeaf : ¬ Between oneLeaf 0 [1] [] [2] (insertChild oneLeaf 0 2) := by
  rw [(insertChild_between_iff oneLeaf_split).2 2 (by decide)]
  decide

/-- A second thread under the root would be inserted behind the end of its vector. -/
theorem insert_past_end :
    ¬ ∀ (s : State) (n : Ptr) (nonKeep keep : List Ptr) (c : Ptr), Split s n nonKeep keep →
      (s.heap c).type ≠ .keep → Between s n nonKeep keep [c] (insertChild s n c) := by
  intro h
  have hpos : getInsertPos oneLeaf 0 ≤ (oneLeaf.heap 0).childs.length :=
    (h oneLeaf 0 [1] [] 2 oneLeaf_split (by decide)).1
  exact absurd hpos (by decide)

end Msvl.Function
