/-
  `and_node_insert_childs` and `and_node_insert_child` of node.c.

  The place for an insertion is the index `and_node_get_insert_pos` returns: that of the last child
  that is no KEEP node, where it should be one more.  A list is inserted element by element at the
  same index, and so stands in the array from its end to its front.

  1. `andNodeGetInsertPos` — the loop, its index an `int` made of a `size_t`.
  2. `getInsertPos_split` — the index, from the two parts of the children.
  3. `insertEach_ok` — what insertions at one index give.
  4. `insert_between_iff` — when the new nodes stand between the parts.
-/
import LibMSVL.Port.Node
import Mathlib.Algebra.Group.Int.Defs
import Mathlib.Algebra.Group.Nat.Defs

namespace Msvl.Port

open Msvl.Fault
open Msvl.Function (Ptr Tid NodeType NodeLength)

/-! ## The insertion -/

/-- A `size_t` as an `int`. -/
def intOf (n : Nat) : Int := (n : Int).bmod (2 ^ 32)

/-- The indices from `int i = dyn_array_size(..) - 1` down to 0: how many. -/
def indices (size : Nat) : Nat := (intOf (size + 2 ^ 64 - 1) + 1).toNat

/-- `for(; i >= 0; i--)`, with `k` indices left. -/
def insertPosFrom (childs : List Ptr) : Nat → M Nat
  | 0 => pure 0
  | k + 1 =>
    match childs[k]? with
    | none => throw .nullPointer
    | some pos => do
      let n ← load pos
      if n.type ≠ .keep then pure k else insertPosFrom childs k

/-- `and_node_get_insert_pos` -/
def andNodeGetInsertPos (this : Ptr) : M Nat := do
  let n ← load this
  insertPosFrom (n.childs.getD []) (indices (n.childs.getD []).length)

/-- `dyn_array_insert` on the children; an index behind the end is refused. -/
def arrayInsert (this : Ptr) (index : Nat) (c : Ptr) : M Unit :=
  store this fun n => { n with childs := n.childs.map fun cs =>
    if index ≤ cs.length then cs.take index ++ c :: cs.drop index else cs }

/-- `and_node_insert_childs` -/
def andNodeInsertChilds (this : Ptr) (childs : List Ptr) : M Unit := do
  let index ← andNodeGetInsertPos this
  forM childs fun c => arrayInsert this index c

/-- `and_node_insert_child` -/
def andNodeInsertChild (this child : Ptr) : M Unit := do
  let index ← andNodeGetInsertPos this
  arrayInsert this index child

/-! ## The index -/

/-- The children of `this`: `nonKeep`, then `keep`. -/
structure Parts (m : Mem) (this : Ptr) (nonKeep keep : List Ptr) : Prop where
  childs : ∃ n, m.heap this = some n ∧ n.childs = some (nonKeep ++ keep)
  nonKeep : ∀ c ∈ nonKeep, ∃ k, m.heap c = some k ∧ k.type ≠ .keep
  keep : ∀ c ∈ keep, ∃ k, m.heap c = some k ∧ k.type = .keep

/-- Up to `2 ^ 31` children the `int` takes every index. -/
theorem indices_eq {size : Nat} (h : size ≤ 2 ^ 31) : indices size = size := by
  unfold indices intOf
  cases size with
  | zero => decide
  | succ n =>
    have hmod : ((n + 1 + 2 ^ 64 - 1 : Nat) : Int).bmod (2 ^ 32) = n := by
      rw [Int.bmod_def]
      omega
    rw [hmod]
    omega

theorem indices_le (size : Nat) : indices size ≤ size := by
  unfold indices intOf
  rw [Int.bmod_def]
  split <;> omega

/-- **The index** is that of the last child seen that is no KEEP node. -/
theorem insertPosFrom_parts {m : Mem} {this : Ptr} {nonKeep keep : List Ptr}
    (h : Parts m this nonKeep keep) : ∀ k, k ≤ (nonKeep ++ keep).length →
      insertPosFrom (nonKeep ++ keep) k m = .ok (min nonKeep.length k - 1, m) := by
  intro k
  induction k with
  | zero =>
    intro _
    rw [Nat.min_zero]
    rfl
  | succ k ih =>
    intro hk
    rw [insertPosFrom]
    by_cases hlt : k < nonKeep.length
    · have hget : (nonKeep ++ keep)[k]? = some nonKeep[k] := by
        rw [List.getElem?_append_left hlt, List.getElem?_eq_getElem hlt]
      obtain ⟨n, hn, htype⟩ := h.nonKeep _ (List.getElem_mem hlt)
      rw [hget]
      show (load nonKeep[k] >>= _) m = _
      rw [bind_ok (load_ok hn), if_pos htype, Nat.min_eq_right hlt]
      rfl
    · have hlen : k - nonKeep.length < keep.length := by
        rw [List.length_append] at hk
        omega
      have hget : (nonKeep ++ keep)[k]? = some keep[k - nonKeep.length] := by
        rw [List.getElem?_append_right (by omega), List.getElem?_eq_getElem hlen]
      obtain ⟨n, hn, htype⟩ := h.keep _ (List.getElem_mem hlen)
      rw [hget]
      show (load keep[k - nonKeep.length] >>= _) m = _
      rw [bind_ok (load_ok hn), if_neg (not_not_intro htype), ih (by omega),
        Nat.min_eq_left (by omega), Nat.min_eq_left (by omega)]

/-- The index, from the two parts. -/
def place (nonKeep keep : List Ptr) : Nat :=
  min nonKeep.length (indices (nonKeep ++ keep).length) - 1

/-- The non-KEEP children from the index on: the last one, unless the `int` does not reach it. -/
def passed (nonKeep keep : List Ptr) : List Ptr := nonKeep.drop (place nonKeep keep)

theorem getInsertPos_parts {m : Mem} {this : Ptr} {nonKeep keep : List Ptr}
    (h : Parts m this nonKeep keep) :
    andNodeGetInsertPos this m = .ok (place nonKeep keep, m) := by
  obtain ⟨n, hn, hchilds⟩ := h.childs
  rw [andNodeGetInsertPos, bind_ok (load_ok hn), hchilds, Option.getD_some,
    insertPosFrom_parts h _ (indices_le _), place]

/-! ## The insertions -/

/-- One element, inserted at an index of the array. -/
theorem arrayInsert_ok {m : Mem} {this : Ptr} {n : Node} {cs : List Ptr} (hn : m.heap this = some n)
    (hchilds : n.childs = some cs) {index : Nat} (hindex : index ≤ cs.length) (c : Ptr) :
    ∃ m' n', arrayInsert this index c m = .ok ((), m') ∧ m'.heap this = some n' ∧
      n'.childs = some (cs.take index ++ c :: cs.drop index) := by
  refine ⟨_, _, store_ok _ hn, Mem.set_self m this _, ?_⟩
  rw [hchilds, Option.map_some, if_pos hindex]

/-- **Insertions at one index** put the list there from its end to its front. -/
theorem insertEach_ok {this : Ptr} {index : Nat} (xs : List Ptr) : ∀ {m : Mem} {n : Node}
    {cs : List Ptr}, m.heap this = some n → n.childs = some cs → index ≤ cs.length →
      ∃ m' n', forM xs (fun c => arrayInsert this index c) m = .ok ((), m') ∧
        m'.heap this = some n' ∧
        n'.childs = some (cs.take index ++ (xs.reverse ++ cs.drop index)) := by
  induction xs with
  | nil =>
    intro m n cs hn hchilds _
    refine ⟨m, n, rfl, hn, ?_⟩
    rw [hchilds, List.reverse_nil, List.nil_append, List.take_append_drop]
  | cons x xs ih =>
    intro m n cs hn hchilds hindex
    obtain ⟨m1, n1, hinsert, hn1, hchilds1⟩ := arrayInsert_ok hn hchilds hindex x
    have hlen : (cs.take index).length = index := List.length_take_of_le hindex
    obtain ⟨m2, n2, hrest, hn2, hchilds2⟩ := ih hn1 hchilds1 (by
      rw [List.length_append, hlen]
      omega)
    refine ⟨m2, n2, ?_, hn2, ?_⟩
    · rw [List.forM_cons, bind_ok hinsert, hrest]
    · rw [hchilds2, List.take_append_of_le_length (Nat.le_of_eq hlen.symm),
        List.drop_append_of_le_length (Nat.le_of_eq hlen.symm), List.take_take, Nat.min_self,
        List.drop_eq_nil_of_le (Nat.le_of_eq hlen)]
      simp

/-! ## Between the parts -/

/-- The program returns, and the children of `this` are `childs`. -/
def Leaves (prog : M Unit) (m : Mem) (this : Ptr) (childs : List Ptr) : Prop :=
  ∃ m' n, prog m = .ok ((), m') ∧ m'.heap this = some n ∧ n.childs = some childs

/-- When the insertion of `xs` at the index is one between the parts: the last non-KEEP child, where
    there is one, and `xs` behind it read the same from the end.  With more than `2 ^ 31` children the
    `int` may be any index below, and several children follow. -/
def Unshifted (nonKeep keep xs : List Ptr) : Prop :=
  if (nonKeep ++ keep).length ≤ 2 ^ 31 then
    (nonKeep.getLast?.toList ++ xs).reverse = nonKeep.getLast?.toList ++ xs
  else xs.reverse ++ passed nonKeep keep = passed nonKeep keep ++ xs

theorem passed_eq {nonKeep keep : List Ptr} (h : (nonKeep ++ keep).length ≤ 2 ^ 31) :
    passed nonKeep keep = nonKeep.getLast?.toList := by
  have hle : nonKeep.length ≤ (nonKeep ++ keep).length := by
    rw [List.length_append]
    omega
  rw [passed, place, indices_eq h, Nat.min_eq_left hle]
  rcases List.eq_nil_or_concat nonKeep with rfl | ⟨init, last, rfl⟩
  · rfl
  · simp

theorem unshifted_iff (nonKeep keep xs : List Ptr) :
    Unshifted nonKeep keep xs ↔ xs.reverse ++ passed nonKeep keep = passed nonKeep keep ++ xs := by
  unfold Unshifted
  split
  · next h =>
    rw [passed_eq h, List.reverse_append]
    cases nonKeep.getLast? <;> exact Iff.rfl
  · exact Iff.rfl

/-- `xs`, inserted at the index. -/
theorem inserted_iff {nonKeep keep : List Ptr} (xs : List Ptr) :
    (nonKeep ++ keep).take (place nonKeep keep) ++
        (xs.reverse ++ (nonKeep ++ keep).drop (place nonKeep keep)) = nonKeep ++ xs ++ keep ↔
      Unshifted nonKeep keep xs := by
  have hplace : place nonKeep keep ≤ nonKeep.length := by
    unfold place
    omega
  have hpassed : nonKeep.drop (place nonKeep keep) = passed nonKeep keep := rfl
  have hsplit := List.take_append_drop (place nonKeep keep) nonKeep
  rw [hpassed] at hsplit
  rw [List.take_append_of_le_length hplace, List.drop_append_of_le_length hplace, hpassed,
    unshifted_iff]
  generalize passed nonKeep keep = rest at *
  generalize nonKeep.take (place nonKeep keep) = front at *
  subst hsplit
  constructor
  · intro h
    have h' : front ++ ((xs.reverse ++ rest) ++ keep) = front ++ ((rest ++ xs) ++ keep) := by
      simpa using h
    exact List.append_cancel_right (List.append_cancel_left h')
  · intro h
    calc front ++ (xs.reverse ++ (rest ++ keep))
        = front ++ ((xs.reverse ++ rest) ++ keep) := by simp
      _ = (front ++ rest) ++ xs ++ keep := by rw [h]; simp

theorem leaves_iff {prog : M Unit} {m m' : Mem} {this : Ptr} {n : Node} {cs : List Ptr}
    (hrun : prog m = .ok ((), m')) (hn : m'.heap this = some n) (hchilds : n.childs = some cs)
    (childs : List Ptr) : Leaves prog m this childs ↔ cs = childs := by
  constructor
  · rintro ⟨m₁, n₁, hrun₁, hn₁, hchilds₁⟩
    rw [hrun] at hrun₁
    cases hrun₁
    rw [hn] at hn₁
    cases hn₁
    exact Option.some.inj (hchilds.symm.trans hchilds₁)
  · rintro rfl
    exact ⟨m', n, hrun, hn, hchilds⟩

/-- **Insertion**: the new nodes, in their order, stand between the parts where `Unshifted` says so. -/
theorem insert_between_iff {m : Mem} {this : Ptr} {nonKeep keep : List Ptr}
    (h : Parts m this nonKeep keep) :
    (∀ xs, Leaves (andNodeInsertChilds this xs) m this (nonKeep ++ xs ++ keep) ↔
      Unshifted nonKeep keep xs) ∧
    ∀ x, Leaves (andNodeInsertChild this x) m this (nonKeep ++ [x] ++ keep) ↔
      Unshifted nonKeep keep [x] := by
  have hplace : place nonKeep keep ≤ (nonKeep ++ keep).length := by
    rw [place, List.length_append]
    omega
  obtain ⟨n, hn, hchilds⟩ := h.childs
  constructor
  · intro xs
    obtain ⟨m', n', hok, hn', hchilds'⟩ := insertEach_ok xs hn hchilds hplace
    have hrun : andNodeInsertChilds this xs m = .ok ((), m') := by
      rw [andNodeInsertChilds, bind_ok (getInsertPos_parts h), hok]
    rw [leaves_iff hrun hn' hchilds', inserted_iff]
  · intro x
    obtain ⟨m', n', hok, hn', hchilds'⟩ := arrayInsert_ok hn hchilds hplace x
    have hrun : andNodeInsertChild this x m = .ok ((), m') := by
      rw [andNodeInsertChild, bind_ok (getInsertPos_parts h), hok]
    rw [leaves_iff hrun hn' hchilds', ← inserted_iff]
    exact Iff.rfl

/-- An AND node, node 1, with the leaf 2; a leaf 3 stands ready. -/
def andPair : Mem where
  heap
    | 1 => some { thread := 11, father := none, childs := some [2], type := .and, newType := .and,
                  len := .more, isInit := true, hasEmpty := false, mutex := none, cond := none,
                  prjBlock := false, extQ := false }
    | 2 => some { thread := 12, father := some (.node 1), childs := some [], type := .leaf,
                  newType := .leaf, len := .more, isInit := true, hasEmpty := false, mutex := none,
                  cond := none, prjBlock := false, extQ := false }
    | 3 => some { thread := 13, father := some (.node 1), childs := some [], type := .leaf,
                  newType := .leaf, len := .more, isInit := true, hasEmpty := false, mutex := none,
                  cond := none, prjBlock := false, extQ := false }
    | _ => none
  next := 4
  threadToNode
    | 11 => some 1
    | 12 => some 2
    | 13 => some 3
    | _ => none
  keepChilds := none
  isCopied := false
  threadRoot := some 1
  gFalse := some false
  exited := fun _ => false
  log := []

theorem andPair_parts : Parts andPair 1 [2] [] := by
  refine ⟨⟨_, rfl, rfl⟩, fun c hc => ?_, by simp⟩
  rw [List.mem_singleton.mp hc]
  exact ⟨_, rfl, by decide⟩

/-- The AND node with a KEEP node 2 in place of the leaf. -/
def andKeep : Mem :=
  { andPair with heap := fun x =>
      if x = 2 then (andPair.heap 2).map fun n => { n with type := .keep, newType := .keep }
      else andPair.heap x }

theorem andKeep_parts : Parts andKeep 1 [] [2] := by
  refine ⟨⟨_, rfl, rfl⟩, by simp, fun c hc => ?_⟩
  rw [List.mem_singleton.mp hc]
  exact ⟨_, rfl, rfl⟩

/-- The new leaf stands before the KEEP node. -/
theorem inserted_before_keep :
    Leaves (andNodeInsertChilds 1 [3]) andKeep 1 [3, 2] ∧
      Leaves (andNodeInsertChild 1 3) andKeep 1 [3, 2] := by
  obtain ⟨hchilds, hchild⟩ := insert_between_iff andKeep_parts
  exact ⟨(hchilds [3]).mpr rfl, (hchild 3).mpr rfl⟩

/-- The new child stands before the old one. -/
theorem inserted_before :
    Parts andPair 1 [2] [] ∧ ¬ Leaves (andNodeInsertChild 1 3) andPair 1 [2, 3] := by
  refine ⟨andPair_parts, ?_⟩
  obtain ⟨n, hn, hchilds⟩ := andPair_parts.childs
  obtain ⟨m', n', hok, hn', hchilds'⟩ := arrayInsert_ok hn hchilds
    (show place [2] [] ≤ 1 by decide) 3
  have hrun : andNodeInsertChild 1 3 andPair = .ok ((), m') := by
    rw [andNodeInsertChild, bind_ok (getInsertPos_parts andPair_parts), hok]
  rw [leaves_iff hrun hn' hchilds']
  decide

end Msvl.Port
