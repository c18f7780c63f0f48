/-
  Inserting an element of the array into itself.

  `dyn_array_at` gives a pointer into the very block that `dyn_shift_insert` shifts before it reads
  the object.  Without a reallocation the read therefore finds what the `memmove` left at that
  address: the element itself while it stands at or before the gap, and the element before it
  otherwise (`dynShiftInsert_own`).

  `self_insert_iff` — which insertions copy the element that was asked for.
-/
import LibMSVL.DynArray.Refine

namespace Msvl.DynArray

open Msvl.Bytes

/-! ## What is read -/

/-- Element `k`, at any index. -/
def element (a : DynArrayT) (k : Nat) : Elem := record a.array a.dataTypeSize k

/-- The block after the gap for one element has been opened at `i`. -/
def opened (a : DynArrayT) (i : Nat) : Block :=
  blit a.array ((i + 1) * a.dataTypeSize) a.array (i * a.dataTypeSize)
    ((a.size - i) * a.dataTypeSize)

/-- Opening the gap moves the elements from `i` on one place up. -/
theorem opened_record (a : DynArrayT) {i k : Nat} (hk : k < a.size) :
    record (opened a i) a.dataTypeSize k = element a (if i < k then k - 1 else k) := by
  rw [opened, record_blit]
  by_cases hlt : i < k
  · rw [if_pos (by omega), if_pos hlt, show i + (k - (i + 1)) = k - 1 by omega]
    rfl
  · rw [if_neg (by omega), if_neg hlt]
    rfl

/-- What `dyn_shift_insert` moves is the gap; at the end there is nothing to move. -/
theorem moved_eq_opened {a : DynArrayT} (h : Wf a) (hr : Roomy a) (hfit : a.size < a.capacity)
    {i : Nat} (hi : i ≤ a.size) :
    (if i ≠ a.size then
        blit a.array (dynArrayPosition a (wrap (i + 1))) a.array (dynArrayPosition a i)
          (dynSizeNElems a (wrap (a.size - i)))
      else a.array) = opened a i := by
  have hc := h.capacity_le
  split
  · rw [wrap_of_lt (n := i + 1) (by omega), wrap_of_lt (n := a.size - i) (by omega),
      position_eq h hr (by omega), position_eq h hr (by omega), sizeNElems_eq h hr (by omega)]
    rfl
  · have hz : a.size - i = 0 := by omega
    funext o
    rw [opened, hz, Nat.zero_mul, blit, if_neg (by omega)]

/-- **Insertion of an own element**: what is inserted at `i` is element `k` where that stands
    before the gap or at it, and element `k - 1` where it has been shifted away. -/
theorem dynShiftInsert_own {M : Nat} {a : DynArrayT} (h : Wf a) (hr : Roomy a)
    (hfit : a.size < a.capacity) {i k : Nat} (hi : i ≤ a.size) (hk : k < a.size) (g : Alloc) :
    ∃ r, dynShiftInsert M a i 1 .insert (dynArrayAt a k) g = some r ∧ r.ret = true ∧
      contents r.arr = (contents a).insertIdx i (element a (if i < k then k - 1 else k)) := by
  have hmoved := moved_eq_opened h hr hfit hi
  have hpos : dynArrayPosition a k = k * a.dataTypeSize := position_eq h hr (by omega)
  refine ⟨{ ret := true,
            arr := inserted a i 1 fun o => opened a i (k * a.dataTypeSize + o) }, ?_, rfl, ?_⟩
  · rw [dynArrayAt, if_pos hk, dynShiftInsert, if_pos ⟨by decide, rfl, hi⟩,
      requestSizeIncrease_fits h g hfit]
    simp only [Option.map_some, if_true, Source.block, bne_self_eq_false, Bool.false_eq_true,
      if_false, hmoved, hpos, inserted]
  · rw [inserted_contents h hr _ hi hfit, insertIdx_eq_take_drop _ _ _ (by rw [contents_length]; exact hi),
      records_one]
    have hread : record (fun o => opened a i (k * a.dataTypeSize + o)) a.dataTypeSize 0
        = record (opened a i) a.dataTypeSize k := by
      show bytesAt _ (0 * a.dataTypeSize) _ = bytesAt _ (k * a.dataTypeSize) _
      rw [Nat.zero_mul]
      exact List.map_congr_left fun b _ => by rw [Nat.zero_add]
    rw [hread, opened_record a hk]

/-! ## Which insertions copy element `k` -/

/-- The call inserts at `i` a copy of the element that was at `k` before, and the other elements
    keep their order. -/
def Copies (a : DynArrayT) (i k : Nat) (res : Option Result) : Prop :=
  ∃ r, res = some r ∧ r.ret = true ∧ contents r.arr = (contents a).insertIdx i (element a k)

theorem insertIdx_inj {α : Type} {l : List α} {i : Nat} (hi : i ≤ l.length) {x y : α} :
    l.insertIdx i x = l.insertIdx i y ↔ x = y := by
  constructor
  · intro heq
    rw [insertIdx_eq_take_drop x l i hi, insertIdx_eq_take_drop y l i hi, List.append_assoc,
      List.append_assoc] at heq
    have hcons := List.append_cancel_left heq
    exact (List.cons.inj hcons).1
  · rintro rfl
    rfl

theorem copies_iff {M : Nat} {a : DynArrayT} (h : Wf a) (hr : Roomy a) (hfit : a.size < a.capacity)
    {i k : Nat} (hi : i ≤ a.size) (hk : k < a.size) (g : Alloc) :
    Copies a i k (dynShiftInsert M a i 1 .insert (dynArrayAt a k) g) ↔
      k ≤ i ∨ element a (k - 1) = element a k := by
  obtain ⟨r, hrun, hret, hcont⟩ := dynShiftInsert_own (M := M) h hr hfit hi hk g
  have hlen : i ≤ (contents a).length := by rw [contents_length]; exact hi
  constructor
  · rintro ⟨r', hrun', -, hcont'⟩
    rw [hrun] at hrun'
    cases hrun'
    rw [hcont] at hcont'
    have heq := (insertIdx_inj hlen).mp hcont'
    by_cases hlt : i < k
    · rw [if_pos hlt] at heq
      exact Or.inr heq
    · exact Or.inl (by omega)
  · intro hcond
    refine ⟨r, hrun, hret, ?_⟩
    rw [hcont, insertIdx_inj hlen]
    by_cases hlt : i < k
    · rw [if_pos hlt]
      rcases hcond with hle | heq
      · omega
      · exact heq
    · rw [if_neg hlt]

/-- **Inserting an own element** without a reallocation copies it exactly when it does not stand
    behind the place it goes to, or equals the element before it; to the end always, to the front
    otherwise only the first one. -/
theorem self_insert_iff {a : DynArrayT} (h : Wf a) (hr : Roomy a) (hfit : a.size < a.capacity)
    {k : Nat} (hk : k < a.size) (M : Nat) (g : Alloc) :
    (∀ i ≤ a.size, Copies a i k (dynArrayInsert M a i (dynArrayAt a k) g) ↔
      k ≤ i ∨ element a (k - 1) = element a k) ∧
    (Copies a 0 k (dynArrayPushFront M a (dynArrayAt a k) g) ↔
      k = 0 ∨ element a (k - 1) = element a k) ∧
    Copies a a.size k (dynArrayPushBack M a (dynArrayAt a k) g) := by
  refine ⟨fun i hi => copies_iff h hr hfit hi hk g, ?_, ?_⟩
  · rw [← Nat.le_zero]
    exact copies_iff h hr hfit (Nat.zero_le _) hk g
  · exact (copies_iff h hr hfit (Nat.le_refl _) hk g).mpr (Or.inl (Nat.le_of_lt hk))

/-- An array of three one-byte elements, 1 2 3. -/
def oneTwoThree : DynArrayT :=
  { freshArray 16 1 false fun o => UInt8.ofNat (o + 1) with size := 3 }

theorem oneTwoThree_wf : Wf oneTwoThree where
  size_le := by decide
  pow_two := ⟨4, by decide⟩
  width_pos := by decide
  bytes_eq := by decide

theorem self_insert_first :
    Copies oneTwoThree 0 0
      (dynArrayPushFront dynMaxCapacity oneTwoThree (dynArrayAt oneTwoThree 0) none) :=
  (self_insert_iff oneTwoThree_wf (Nat.le_refl 16) (by decide) (k := 0) (by decide) dynMaxCapacity
    none).2.1.mpr (Or.inl rfl)

/-- Element 1 inserted at 0: what is inserted is the 1 that stood there, not the 2. -/
theorem shifted_away :
    ¬ Copies oneTwoThree 0 1
      (dynArrayInsert dynMaxCapacity oneTwoThree 0 (dynArrayAt oneTwoThree 1) none) := by
  rintro ⟨r, hrun, -, hcont⟩
  cases hrun
  revert hcont
  decide

end Msvl.DynArray
