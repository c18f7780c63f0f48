/-
  The array invariant, and one specification lemma for each of the static functions.

  `Wf a` holds of every array the library hands out and is kept by every call: `size` stays within
  `capacity`, `capacity` is a power of two between 16 and `DYN_MAX_CAPACITY` (`2 ^ 56`), and the
  block has the length that was asked for it.  `Roomy a` is the allocator's side of the bargain:
  the block really has room for `capacity` elements.  Together they make every `size_t` expression
  of the two shift functions exact (`position_eq`, `sizeNElems_eq`), after which
  `Msvl.Bytes.records_insert` and `records_remove` say what happens to the elements.
-/
import LibMSVL.DynArray.Defs

namespace Msvl.DynArray

open Msvl.Bytes

/-! ## Wrap-around arithmetic -/

theorem wrap_of_lt {n : Nat} (h : n < 2 ^ 64) : wrap n = n := Nat.mod_eq_of_lt h

theorem wrap_lt (n : Nat) : wrap n < 2 ^ 64 := Nat.mod_lt _ (by decide)

/-- Subtraction as the machine does it is exact when it does not go below zero. -/
theorem wrap_sub {n k : Nat} (hn : n < 2 ^ 64) (h : k ≤ n) : wrap (n + 2 ^ 64 - k) = n - k := by
  rw [show n + 2 ^ 64 - k = (n - k) + 2 ^ 64 by omega, wrap, Nat.add_mod_right]
  exact Nat.mod_eq_of_lt (by omega)

/-! ## The doubling loop -/

theorem doubleUntil_of_le {needed c : Nat} (h : needed ≤ c) (fuel : Nat) :
    doubleUntil needed fuel c = some c := by
  cases fuel with
  | zero => rw [doubleUntil, if_neg (by omega)]
  | succ fuel => rw [doubleUntil, if_neg (by omega)]

/-- **The loop ends at a power of two**: started at `2 ^ k` it passes no power above `2 ^ 56`
    before it reaches `needed`, so no shift loses a bit.  Induction on the rounds left. -/
theorem doubleUntil_pow {needed : Nat} (hn : needed ≤ 2 ^ 56) :
    ∀ fuel k, k ≤ 56 → 56 - k ≤ fuel →
      ∃ j, k ≤ j ∧ j ≤ 56 ∧ doubleUntil needed fuel (2 ^ k) = some (2 ^ j) ∧ needed ≤ 2 ^ j := by
  intro fuel
  induction fuel with
  | zero =>
    intro k hk hf
    obtain rfl : k = 56 := by omega
    exact ⟨56, Nat.le_refl _, Nat.le_refl _, doubleUntil_of_le hn 0, hn⟩
  | succ fuel ih =>
    intro k hk hf
    rcases Nat.lt_or_ge (2 ^ k) needed with hlt | hge
    · have hk56 : k < 56 := by
        rcases Nat.lt_or_eq_of_le hk with h | h
        · exact h
        · subst h; omega
      have hpow : 2 * 2 ^ k = 2 ^ (k + 1) := by rw [Nat.pow_succ, Nat.mul_comm]
      have hsmall : 2 ^ (k + 1) < 2 ^ 64 := Nat.pow_lt_pow_right (by decide) (by omega)
      obtain ⟨j, hkj, hj, hrun, hle⟩ := ih (k + 1) (by omega) (by omega)
      refine ⟨j, by omega, hj, ?_, hle⟩
      rw [doubleUntil, if_pos hlt, hpow, wrap_of_lt hsmall]
      exact hrun
    · exact ⟨k, Nat.le_refl _, hk, doubleUntil_of_le hge _, hge⟩

/-! ## The invariant -/

/-- What every array has between calls. -/
structure Wf (a : DynArrayT) : Prop where
  size_le : a.size ≤ a.capacity
  pow_two : ∃ k, 4 ≤ k ∧ k ≤ 56 ∧ a.capacity = 2 ^ k
  width_pos : 0 < a.dataTypeSize
  bytes_eq : a.bytes = wrap (a.capacity * a.dataTypeSize)

/-- The block behind the array has room for `capacity` elements. -/
def Roomy (a : DynArrayT) : Prop := a.capacity * a.dataTypeSize ≤ a.bytes

/-- The elements at indices `0 .. size - 1`. -/
def contents (a : DynArrayT) : List Elem := records a.array a.dataTypeSize 0 a.size

@[simp] theorem contents_length (a : DynArrayT) : (contents a).length = a.size := records_length ..

namespace Wf

variable {a : DynArrayT} (h : Wf a)
include h

theorem capacity_le : a.capacity ≤ 2 ^ 56 := by
  obtain ⟨k, _, hk, hc⟩ := h.pow_two
  rw [hc]
  exact Nat.pow_le_pow_right (by decide) hk

theorem size_lt : a.size < 2 ^ 64 := by
  have h1 := h.size_le
  have h2 := h.capacity_le
  omega

theorem roomy_lt (hr : Roomy a) : a.capacity * a.dataTypeSize < 2 ^ 64 := by
  have hb := h.bytes_eq
  have hw := wrap_lt (a.capacity * a.dataTypeSize)
  unfold Roomy at hr
  omega

end Wf

/-- Positions up to `capacity` are exact byte offsets. -/
theorem position_eq {a : DynArrayT} (h : Wf a) (hr : Roomy a) {i : Nat} (hi : i ≤ a.capacity) :
    dynArrayPosition a i = i * a.dataTypeSize := by
  have hm : i * a.dataTypeSize ≤ a.capacity * a.dataTypeSize := Nat.mul_le_mul_right _ hi
  have hl := h.roomy_lt hr
  exact wrap_of_lt (by omega)

/-- So are the byte sizes of up to `capacity` elements. -/
theorem sizeNElems_eq {a : DynArrayT} (h : Wf a) (hr : Roomy a) {n : Nat} (hn : n ≤ a.capacity) :
    dynSizeNElems a n = n * a.dataTypeSize := by
  rw [dynSizeNElems, Nat.mul_comm]
  exact position_eq h hr hn

/-! ## Creation -/

theorem freshArray_wf {k w : Nat} (d : Bool) (junk : Block) (hk : 4 ≤ k) (hk' : k ≤ 56)
    (hw : 0 < w) : Wf (freshArray (2 ^ k) w d junk) where
  size_le := Nat.zero_le _
  pow_two := ⟨k, hk, hk', rfl⟩
  width_pos := hw
  bytes_eq := rfl

/-- An array that `dyn_array_create` returns is well formed, empty, and large enough. -/
theorem dynArrayCreate_spec {capacity w : Nat} {d mStruct : Bool} {mBuf : Alloc} {a : DynArrayT}
    {ev : List MemEvent}
    (h : dynArrayCreate dynMaxCapacity capacity w d mStruct mBuf = some (some a, ev)) :
    Wf a ∧ contents a = [] ∧ a.dataTypeSize = w ∧ a.destructor = d ∧ a.destructed = [] ∧
      a.size = 0 ∧ capacity ≤ a.capacity := by
  unfold dynArrayCreate at h
  split at h
  · rename_i hg
    split at h
    · obtain ⟨j, hj4, hj56, hrun, hle⟩ := doubleUntil_pow hg.2 64 4 (by decide) (by decide)
      rw [show (2 : Nat) ^ 4 = 16 by decide] at hrun
      rw [hrun] at h
      cases mBuf with
      | none => simp at h
      | some junk =>
        simp only [Option.map_some, Option.some.injEq, Prod.mk.injEq] at h
        obtain ⟨rfl, -⟩ := h
        exact ⟨freshArray_wf d junk hj4 hj56 (Nat.pos_of_ne_zero hg.1), rfl, rfl, rfl, rfl, rfl, hle⟩
    · simp at h
  · simp at h

/-! ## Growth -/

/-- `realloc` keeps the elements. -/
theorem records_realloc (old junk : Block) {w n c : Nat} (hn : n ≤ c) :
    records (reallocBlock old junk (c * w)) w 0 n = records old w 0 n := by
  refine records_congr fun j hj => ?_
  apply List.map_congr_left
  intro b hb
  have hb' := List.mem_range.mp hb
  have hlt : (0 + j) * w + b < c * w := by
    have hm := Nat.mul_le_mul_right w (show j + 1 ≤ c by omega)
    rw [Nat.add_mul, Nat.one_mul] at hm
    rw [Nat.zero_add]
    omega
  show (if _ then _ else _) = _
  rw [if_pos hlt]

/-- The array after its buffer has been doubled. -/
def doubled (a : DynArrayT) (junk : Block) : DynArrayT :=
  { a with capacity := 2 * a.capacity, array := reallocBlock a.array junk a.bytes,
           bytes := wrap (2 * a.capacity * a.dataTypeSize) }

/-- No growth is needed while the new elements fit. -/
theorem requestSizeIncrease_fits {M : Nat} {a : DynArrayT} (h : Wf a) {k : Nat} (g : Alloc)
    (hk : a.size + k ≤ a.capacity) : dynRequestSizeIncrease M a k g = some (true, a) := by
  have hc := h.capacity_le
  rw [dynRequestSizeIncrease, wrap_of_lt (by omega), if_pos hk]

/-- A full array grows by one doubling, or is left as it was. -/
theorem requestSizeIncrease_full {a : DynArrayT} (h : Wf a) (g : Alloc)
    (hfull : a.capacity < a.size + 1) :
    dynRequestSizeIncrease dynMaxCapacity a 1 g =
      if dynMaxCapacity < a.size + 1 then some (false, a)
      else match g with
        | some junk => some (true, doubled a junk)
        | none => some (false, a) := by
  have hs := h.size_le
  have hc := h.capacity_le
  have heq : a.size = a.capacity := by omega
  rw [dynRequestSizeIncrease, wrap_of_lt (by omega), if_neg (by omega)]
  by_cases hM : dynMaxCapacity < a.size + 1
  · rw [if_pos hM, if_neg (by omega)]
  · have hfit : a.size + 1 ≤ 2 * a.capacity := by
      obtain ⟨k, _, _, hk⟩ := h.pow_two
      have := Nat.two_pow_pos k
      omega
    rw [if_neg hM, if_pos (by omega), wrap_of_lt (by omega), doubleUntil_of_le hfit]
    cases g with
    | none => rfl
    | some junk => rfl

theorem doubled_wf {a : DynArrayT} (h : Wf a) (junk : Block) (hfull : a.capacity < a.size + 1)
    (hM : a.size + 1 ≤ dynMaxCapacity) : Wf (doubled a junk) where
  size_le := by have := h.size_le; show a.size ≤ 2 * a.capacity; omega
  pow_two := by
    obtain ⟨k, hk4, hk56, hc⟩ := h.pow_two
    have hs := h.size_le
    -- a full array below the limit cannot already have the largest capacity
    have hlt : k < 56 := by
      rcases Nat.lt_or_eq_of_le hk56 with hlt | heq
      · exact hlt
      · subst heq
        unfold dynMaxCapacity at hM
        omega
    exact ⟨k + 1, by omega, hlt, by show 2 * a.capacity = _; rw [hc, Nat.pow_succ, Nat.mul_comm]⟩
  width_pos := h.width_pos
  bytes_eq := rfl

theorem doubled_contents {a : DynArrayT} (h : Wf a) (hr : Roomy a) (junk : Block) :
    contents (doubled a junk) = contents a := by
  have hb : a.bytes = a.capacity * a.dataTypeSize := by
    rw [h.bytes_eq]
    exact wrap_of_lt (h.roomy_lt hr)
  show records (reallocBlock a.array junk a.bytes) a.dataTypeSize 0 a.size = _
  rw [hb]
  exact records_realloc _ _ h.size_le

/-! ## Insertion -/

/-- The array after `k` elements read from `f` have been inserted at `p`. -/
def inserted (a : DynArrayT) (p k : Nat) (f : Block) : DynArrayT :=
  let moved :=
    if p ≠ a.size then
      blit a.array (dynArrayPosition a (wrap (p + k))) a.array (dynArrayPosition a p)
        (dynSizeNElems a (wrap (a.size - p)))
    else a.array
  { a with array := blit moved (dynArrayPosition a p) f 0 (dynSizeNElems a k),
           size := wrap (a.size + k) }

/-- **Insertion on elements**: with room for `k` more, the new ones stand at `p`. -/
theorem inserted_contents {a : DynArrayT} (h : Wf a) (hr : Roomy a) {p k : Nat} (f : Block)
    (hp : p ≤ a.size) (hk : a.size + k ≤ a.capacity) :
    contents (inserted a p k f)
      = (contents a).take p ++ records f a.dataTypeSize 0 k ++ (contents a).drop p := by
  have hc := h.capacity_le
  have hsize : wrap (a.size + k) = a.size + k := wrap_of_lt (by omega)
  have hgap : blit a.array ((p + k) * a.dataTypeSize) a.array (p * a.dataTypeSize)
      ((a.size - p) * a.dataTypeSize) =
      if p ≠ a.size then
        blit a.array (dynArrayPosition a (wrap (p + k))) a.array (dynArrayPosition a p)
          (dynSizeNElems a (wrap (a.size - p)))
      else a.array := by
    split
    · rw [wrap_of_lt (n := p + k) (by omega), wrap_of_lt (n := a.size - p) (by omega),
        position_eq h hr (by omega), position_eq h hr (by omega), sizeNElems_eq h hr (by omega)]
    · rename_i heq
      -- nothing to move: the gap is opened at the end
      have hz : a.size - p = 0 := by omega
      funext o
      rw [hz, Nat.zero_mul, blit, if_neg (by omega)]
  show records (blit _ (dynArrayPosition a p) f 0 (dynSizeNElems a k)) a.dataTypeSize 0
    (wrap (a.size + k)) = _
  rw [hsize, ← hgap, position_eq h hr (by omega), sizeNElems_eq h hr (by omega)]
  have hins := records_insert a.array f a.dataTypeSize a.size p k 0 hp
  rw [Nat.zero_mul] at hins
  exact hins

theorem inserted_wf {a : DynArrayT} (h : Wf a) {p k : Nat} (f : Block)
    (hk : a.size + k ≤ a.capacity) : Wf (inserted a p k f) where
  size_le := by
    have hc := h.capacity_le
    show wrap (a.size + k) ≤ a.capacity
    rw [wrap_of_lt (by omega)]
    exact hk
  pow_two := h.pow_two
  width_pos := h.width_pos
  bytes_eq := h.bytes_eq

/-- `dyn_shift_insert` of an outside object when no growth is needed. -/
theorem dynShiftInsert_fits {M : Nat} {a : DynArrayT} (h : Wf a) {p k : Nat} (f : Block) (g : Alloc)
    (hk0 : k ≠ 0) (hp : p ≤ a.size) (hk : a.size + k ≤ a.capacity) :
    dynShiftInsert M a p k .insert (some (.outside f)) g
      = some { ret := true, arr := inserted a p k f } := by
  rw [dynShiftInsert, if_pos ⟨hk0, rfl, hp⟩, requestSizeIncrease_fits h g hk]
  rfl

/-- `dyn_shift_insert` of one outside object into a full array. -/
theorem dynShiftInsert_full {a : DynArrayT} (h : Wf a) {p : Nat} (f : Block) (g : Alloc)
    (hp : p ≤ a.size) (hfull : a.capacity < a.size + 1) :
    dynShiftInsert dynMaxCapacity a p 1 .insert (some (.outside f)) g =
      if dynMaxCapacity < a.size + 1 then some { ret := false, arr := a }
      else match g with
        | some junk => some { ret := true, arr := inserted (doubled a junk) p 1 f }
        | none => some { ret := false, arr := a } := by
  rw [dynShiftInsert, if_pos ⟨by decide, rfl, hp⟩, requestSizeIncrease_full h g hfull]
  split
  · rfl
  · cases g with
    | none => rfl
    | some junk => rfl

/-- Past the end nothing is inserted. -/
theorem dynShiftInsert_past {M : Nat} {a : DynArrayT} {p k : Nat} {src : Option Source} (g : Alloc)
    (hp : a.size < p) : dynShiftInsert M a p k .insert src g = some { ret := false, arr := a } := by
  cases src with
  | none => rfl
  | some src => rw [dynShiftInsert, if_neg (by omega)]

/-! ## Removal -/

/-- The array after the `k` elements at `p` have been erased. -/
def erased (a : DynArrayT) (p k : Nat) : DynArrayT :=
  { a with
    array := if p + k < a.size then
        blit a.array (p * a.dataTypeSize) a.array ((p + k) * a.dataTypeSize)
          ((a.size - (p + k)) * a.dataTypeSize)
      else a.array
    size := a.size - k
    destructed := a.destructed ++ if a.destructor then records a.array a.dataTypeSize p k else [] }

/-- The destructor loop visits the elements in index order. -/
theorem destructLoop_eq (a : DynArrayT) :
    ∀ k p, destructLoop a k (p * a.dataTypeSize) = records a.array a.dataTypeSize p k
  | 0, _ => rfl
  | k + 1, p => by
    have hstep : p * a.dataTypeSize + a.dataTypeSize = (p + 1) * a.dataTypeSize := by
      rw [Nat.add_mul, Nat.one_mul]
    rw [destructLoop, hstep, destructLoop_eq a k (p + 1), records_split _ _ p (k + 1) 1 (by omega),
      records_one]
    rfl

/-- `dyn_shift_remove` in mode ERASE, in bounds. -/
theorem dynShiftRemove_erase {a : DynArrayT} (h : Wf a) (hr : Roomy a) {p k : Nat} (dst : Bool)
    (hk0 : k ≠ 0) (hpk : p + k ≤ a.size) :
    dynShiftRemove a p k .erase dst = { ret := true, arr := erased a p k } := by
  have hs := h.size_le
  have hc := h.capacity_le
  have hsum : wrap (p + k) = p + k := wrap_of_lt (by omega)
  have hsub : wrap (a.size + 2 ^ 64 - k) = a.size - k := wrap_sub h.size_lt (by omega)
  have hrest : wrap (a.size - (p + k)) = a.size - (p + k) := wrap_of_lt (by omega)
  have hp := position_eq h hr (i := p) (by omega)
  have hpk' := position_eq h hr (i := p + k) (by omega)
  have hn := sizeNElems_eq h hr (n := a.size - (p + k)) (by omega)
  rw [dynShiftRemove, if_pos ⟨hk0, by omega, by decide, by rw [hsum]; exact hpk⟩, if_pos rfl]
  simp only [hsum, hp, destructLoop_eq]
  cases hd : a.destructor with
  | true =>
    simp only [if_true, hrest, hsub, erased, hd]
    congr 2
    split
    · rw [← hp, ← hpk', ← hn]; rfl
    · rfl
  | false =>
    simp only [Bool.false_eq_true, if_false, hrest, hsub, erased, hd, List.append_nil, hp, hpk', hn]

/-- **Removal on elements**: the `k` at `p` are gone, the others keep their order. -/
theorem erased_contents {a : DynArrayT} {p k : Nat} (hpk : p + k ≤ a.size) :
    contents (erased a p k) = (contents a).take p ++ (contents a).drop (p + k) := by
  have hgap : (erased a p k).array
      = blit a.array (p * a.dataTypeSize) a.array ((p + k) * a.dataTypeSize)
          ((a.size - (p + k)) * a.dataTypeSize) := by
    show (if _ then _ else _) = _
    split
    · rfl
    · have hz : a.size - (p + k) = 0 := by omega
      funext o
      rw [hz, Nat.zero_mul, blit, if_neg (by omega)]
  show records (erased a p k).array a.dataTypeSize 0 (a.size - k) = _
  rw [hgap]
  exact records_remove a.array a.dataTypeSize a.size p k hpk

theorem erased_wf {a : DynArrayT} (h : Wf a) (p k : Nat) : Wf (erased a p k) where
  size_le := by have := h.size_le; show a.size - k ≤ a.capacity; omega
  pow_two := h.pow_two
  width_pos := h.width_pos
  bytes_eq := h.bytes_eq

/-- The elements the destructor is given, on the list side. -/
theorem erased_destructed {a : DynArrayT} {p k : Nat} (hpk : p + k ≤ a.size) :
    (erased a p k).destructed
      = a.destructed ++ if a.destructor then ((contents a).drop p).take k else [] := by
  have hrec : ((contents a).drop p).take k = records a.array a.dataTypeSize p k := by
    rw [contents, records_drop _ _ 0 a.size p (by omega), Nat.zero_add,
      records_take _ _ p (a.size - p) k (by omega)]
  rw [hrec]
  rfl

/-- Out of an empty array nothing is removed. -/
theorem dynShiftRemove_empty {a : DynArrayT} (hz : a.size = 0) (p k : Nat) (mode : ShiftMode)
    (dst : Bool) : dynShiftRemove a p k mode dst = { ret := false, arr := a } := by
  rw [dynShiftRemove, if_neg (fun h => h.2.1 hz)]

end Msvl.DynArray
