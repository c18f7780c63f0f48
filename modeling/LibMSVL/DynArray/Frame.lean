/-
  Where a call writes.

  `Inv` and `Refine` say what a call does to the elements; here it is what it leaves alone, down to
  the bytes: nothing behind the `capacity * data_type_size` bytes of the block the array ends up
  with.

  * `Framed` — the two ways a call can end: in the same block, or in one of twice the size;
  * `inserted_past`, `erased_past` — the two shapes of writing;
  * `Act` — what a client can do with an array (the calls of `Op`, sorting, writing through a
    pointer into it, destroying), and `Act.framed`, the headline.
-/
import LibMSVL.DynArray.BufferSize
import LibMSVL.DynArray.OutOfRange

namespace Msvl.DynArray

open Msvl.Bytes

/-- `b` is what a call made of `a`: the same block, or the one `realloc` answered with, and behind
    its `capacity` elements it holds what it held. -/
inductive Framed (g : Alloc) (a b : DynArrayT) : Prop where
  | kept (hcap : b.capacity = a.capacity)
      (hpast : ∀ o, a.capacity * a.dataTypeSize ≤ o → b.array o = a.array o)
  | grown (junk : Block) (hg : g = some junk) (hcap : b.capacity = 2 * a.capacity)
      (hpast : ∀ o, 2 * a.capacity * a.dataTypeSize ≤ o → b.array o = junk o)

theorem Framed.same (g : Alloc) (a : DynArrayT) : Framed g a a := .kept rfl fun _ _ => rfl

/-- A well-formed array has its room exactly when the product of the request fits. -/
theorem roomy_iff {a : DynArrayT} (h : Wf a) : Roomy a ↔ Fits a.capacity a.dataTypeSize := by
  constructor
  · exact h.roomy_lt
  · intro hf
    exact Nat.le_of_eq ((exact_iff h).mpr hf).bytes_eq.symm

/-! ## Insertion and removal -/

/-- Inserting `k` elements that there is room for writes inside the block. -/
theorem inserted_past {a : DynArrayT} {p k : Nat} (f : Block) (hp : p ≤ a.size)
    (hk : a.size + k ≤ a.capacity) (o : Nat) (ho : a.capacity * a.dataTypeSize ≤ o) :
    (inserted a p k f).array o = a.array o := by
  have hle : (a.size + k) * a.dataTypeSize ≤ a.capacity * a.dataTypeSize := Nat.mul_le_mul_right _ hk
  -- wrapping makes offsets and lengths smaller only
  have hpos : ∀ i, dynArrayPosition a i ≤ i * a.dataTypeSize := fun i => Nat.mod_le _ _
  have hlen : ∀ n, dynSizeNElems a n ≤ n * a.dataTypeSize := fun n => by
    rw [Nat.mul_comm n]
    exact Nat.mod_le _ _
  have hsum : ∀ i n, i + n ≤ a.size + k → dynArrayPosition a i + dynSizeNElems a n ≤ o := by
    intro i n hin
    have h1 := hpos i
    have h2 := hlen n
    have h3 : (i + n) * a.dataTypeSize ≤ (a.size + k) * a.dataTypeSize := Nat.mul_le_mul_right _ hin
    rw [Nat.add_mul] at h3
    omega
  have hw : ∀ n, wrap n ≤ n := fun n => Nat.mod_le _ _
  show blit (if p ≠ a.size then _ else _) (dynArrayPosition a p) f 0 (dynSizeNElems a k) o = _
  rw [blit_past (hsum p k (by omega))]
  split
  · have h1 := hw (p + k)
    have h2 := hw (a.size - p)
    exact blit_past (hsum _ _ (by omega))
  · rfl

/-- Closing the gap of a removal does, too. -/
theorem erased_past {a : DynArrayT} {p k : Nat} (h : Wf a) (o : Nat)
    (ho : a.capacity * a.dataTypeSize ≤ o) : (erased a p k).array o = a.array o := by
  have hs := h.size_le
  show (if p + k < a.size then _ else _ : Block) o = _
  split
  · apply blit_past
    have hle : (p + (a.size - (p + k))) * a.dataTypeSize ≤ a.capacity * a.dataTypeSize :=
      Nat.mul_le_mul_right _ (by omega)
    rw [Nat.add_mul] at hle
    omega
  · rfl

/-- Once there is room, `dyn_shift_insert` is `inserted`, wherever the object lies. -/
theorem dynShiftInsert_filled {M : Nat} {a b : DynArrayT} {p : Nat} (src : Source) {g : Alloc}
    (hp : p ≤ a.size) (hgrow : dynRequestSizeIncrease M a 1 g = some (true, b)) :
    ∃ f, dynShiftInsert M a p 1 .insert (some src) g = some { ret := true, arr := inserted b p 1 f } := by
  rw [dynShiftInsert, if_pos ⟨by decide, rfl, hp⟩, hgrow]
  exact ⟨_, rfl⟩

theorem insert_framed {a : DynArrayT} (h : Wf a) {p : Nat} {src : Option Source} {g : Alloc}
    {r : Result} (hrun : dynShiftInsert dynMaxCapacity a p 1 .insert src g = some r) :
    Framed g a r.arr := by
  have hs := h.size_le
  rcases Nat.lt_or_ge a.size p with hp | hp
  · rw [dynShiftInsert_past g hp] at hrun
    obtain rfl := Option.some.inj hrun
    exact .same g a
  · cases src with
    | none =>
      obtain rfl := Option.some.inj hrun
      exact .same g a
    | some src =>
      rcases Nat.lt_or_ge a.size a.capacity with hfit | hfull
      · obtain ⟨f, hins⟩ := dynShiftInsert_filled src hp (requestSizeIncrease_fits h g hfit)
        obtain rfl := Option.some.inj (hins.symm.trans hrun)
        exact .kept rfl fun o ho => inserted_past f hp hfit o ho
      · have hgrow := requestSizeIncrease_full h g (by omega)
        by_cases hM : dynMaxCapacity < a.size + 1
        · rw [if_pos hM] at hgrow
          rw [dynShiftInsert, if_pos ⟨by decide, rfl, hp⟩, hgrow] at hrun
          obtain rfl := Option.some.inj hrun
          exact .same g a
        · rw [if_neg hM] at hgrow
          cases g with
          | none =>
            rw [dynShiftInsert, if_pos ⟨by decide, rfl, hp⟩, hgrow] at hrun
            obtain rfl := Option.some.inj hrun
            exact .same none a
          | some junk =>
            obtain ⟨f, hins⟩ := dynShiftInsert_filled src hp hgrow
            obtain rfl := Option.some.inj (hins.symm.trans hrun)
            have hroom : (doubled a junk).size + 1 ≤ (doubled a junk).capacity := by
              obtain ⟨k, -, -, hk⟩ := h.pow_two
              have := Nat.two_pow_pos k
              show a.size + 1 ≤ 2 * a.capacity
              omega
            refine .grown junk rfl rfl fun o ho => ?_
            rw [inserted_past f (a := doubled a junk) hp hroom o ho]
            -- the old block is not longer than the new one
            have hb : a.bytes ≤ a.capacity * a.dataTypeSize := by
              rw [h.bytes_eq]
              exact Nat.mod_le _ _
            rw [Nat.mul_assoc] at ho
            show (if o < a.bytes then _ else _) = _
            rw [if_neg (by omega)]

theorem remove_framed {a : DynArrayT} (h : Wf a) (hr : Roomy a) {p k : Nat} (mode : ShiftMode)
    (dst : Bool) (g : Alloc) (hpk : a.size ≠ 0 → p + k < 2 ^ 64) :
    Framed g a (dynShiftRemove a p k mode dst).arr := by
  by_cases hg : k ≠ 0 ∧ a.size ≠ 0 ∧ mode.val &&& typeRemove ≠ 0 ∧ wrap (p + k) ≤ a.size
  · by_cases herase : mode = .erase
    · subst herase
      have hle : p + k ≤ a.size := by rw [← wrap_of_lt (hpk hg.2.1)]; exact hg.2.2.2
      rw [dynShiftRemove_erase h hr dst hg.1 hle]
      exact .kept rfl fun o ho => erased_past h o ho
    · rw [dynShiftRemove, if_pos hg, if_neg herase]
      split
      · exact .same g a
      · exact .same g a
  · rw [dynShiftRemove, if_neg hg]
    exact .same g a

/-! ## What a client does with an array -/

/-- A call, `dyn_array_sort`, a write through a pointer to element `index` (as `dyn_array_at` and
    `dyn_array_for_each` hand it out), or `dyn_array_destroy`. -/
inductive Act where
  | call (op : Op)
  | sort (compare : Elem → Elem → Int)
  | edit (index : Nat) (object : Block)
  | destroy

/-- The array afterwards. -/
def Act.run (qsort : Qsort) (act : Act) (g : Alloc) (a : DynArrayT) : Option DynArrayT :=
  match act with
  | .call op => (op.run dynMaxCapacity g a).map Result.arr
  | .sort compare => some (dynArraySort qsort a (some compare)).arr
  | .edit i f => some { a with array := blit a.array (dynArrayPosition a i) f 0 a.dataTypeSize }
  | .destroy => some (dynArrayDestroy a)

/-- The array is still there afterwards. -/
def Act.keeps : Act → Bool
  | .destroy => false
  | _ => true

/-- A growth whose product fits; no erasure at `SIZE_MAX`; a pointer to an element there is. -/
def Act.Allowed (act : Act) (g : Alloc) (a : DynArrayT) : Prop :=
  match act with
  | .call op => GrowthFits op g a ∧ ∀ i, op = .erase i → i < sizeMax
  | .edit i _ => i < a.size
  | .sort _ | .destroy => True

/-- `qsort` writes nothing behind the elements it is given. -/
def InPlace (qsort : Qsort) : Prop :=
  ∀ (m : Block) (n w : Nat) (compare : Elem → Elem → Int) (o : Nat), n * w ≤ o →
    qsort m n w compare o = m o

/-- Popping and clearing, which `dyn_array_destroy` begins with. -/
theorem clear_framed {a : DynArrayT} (h : Wf a) (hr : Roomy a) (g : Alloc) :
    Framed g a (dynArrayClear a) := by
  have hs := h.size_lt
  unfold dynArrayClear
  split
  · exact remove_framed h hr .erase false g fun _ => by omega
  · exact .same g a

/-- **One call** writes inside the block.  Every case is one of the two shapes. -/
theorem run_framed {a : DynArrayT} (h : Wf a) (hr : Roomy a) {op : Op} {g : Alloc} {r : Result}
    (hrun : op.run dynMaxCapacity g a = some r) (hidx : ∀ i, op = .erase i → i < sizeMax) :
    Framed g a r.arr := by
  have hs := h.size_lt
  -- the last index, where there is one
  have hlast : a.size ≠ 0 → wrap (a.size + 2 ^ 64 - 1) + 1 < 2 ^ 64 := fun hz => by
    rw [wrap_sub h.size_lt (Nat.pos_of_ne_zero hz)]
    omega
  -- extracting copies out
  have hcopy : ∀ p dst, Framed g a (dynShiftRemove a p 1 .extract dst).arr := fun p dst => by
    unfold dynShiftRemove
    split
    · rw [if_neg (by decide)]
      split
      · exact .same g a
      · exact .same g a
    · exact .same g a
  cases op with
  | pushFront object => exact insert_framed h hrun
  | pushBack object => exact insert_framed h hrun
  | insert i object => exact insert_framed h hrun
  | insertSorted object compare =>
    cases object with
    | none =>
      obtain rfl := Option.some.inj hrun
      exact .same g a
    | some src =>
      have hrun : dynShiftInsert dynMaxCapacity a (sortedPosition a (src.elem a) compare a.size 0) 1
        .insert (some src) g = some r := hrun
      exact insert_framed h hrun
  | popFront =>
    obtain rfl := Option.some.inj hrun
    exact remove_framed h hr .erase false g fun _ => by decide
  | popBack =>
    obtain rfl := Option.some.inj hrun
    exact remove_framed h hr .erase false g hlast
  | erase i =>
    obtain rfl := Option.some.inj hrun
    have hi := hidx i rfl
    unfold sizeMax at hi
    exact remove_framed h hr .erase false g fun _ => by omega
  | clear =>
    obtain rfl := Option.some.inj hrun
    exact clear_framed h hr g
  | extractFront dst =>
    obtain rfl := Option.some.inj hrun
    exact hcopy _ dst
  | extractBack dst =>
    obtain rfl := Option.some.inj hrun
    exact hcopy _ dst
  | extract i dst =>
    obtain rfl := Option.some.inj hrun
    exact hcopy _ dst

/-- Everything a memory with several arrays needs to know of one step on one of them. -/
structure ActSpec (g : Alloc) (a b : DynArrayT) : Prop where
  wf : Wf b
  fits : Fits b.capacity b.dataTypeSize
  width : b.dataTypeSize = a.dataTypeSize
  framed : Framed g a b

theorem Touched.width {op : Op} {g : Alloc} {a : DynArrayT} {r : Result} (ht : Touched op g a r) :
    r.arr.dataTypeSize = a.dataTypeSize := by
  cases ht with
  | kept m s d harr _ _ _ _ => rw [harr]
  | grown junk m _ _ => rfl

theorem call_spec {a : DynArrayT} (h : Wf a) (hf : Fits a.capacity a.dataTypeSize) {op : Op}
    {g : Alloc} (hok : GrowthFits op g a) (hidx : ∀ i, op = .erase i → i < sizeMax) :
    ∃ r, op.run dynMaxCapacity g a = some r ∧ ActSpec g a r.arr := by
  obtain ⟨r, hrun, ht⟩ := run_touched h op g
  have hex := ht.exact h ((exact_iff h).mpr hf) hok
  exact ⟨r, hrun, ht.wf h, (exact_iff (ht.wf h)).mp hex, ht.width,
    run_framed h ((roomy_iff h).mpr hf) hrun hidx⟩

/-- **One step** of a client on an array: it goes through, and writes where it may. -/
theorem Act.spec {qsort : Qsort} (hq : InPlace qsort) {a : DynArrayT} (h : Wf a)
    (hf : Fits a.capacity a.dataTypeSize) {act : Act} {g : Alloc} (hok : act.Allowed g a) :
    ∃ b, act.run qsort g a = some b ∧ ActSpec g a b := by
  have hs := h.size_le
  have hle : a.size * a.dataTypeSize ≤ a.capacity * a.dataTypeSize := Nat.mul_le_mul_right _ hs
  cases act with
  | call op =>
    obtain ⟨r, hrun, hspec⟩ := call_spec h hf hok.1 hok.2
    exact ⟨r.arr, by rw [Act.run, hrun, Option.map_some], hspec⟩
  | sort compare =>
    refine ⟨_, rfl, ?_⟩
    unfold dynArraySort
    simp only
    split
    · exact ⟨⟨hs, h.pow_two, h.width_pos, h.bytes_eq⟩, hf, rfl,
        .kept rfl fun o ho => hq _ _ _ _ o (Nat.le_trans hle ho)⟩
    · exact ⟨h, hf, rfl, .same g a⟩
  | edit i f =>
    have hi : i < a.size := hok
    refine ⟨_, rfl, ⟨hs, h.pow_two, h.width_pos, h.bytes_eq⟩, hf, rfl, .kept rfl fun o ho => ?_⟩
    apply blit_past
    have hle' : (i + 1) * a.dataTypeSize ≤ a.size * a.dataTypeSize := Nat.mul_le_mul_right _ hi
    rw [Nat.add_mul, Nat.one_mul] at hle'
    rw [position_eq h ((roomy_iff h).mpr hf) (by omega)]
    omega
  | destroy =>
    obtain ⟨r, hrun, ht⟩ := run_touched h .clear g
    obtain rfl := Option.some.inj hrun
    have hex := ht.exact h ((exact_iff h).mpr hf) fun hg => hg.1.elim
    exact ⟨_, rfl, ht.wf h, (exact_iff (ht.wf h)).mp hex, ht.width,
      clear_framed h ((roomy_iff h).mpr hf) g⟩

end Msvl.DynArray
