/-
  Removal past the end.

  `dyn_shift_remove` checks its bound as `position + count <= size`, in `size_t`.  For one element
  the sum is exact below `SIZE_MAX`; at `SIZE_MAX` it is 0, and 0 is within every array.

  * `remove_past` — every other index from `size` on is refused;
  * `remove_wrapped` — at `SIZE_MAX` a non-empty array is read, destructed and shrunk in front of
    its first element;
  * `outOfRange_refused_iff` — the headline, for every array, index and destination.
-/
import LibMSVL.DynArray.Inv

namespace Msvl.DynArray

open Msvl.Bytes

/-- `SIZE_MAX`. -/
def sizeMax : Nat := 2 ^ 64 - 1

/-- The call is refused: `false`, no destructor run, nothing handed out, the array as it was. -/
def Untouched (a : DynArrayT) (r : Result) : Prop := r = { ret := false, arr := a }

/-- The sum of the bound check is exact below `SIZE_MAX`. -/
theorem remove_past {a : DynArrayT} {i : Nat} (mode : ShiftMode) (dst : Bool) (hi : a.size ≤ i)
    (hmax : i < sizeMax) : Untouched a (dynShiftRemove a i 1 mode dst) := by
  have hsum : wrap (i + 1) = i + 1 := wrap_of_lt (by unfold sizeMax at hmax; omega)
  rw [Untouched, dynShiftRemove, if_neg]
  rintro ⟨-, -, -, hle⟩
  omega

/-- At `SIZE_MAX` it is 0, which no array fails. -/
theorem remove_wrapped {a : DynArrayT} (mode : ShiftMode) (dst : Bool) (hz : a.size ≠ 0)
    (hmode : mode.val &&& typeRemove ≠ 0) :
    (dynShiftRemove a sizeMax 1 mode dst).ret = (mode == .erase || dst) := by
  have hsum : wrap (sizeMax + 1) ≤ a.size := Nat.zero_le _
  rw [dynShiftRemove, if_pos ⟨by decide, hz, hmode, hsum⟩]
  cases mode with
  | insert => exact absurd rfl hmode
  | extract => cases dst <;> rfl
  | erase => rfl

/-- Without a destination nothing is extracted, wherever. -/
theorem extract_null (a : DynArrayT) (i : Nat) :
    Untouched a (dynShiftRemove a i 1 .extract false) := by
  unfold dynShiftRemove
  split
  · rfl
  · rfl

theorem erase_untouched_iff {a : DynArrayT} {i : Nat} (hi : a.size ≤ i) (h64 : i ≤ sizeMax) :
    Untouched a (dynArrayErase a i) ↔ (i = sizeMax → a.size = 0) := by
  constructor
  · intro hu hmax
    subst hmax
    by_cases hz : a.size = 0
    · exact hz
    · have hret := remove_wrapped .erase false hz (by decide)
      rw [show dynShiftRemove a sizeMax 1 .erase false = { ret := false, arr := a } from hu] at hret
      exact nomatch show false = true from hret
  · intro hok
    by_cases hmax : i = sizeMax
    · exact dynShiftRemove_empty (hok hmax) i 1 .erase false
    · exact remove_past .erase false hi (by omega)

theorem extract_untouched_iff {a : DynArrayT} {i : Nat} (dst : Bool) (hi : a.size ≤ i)
    (h64 : i ≤ sizeMax) :
    Untouched a (dynArrayExtract a i dst) ↔ (i = sizeMax → a.size = 0 ∨ dst = false) := by
  constructor
  · intro hu hmax
    subst hmax
    by_cases hz : a.size = 0
    · exact .inl hz
    · have hret := remove_wrapped .extract dst hz (by decide)
      rw [show dynShiftRemove a sizeMax 1 .extract dst = { ret := false, arr := a } from hu] at hret
      exact .inr hret.symm
  · intro hok
    by_cases hmax : i = sizeMax
    · rcases hok hmax with hz | rfl
      · exact dynShiftRemove_empty hz i 1 .extract dst
      · exact extract_null a i
    · exact remove_past .extract dst hi (by omega)

/-- **Out-of-range removals are refused, `SIZE_MAX` excepted.**  Erasing at an index from `size` on
    leaves the array untouched iff the index is not `SIZE_MAX` or the array is empty; extracting
    there also when no destination is given.  On an empty array the four calls that name no index
    are always refused. -/
theorem outOfRange_refused_iff (a : DynArrayT) :
    (∀ i, a.size ≤ i → i ≤ sizeMax →
      (Untouched a (dynArrayErase a i) ↔ (i = sizeMax → a.size = 0)) ∧
      ∀ dst, Untouched a (dynArrayExtract a i dst) ↔ (i = sizeMax → a.size = 0 ∨ dst = false)) ∧
    (a.size = 0 → Untouched a (dynArrayPopFront a) ∧ Untouched a (dynArrayPopBack a) ∧
      ∀ dst, Untouched a (dynArrayExtractFront a dst) ∧ Untouched a (dynArrayExtractBack a dst)) := by
  refine ⟨fun i hi h64 => ⟨erase_untouched_iff hi h64, fun dst => extract_untouched_iff dst hi h64⟩,
    fun hz => ⟨?_, ?_, fun dst => ⟨?_, ?_⟩⟩⟩
  · exact dynShiftRemove_empty hz 0 1 .erase false
  · exact dynShiftRemove_empty hz _ 1 .erase false
  · exact dynShiftRemove_empty hz 0 1 .extract dst
  · exact dynShiftRemove_empty hz _ 1 .extract dst

/-- An array of two elements, at index 2. -/
theorem outOfRange_refused_two :
    let a := { freshArray 16 1 true fun _ => 7 with size := 2 }
    Untouched a (dynArrayErase a 2) ∧ Untouched a (dynArrayExtract a 2 true) := by
  intro a
  obtain ⟨herase, hextract⟩ := (outOfRange_refused_iff a).1 2 (by decide) (by decide)
  exact ⟨herase.mpr fun h => absurd h (by decide), (hextract true).mpr fun h => absurd h (by decide)⟩

/-- Erasing at `SIZE_MAX` from an array of one element: it succeeds, calls the destructor on what
    lies in front of the block, and the element is gone. -/
theorem erase_wraps :
    ∃ r, dynArrayPushBack dynMaxCapacity (freshArray 16 1 true fun _ => 0)
        (some (.outside fun _ => 7)) none = some r ∧
      r.arr.size = 1 ∧ (dynArrayErase r.arr sizeMax).ret = true ∧
      (dynArrayErase r.arr sizeMax).arr.size = 0 ∧
      (dynArrayErase r.arr sizeMax).arr.destructed.length = 1 ∧
      ¬ Untouched r.arr (dynArrayErase r.arr sizeMax) := by
  refine ⟨_, rfl, rfl, rfl, rfl, rfl, fun hu => ?_⟩
  exact absurd (congrArg Result.ret hu) (by decide)

end Msvl.DynArray
