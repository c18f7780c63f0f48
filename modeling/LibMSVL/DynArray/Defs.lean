/-
  `dyn_array.c` — the growable array of fixed-width elements.

  A `dyn_array_t` owns one malloc'ed block and keeps element `i` at byte offset
  `i * data_type_size`.  Every operation goes through three static functions, translated here
  statement by statement: `dyn_shift_insert` (grow, open a gap, copy in), `dyn_shift_remove`
  (destruct or hand out, close the gap) and `dyn_request_size_increase` (double until it fits).

  Conventions of the translation:

  * `size_t` values are `Nat`s below `2 ^ 64`; every addition, multiplication and shift that the C
    code does on them is followed by `wrap`.
  * The allocator is an argument: `some junk` when `malloc`/`realloc` succeeds (`junk` is what the
    new memory happens to hold), `none` when it returns NULL.  `bytes` keeps the number of bytes
    asked for.
  * `DYN_MAX_CAPACITY` is the parameter `M`; `dynMaxCapacity` is its default.
  * A loop that never ends gives `none`.
  * `destructed` records the elements the destructor was called on, in order.
  * `dyn_arr` itself is not NULL.
-/
import LibMSVL.Lib.Bytes
import Mathlib.Algebra.Group.Nat.Defs

namespace Msvl.DynArray

open Msvl.Bytes

/-- Unsigned 64-bit arithmetic. -/
def wrap (n : Nat) : Nat := n % 2 ^ 64

/-- `((size_t) 1) << ((sizeof(size_t) << 3) - 8)`. -/
def dynMaxCapacity : Nat := 2 ^ 56

/-- An element as the client sees it: its bytes. -/
abbrev Elem := List UInt8

/-- `DYN_SHIFT_MODE`. -/
inductive ShiftMode where
  | insert
  | extract
  | erase
  deriving DecidableEq, Repr

def ShiftMode.val : ShiftMode → Nat
  | .insert => 0x01
  | .extract => 0x02
  | .erase => 0x06

/-- `TYPE_REMOVE`. -/
def typeRemove : Nat := 0x02

/-- `struct dyn_array`, with the block behind `array` and two records that are not in the struct:
    the length of that block and the destructor's calls. -/
structure DynArrayT where
  capacity : Nat
  size : Nat
  dataTypeSize : Nat
  array : Block
  /-- `destructor` is not NULL. -/
  destructor : Bool
  bytes : Nat
  destructed : List Elem

/-- A `const void *` that is not NULL: memory outside the array, or byte offset `off` of the
    array's own block. -/
inductive Source where
  | outside (bytes : Block)
  | own (off : Nat)

/-- What the allocator answers: the contents of the new memory, or NULL. -/
abbrev Alloc := Option Block

/-- The outcome of one call: return value, array afterwards, bytes written to the destination. -/
structure Result where
  ret : Bool
  arr : DynArrayT
  out : Option Elem := none

/-- `DYN_ARRAY_POSITION`, as an offset into the block. -/
def dynArrayPosition (a : DynArrayT) (idx : Nat) : Nat := wrap (idx * a.dataTypeSize)

/-- `DYN_SIZE_N_ELEMS`. -/
def dynSizeNElems (a : DynArrayT) (n : Nat) : Nat := wrap (a.dataTypeSize * n)

/-! ## Creation -/

/-- The loop `while (c < needed) c <<= 1;`.  After 64 shifts the variable is 0 for good, so a run
    that needs more rounds never ends. -/
def doubleUntil (needed : Nat) : Nat → Nat → Option Nat
  | 0, c => if c < needed then none else some c
  | fuel + 1, c => if c < needed then doubleUntil needed fuel (wrap (2 * c)) else some c

/-- What `dyn_array_create` does to memory, in order. -/
inductive MemEvent where
  | mallocStruct
  | mallocBuffer (bytes : Nat)
  | writeStruct
  | readStruct
  | freeStruct
  deriving DecidableEq, Repr

/-- The struct literal `dyn_array_create` copies into place. -/
def freshArray (capacity dataTypeSize : Nat) (destructor : Bool) (junk : Block) : DynArrayT :=
  { capacity := capacity, size := 0, dataTypeSize := dataTypeSize, array := junk,
    destructor := destructor, bytes := wrap (capacity * dataTypeSize), destructed := [] }

/-- `dyn_array_create`: the array (NULL is `none`) and the memory events.  `mStruct`, `mBuf` answer
    the two `malloc` calls.  A limit exceeded by rounding frees the struct and CARRIES ON. -/
def dynArrayCreate (M capacity dataTypeSize : Nat) (destructor mStruct : Bool) (mBuf : Alloc) :
    Option (Option DynArrayT × List MemEvent) :=
  if dataTypeSize ≠ 0 ∧ capacity ≤ M then
    if mStruct then
      (doubleUntil capacity 64 16).map fun actual =>
        let freed := if actual > M then [MemEvent.freeStruct] else []
        let before := [MemEvent.mallocStruct] ++ freed
          ++ [.mallocBuffer (wrap (actual * dataTypeSize)), .writeStruct, .readStruct]
        match mBuf with
        | some junk => (some (freshArray actual dataTypeSize destructor junk), before)
        | none => (none, before ++ [.freeStruct])
    else some (none, [.mallocStruct])
  else some (none, [])

/-! ## Growth -/

/-- `realloc`: the old bytes are kept, the rest is whatever the allocator left there. -/
def reallocBlock (old junk : Block) (oldBytes : Nat) : Block :=
  fun o => if o < oldBytes then old o else junk o

/-- `dyn_request_size_increase`. -/
def dynRequestSizeIncrease (M : Nat) (a : DynArrayT) (increment : Nat) (g : Alloc) :
    Option (Bool × DynArrayT) :=
  if wrap (a.size + increment) ≤ a.capacity then some (true, a)
  else
    let neededSize := wrap (a.size + increment)
    if neededSize ≤ M then
      (doubleUntil neededSize 64 (wrap (2 * a.capacity))).map fun newCapacity =>
        match g with
        | some junk =>
          (true, { a with capacity := newCapacity, array := reallocBlock a.array junk a.bytes,
                          bytes := wrap (newCapacity * a.dataTypeSize) })
        | none => (false, a)
    else some (false, a)

/-! ## The two shift functions -/

/-- The memory `src` points into when it is read: `m` is the array's block at that moment; after a
    reallocation (`moved`) an own pointer dangles and reads what the allocator left. -/
def Source.block (src : Source) (m : Block) (moved : Bool) (g : Alloc) : Block :=
  match src with
  | .outside b => b
  | .own off => fun o => if moved then (g.getD m) (off + o) else m (off + o)

/-- `dyn_shift_insert`. -/
def dynShiftInsert (M : Nat) (a : DynArrayT) (position count : Nat) (mode : ShiftMode)
    (dataSrc : Option Source) (g : Alloc) : Option Result :=
  match dataSrc with
  | none => some { ret := false, arr := a }
  | some src =>
    if count ≠ 0 ∧ mode = .insert ∧ position ≤ a.size then
      (dynRequestSizeIncrease M a count g).map fun (ok, b) =>
        if ok then
          let moved :=
            if position ≠ b.size then
              blit b.array (dynArrayPosition b (wrap (position + count))) b.array
                (dynArrayPosition b position) (dynSizeNElems b (wrap (b.size - position)))
            else b.array
          let filled := blit moved (dynArrayPosition b position)
            (src.block moved (a.capacity != b.capacity) g) 0 (dynSizeNElems b count)
          { ret := true, arr := { b with array := filled, size := wrap (b.size + count) } }
        else { ret := false, arr := b }
    else some { ret := false, arr := a }

/-- The loop over `destruct_pos`: the elements the destructor is given. -/
def destructLoop (a : DynArrayT) : Nat → Nat → List Elem
  | 0, _ => []
  | total + 1, pos => bytesAt a.array pos a.dataTypeSize :: destructLoop a total (pos + a.dataTypeSize)

/-- `dyn_shift_remove`.  `dst` tells whether `data_dst` is given; extracting RETURNS right after
    the copy. -/
def dynShiftRemove (a : DynArrayT) (position count : Nat) (mode : ShiftMode) (dst : Bool) : Result :=
  if count ≠ 0 ∧ a.size ≠ 0 ∧ mode.val &&& typeRemove ≠ 0 ∧ wrap (position + count) ≤ a.size then
    if mode = .erase then
      let a := if a.destructor then
          { a with destructed := a.destructed ++ destructLoop a count (dynArrayPosition a position) }
        else a
      let m :=
        if wrap (position + count) < a.size then
          blit a.array (dynArrayPosition a position) a.array
            (dynArrayPosition a (wrap (position + count)))
            (dynSizeNElems a (wrap (a.size - wrap (position + count))))
        else a.array
      { ret := true, arr := { a with array := m, size := wrap (a.size + 2 ^ 64 - count) } }
    else if dst then
      { ret := true, arr := a,
        out := some (bytesAt a.array (dynArrayPosition a position) (wrap (a.dataTypeSize * count))) }
    else { ret := false, arr := a }
  else { ret := false, arr := a }

/-! ## The public operations -/

/-- `dyn_array_at`: a pointer into the array's own block, NULL past the end. -/
def dynArrayAt (a : DynArrayT) (index : Nat) : Option Source :=
  if index < a.size then some (.own (dynArrayPosition a index)) else none

/-- `dyn_array_push_front`. -/
def dynArrayPushFront (M : Nat) (a : DynArrayT) (object : Option Source) (g : Alloc) : Option Result :=
  dynShiftInsert M a 0 1 .insert object g

/-- `dyn_array_push_back`. -/
def dynArrayPushBack (M : Nat) (a : DynArrayT) (object : Option Source) (g : Alloc) : Option Result :=
  dynShiftInsert M a a.size 1 .insert object g

/-- `dyn_array_insert`. -/
def dynArrayInsert (M : Nat) (a : DynArrayT) (index : Nat) (object : Option Source) (g : Alloc) :
    Option Result :=
  dynShiftInsert M a index 1 .insert object g

/-- `dyn_array_pop_front`. -/
def dynArrayPopFront (a : DynArrayT) : Result := dynShiftRemove a 0 1 .erase false

/-- `dyn_array_pop_back`; `size - 1` wraps on an empty array. -/
def dynArrayPopBack (a : DynArrayT) : Result :=
  dynShiftRemove a (wrap (a.size + 2 ^ 64 - 1)) 1 .erase false

/-- `dyn_array_erase`. -/
def dynArrayErase (a : DynArrayT) (index : Nat) : Result := dynShiftRemove a index 1 .erase false

/-- `dyn_array_clear`. -/
def dynArrayClear (a : DynArrayT) : DynArrayT :=
  if a.size ≠ 0 then (dynShiftRemove a 0 a.size .erase false).arr else a

/-- `dyn_array_extract_front`. -/
def dynArrayExtractFront (a : DynArrayT) (dst : Bool) : Result := dynShiftRemove a 0 1 .extract dst

/-- `dyn_array_extract_back`. -/
def dynArrayExtractBack (a : DynArrayT) (dst : Bool) : Result :=
  dynShiftRemove a (wrap (a.size + 2 ^ 64 - 1)) 1 .extract dst

/-- `dyn_array_extract`. -/
def dynArrayExtract (a : DynArrayT) (index : Nat) (dst : Bool) : Result :=
  dynShiftRemove a index 1 .extract dst

/-- `dyn_array_destroy`: the array as it is when its two blocks are freed. -/
def dynArrayDestroy (a : DynArrayT) : DynArrayT := dynArrayClear a

/-- `dyn_array_import`. -/
def dynArrayImport (M : Nat) (data : Option Source) (count dataTypeSize : Nat)
    (destructor mStruct : Bool) (mBuf g : Alloc) : Option (Option DynArrayT) :=
  if data.isSome ∧ count > 0 then
    (dynArrayCreate M count dataTypeSize destructor mStruct mBuf).bind fun (arr, _) =>
      match arr with
      | none => some none
      | some a => (dynShiftInsert M a 0 count .insert data g).map fun r =>
          if r.ret then some r.arr else none
  else some none

/-- The scan of `dyn_array_insert_sorted`: the first position from `i` on whose element does not
    compare below the object, looking at `n` positions at most. -/
def sortedPosition (a : DynArrayT) (object : Elem) (compare : Elem → Elem → Int) : Nat → Nat → Nat
  | 0, i => i
  | n + 1, i =>
    if compare (bytesAt a.array (dynArrayPosition a i) a.dataTypeSize) object < 0 then
      sortedPosition a object compare n (i + 1)
    else i

/-- The bytes of the object `src` points to, as read before the call changes anything. -/
def Source.elem (src : Source) (a : DynArrayT) : Elem :=
  bytesAt (src.block a.array false none) 0 a.dataTypeSize

/-- `dyn_array_insert_sorted`. -/
def dynArrayInsertSorted (M : Nat) (a : DynArrayT) (object : Option Source)
    (compare : Option (Elem → Elem → Int)) (g : Alloc) : Option Result :=
  match object, compare with
  | some src, some compare =>
    dynShiftInsert M a (sortedPosition a (src.elem a) compare a.size 0) 1 .insert (some src) g
  | _, _ => some { ret := false, arr := a }

/-- `qsort` of the C library: block, number of elements, width, comparison; the block afterwards. -/
abbrev Qsort := Block → Nat → Nat → (Elem → Elem → Int) → Block

/-- `dyn_array_sort`. -/
def dynArraySort (qsort : Qsort) (a : DynArrayT) (compare : Option (Elem → Elem → Int)) : Result :=
  match compare with
  | some compare =>
    if a.size ≠ 0 then
      { ret := true, arr := { a with array := qsort a.array a.size a.dataTypeSize compare } }
    else { ret := false, arr := a }
  | none => { ret := false, arr := a }

/-! ## Runs of calls -/

/-- One call of the public interface; `dst` tells whether a destination pointer is given. -/
inductive Op where
  | pushFront (object : Option Source)
  | pushBack (object : Option Source)
  | insert (index : Nat) (object : Option Source)
  | insertSorted (object : Option Source) (compare : Elem → Elem → Int)
  | popFront
  | popBack
  | erase (index : Nat)
  | clear
  | extractFront (dst : Bool)
  | extractBack (dst : Bool)
  | extract (index : Nat) (dst : Bool)

/-- Carry out one call; `g` answers the `realloc` it may make.  `dyn_array_clear` returns nothing
    and is given `true`. -/
def Op.run (M : Nat) (op : Op) (g : Alloc) (a : DynArrayT) : Option Result :=
  match op with
  | .pushFront object => dynArrayPushFront M a object g
  | .pushBack object => dynArrayPushBack M a object g
  | .insert index object => dynArrayInsert M a index object g
  | .insertSorted object compare => dynArrayInsertSorted M a object (some compare) g
  | .popFront => some (dynArrayPopFront a)
  | .popBack => some (dynArrayPopBack a)
  | .erase index => some (dynArrayErase a index)
  | .clear => some { ret := true, arr := dynArrayClear a }
  | .extractFront dst => some (dynArrayExtractFront a dst)
  | .extractBack dst => some (dynArrayExtractBack a dst)
  | .extract index dst => some (dynArrayExtract a index dst)

/-- One call of a run, with the array before it and its outcome. -/
structure Step where
  op : Op
  alloc : Alloc
  before : DynArrayT
  res : Result

/-- A run: the calls in order, each on the array the one before it left. -/
def runOps (M : Nat) : DynArrayT → List (Op × Alloc) → Option (List Step × DynArrayT)
  | a, [] => some ([], a)
  | a, (op, g) :: rest =>
    (op.run M g a).bind fun r =>
      (runOps M r.arr rest).map fun (steps, last) => (⟨op, g, a, r⟩ :: steps, last)

end Msvl.DynArray
