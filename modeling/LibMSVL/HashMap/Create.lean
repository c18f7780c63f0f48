/-
  `dyn_hash_map_create`, with every allocation it makes.

  The capacity is rounded up to a prime; the table gets one empty dynamic array for each bucket; if
  any of them is missing, the others are destroyed again.  Two things go wrong.  The block for the
  structure is `malloc(sizeof(dyn_hash_map))`, the size of the POINTER being declared, and 40 bytes
  are copied into it.  And the clean-up after a missing bucket frees the map and then runs into the
  `free(dyn_hash_map)` that follows it.

  Conventions of the translation:

  * `ok k` tells whether the `k`-th request for memory is granted; the block it yields is called `k`,
    so that blocks obtained are different;
  * `Event` — what is done to blocks, in order, as the C code does it (the log does not stop at a
    misuse: it shows it);
  * `MAX_HASH_CAPACITY` is the parameter `L`; `data_type_size` is declared without a type, an `int`.

  * `primeFrom_eq` — the rounding loop;
  * `Filled` — the books of a part of the table: what was obtained, released and is held
    (`bucketCreate_filled`, `fillTable_filled`);
  * `create_iff` — the headline.
-/
import LibMSVL.DynArray.Refine
import LibMSVL.HashMap.Prime
import Mathlib.Tactic.IntervalCases

namespace Msvl.HashMap

open Msvl.Bytes Msvl.DynArray

/-! ## Memory -/

/-- An allocation; a write into the first `upto` bytes of a block; a release. -/
inductive Event where
  | malloc (block bytes : Nat)
  | write (block upto : Nat)
  | free (block : Nat)
  deriving DecidableEq, Repr

/-- Requests made so far, and what has been done. -/
structure Heap where
  asked : Nat
  log : List Event

def Heap.add (h : Heap) (e : Event) : Heap := { h with log := h.log ++ [e] }

/-- `malloc`. -/
def Heap.malloc (ok : Nat → Bool) (bytes : Nat) (h : Heap) : Option Nat × Heap :=
  if ok h.asked then (some h.asked, ⟨h.asked + 1, h.log ++ [.malloc h.asked bytes]⟩)
  else (none, ⟨h.asked + 1, h.log⟩)

/-- `sizeof(dyn_hash_map)`. -/
def sizeofPointer : Nat := 8

/-- `sizeof(dyn_hash_map_t)` and `sizeof(dyn_array_t)`: five words each. -/
def sizeofStruct : Nat := 40

/-! ## Buckets -/

/-- A bucket: the blocks of the struct and of its buffer, and the array. -/
structure Bucket where
  addr : Nat
  buffer : Nat
  arr : DynArrayT

/-- What `dyn_array_create` does to memory, its struct being block `s`. -/
def Heap.replay (ok : Nat → Bool) (s : Nat) (h : Heap) : MemEvent → Heap
  | .mallocStruct => (h.malloc ok sizeofStruct).2
  | .mallocBuffer n => (h.malloc ok n).2
  | .writeStruct => h.add (.write s sizeofStruct)
  | .readStruct => h
  | .freeStruct => h.add (.free s)

/-- `dyn_array_create(0, data_type_size, destructor_func)`; `junk k` is what block `k` happens to
    hold. -/
def bucketCreate (ok : Nat → Bool) (w : Nat) (d : Bool) (junk : Nat → Block) (h : Heap) :
    Option (Option Bucket × Heap) :=
  let s := h.asked
  (dynArrayCreate dynMaxCapacity 0 w d (ok s) (if ok (s + 1) then some (junk (s + 1)) else none)).map
    fun (arr, events) => (arr.map fun a => ⟨s, s + 1, a⟩, events.foldl (Heap.replay ok s) h)

/-- `dyn_array_destroy` of an empty bucket. -/
def bucketDestroy (h : Heap) (b : Bucket) : Heap := (h.add (.free b.buffer)).add (.free b.addr)

/-! ## The table -/

/-- The loop that fills the table from index `i` on, `n` buckets; it goes on after a failure. -/
def fillTable (ok : Nat → Bool) (w : Nat) (d : Bool) (junk : Nat → Block) (table : Nat) :
    Nat → Nat → Heap → Option (List (Option Bucket) × Heap)
  | 0, _, h => some ([], h)
  | n + 1, i, h =>
    (bucketCreate ok w d junk h).bind fun (b, h) =>
      (fillTable ok w d junk table n (i + 1) (h.add (.write table (sizeofPointer * (i + 1))))).map
        fun (bs, h) => (b :: bs, h)

/-- The loop that destroys what there is in the table. -/
def destroyTable (h : Heap) : List (Option Bucket) → Heap
  | [] => h
  | none :: bs => destroyTable h bs
  | some b :: bs => destroyTable (bucketDestroy h b) bs

/-! ## Creation -/

/-- `struct dyn_hash_map`, with the block it lies in and the buckets behind `table`. -/
structure DynHashMap where
  addr : Nat
  capacity : Nat
  size : Nat
  dataTypeSize : Nat
  table : Nat
  buckets : List Bucket
  destructor : Bool

/-- The loop `while (actual_capacity < capacity) actual_capacity = find_next_prime(actual_capacity);`
    with the number of rounds left.  The argument is converted to `int`, the result back. -/
def primeFrom (capacity : Nat) : Nat → Nat → Option Nat
  | 0, actual => if actual < capacity then none else some actual
  | rounds + 1, actual =>
    if actual < capacity then
      (findNextPrime (Int.bmod actual (2 ^ 32))).bind fun p =>
        primeFrom capacity rounds (p % 2 ^ 64).toNat
    else some actual

/-- `dyn_hash_map_create`: the map (NULL is `none`) and what was done to memory. -/
def dynHashMapCreate (L : Nat) (ok : Nat → Bool) (junk : Nat → Block) (capacity w : Nat) (d : Bool) :
    Option (Option DynHashMap × List Event) :=
  if w ≠ 0 ∧ capacity ≤ L then
    match Heap.malloc ok sizeofPointer ⟨0, []⟩ with
    | (none, h) => some (none, h.log)
    | (some map, h) =>
      (primeFrom capacity capacity 17).bind fun actual =>
        if actual > L then some (none, (h.add (.free map)).log)
        else
          match h.malloc ok (wrap (actual * sizeofPointer)) with
          | (none, h) => some (none, ((h.add (.write map sizeofStruct)).add (.free map)).log)
          | (some table, h) =>
            (fillTable ok w d junk table actual 0 (h.add (.write map sizeofStruct))).map fun (bs, h) =>
              if bs.all Option.isSome then
                (some { addr := map, capacity := actual, size := 0, dataTypeSize := w, table := table,
                        buckets := bs.filterMap id, destructor := d }, h.log)
              else
                -- the clean-up, and then the `free` behind it
                let h := ((destroyTable h bs).add (.free table)).add (.free map)
                (none, (h.add (.free map)).log)
  else some (none, [])

/-! ## All or nothing -/

/-- The event obtains block `b`. -/
def Event.gets (b : Nat) : Event → Bool
  | .malloc c _ => c == b
  | _ => false

/-- The event releases block `b`. -/
def Event.frees (b : Nat) : Event → Bool
  | .free c => c == b
  | _ => false

/-- How often block `b` was obtained. -/
def gets (b : Nat) (log : List Event) : Nat := log.countP (Event.gets b)

/-- How often block `b` was released. -/
def frees (b : Nat) (log : List Event) : Nat := log.countP (Event.frees b)

/-- The blocks of a bucket. -/
def Bucket.blocks (b : Bucket) : List Nat := [b.buffer, b.addr]

/-- The blocks of a map. -/
def DynHashMap.blocks (m : DynHashMap) : List Nat :=
  m.addr :: m.table :: m.buckets.flatMap Bucket.blocks

/-- A usable empty array for elements of width `w`. -/
structure Bucket.Usable (w : Nat) (b : Bucket) : Prop where
  wf : Wf b.arr
  roomy : Roomy b.arr
  empty : contents b.arr = []
  width : b.arr.dataTypeSize = w

/-- A map as it should be: a prime capacity, an empty bucket for each index, all blocks different,
    obtained and not released. -/
structure Made (L request w : Nat) (m : DynHashMap) (log : List Event) : Prop where
  capacity : LeastPrime (max 17 request) m.capacity
  within : m.capacity ≤ L
  size : m.size = 0
  length : m.buckets.length = m.capacity
  usable : ∀ b ∈ m.buckets, b.Usable w
  distinct : m.blocks.Nodup
  owned : ∀ b ∈ m.blocks, gets b log = 1 ∧ frees b log = 0

/-- Every block obtained was released exactly once, and no other. -/
def ReleasedOnce (log : List Event) : Prop := ∀ b, gets b log ≤ 1 ∧ frees b log = gets b log

/-- All, or nothing. -/
def AllOrNothing (L request w : Nat) : Option DynHashMap × List Event → Prop
  | (some m, log) => Made L request w m log
  | (none, log) => ReleasedOnce log

/-- Nothing is written behind the end of a block. -/
def InBounds (log : List Event) : Prop :=
  ∀ b upto bytes, Event.write b upto ∈ log → Event.malloc b bytes ∈ log → upto ≤ bytes

/-! ## The capacity -/

/-- **The rounding loop** reaches the least prime that will do, unless testing it overflows.
    Induction on the rounds left; `p` is that prime from every capacity on the way. -/
theorem primeFrom_eq {capacity p : Nat} :
    ∀ rounds actual, actual.Prime → actual < squareLimit → capacity ≤ rounds + actual →
      LeastPrime (max actual capacity) p →
      primeFrom capacity rounds actual = if p < squareLimit then some p else none := by
  have hdone : ∀ actual, actual.Prime → actual < squareLimit → capacity ≤ actual →
      LeastPrime (max actual capacity) p →
      some actual = if p < squareLimit then some p else none := by
    intro actual hprime hlim hle hp
    rw [Nat.max_eq_left hle] at hp
    obtain rfl : p = actual := Nat.le_antisymm (hp.2 ⟨hprime, Nat.le_refl _⟩) hp.1.2
    rw [if_pos hlim]
  intro rounds
  induction rounds with
  | zero =>
    intro actual hprime hlim hle hp
    rw [primeFrom, if_neg (by omega)]
    exact hdone actual hprime hlim (by omega) hp
  | succ rounds ih =>
    intro actual hprime hlim hle hp
    rw [primeFrom]
    by_cases hlt : actual < capacity
    · obtain ⟨q, hq⟩ := exists_leastPrime (actual + 1)
      have hlimit : squareLimit = 2147395600 := rfl
      have hlast : lastPrime = 2147483629 := rfl
      have hqle : q ≤ lastPrime := hq.2 ⟨lastPrime_prime, by omega⟩
      have hqlt := hq.1.2
      -- on the way to `p`
      have hqp : q ≤ p := hq.2 ⟨hp.1.1, by have := hp.1.2; omega⟩
      have hconv : Int.bmod actual (2 ^ 32) = actual := Int.bmod_eq_of_le (by omega) (by omega)
      rw [if_pos hlt, hconv, findNextPrime_eq hq (by unfold maxInt; omega)]
      by_cases hqlim : q < squareLimit
      · have hback : ((q : Int) % 2 ^ 64).toNat = q := by omega
        rw [if_pos hqlim, Option.bind_some, hback]
        refine ih q hq.1.1 hqlim (by omega) ⟨⟨hp.1.1, ?_⟩, fun r hr => hp.2 ⟨hr.1, ?_⟩⟩
        · have := hp.1.2
          omega
        · have := hr.2
          omega
      · rw [if_neg hqlim, if_neg (by omega), Option.bind_none]
    · rw [if_neg hlt]
      exact hdone actual hprime hlim (by omega) hp

/-- The loop as it is started. -/
theorem primeFrom_start {capacity p : Nat} (hp : LeastPrime (max 17 capacity) p) :
    primeFrom capacity capacity 17 = if p < squareLimit then some p else none :=
  primeFrom_eq capacity 17 (by norm_num) (by decide) (by omega) hp

/-! ## The books -/

@[simp] theorem gets_append (b : Nat) (l l' : List Event) : gets b (l ++ l') = gets b l + gets b l' :=
  List.countP_append

@[simp] theorem frees_append (b : Nat) (l l' : List Event) :
    frees b (l ++ l') = frees b l + frees b l' := List.countP_append

@[simp] theorem gets_nil (b : Nat) : gets b [] = 0 := rfl

@[simp] theorem frees_nil (b : Nat) : frees b [] = 0 := rfl

@[simp] theorem gets_cons (b : Nat) (e : Event) (l : List Event) :
    gets b (e :: l) = gets b l + if e.gets b then 1 else 0 := List.countP_cons

@[simp] theorem frees_cons (b : Nat) (e : Event) (l : List Event) :
    frees b (e :: l) = frees b l + if e.frees b then 1 else 0 := List.countP_cons

/-- The blocks held by a part of the table. -/
def held (bs : List (Option Bucket)) : List Nat := (bs.filterMap id).flatMap Bucket.blocks

/-- The books of a part of the table, filled while the requests went from `s` to `s'`. -/
structure Filled (ok : Nat → Bool) (w s s' : Nat) (bs : List (Option Bucket)) (evs : List Event) :
    Prop where
  asked_le : s ≤ s'
  gets_le : ∀ b, gets b evs ≤ if s ≤ b ∧ b < s' then 1 else 0
  balance : ∀ b, gets b evs = frees b evs + (held bs).count b
  usable : ∀ b, some b ∈ bs → b.Usable w
  all_iff : bs.all Option.isSome ↔ ∀ k, k < 2 * bs.length → ok (s + k)
  all_asked : bs.all Option.isSome → s' = s + 2 * bs.length

theorem Filled.nil (ok : Nat → Bool) (w s : Nat) : Filled ok w s s [] [] where
  asked_le := Nat.le_refl s
  gets_le _ := Nat.zero_le _
  balance _ := rfl
  usable _ h := nomatch h
  all_iff := ⟨fun _ k hk => absurd hk (Nat.not_lt_zero k), fun _ => rfl⟩
  all_asked _ := rfl

/-- One part after the other. -/
theorem Filled.append {ok : Nat → Bool} {w s₁ s₂ s₃ : Nat} {bs bs' : List (Option Bucket)}
    {evs evs' : List Event} (h : Filled ok w s₁ s₂ bs evs) (h' : Filled ok w s₂ s₃ bs' evs') :
    Filled ok w s₁ s₃ (bs ++ bs') (evs ++ evs') where
  asked_le := Nat.le_trans h.asked_le h'.asked_le
  gets_le b := by
    have h1 := h.gets_le b
    have h2 := h'.gets_le b
    have h3 := h.asked_le
    have h4 := h'.asked_le
    rw [gets_append]
    split at h1 <;> split at h2 <;> split <;> omega
  balance b := by
    have h1 := h.balance b
    have h2 := h'.balance b
    rw [gets_append, frees_append, held, List.filterMap_append, List.flatMap_append, List.count_append]
    unfold held at h1 h2
    omega
  usable b hb := by
    rcases List.mem_append.mp hb with hb | hb
    · exact h.usable b hb
    · exact h'.usable b hb
  all_iff := by
    rw [List.all_append, Bool.and_eq_true, List.length_append]
    constructor
    · rintro ⟨hall, hall'⟩ k hk
      by_cases hlt : k < 2 * bs.length
      · exact h.all_iff.mp hall k hlt
      · have hk' := h'.all_iff.mp hall' (k - 2 * bs.length) (by omega)
        rwa [h.all_asked hall, show s₁ + 2 * bs.length + (k - 2 * bs.length) = s₁ + k by omega] at hk'
    · intro hok
      have hall := h.all_iff.mpr fun k hk => hok k (by omega)
      refine ⟨hall, h'.all_iff.mpr fun k hk => ?_⟩
      rw [h.all_asked hall, Nat.add_assoc]
      exact hok _ (by omega)
  all_asked hall := by
    rw [List.all_append, Bool.and_eq_true] at hall
    rw [h'.all_asked hall.2, h.all_asked hall.1, List.length_append]
    omega

/-- An event that neither obtains nor releases. -/
theorem Filled.write {ok : Nat → Bool} {w s s' : Nat} {bs : List (Option Bucket)} {evs : List Event}
    (h : Filled ok w s s' bs evs) (b upto : Nat) : Filled ok w s s' bs (evs ++ [.write b upto]) := by
  have hw : ∀ c, gets c [.write b upto] = 0 ∧ frees c [.write b upto] = 0 := fun c => ⟨rfl, rfl⟩
  refine ⟨h.asked_le, fun c => ?_, fun c => ?_, h.usable, h.all_iff, h.all_asked⟩
  · rw [gets_append, (hw c).1]
    exact h.gets_le c
  · rw [gets_append, frees_append, (hw c).1, (hw c).2]
    exact h.balance c

/-- Nothing was obtained. -/
theorem Filled.refused {ok : Nat → Bool} {s : Nat} (w : Nat) (hs : ok s = false) :
    Filled ok w s (s + 1) [none] [] where
  asked_le := Nat.le_succ s
  gets_le _ := Nat.zero_le _
  balance _ := rfl
  usable _ h := nomatch List.mem_singleton.mp h
  all_iff := by
    refine ⟨(fun h => nomatch h), fun hok => ?_⟩
    have h0 := hok 0 (by decide)
    rw [Nat.add_zero, hs] at h0
    exact nomatch h0
  all_asked h := nomatch h

/-- The struct was obtained, the buffer was not, and the struct is released. -/
theorem Filled.undone {ok : Nat → Bool} {s : Nat} (w : Nat) (hb : ok (s + 1) = false) :
    Filled ok w s (s + 2) [none]
      [.malloc s sizeofStruct, .write s sizeofStruct, .free s] where
  asked_le := by omega
  gets_le b := by
    by_cases h : s = b
    · simp [Event.gets, h]
    · simp [Event.gets, h]
  balance b := by simp [Event.gets, Event.frees, held]
  usable _ h := nomatch List.mem_singleton.mp h
  all_iff := by
    refine ⟨(fun h => nomatch h), fun hok => ?_⟩
    have h1 := hok 1 (by decide)
    rw [hb] at h1
    exact nomatch h1
  all_asked h := nomatch h

theorem freshBucket_usable {w : Nat} (hw : 0 < w) (hmax : w ≤ maxInt) (d : Bool) (junk : Block)
    (addr buffer : Nat) : Bucket.Usable w ⟨addr, buffer, freshArray 16 w d junk⟩ where
  wf := freshArray_wf (k := 4) d junk (by decide) (by decide) hw
  roomy := by
    unfold maxInt at hmax
    exact Nat.le_of_eq (wrap_of_lt (show 16 * w < 2 ^ 64 by omega)).symm
  empty := rfl
  width := rfl

/-- Both blocks were obtained and are held. -/
theorem Filled.made {ok : Nat → Bool} {s w : Nat} (hw : 0 < w) (hmax : w ≤ maxInt) (d : Bool)
    (junk : Block) (bytes : Nat) (hs : ok s = true) (hb : ok (s + 1) = true) :
    Filled ok w s (s + 2) [some ⟨s, s + 1, freshArray 16 w d junk⟩]
      [.malloc s sizeofStruct, .malloc (s + 1) bytes, .write s sizeofStruct] where
  asked_le := by omega
  gets_le b := by
    simp only [gets_cons, gets_nil, Event.gets, beq_iff_eq, Bool.false_eq_true, if_false]
    split <;> split <;> split <;> omega
  balance b := by
    simp only [gets_cons, gets_nil, frees_cons, frees_nil, Event.gets, Event.frees, held]
    simp [Bucket.blocks, List.count_cons]
    omega
  usable b h := by
    obtain rfl := Option.some.inj (List.mem_singleton.mp h)
    exact freshBucket_usable hw hmax d junk s (s + 1)
  all_iff := by
    refine ⟨fun _ k hk => ?_, fun _ => rfl⟩
    have hk : k < 2 := hk
    obtain rfl | rfl : k = 0 ∨ k = 1 := by omega
    · exact hs
    · exact hb
  all_asked _ := rfl

/-- One bucket: both its blocks are obtained and held, or what was obtained is released. -/
theorem bucketCreate_filled (ok : Nat → Bool) {w : Nat} (hw : 0 < w) (hmax : w ≤ maxInt) (d : Bool)
    (junk : Nat → Block) (h : Heap) :
    ∃ b h' evs, bucketCreate ok w d junk h = some (b, h') ∧ h'.log = h.log ++ evs ∧
      Filled ok w h.asked h'.asked [b] evs := by
  have hloop : doubleUntil 0 64 16 = some 16 := rfl
  have hlimit : ¬ 16 > dynMaxCapacity := by decide
  rw [bucketCreate, dynArrayCreate, if_pos ⟨by omega, Nat.zero_le _⟩, hloop]
  cases hs : ok h.asked with
  | false =>
    refine ⟨none, ⟨h.asked + 1, h.log⟩, [], ?_, (List.append_nil _).symm, .refused w hs⟩
    simp [Heap.replay, Heap.malloc, hs]
  | true =>
    cases hb : ok (h.asked + 1) with
    | false =>
      refine ⟨none, ⟨h.asked + 2, _⟩, _, ?_, rfl, .undone w hb⟩
      simp [Heap.replay, Heap.malloc, Heap.add, hs, hb, hlimit]
    | true =>
      refine ⟨_, ⟨h.asked + 2, _⟩, _, ?_, rfl, .made hw hmax d (junk (h.asked + 1)) (wrap (16 * w)) hs hb⟩
      simp [Heap.replay, Heap.malloc, Heap.add, hs, hb, hlimit]

/-- **The whole table**, whatever is granted.  Induction on the number of buckets. -/
theorem fillTable_filled (ok : Nat → Bool) {w : Nat} (hw : 0 < w) (hmax : w ≤ maxInt) (d : Bool)
    (junk : Nat → Block) (table : Nat) : ∀ n i h,
    ∃ bs h' evs, fillTable ok w d junk table n i h = some (bs, h') ∧ bs.length = n ∧
      h'.log = h.log ++ evs ∧ Filled ok w h.asked h'.asked bs evs := by
  intro n
  induction n with
  | zero => exact fun i h => ⟨[], h, [], rfl, rfl, (List.append_nil _).symm, .nil ok w h.asked⟩
  | succ n ih =>
    intro i h
    obtain ⟨b, h₁, evs₁, hone, hlog₁, hfill₁⟩ := bucketCreate_filled ok hw hmax d junk h
    obtain ⟨bs, h₂, evs₂, hrest, hlen, hlog₂, hfill₂⟩ :=
      ih (i + 1) (h₁.add (.write table (sizeofPointer * (i + 1))))
    have hfill := (hfill₁.write table (sizeofPointer * (i + 1))).append hfill₂
    refine ⟨b :: bs, h₂, _, ?_, ?_, ?_, hfill⟩
    · simp only [fillTable, hone, Option.bind_some, hrest, Option.map_some]
    · rw [List.length_cons, hlen]
    · rw [hlog₂, Heap.add, hlog₁]
      simp only [List.append_assoc]

/-- Destroying what there is releases what is held. -/
theorem destroyTable_log : ∀ (bs : List (Option Bucket)) (h : Heap),
    (destroyTable h bs).log = h.log ++ (held bs).map Event.free
  | [], h => (List.append_nil _).symm
  | none :: bs, h => destroyTable_log bs h
  | some b :: bs, h => by
    rw [destroyTable, destroyTable_log bs]
    simp [bucketDestroy, Heap.add, held, Bucket.blocks]

/-! ## What creation does -/

/-- Up to the copy of the structure, when the table is granted too. -/
def begun (p : Nat) : List Event :=
  [.malloc 0 sizeofPointer, .malloc 1 (wrap (p * sizeofPointer)), .write 0 sizeofStruct]

/-- Everything `dyn_hash_map_create` can do, `p` being the capacity it rounds up to. -/
inductive Outcome (L : Nat) (ok : Nat → Bool) (w : Nat) (d : Bool) (p : Nat) :
    Option (Option DynHashMap × List Event) → Prop where
  | refused (h : ok 0 = false) : Outcome L ok w d p (some (none, []))
  | overflow (h : ok 0 = true) (hp : squareLimit ≤ p) : Outcome L ok w d p none
  | beyond (h : ok 0 = true) (hp : p < squareLimit) (hL : L < p) :
    Outcome L ok w d p (some (none, [.malloc 0 sizeofPointer, .free 0]))
  | noTable (h : ok 0 = true) (hp : p < squareLimit) (hL : p ≤ L) (ht : ok 1 = false) :
    Outcome L ok w d p
      (some (none, [.malloc 0 sizeofPointer, .write 0 sizeofStruct, .free 0]))
  | made (h : ok 0 = true) (hp : p < squareLimit) (hL : p ≤ L) (ht : ok 1 = true)
    {bs : List (Option Bucket)} {s' : Nat} {evs : List Event} (hlen : bs.length = p)
    (hfill : Filled ok w 2 s' bs evs) (hall : bs.all Option.isSome) :
    Outcome L ok w d p
      (some (some { addr := 0, capacity := p, size := 0, dataTypeSize := w, table := 1,
                    buckets := bs.filterMap id, destructor := d }, begun p ++ evs))
  | unmade (h : ok 0 = true) (hp : p < squareLimit) (hL : p ≤ L) (ht : ok 1 = true)
    {bs : List (Option Bucket)} {s' : Nat} {evs : List Event} (hlen : bs.length = p)
    (hfill : Filled ok w 2 s' bs evs) (hall : ¬ bs.all Option.isSome) :
    Outcome L ok w d p (some (none, begun p ++ evs ++ (held bs).map Event.free ++
      [.free 1, .free 0, .free 0]))

section

variable {L request w p : Nat} (hreq : request ≤ L) (hw : 0 < w) (hmax : w ≤ maxInt)
  (hp : LeastPrime (max 17 request) p) (ok : Nat → Bool) (junk : Nat → Block) (d : Bool)

include hreq hw hmax hp

theorem create_outcome : Outcome L ok w d p (dynHashMapCreate L ok junk request w d) := by
  rw [dynHashMapCreate, if_pos ⟨by omega, hreq⟩]
  cases h : ok 0 with
  | false =>
    simp only [Heap.malloc, h, Bool.false_eq_true, if_false]
    exact .refused h
  | true =>
    simp only [Heap.malloc, h, if_true, primeFrom_start hp]
    by_cases hlim : p < squareLimit
    · rw [if_pos hlim, Option.bind_some]
      by_cases hL : p > L
      · rw [if_pos hL]
        exact .beyond h hlim hL
      · rw [if_neg hL]
        have hL : p ≤ L := by omega
        cases ht : ok 1 with
        | false =>
          simp only [Nat.zero_add, Bool.false_eq_true, if_false]
          exact .noTable h hlim hL ht
        | true =>
          obtain ⟨bs, h', evs, hrun, hlen, hlog, hfill⟩ :=
            fillTable_filled ok hw hmax d junk 1 p 0 ⟨1 + 1, begun p⟩
          rw [begun] at hrun
          simp only [Nat.zero_add, if_true, Heap.add, List.nil_append, List.cons_append]
          rw [hrun, Option.map_some]
          by_cases hall : bs.all Option.isSome
          · rw [if_pos hall, hlog]
            exact .made h hlim hL ht hlen hfill hall
          · have hout := Outcome.unmade (d := d) h hlim hL ht hlen hfill hall
            rw [if_neg hall]
            simp only [destroyTable_log, hlog]
            simpa only [List.append_assoc, List.cons_append, List.nil_append] using hout
    · rw [if_neg hlim, Option.bind_none]
      exact .overflow h (by omega)

end

/-- The blocks of the map and of the table are not among those of the buckets. -/
theorem Filled.below {ok : Nat → Bool} {w s s' : Nat} {bs : List (Option Bucket)} {evs : List Event}
    (h : Filled ok w s s' bs evs) {b : Nat} (hb : b < s) :
    gets b evs = 0 ∧ frees b evs = 0 ∧ b ∉ held bs := by
  have hg := h.gets_le b
  rw [if_neg (by omega)] at hg
  have hbal := h.balance b
  exact ⟨by omega, by omega, List.count_eq_zero.mp (by omega)⟩

/-- A block held was obtained, once, and has not been released. -/
theorem Filled.of_held {ok : Nat → Bool} {w s s' : Nat} {bs : List (Option Bucket)} {evs : List Event}
    (h : Filled ok w s s' bs evs) {b : Nat} (hb : b ∈ held bs) :
    s ≤ b ∧ gets b evs = 1 ∧ frees b evs = 0 ∧ (held bs).count b = 1 := by
  have hpos := List.count_pos_iff.mpr hb
  have hg := h.gets_le b
  have hbal := h.balance b
  split at hg <;> omega

theorem gets_begun (p b : Nat) : gets b (begun p) = if b ≤ 1 then 1 else 0 := by
  simp only [begun, gets_cons, gets_nil, Event.gets, beq_iff_eq, Bool.false_eq_true, if_false]
  split <;> split <;> split <;> omega

theorem frees_begun (p b : Nat) : frees b (begun p) = 0 := rfl

/-- **Success**: a map whose buckets all came off is as it should be. -/
theorem made_of_filled {L request w p : Nat} {ok : Nat → Bool} {d : Bool} {bs : List (Option Bucket)}
    {s' : Nat} {evs : List Event} (hp : LeastPrime (max 17 request) p) (hL : p ≤ L)
    (hlen : bs.length = p) (hfill : Filled ok w 2 s' bs evs) (hall : bs.all Option.isSome) :
    Made L request w { addr := 0, capacity := p, size := 0, dataTypeSize := w, table := 1,
                       buckets := bs.filterMap id, destructor := d } (begun p ++ evs) where
  capacity := hp
  within := hL
  size := rfl
  length := by
    show (bs.filterMap id).length = p
    rw [(List.filterMap_length_eq_length (f := id)).mpr fun a ha => List.all_eq_true.mp hall a ha, hlen]
  usable b hb := by
    obtain ⟨a, ha, hab⟩ := List.mem_filterMap.mp hb
    exact hfill.usable b (by rwa [← show a = some b from hab])
  distinct := by
    have hnodup : (held bs).Nodup := List.nodup_iff_count_le_one.mpr fun b => by
      by_cases hb : b ∈ held bs
      · exact Nat.le_of_eq (hfill.of_held hb).2.2.2
      · rw [List.count_eq_zero.mpr hb]
        exact Nat.zero_le _
    have h0 := (hfill.below (b := 0) (by decide)).2.2
    have h1 := (hfill.below (b := 1) (by decide)).2.2
    show (0 :: 1 :: held bs).Nodup
    simp [h0, h1, hnodup]
  owned b hb := by
    rw [gets_append, frees_append, gets_begun, frees_begun]
    rcases List.mem_cons.mp hb with rfl | hb
    · obtain ⟨hg, hf, -⟩ := hfill.below (b := 0) (by decide)
      rw [hg, hf]
      exact ⟨rfl, rfl⟩
    · rcases List.mem_cons.mp hb with rfl | hb
      · obtain ⟨hg, hf, -⟩ := hfill.below (b := 1) (by decide)
        rw [hg, hf]
        exact ⟨rfl, rfl⟩
      · obtain ⟨hle, hg, hf, -⟩ := hfill.of_held hb
        rw [if_neg (by omega), hg, hf]
        exact ⟨rfl, rfl⟩

theorem frees_map_free (b : Nat) (bs : List Nat) : frees b (bs.map Event.free) = bs.count b := by
  rw [frees, List.countP_map]
  rfl

theorem gets_map_free (b : Nat) (bs : List Nat) : gets b (bs.map Event.free) = 0 := by
  rw [gets, List.countP_map]
  exact List.countP_eq_zero.mpr fun _ _ h => nomatch h

/-- **Clean-up**: every block obtained is released once, and the map once more. -/
theorem cleanup_books {ok : Nat → Bool} {w s' p : Nat} {bs : List (Option Bucket)} {evs : List Event}
    (hfill : Filled ok w 2 s' bs evs) (b : Nat) :
    gets b (begun p ++ evs ++ (held bs).map Event.free ++ [.free 1, .free 0, .free 0]) ≤ 1 ∧
      frees b (begun p ++ evs ++ (held bs).map Event.free ++ [.free 1, .free 0, .free 0]) =
        gets b (begun p ++ evs ++ (held bs).map Event.free ++ [.free 1, .free 0, .free 0])
          + if b = 0 then 1 else 0 := by
  have hbal := hfill.balance b
  simp only [gets_append, frees_append, gets_begun, frees_begun, gets_map_free, frees_map_free,
    gets_cons, gets_nil, frees_cons, frees_nil, Event.gets, Event.frees, beq_iff_eq,
    Bool.false_eq_true, if_false]
  by_cases hb : b < 2
  · -- the map and the table
    obtain ⟨hg, -, -⟩ := hfill.below hb
    obtain rfl | rfl : b = 0 ∨ b = 1 := by omega
    · simp only [if_true, if_pos (Nat.zero_le 1), one_ne_zero, if_false]
      omega
    · simp only [if_true, if_pos (Nat.le_refl 1), zero_ne_one, one_ne_zero, if_false]
      omega
  · have hg : gets b evs ≤ 1 := Nat.le_trans (hfill.gets_le b) (by split <;> omega)
    rw [if_neg (by omega), if_neg (by omega), if_neg (by omega), if_neg (by omega)]
    omega

theorem cleanup_twice {ok : Nat → Bool} {w s' p : Nat} {bs : List (Option Bucket)} {evs : List Event}
    (hfill : Filled ok w 2 s' bs evs) :
    ¬ ReleasedOnce (begun p ++ evs ++ (held bs).map Event.free ++ [.free 1, .free 0, .free 0]) := by
  intro hrel
  have htwice := (cleanup_books (p := p) hfill 0).2
  rw [if_pos rfl, (hrel 0).2] at htwice
  omega

/-! ## The law -/

theorem released_nil : ReleasedOnce [] := fun _ => ⟨Nat.zero_le 1, rfl⟩

/-- One block, obtained and released; what is written in between does not matter. -/
theorem released_one (bytes upto : Nat) :
    ReleasedOnce [.malloc 0 bytes, .free 0] ∧ ReleasedOnce [.malloc 0 bytes, .write 0 upto, .free 0] := by
  refine ⟨fun b => ?_, fun b => ?_⟩
  · simp only [gets_cons, gets_nil, frees_cons, frees_nil, Event.gets, Event.frees, beq_iff_eq,
      Bool.false_eq_true, if_false]
    split <;> simp
  · simp only [gets_cons, gets_nil, frees_cons, frees_nil, Event.gets, Event.frees, beq_iff_eq,
      Bool.false_eq_true, if_false]
    split <;> simp

/-- The structure does not fit into the block that was obtained for it. -/
theorem not_inBounds {log : List Event} (hm : .malloc 0 sizeofPointer ∈ log)
    (hw : .write 0 sizeofStruct ∈ log) : ¬ InBounds log := fun h =>
  absurd (h 0 sizeofStruct sizeofPointer hw hm) (by decide)

/-- A request that was granted was not refused. -/
theorem of_granted {ok : Nat → Bool} {k : Nat} {P : Prop} (h : ok k = true) (hor : ok k = false ∨ P) :
    P := hor.resolve_left fun hno => nomatch h.symm.trans hno

/-- **Creation is all or nothing, and within bounds, only if no map is made.**  For every limit,
    request, element size and pattern of allocations, `p` being the least prime from 17 and the
    request on:

    1. the whole law holds iff the first `malloc` fails, or `p` is found and beyond the limit;
    2. apart from the size of the map's block it holds, besides, if the table's `malloc` fails or
       all of the buckets' succeed;
    3. if NULL is returned, every block but the map's has been released once, and no other. -/
theorem create_iff {L request w p : Nat} (hreq : request ≤ L) (hw : 0 < w) (hmax : w ≤ maxInt)
    (hp : LeastPrime (max 17 request) p) (ok : Nat → Bool) (junk : Nat → Block) (d : Bool) :
    ((∃ out, dynHashMapCreate L ok junk request w d = some out ∧
        AllOrNothing L request w out ∧ InBounds out.2) ↔
      ok 0 = false ∨ p < squareLimit ∧ L < p) ∧
    ((∃ out, dynHashMapCreate L ok junk request w d = some out ∧ AllOrNothing L request w out) ↔
      ok 0 = false ∨ p < squareLimit ∧ (L < p ∨ ok 1 = false ∨ ∀ k, k < 2 * p → ok (2 + k))) ∧
    ∀ log, dynHashMapCreate L ok junk request w d = some (none, log) →
      ∀ b, b ≠ 0 → gets b log ≤ 1 ∧ frees b log = gets b log := by
  have hcases := create_outcome hreq hw hmax hp ok junk d
  generalize dynHashMapCreate L ok junk request w d = res at hcases ⊢
  cases hcases with
  | refused h =>
    refine ⟨⟨fun _ => .inl h, fun _ => ⟨_, rfl, released_nil, fun _ _ _ hw => nomatch hw⟩⟩,
      ⟨fun _ => .inl h, fun _ => ⟨_, rfl, released_nil⟩⟩, fun log hlog b _ => ?_⟩
    obtain rfl := congrArg Prod.snd (Option.some.inj hlog)
    exact released_nil b
  | overflow h hlim =>
    refine ⟨⟨(fun ⟨_, hout, _⟩ => nomatch hout), fun hcond => ?_⟩,
      ⟨(fun ⟨_, hout, _⟩ => nomatch hout), fun hcond => ?_⟩, fun _ hlog => nomatch hlog⟩
    · have hlt := (of_granted h hcond).1
      omega
    · have hlt := (of_granted h hcond).1
      omega
  | beyond h hlim hL =>
    have hrel := (released_one sizeofPointer 0).1
    refine ⟨⟨fun _ => .inr ⟨hlim, hL⟩, fun _ => ⟨_, rfl, hrel, fun b upto bytes hwrite => ?_⟩⟩,
      ⟨fun _ => .inr ⟨hlim, .inl hL⟩, fun _ => ⟨_, rfl, hrel⟩⟩, fun log hlog b _ => ?_⟩
    · simp at hwrite
    · obtain rfl := congrArg Prod.snd (Option.some.inj hlog)
      exact hrel b
  | noTable h hlim hL ht =>
    have hrel := (released_one sizeofPointer sizeofStruct).2
    refine ⟨⟨fun ⟨out, hout, _, hin⟩ => ?_, fun hcond => ?_⟩,
      ⟨fun _ => .inr ⟨hlim, .inr (.inl ht)⟩, fun _ => ⟨_, rfl, hrel⟩⟩, fun log hlog b _ => ?_⟩
    · obtain rfl := Option.some.inj hout
      exact absurd hin (not_inBounds (by simp) (by simp))
    · have hlt := (of_granted h hcond).2
      omega
    · obtain rfl := congrArg Prod.snd (Option.some.inj hlog)
      exact hrel b
  | made h hlim hL ht hlen hfill hall =>
    have hok := hfill.all_iff.mp hall
    rw [hlen] at hok
    refine ⟨⟨fun ⟨out, hout, _, hin⟩ => ?_, fun hcond => ?_⟩,
      ⟨fun _ => .inr ⟨hlim, .inr (.inr hok)⟩,
        fun _ => ⟨_, rfl, made_of_filled hp hL hlen hfill hall⟩⟩, fun _ hlog => nomatch hlog⟩
    · obtain rfl := Option.some.inj hout
      exact absurd hin (not_inBounds (by simp [begun]) (by simp [begun]))
    · have hlt := (of_granted h hcond).2
      omega
  | unmade h hlim hL ht hlen hfill hall =>
    have hok := hfill.all_iff.not.mp hall
    rw [hlen] at hok
    refine ⟨⟨fun ⟨out, hout, _, hin⟩ => ?_, fun hcond => ?_⟩,
      ⟨fun ⟨out, hout, hrel⟩ => ?_, fun hcond => ?_⟩, fun log hlog b hb => ?_⟩
    · obtain rfl := Option.some.inj hout
      exact absurd hin (not_inBounds (by simp [begun]) (by simp [begun]))
    · have hlt := (of_granted h hcond).2
      omega
    · obtain rfl := Option.some.inj hout
      exact absurd hrel (cleanup_twice hfill)
    · rcases (of_granted h hcond).2 with hlt | hor
      · omega
      · exact absurd (of_granted ht hor) hok
    · obtain rfl := congrArg Prod.snd (Option.some.inj hlog)
      have hbooks := cleanup_books (p := p) hfill b
      rwa [if_neg hb, Nat.add_zero] at hbooks

theorem leastPrime_self {n : Nat} (h : n.Prime) : LeastPrime n n :=
  ⟨⟨h, Nat.le_refl n⟩, fun _ hq => hq.2⟩

/-- Under the default limit, 1022 objects: the next prime is 1031, NULL is returned. -/
theorem create_beyond_limit :
    ∃ out, dynHashMapCreate 1024 (fun _ => true) (fun _ _ => 0) 1022 8 false = some out ∧
      AllOrNothing 1024 1022 8 out ∧ InBounds out.2 := by
  have hp : LeastPrime (max 17 1022) 1031 := by
    refine ⟨⟨by norm_num, by decide⟩, fun q ⟨hq, hle⟩ => ?_⟩
    by_contra hlt
    have hlo : 1022 ≤ q := by omega
    have hhi : q < 1031 := by omega
    interval_cases q <;> revert hq <;> norm_num
  exact (create_iff (by decide) (by decide) (by decide) hp (fun _ => true) (fun _ _ => 0) false).1.mpr
    (.inr ⟨by decide, by decide⟩)

/-- With every allocation granted, 40 bytes are written into 8; with the first bucket's struct
    refused, besides, the map is freed twice. -/
theorem outgrown_and_freed_twice :
    (¬ ∃ out, dynHashMapCreate 1024 (fun _ => true) (fun _ _ => 0) 0 8 false = some out ∧
      AllOrNothing 1024 0 8 out ∧ InBounds out.2) ∧
    ¬ ∃ out, dynHashMapCreate 1024 (fun k => k != 2) (fun _ _ => 0) 0 8 false = some out ∧
      AllOrNothing 1024 0 8 out := by
  have hp : LeastPrime (max 17 0) 17 := leastPrime_self (by norm_num)
  constructor
  · rintro ⟨out, hout, -, hin⟩
    have hcases := create_outcome (L := 1024) (by decide) (by decide) (by decide) hp (fun _ => true)
      (fun _ _ => 0) (w := 8) false
    rw [hout] at hcases
    cases hcases with
    | refused h => exact nomatch h
    | beyond _ _ hL => exact absurd hL (by decide)
    | noTable _ _ _ ht => exact nomatch ht
    | made => exact not_inBounds (by simp [begun]) (by simp [begun]) hin
    | unmade => exact not_inBounds (by simp [begun]) (by simp [begun]) hin
  · rintro ⟨out, hout, hlaw⟩
    have hcases := create_outcome (L := 1024) (by decide) (by decide) (by decide) hp (fun k => k != 2)
      (fun _ _ => 0) (w := 8) false
    rw [hout] at hcases
    cases hcases with
    | refused h => exact nomatch h
    | beyond _ _ hL => exact absurd hL (by decide)
    | noTable _ _ _ ht => exact nomatch ht
    | made _ _ _ _ hlen hfill hall => exact nomatch hfill.all_iff.mp hall 0 (by omega)
    | unmade _ _ _ _ _ hfill _ => exact cleanup_twice hfill hlaw

end Msvl.HashMap
