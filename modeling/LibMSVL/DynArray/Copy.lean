/-
  Copying an array through `dyn_array_import`.

  `node_create` copies a list of children as `dyn_array_import(dyn_array_front(childs),
  dyn_array_size(childs), ...)`.  `dyn_array_front` of an empty array is NULL, and `dyn_array_import`
  refuses NULL, so the copy of an empty array is no array at all (`GetNewNode` clears the children
  of a leaf right before it copies them).

  Both arrays lie in one memory, each in a block of its own.

  * `Handle`, `Two` — an array at an address; two of them in one memory;
  * `Two.step` — one client step on either side, `realloc` moving the block where the allocator says;
  * `Independent` — whatever happened before, a run on one side changes nothing of the other;
    `sound_step` carries the invariant and the frame, `independent_of_sound` is the run lemma;
  * `Pushable` — both pushes succeed, into a block that has the room; `pushable_iff`;
  * `copy_iff` — the headline.
-/
import LibMSVL.DynArray.Frame
import LibMSVL.DynArray.Limit
import LibMSVL.DynArray.Sorted
import LibMSVL.Lib.System

namespace Msvl.DynArray

open Msvl.Bytes Msvl.Trans

/-- `dyn_array_front`: NULL when empty, else the block, which to another array is outside memory. -/
def dynArrayFront (a : DynArrayT) : Option Source :=
  if a.size ≠ 0 then some (.outside a.array) else none

/-! ## Two arrays in one memory -/

/-- A `dyn_array_t *`: the struct's fields, the address of the block, and whether the array is still
    there.  What the block holds is read from memory. -/
structure Handle where
  base : Nat
  arr : DynArrayT
  live : Bool

/-- The array as it is in memory. -/
def Handle.view (h : Handle) (m : Block) : DynArrayT := { h.arr with array := window m h.base }

inductive Side where
  | original
  | copy
  deriving DecidableEq

def Side.other : Side → Side
  | .original => .copy
  | .copy => .original

structure Two where
  mem : Block
  arrays : Side → Handle

/-- The array on one side. -/
def Two.view (s : Two) (side : Side) : DynArrayT := (s.arrays side).view s.mem

/-- A client step on one side, with the address `realloc` answers with, if it is asked. -/
structure Move where
  side : Side
  act : Act
  realloc : Option Nat

/-- What the new memory of a `realloc` happens to hold. -/
def Two.answer (s : Two) (mv : Move) : Alloc := mv.realloc.map (window s.mem)

/-- Where the array lies that a step has made: `realloc` may have moved it. -/
def Two.baseAfter (s : Two) (mv : Move) (b : DynArrayT) : Nat :=
  if b.capacity = (s.view mv.side).capacity then (s.arrays mv.side).base
  else mv.realloc.getD (s.arrays mv.side).base

/-- Write an array back: the struct on its side, the block at its address. -/
def Two.write (s : Two) (side : Side) (h : Handle) : Two :=
  { mem := place s.mem h.base h.arr.array,
    arrays := fun side' => if side' = side then h else s.arrays side' }

/-- Carry out one step; a destroyed array is gone. -/
def Two.step (qsort : Qsort) (s : Two) (mv : Move) : Option Two :=
  if (s.arrays mv.side).live then
    (mv.act.run qsort (s.answer mv) (s.view mv.side)).map fun b =>
      s.write mv.side ⟨s.baseAfter mv b, b, mv.act.keeps⟩
  else none

/-- The allocator gives memory that is not in use: the block it answers with, of the size that is
    asked for, does not overlap the other array's. -/
def Granted (s : Two) (mv : Move) : Prop :=
  ∀ base, mv.realloc = some base → (s.arrays mv.side.other).live →
    Apart base (wrap (2 * (s.arrays mv.side).arr.capacity * (s.arrays mv.side).arr.dataTypeSize))
      (s.arrays mv.side.other).base (s.arrays mv.side.other).arr.bytes

/-- All that can happen to two arrays from a given state on. -/
def twoArrays (qsort : Qsort) (s₀ : Two) : System Two Move where
  init s := s = s₀
  step s mv t := Granted s mv ∧ s.step qsort mv = some t

/-- The step is one a client may take. -/
def Two.Allowed (s : Two) (mv : Move) : Prop := mv.act.Allowed (s.answer mv) (s.view mv.side)

/-- Whatever was done to both arrays before, a run on one side leaves the other's struct and
    contents as they are. -/
def Independent (qsort : Qsort) (s₀ : Two) : Prop :=
  ∀ s, ReachableBy (twoArrays qsort s₀) Two.Allowed s →
    ∀ side t, ReachableBy (twoArrays qsort s) (fun s mv => mv.side = side ∧ s.Allowed mv) t →
      (s.arrays side.other).live →
      t.arrays side.other = s.arrays side.other ∧
        contents (t.view side.other) = contents (s.view side.other)

/-! ## The invariant and the frame -/

/-- An array in memory is in order. -/
def Handle.Ok (h : Handle) : Prop := Wf h.arr ∧ Fits h.arr.capacity h.arr.dataTypeSize

/-- Both arrays are in order, and their blocks do not overlap. -/
structure Sound (s : Two) : Prop where
  ok : ∀ side, (s.arrays side).live → (s.arrays side).Ok
  apart : ∀ side, (s.arrays side).live → (s.arrays side.other).live →
    Apart (s.arrays side).base (s.arrays side).arr.bytes
      (s.arrays side.other).base (s.arrays side.other).arr.bytes

theorem Side.other_ne (side : Side) : side.other ≠ side := by cases side <;> decide

theorem Side.eq_or (side side' : Side) : side' = side ∨ side' = side.other := by
  cases side <;> cases side' <;> decide

theorem Side.other_other (side : Side) : side.other.other = side := by cases side <;> rfl

theorem Handle.Ok.view {h : Handle} (hok : h.Ok) (m : Block) : Wf (h.view m) :=
  ⟨hok.1.size_le, hok.1.pow_two, hok.1.width_pos, hok.1.bytes_eq⟩

theorem Handle.Ok.bytes_eq {h : Handle} (hok : h.Ok) : h.arr.bytes = h.arr.capacity * h.arr.dataTypeSize :=
  ((exact_iff hok.1).mpr hok.2).bytes_eq

/-- The elements are in the block. -/
theorem Handle.Ok.contents_congr {h : Handle} (hok : h.Ok) {m m' : Block}
    (hm : ∀ o, o < h.arr.bytes → window m' h.base o = window m h.base o) :
    contents (h.view m') = contents (h.view m) := by
  refine records_of_agree (k := h.arr.bytes) ?_ hm
  rw [hok.bytes_eq]
  exact Nat.mul_le_mul_right _ hok.1.size_le

@[simp] theorem Two.write_self (s : Two) (side : Side) (h : Handle) :
    (s.write side h).arrays side = h := if_pos rfl

@[simp] theorem Two.write_other (s : Two) (side : Side) (h : Handle) :
    (s.write side h).arrays side.other = s.arrays side.other := if_neg side.other_ne

/-- Where a step leaves its array: apart from the other one, with only its own bytes written. -/
structure Settled (s : Two) (side : Side) (base : Nat) (b : DynArrayT) : Prop where
  apart : (s.arrays side.other).live →
    Apart base b.bytes (s.arrays side.other).base (s.arrays side.other).arr.bytes
  past : ∀ o, b.bytes ≤ o → b.array o = window s.mem base o

theorem settled_of_spec {s : Two} {mv : Move} (hs : Sound s) (hlive : (s.arrays mv.side).live)
    (hg : Granted s mv) {b : DynArrayT} (hspec : ActSpec (s.answer mv) (s.view mv.side) b) :
    Settled s mv.side (s.baseAfter mv b) b := by
  have hme := hs.ok mv.side hlive
  have hw : b.dataTypeSize = (s.arrays mv.side).arr.dataTypeSize := hspec.width
  have hb := ((exact_iff hspec.wf).mpr hspec.fits).bytes_eq
  have hfit := hspec.fits
  cases hspec.framed with
  | kept hcap hpast =>
    have hcap' : b.capacity = (s.arrays mv.side).arr.capacity := hcap
    rw [Two.baseAfter, if_pos hcap]
    rw [hcap', hw] at hb
    refine ⟨fun hother => ?_, fun o ho => hpast o (Nat.le_trans (Nat.le_of_eq hb.symm) ho)⟩
    have hap := hs.apart mv.side hlive hother
    rwa [hme.bytes_eq, ← hb] at hap
  | grown junk hjunk hcap hpast =>
    have hcap' : b.capacity = 2 * (s.arrays mv.side).arr.capacity := hcap
    obtain ⟨k, -, -, hk⟩ := hme.1.pow_two
    have hpos := Nat.two_pow_pos k
    have hne : b.capacity ≠ (s.view mv.side).capacity := by
      show b.capacity ≠ (s.arrays mv.side).arr.capacity
      omega
    obtain ⟨addr, hre, rfl⟩ := Option.map_eq_some_iff.mp hjunk
    rw [Two.baseAfter, if_neg hne, hre]
    rw [hcap', hw] at hb hfit
    refine ⟨fun hother => ?_, fun o ho => hpast o (Nat.le_trans (Nat.le_of_eq hb.symm) ho)⟩
    have hap := hg addr hre hother
    rwa [wrap_of_lt hfit, ← hb] at hap

/-- Writing back an array that has settled. -/
theorem Settled.write {s : Two} {side : Side} {base : Nat} {b : DynArrayT} (hset : Settled s side base b)
    (live : Bool) (hs : Sound s) (hb : Handle.Ok ⟨base, b, live⟩) :
    Sound (s.write side ⟨base, b, live⟩) ∧
      ((s.arrays side.other).live → contents ((s.write side ⟨base, b, live⟩).view side.other)
        = contents (s.view side.other)) := by
  refine ⟨⟨fun side' hl => ?_, fun side' hl hl' => ?_⟩, fun hl => ?_⟩
  · rcases side.eq_or side' with rfl | rfl
    · rwa [Two.write_self]
    · rw [Two.write_other] at hl ⊢
      exact hs.ok _ hl
  · rcases side.eq_or side' with rfl | rfl
    · rw [Two.write_other] at hl' ⊢
      rw [Two.write_self]
      exact hset.apart hl'
    · rw [Two.write_other] at hl ⊢
      rw [Side.other_other, Two.write_self]
      exact (hset.apart hl).symm
  · have hc := (hs.ok _ hl).contents_congr (window_apart (hset.apart hl) hset.past)
    rw [Two.view, Two.write_other]
    exact hc

/-- **Step lemma**: an allowed step keeps the invariant and touches its own side only. -/
theorem sound_step {qsort : Qsort} (hq : InPlace qsort) {s t : Two} {mv : Move} (hs : Sound s)
    (hok : s.Allowed mv) (hg : Granted s mv) (hstep : s.step qsort mv = some t) :
    Sound t ∧ t.arrays mv.side.other = s.arrays mv.side.other ∧
      ((s.arrays mv.side.other).live →
        contents (t.view mv.side.other) = contents (s.view mv.side.other)) := by
  unfold Two.step at hstep
  split at hstep
  · rename_i hlive
    have hme := hs.ok mv.side hlive
    obtain ⟨b, hrun, hspec⟩ := Act.spec hq (hme.view s.mem) hme.2 hok
    rw [show s.view mv.side = (s.arrays mv.side).view s.mem from rfl, hrun, Option.map_some,
      Option.some.injEq] at hstep
    subst hstep
    obtain ⟨hsound, hcont⟩ := (settled_of_spec hs hlive hg hspec).write mv.act.keeps hs
      ⟨hspec.wf, hspec.fits⟩
    exact ⟨hsound, Two.write_other .., hcont⟩
  · exact absurd hstep (by simp)

/-- **Run lemma**: from a sound state the two sides are independent. -/
theorem independent_of_sound {qsort : Qsort} (hq : InPlace qsort) {s₀ : Two} (h₀ : Sound s₀) :
    Independent qsort s₀ := by
  intro s hs side t ht hlive
  have hsound : Sound s := by
    refine hs.invariant (I := Sound) ?_ ?_
    · rintro _ rfl
      exact h₀
    · rintro u mv v hu hok ⟨hg, hstep⟩
      exact (sound_step hq hu hok hg hstep).1
  have hall : Sound t ∧ t.arrays side.other = s.arrays side.other ∧
      contents (t.view side.other) = contents (s.view side.other) := by
    refine ht.invariant (I := fun t => Sound t ∧ t.arrays side.other = s.arrays side.other ∧
      contents (t.view side.other) = contents (s.view side.other)) ?_ ?_
    · rintro _ rfl
      exact ⟨hsound, rfl, rfl⟩
    · rintro u mv v ⟨hu, hsame, hcont⟩ ⟨rfl, hok⟩ ⟨hg, hstep⟩
      obtain ⟨hv, hsame', hcont'⟩ := sound_step hq hu hok hg hstep
      exact ⟨hv, hsame'.trans hsame, (hcont' (by rwa [hsame])).trans hcont⟩
  exact hall.2

/-- Steps a client may take on an array that is there are always possible. -/
theorem step_possible {qsort : Qsort} (hq : InPlace qsort) {s : Two} {mv : Move} (hs : Sound s)
    (hlive : (s.arrays mv.side).live) (hok : s.Allowed mv) : ∃ t, s.step qsort mv = some t := by
  have hme := hs.ok mv.side hlive
  obtain ⟨b, hrun, -⟩ := Act.spec hq (hme.view s.mem) hme.2 hok
  exact ⟨_, by rw [Two.step, if_pos hlive]; exact Option.map_eq_some_iff.mpr ⟨b, hrun, rfl⟩⟩

/-! ## Pushing -/

/-- Pushing an object at either end succeeds if the allocator answers, and the block has the room. -/
structure Pushable (c : DynArrayT) : Prop where
  back : ∀ f junk, ∃ r, dynArrayPushBack dynMaxCapacity c (some (.outside f)) (some junk) = some r ∧
    r.ret = true ∧ Roomy r.arr ∧ contents r.arr = contents c ++ [bytesAt f 0 c.dataTypeSize]
  front : ∀ f junk, ∃ r, dynArrayPushFront dynMaxCapacity c (some (.outside f)) (some junk) = some r ∧
    r.ret = true ∧ Roomy r.arr ∧ contents r.arr = bytesAt f 0 c.dataTypeSize :: contents c

/-- The array is below the limit, and where it is full the doubled product fits. -/
def MayGrow (c : DynArrayT) : Prop :=
  c.size < dynMaxCapacity ∧ (c.size = c.capacity → Fits (2 * c.capacity) c.dataTypeSize)

/-- Such an array takes an object at any position. -/
theorem push_spec {c : DynArrayT} (h : Wf c) (hr : Roomy c) (hgrow : MayGrow c) {p : Nat}
    (hp : p ≤ c.size) (f junk : Block) :
    ∃ r, dynShiftInsert dynMaxCapacity c p 1 .insert (some (.outside f)) (some junk) = some r ∧
      r.ret = true ∧ Roomy r.arr ∧
      contents r.arr = (contents c).insertIdx p (bytesAt f 0 c.dataTypeSize) := by
  obtain ⟨r, hrun, hwf, -, -, -, -, hfalse, -, hcont⟩ := dynShiftInsert_one h hr p f (some junk)
  have hret : r.ret = true := by
    cases hb : r.ret with
    | true => rfl
    | false =>
      rcases hfalse.mp hb with hlt | ⟨-, hlt | hnone⟩
      · omega
      · have hM := hgrow.1
        omega
      · exact nomatch hnone
  obtain ⟨r', hrun', ht⟩ := @insert_touched c h (.insert p (some (.outside f))) p _ (some junk) Iff.rfl
  obtain rfl := Option.some.inj (hrun.symm.trans hrun')
  have hex := ht.exact h ((exact_iff h).mpr (h.roomy_lt hr)) fun hg => .inl (hgrow.2 hg.2.1)
  have hroom := (roomy_iff hwf).mpr ((exact_iff hwf).mp hex)
  exact ⟨r, hrun, hret, hroom, hcont hret hroom⟩

theorem pushable_iff {c : DynArrayT} (h : Wf c) (hr : Roomy c) : Pushable c ↔ MayGrow c := by
  have hs := h.size_le
  have hc := h.capacity_le
  constructor
  · intro hpush
    obtain ⟨r, hrun, hret, hroom, -⟩ := hpush.back (fun _ => 0) fun _ => 0
    rcases Nat.lt_or_ge c.size c.capacity with hfit | hfull
    · exact ⟨Nat.lt_of_lt_of_le hfit hc, fun heq => by omega⟩
    · rw [dynArrayPushBack, dynShiftInsert_full h _ _ (Nat.le_refl _) (by omega)] at hrun
      by_cases hM : dynMaxCapacity < c.size + 1
      · rw [if_pos hM] at hrun
        obtain rfl := Option.some.inj hrun
        exact nomatch hret
      · rw [if_neg hM] at hrun
        obtain rfl := Option.some.inj hrun
        -- the block asked for is too small if the product wraps
        have hroom : 2 * c.capacity * c.dataTypeSize ≤ wrap (2 * c.capacity * c.dataTypeSize) := hroom
        exact ⟨by omega, fun _ => Nat.lt_of_le_of_lt hroom (wrap_lt _)⟩
  · intro hgrow
    constructor
    · intro f junk
      obtain ⟨r, hrun, hret, hroom, hcont⟩ := push_spec h hr hgrow (Nat.le_refl _) f junk
      refine ⟨r, hrun, hret, hroom, ?_⟩
      rw [hcont, ← contents_length c, List.insertIdx_length_self]
    · intro f junk
      obtain ⟨r, hrun, hret, hroom, hcont⟩ := push_spec h hr hgrow (Nat.zero_le _) f junk
      exact ⟨r, hrun, hret, hroom, by rw [hcont, List.insertIdx_zero]⟩

/-! ## The copy -/

/-- A non-empty array is copied into a block of its own. -/
theorem import_copy {a : DynArrayT} (h : Wf a) (hr : Roomy a) (hz : a.size ≠ 0) (d : Bool)
    (junk : Block) (g : Alloc) :
    ∃ c, dynArrayImport dynMaxCapacity (dynArrayFront a) a.size a.dataTypeSize d true (some junk) g
        = some (some c) ∧
      Wf c ∧ Roomy c ∧ c.size = a.size ∧ c.capacity = roundedUp a.size ∧
      c.dataTypeSize = a.dataTypeSize ∧ contents c = contents a ∧
      ∀ o, c.bytes ≤ o → c.array o = junk o := by
  have hs := h.size_le
  have hlt := h.size_lt
  have hn : a.size ≤ dynMaxCapacity := Nat.le_trans hs h.capacity_le
  obtain ⟨k, hk4, hk56, hcap⟩ := h.pow_two
  have hle : roundedUp a.size ≤ a.capacity := by
    rw [hcap]
    exact roundedUp_le hk4 (by omega)
  have hM : roundedUp a.size ≤ dynMaxCapacity := Nat.le_trans hle h.capacity_le
  obtain ⟨ev, hcreate⟩ := create_within (by decide) hlt h.width_pos d hn hM junk
  obtain ⟨hwf, hnil, -, -, -, -, -⟩ := dynArrayCreate_spec hcreate
  have hfit : roundedUp a.size * a.dataTypeSize < 2 ^ 64 :=
    Nat.lt_of_le_of_lt (Nat.mul_le_mul_right _ hle) (h.roomy_lt hr)
  have hroom : Roomy (freshArray (roundedUp a.size) a.dataTypeSize d junk) :=
    Nat.le_of_eq (wrap_of_lt hfit).symm
  have hnew : 0 + a.size ≤ roundedUp a.size := by
    rw [Nat.zero_add]
    exact le_roundedUp _
  have hins := dynShiftInsert_fits (M := dynMaxCapacity) hwf a.array g hz (Nat.zero_le _) hnew
  refine ⟨inserted (freshArray (roundedUp a.size) a.dataTypeSize d junk) 0 a.size a.array, ?_,
    inserted_wf hwf a.array hnew, hroom, ?_, rfl, rfl, ?_, fun o ho => ?_⟩
  · rw [dynArrayFront, if_pos hz, dynArrayImport, if_pos ⟨rfl, Nat.pos_of_ne_zero hz⟩, hcreate,
      Option.bind_some]
    simp only [hins, Option.map_some, if_true]
  · show wrap (0 + a.size) = a.size
    rw [Nat.zero_add]
    exact wrap_of_lt hlt
  · rw [inserted_contents hwf hroom a.array (Nat.zero_le _) hnew, hnil, List.take_nil, List.drop_nil,
      List.nil_append, List.append_nil]
    rfl
  · refine inserted_past a.array (Nat.zero_le _) hnew o ?_
    exact Nat.le_trans (Nat.le_of_eq (wrap_of_lt hfit).symm) ho

/-- Memory with the original and its copy, the copy in the block at `base`. -/
def afterCopy (m : Block) (a : Handle) (base : Nat) (c : DynArrayT) : Two :=
  { mem := place m base c.array,
    arrays := fun side => match side with
      | .original => a
      | .copy => ⟨base, c, true⟩ }

/-- Copying as it should be: there is a copy, with the same elements; the original is as it was; the
    two are independent; and the copy can be pushed to. -/
structure CopyLaw (qsort : Qsort) (m : Block) (a : Handle) (base : Nat) (c : DynArrayT) : Prop where
  same : contents ((afterCopy m a base c).view .copy) = contents (a.view m)
  original : contents ((afterCopy m a base c).view .original) = contents (a.view m)
  independent : Independent qsort (afterCopy m a base c)
  pushable : Pushable c

/-- `node_create`'s copy of `a`, both `malloc` calls answered (the second with the block at
    `base`). -/
def copyOf (m : Block) (a : Handle) (base : Nat) (d : Bool) (g : Alloc) : Option (Option DynArrayT) :=
  dynArrayImport dynMaxCapacity (dynArrayFront (a.view m)) a.arr.size a.arr.dataTypeSize d true
    (some (window m base)) g

/-- **Copying fails on the empty array, and else only at the limits.**  For an array in memory and a
    block that the allocator may give, there is a lawful copy iff the array is not empty and, as an
    array that holds exactly its elements, may still grow. -/
theorem copy_iff {qsort : Qsort} (hq : InPlace qsort) {m : Block} {a : Handle} (h : Wf a.arr)
    (hr : Roomy a.arr) {base : Nat} (d : Bool) (g : Alloc)
    (hbase : Apart base (wrap (roundedUp a.arr.size * a.arr.dataTypeSize)) a.base a.arr.bytes) :
    (∃ c, copyOf m a base d g = some (some c) ∧ CopyLaw qsort m a base c) ↔
      a.arr.size ≠ 0 ∧ a.arr.size < dynMaxCapacity ∧
        (a.arr.size = roundedUp a.arr.size → Fits (2 * a.arr.size) a.arr.dataTypeSize) := by
  have hok : a.Ok := ⟨h, h.roomy_lt hr⟩
  by_cases hz : a.arr.size = 0
  · refine ⟨fun ⟨c, hrun, _⟩ => ?_, fun hcond => absurd hz hcond.1⟩
    have hz : (a.view m).size = 0 := hz
    rw [copyOf, dynArrayFront, if_neg (not_not_intro hz)] at hrun
    exact nomatch hrun
  · obtain ⟨c, hrun, hwf, hroom, hsize, hcap, hw, hcont, hpast⟩ := import_copy (hok.view m) hr hz d
      (window m base) g
    have hsize : c.size = a.arr.size := hsize
    have hcap : c.capacity = roundedUp a.arr.size := hcap
    have hw : c.dataTypeSize = a.arr.dataTypeSize := hw
    have hgrow : MayGrow c ↔ a.arr.size < dynMaxCapacity ∧
        (a.arr.size = roundedUp a.arr.size → Fits (2 * a.arr.size) a.arr.dataTypeSize) := by
      rw [MayGrow, hsize, hcap, hw]
      refine and_congr_right fun _ => forall_congr' fun hfull => ?_
      rw [← hfull]
    constructor
    · rintro ⟨c', hrun', hlaw⟩
      obtain rfl := Option.some.inj (Option.some.inj (hrun.symm.trans hrun'))
      exact ⟨hz, hgrow.mp ((pushable_iff hwf hroom).mp hlaw.pushable)⟩
    · rintro ⟨-, hcond⟩
      have hap : Apart base c.bytes a.base a.arr.bytes := by
        rw [hwf.bytes_eq, hcap, hw]
        exact hbase
      have hsound : Sound (afterCopy m a base c) := by
        constructor
        · intro side _
          cases side with
          | original => exact hok
          | copy => exact ⟨hwf, hwf.roomy_lt hroom⟩
        · intro side _ _
          cases side with
          | original => exact hap.symm
          | copy => exact hap
      refine ⟨c, hrun, ?_, hok.contents_congr (window_apart hap hpast),
        independent_of_sound hq hsound, (pushable_iff hwf hroom).mpr (hgrow.mpr hcond)⟩
      rw [← hcont]
      show contents { c with array := window (place m base c.array) base } = contents c
      rw [window_place]

/-- A `qsort` that works in place. -/
def sortInPlace : Qsort := fun m n w compare => blit m 0 (sortBlock m n w compare) 0 (n * w)

theorem sortInPlace_inPlace : InPlace sortInPlace := by
  intro m n w compare o ho
  exact blit_past (by omega)

/-- An array of `size` pointers in the block at address 0. -/
def pointers (size : Nat) : Handle :=
  { base := 0, live := true,
    arr := { capacity := 16, size := size, dataTypeSize := 8, array := fun _ => 0,
             destructor := true, bytes := 128, destructed := [] } }

theorem pointers_wf {size : Nat} (h : size ≤ 16) : Wf (pointers size).arr :=
  ⟨h, ⟨4, by decide, by decide, rfl⟩, Nat.succ_pos 7, rfl⟩

theorem pointers_roomy (size : Nat) : Roomy (pointers size).arr := Nat.le_refl 128

/-- One child, copied to address 128. -/
theorem one_copied :
    ∃ c, copyOf (fun _ => 7) (pointers 1) 128 true none = some (some c) ∧
      CopyLaw sortInPlace (fun _ => 7) (pointers 1) 128 c :=
  (copy_iff sortInPlace_inPlace (pointers_wf (by decide)) (pointers_roomy 1) true none
    (.inr (by decide))).mpr ⟨by decide, by decide, by decide⟩

/-- No child: the copy is NULL, with all the memory in the world. -/
theorem empty_not_copied :
    Wf (pointers 0).arr ∧ Roomy (pointers 0).arr ∧
      copyOf (fun _ => 7) (pointers 0) 128 true none = some none ∧
      ¬ ∃ c, copyOf (fun _ => 7) (pointers 0) 128 true none = some (some c) ∧
        CopyLaw sortInPlace (fun _ => 7) (pointers 0) 128 c := by
  have hnull : copyOf (fun _ => 7) (pointers 0) 128 true none = some none := rfl
  refine ⟨pointers_wf (by decide), pointers_roomy 0, hnull, fun ⟨c, hrun, _⟩ => ?_⟩
  rw [hnull] at hrun
  exact nomatch hrun

end Msvl.DynArray
