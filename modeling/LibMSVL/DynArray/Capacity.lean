/-
  The capacity of the dynamic array: where the doubling loops stop, and what a run can do to the
  counters.

  `dyn_array_create` and `dyn_request_size_increase` double a `size_t` until a request fits.  The
  loops stop because `DYN_MAX_CAPACITY` is itself a power of two (`doubleUntil_pow`); here the
  intermediate values are followed too.

  * `shifted` — the values such a loop shifts, and `LoopExact`: it ends and no shift loses a bit;
  * `Touched` — everything one call can do to the counters of an array: keep the buffer, or double
    it once.  Every later fact about `capacity` and `bytes` is a case split on it;
  * `run_touched` — every call is one of the two, whatever its index, object and allocator answer;
  * `capacity_law` — the headline: from any array created or imported, over any run.
-/
import LibMSVL.DynArray.Refine

namespace Msvl.DynArray

open Msvl.Bytes

/-! ## The loops, shift by shift -/

/-- The values that `while (c < needed) c <<= 1;` shifts, in order. -/
def shifted (needed : Nat) : Nat → Nat → List Nat
  | 0, c => if c < needed then [c] else []
  | fuel + 1, c => if c < needed then c :: shifted needed fuel (wrap (2 * c)) else []

/-- The loop started at `c` ends, and none of its shifts loses a bit. -/
def LoopExact (needed c : Nat) : Prop :=
  (doubleUntil needed 64 c).isSome ∧ ∀ v ∈ shifted needed 64 c, 2 * v < 2 ^ 64

/-- The arithmetic of `dyn_request_size_increase` for `k` more elements: the sum is exact (it also
    bounds `position + count` and the new `size`), and where the limit lets the array grow, the
    first shift and the loop are. -/
def GrowthExact (a : DynArrayT) (k : Nat) : Prop :=
  a.size + k < 2 ^ 64 ∧
    (a.capacity < a.size + k → a.size + k ≤ dynMaxCapacity →
      2 * a.capacity < 2 ^ 64 ∧ LoopExact (a.size + k) (2 * a.capacity))

/-- Every value a loop shifts is below what is needed, so its double cannot leave 64 bits. -/
theorem shifted_lt (needed : Nat) : ∀ fuel c, ∀ v ∈ shifted needed fuel c, v < needed := by
  intro fuel
  induction fuel with
  | zero =>
    intro c v hv
    rw [shifted] at hv
    split at hv
    · obtain rfl := List.mem_singleton.mp hv
      assumption
    · simp at hv
  | succ fuel ih =>
    intro c v hv
    rw [shifted] at hv
    split at hv
    · rcases List.mem_cons.mp hv with rfl | hv
      · assumption
      · exact ih _ v hv
    · simp at hv

theorem loopExact_pow {needed k : Nat} (hn : needed ≤ dynMaxCapacity) (hk : k ≤ 56) :
    LoopExact needed (2 ^ k) := by
  obtain ⟨j, -, -, hrun, -⟩ := doubleUntil_pow hn 64 k hk (by omega)
  refine ⟨by rw [hrun]; rfl, fun v hv => ?_⟩
  have hlt := shifted_lt needed 64 (2 ^ k) v hv
  unfold dynMaxCapacity at hn
  omega

theorem loopExact_create {n : Nat} (hn : n ≤ dynMaxCapacity) : LoopExact n 16 := by
  have h := loopExact_pow (k := 4) hn (by decide)
  rwa [show (2 : Nat) ^ 4 = 16 by decide] at h

/-- The invariant makes the growth arithmetic exact, for as many elements as an array may hold. -/
theorem growthExact_of_wf {a : DynArrayT} (h : Wf a) {k : Nat} (hk : k ≤ dynMaxCapacity) :
    GrowthExact a k := by
  have hs := h.size_le
  have hc := h.capacity_le
  unfold dynMaxCapacity at hk
  refine ⟨by omega, fun hfull hM => ⟨by omega, ?_⟩⟩
  obtain ⟨j, hj4, hj56, hcap⟩ := h.pow_two
  rcases Nat.lt_or_eq_of_le hj56 with hlt | rfl
  · have hpow : 2 * a.capacity = 2 ^ (j + 1) := by rw [hcap, Nat.pow_succ, Nat.mul_comm]
    rw [hpow]
    exact loopExact_pow hM hlt
  · -- at the largest capacity nothing within the limit is too much
    rw [hcap] at hfull
    unfold dynMaxCapacity at hM
    omega

/-! ## What a call does to the counters -/

/-- The call is an insertion, with an object and a position in range. -/
def Op.Inserts (op : Op) (a : DynArrayT) : Prop :=
  match op with
  | .pushFront object | .pushBack object | .insertSorted object _ => object.isSome
  | .insert i object => object.isSome ∧ i ≤ a.size
  | _ => False

/-- The call asks for a larger buffer: an insertion into a full array that may still grow. -/
def Op.Grows (op : Op) (a : DynArrayT) : Prop :=
  op.Inserts a ∧ a.size = a.capacity ∧ a.capacity < dynMaxCapacity

/-- What one call does: the buffer is kept (the array itself, too, when the call is refused), or
    the allocator was asked for one of twice the capacity and gave it. -/
inductive Touched (op : Op) (g : Alloc) (a : DynArrayT) : Result → Prop where
  | kept {r : Result} (m : Block) (s : Nat) (d : List Elem)
      (harr : r.arr = { a with array := m, size := s, destructed := d }) (hs : s ≤ a.capacity)
      (hmore : op.Inserts a → a.size ≤ s)
      (hret : r.ret = false → r.arr = a) (hgrows : op.Grows a → g = none ∧ r.ret = false) :
      Touched op g a r
  | grown (junk m : Block) (hg : g = some junk) (hgrows : op.Grows a) :
      Touched op g a { ret := true, arr := { doubled a junk with array := m, size := a.size + 1 } }

namespace Touched

variable {op : Op} {g : Alloc} {a : DynArrayT} {r : Result}

theorem wf (ht : Touched op g a r) (h : Wf a) : Wf r.arr := by
  cases ht with
  | kept m s d harr hs _ _ _ =>
    rw [harr]
    exact ⟨hs, h.pow_two, h.width_pos, h.bytes_eq⟩
  | grown junk m _ hgrows =>
    obtain ⟨-, hfull, hM⟩ := hgrows
    have hd := doubled_wf h junk (by omega) (by omega)
    refine ⟨?_, hd.pow_two, hd.width_pos, hd.bytes_eq⟩
    obtain ⟨k, -, -, hk⟩ := h.pow_two
    have hpos := Nat.two_pow_pos k
    show a.size + 1 ≤ 2 * a.capacity
    omega

theorem size_le (ht : Touched op g a r) (hins : op.Inserts a) : a.size ≤ r.arr.size := by
  cases ht with
  | kept m s d harr _ hmore _ _ =>
    rw [harr]
    exact hmore hins
  | grown junk m _ _ => exact Nat.le_succ a.size

theorem capacity_le (ht : Touched op g a r) : a.capacity ≤ r.arr.capacity := by
  cases ht with
  | kept m s d harr _ _ _ _ => exact Nat.le_of_eq (by rw [harr])
  | grown junk m _ _ =>
    show a.capacity ≤ 2 * a.capacity
    omega

/-- A call that changes nothing and is no insertion that could grow. -/
theorem same (h : Wf a) (harr : r.arr = a) (hno : ¬ op.Grows a) : Touched op g a r :=
  .kept _ _ _ harr h.size_le (fun _ => Nat.le_refl _) (fun _ => harr) fun hg => absurd hg hno

end Touched

/-- `dyn_shift_insert` of one object, for a call that means it. -/
theorem insert_touched {a : DynArrayT} (h : Wf a) {op : Op} {p : Nat} {src : Option Source} (g : Alloc)
    (hop : op.Inserts a ↔ src.isSome ∧ p ≤ a.size) :
    ∃ r, dynShiftInsert dynMaxCapacity a p 1 .insert src g = some r ∧ Touched op g a r := by
  have hs := h.size_le
  have hc := h.capacity_le
  have hsum : wrap (a.size + 1) = a.size + 1 := wrap_of_lt (by omega)
  cases src with
  | none => exact ⟨_, rfl, .same h rfl fun hg => absurd (hop.mp hg.1).1 Bool.false_ne_true⟩
  | some src =>
    rcases Nat.lt_or_ge a.size p with hp | hp
    · exact ⟨_, dynShiftInsert_past g hp, .same h rfl fun hg => by have := (hop.mp hg.1).2; omega⟩
    · have hins : op.Inserts a := hop.mpr ⟨rfl, hp⟩
      rw [dynShiftInsert, if_pos ⟨by decide, rfl, hp⟩]
      rcases Nat.lt_or_ge a.size a.capacity with hfit | hfull
      · -- there is room in the buffer
        rw [requestSizeIncrease_fits h g hfit, Option.map_some]
        simp only [if_true, hsum]
        exact ⟨_, rfl, .kept _ _ _ rfl hfit (fun _ => by omega) (by simp)
          fun hg => absurd hg.2.1 (by omega)⟩
      · rw [requestSizeIncrease_full h g (by omega)]
        by_cases hM : dynMaxCapacity < a.size + 1
        · -- the limit is reached
          rw [if_pos hM]
          exact ⟨_, rfl, .same h rfl fun hg => by have := hg.2.2; omega⟩
        · rw [if_neg hM]
          have hgrows : op.Grows a := ⟨hins, by omega, by omega⟩
          cases g with
          | none => exact ⟨_, rfl, .kept _ _ _ rfl hs (fun _ => Nat.le_refl _) (fun _ => rfl)
              fun _ => ⟨rfl, rfl⟩⟩
          | some junk =>
            have hsum' : wrap ((doubled a junk).size + 1) = a.size + 1 := hsum
            rw [Option.map_some]
            simp only [if_true, hsum']
            exact ⟨_, rfl, .grown junk _ rfl hgrows⟩

/-- `dyn_shift_remove`: the buffer and its size in bytes are never touched, and at most the
    elements there are leave. -/
theorem remove_touched {a : DynArrayT} (h : Wf a) {op : Op} (g : Alloc) (hop : ¬ op.Inserts a)
    (p : Nat) {k : Nat} (mode : ShiftMode) (dst : Bool) (hk : a.size ≠ 0 → k ≤ a.size) :
    Touched op g a (dynShiftRemove a p k mode dst) := by
  have hno : ¬ op.Grows a := fun hg => hop hg.1
  have hs := h.size_le
  unfold dynShiftRemove
  split
  · rename_i hg
    have hsub : wrap (a.size + 2 ^ 64 - k) = a.size - k := wrap_sub h.size_lt (hk hg.2.1)
    have hle : wrap (a.size + 2 ^ 64 - k) ≤ a.capacity := by omega
    split
    · split
      · exact .kept _ _ _ rfl hle (fun hins => absurd hins hop) nofun fun hg => absurd hg hno
      · exact .kept _ _ _ rfl hle (fun hins => absurd hins hop) nofun fun hg => absurd hg hno
    · split
      · exact .same h rfl hno
      · exact .same h rfl hno
  · exact .same h rfl hno

theorem sortedPosition_le (a : DynArrayT) (x : Elem) (compare : Elem → Elem → Int) :
    ∀ n i, sortedPosition a x compare n i ≤ i + n := by
  intro n
  induction n with
  | zero => intro i; exact Nat.le_refl _
  | succ n ih =>
    intro i
    rw [sortedPosition]
    split
    · have := ih (i + 1)
      omega
    · omega

/-- **One call** returns and touches the array in one of the two ways. -/
theorem run_touched {a : DynArrayT} (h : Wf a) (op : Op) (g : Alloc) :
    ∃ r, op.run dynMaxCapacity g a = some r ∧ Touched op g a r := by
  have hone : a.size ≠ 0 → 1 ≤ a.size := Nat.pos_of_ne_zero
  cases op with
  | pushFront object => exact insert_touched h g ⟨fun hs => ⟨hs, Nat.zero_le _⟩, fun hs => hs.1⟩
  | pushBack object => exact insert_touched h g ⟨fun hs => ⟨hs, Nat.le_refl _⟩, fun hs => hs.1⟩
  | insert i object => exact insert_touched h g Iff.rfl
  | insertSorted object compare =>
    cases object with
    | none => exact ⟨_, rfl, .same h rfl fun hg => nomatch hg.1⟩
    | some src =>
      have hp := sortedPosition_le a (src.elem a) compare a.size 0
      exact @insert_touched a h (.insertSorted (some src) compare) _ (some src) g
        ⟨fun _ => ⟨rfl, by omega⟩, fun _ => rfl⟩
  | popFront => exact ⟨_, rfl, remove_touched h g id _ _ _ hone⟩
  | popBack => exact ⟨_, rfl, remove_touched h g id _ _ _ hone⟩
  | erase i => exact ⟨_, rfl, remove_touched h g id _ _ _ hone⟩
  | clear =>
    refine ⟨_, rfl, ?_⟩
    have ht := @remove_touched a h .clear g id 0 a.size .erase false fun _ => Nat.le_refl _
    unfold dynArrayClear
    split
    · generalize dynShiftRemove a 0 a.size .erase false = r at ht ⊢
      cases ht with
      | kept m s d harr hs _ _ _ =>
        exact .kept m s d harr hs (fun hins => hins.elim) nofun fun hg => hg.1.elim
      | grown junk m _ hgrows => exact absurd hgrows.1 id
    · exact .same h rfl fun hg => hg.1
  | extractFront dst => exact ⟨_, rfl, remove_touched h g id _ _ _ hone⟩
  | extractBack dst => exact ⟨_, rfl, remove_touched h g id _ _ _ hone⟩
  | extract i dst => exact ⟨_, rfl, remove_touched h g id _ _ _ hone⟩

/-! ## Arrays as they are asked for -/

/-- `a` was returned by `dyn_array_create` for `n` objects or by `dyn_array_import` of `n` objects,
    of width `w`. -/
inductive Asked (n w : Nat) : DynArrayT → Prop where
  | created {d mStruct mBuf a ev}
      (h : dynArrayCreate dynMaxCapacity n w d mStruct mBuf = some (some a, ev)) : Asked n w a
  | imported {data d mStruct mBuf g a}
      (h : dynArrayImport dynMaxCapacity data n w d mStruct mBuf g = some (some a)) : Asked n w a

/-- `dyn_array_create` always returns. -/
theorem dynArrayCreate_returns (n w : Nat) (d mStruct : Bool) (mBuf : Alloc) :
    ∃ res ev, dynArrayCreate dynMaxCapacity n w d mStruct mBuf = some (res, ev) := by
  unfold dynArrayCreate
  split
  · rename_i hg
    split
    · obtain ⟨c, hc⟩ := Option.isSome_iff_exists.mp (loopExact_create hg.2).1
      rw [hc]
      cases mBuf with
      | some junk => exact ⟨_, _, rfl⟩
      | none => exact ⟨_, _, rfl⟩
    · exact ⟨_, _, rfl⟩
  · exact ⟨_, _, rfl⟩

/-- The import into the array just created never grows it, whatever the limit. -/
theorem import_fits {M : Nat} {b : DynArrayT} {n : Nat} (hz : b.size = 0) (hn : n ≤ b.capacity)
    (hn64 : n < 2 ^ 64) (hn0 : 0 < n) (src : Source) (g : Alloc) :
    ∃ m, dynShiftInsert M b 0 n .insert (some src) g
      = some { ret := true, arr := { b with array := m, size := n } } := by
  have hsum : wrap (b.size + n) = n := by
    rw [hz, Nat.zero_add]
    exact wrap_of_lt hn64
  have hroom : dynRequestSizeIncrease M b n g = some (true, b) := by
    rw [dynRequestSizeIncrease, if_pos (by omega)]
  rw [dynShiftInsert, if_pos ⟨by omega, rfl, by omega⟩, hroom, Option.map_some]
  simp only [if_true, hsum]
  exact ⟨_, rfl⟩

/-- `dyn_array_import` always returns; what it returns is the created array with its elements in. -/
theorem dynArrayImport_returns (data : Option Source) (n w : Nat) (d mStruct : Bool) (mBuf g : Alloc) :
    ∃ res, dynArrayImport dynMaxCapacity data n w d mStruct mBuf g = some res ∧
      ∀ a, res = some a → ∃ b ev m, dynArrayCreate dynMaxCapacity n w d mStruct mBuf = some (some b, ev) ∧
        n ≤ b.capacity ∧ a = { b with array := m, size := n } := by
  unfold dynArrayImport
  split
  · rename_i hg
    obtain ⟨src, hsrc⟩ := Option.isSome_iff_exists.mp hg.1
    obtain ⟨res, ev, hcreate⟩ := dynArrayCreate_returns n w d mStruct mBuf
    rw [hcreate, Option.bind_some]
    cases res with
    | none => exact ⟨none, rfl, nofun⟩
    | some b =>
      obtain ⟨hwf, -, -, -, -, hz, hcap⟩ := dynArrayCreate_spec hcreate
      have hc := hwf.capacity_le
      obtain ⟨m, hins⟩ := import_fits (M := dynMaxCapacity) hz hcap (by omega) hg.2 src g
      refine ⟨some { b with array := m, size := n }, ?_, fun a ha => ?_⟩
      · simp only [hsrc, hins, Option.map_some, if_true]
      · obtain rfl := Option.some.inj ha
        exact ⟨b, ev, m, rfl, hcap, rfl⟩
  · exact ⟨none, rfl, nofun⟩

/-- The array a call returns is well formed, has the width asked for and room for all `n`. -/
theorem Asked.spec {n w : Nat} {a : DynArrayT} (h : Asked n w a) :
    Wf a ∧ a.dataTypeSize = w ∧ n ≤ a.capacity := by
  cases h with
  | created h =>
    obtain ⟨hwf, -, hw, -, -, -, hcap⟩ := dynArrayCreate_spec h
    exact ⟨hwf, hw, hcap⟩
  | @imported data d mStruct mBuf g _ h =>
    obtain ⟨res, hrun, hres⟩ := dynArrayImport_returns data n w d mStruct mBuf g
    obtain ⟨b, ev, m, hcreate, hcap, rfl⟩ := hres a (Option.some.inj (hrun.symm.trans h))
    obtain ⟨hwf, -, hw, -⟩ := dynArrayCreate_spec hcreate
    exact ⟨⟨hcap, hwf.pow_two, hwf.width_pos, hwf.bytes_eq⟩, hw, hcap⟩

/-! ## Runs -/

/-- The array before each call of a run, and after the last. -/
def statesOf (steps : List Step) (last : DynArrayT) : List DynArrayT :=
  steps.map Step.before ++ [last]

/-- **One run**, call by call: it goes through, every step touches the counters in one of the two
    ways, and the states stay well formed.  Induction on the calls. -/
theorem runOps_touched : ∀ (ops : List (Op × Alloc)) (a : DynArrayT), Wf a →
    ∃ steps last, runOps dynMaxCapacity a ops = some (steps, last) ∧
      (∀ b ∈ statesOf steps last, Wf b ∧ a.capacity ≤ b.capacity) ∧
      (statesOf steps last).Pairwise (fun b c => b.capacity ≤ c.capacity) ∧
      ∀ st ∈ steps, Wf st.before ∧ Touched st.op st.alloc st.before st.res
  | [], a, h => by
    refine ⟨[], a, rfl, fun b hb => ?_, List.pairwise_singleton _ _, nofun⟩
    obtain rfl := List.mem_singleton.mp hb
    exact ⟨h, Nat.le_refl _⟩
  | (op, g) :: rest, a, h => by
    obtain ⟨r, hrun, ht⟩ := run_touched h op g
    obtain ⟨steps, last, hsteps, hwf, hmono, hall⟩ := runOps_touched rest r.arr (ht.wf h)
    have hle := ht.capacity_le
    refine ⟨⟨op, g, a, r⟩ :: steps, last, ?_, ?_, ?_, ?_⟩
    · rw [runOps, hrun, Option.bind_some, hsteps]
      rfl
    · intro b hb
      rcases List.mem_cons.mp hb with rfl | hb
      · exact ⟨h, Nat.le_refl _⟩
      · have hb := hwf b hb
        exact ⟨hb.1, by omega⟩
    · refine List.pairwise_cons.mpr ⟨fun b hb => ?_, hmono⟩
      have hb := (hwf b hb).2
      show a.capacity ≤ b.capacity
      omega
    · intro st hst
      rcases List.mem_cons.mp hst with rfl | hst
      · exact ⟨h, ht⟩
      · exact hall st hst

/-- What holds of the counters of an array asked for with `n` objects. -/
structure Bounded (n : Nat) (a : DynArrayT) : Prop where
  size_le : a.size ≤ a.capacity
  capacity_ge : 16 ≤ a.capacity
  capacity_le : a.capacity ≤ dynMaxCapacity
  pow_two : ∃ k, a.capacity = 2 ^ k
  asked_le : n ≤ a.capacity

theorem Wf.bounded {a : DynArrayT} (h : Wf a) {n : Nat} (hn : n ≤ a.capacity) : Bounded n a := by
  obtain ⟨k, hk4, -, hk⟩ := h.pow_two
  refine ⟨h.size_le, ?_, h.capacity_le, ⟨k, hk⟩, hn⟩
  rw [hk]
  exact Nat.pow_le_pow_right (n := 2) (by decide) hk4

/-- **The capacity law.**  Creating and importing always return, and their loop is exact for every
    request within the limit.  Every run from what they return goes through; each insertion's
    arithmetic is exact, every state is bounded as asked, and the capacity never decreases.  (The
    counters keep the law even where an index is out of range.) -/
theorem capacity_law (n w : Nat) :
    (n ≤ dynMaxCapacity → LoopExact n 16) ∧
    (∀ d mStruct mBuf, ∃ res ev, dynArrayCreate dynMaxCapacity n w d mStruct mBuf = some (res, ev) ∧
      ∀ b, res = some b → GrowthExact b n) ∧
    (∀ data d mStruct mBuf g, ∃ res, dynArrayImport dynMaxCapacity data n w d mStruct mBuf g = some res) ∧
    ∀ a, Asked n w a → ∀ ops, ∃ steps last, runOps dynMaxCapacity a ops = some (steps, last) ∧
      (∀ b ∈ statesOf steps last, Bounded n b ∧ GrowthExact b 1) ∧
      (statesOf steps last).Pairwise (fun b c => b.capacity ≤ c.capacity) := by
  refine ⟨loopExact_create, fun d mStruct mBuf => ?_, fun data d mStruct mBuf g => ?_,
    fun a ha ops => ?_⟩
  · obtain ⟨res, ev, hrun⟩ := dynArrayCreate_returns n w d mStruct mBuf
    refine ⟨res, ev, hrun, fun b hb => ?_⟩
    subst hb
    obtain ⟨hwf, -, -, -, -, -, hcap⟩ := dynArrayCreate_spec hrun
    exact growthExact_of_wf hwf (Nat.le_trans hcap hwf.capacity_le)
  · obtain ⟨res, hrun, -⟩ := dynArrayImport_returns data n w d mStruct mBuf g
    exact ⟨res, hrun⟩
  · obtain ⟨hwf, -, hcap⟩ := ha.spec
    obtain ⟨steps, last, hrun, hall, hmono, -⟩ := runOps_touched ops a hwf
    refine ⟨steps, last, hrun, fun b hb => ?_, hmono⟩
    have hb := hall b hb
    exact ⟨hb.1.bounded (Nat.le_trans hcap hb.2), growthExact_of_wf hb.1 (by decide)⟩

/-- Requests around the first doubling, and a run with a refused pop. -/
theorem capacity_law_seventeen :
    LoopExact 17 16 ∧
    ∃ steps last, runOps dynMaxCapacity (freshArray 32 1 false fun _ => 0)
        [(.popBack, none), (.pushBack (some (.outside fun _ => 7)), none)] = some (steps, last) ∧
      (∀ b ∈ statesOf steps last, Bounded 17 b ∧ GrowthExact b 1) ∧
      (statesOf steps last).Pairwise (fun b c => b.capacity ≤ c.capacity) :=
  ⟨(capacity_law 17 1).1 (by decide),
    (capacity_law 17 1).2.2.2 _
      (.created (show dynArrayCreate dynMaxCapacity 17 1 false true (some fun _ => 0) = _ from rfl)) _⟩

end Msvl.DynArray
