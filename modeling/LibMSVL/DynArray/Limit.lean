/-
  The limit set by the build.

  `DYN_MAX_CAPACITY` may be set to any `M`, and then it need not be a power of two.  Three places
  meet it: the comparison of the request in `dyn_array_create`, the comparison of the rounded
  capacity after it, and the comparison of the needed size in `dyn_request_size_increase`, which
  never looks at the capacity it doubles to.

  1. `doubleUntil_any` — the loops for every 64-bit request: the power of two, or no end.
  2. `create_limit_iff`, `import_limit_iff` — creation respects `M` exactly when rounding does.
  3. `run_grown` — what one call does to the capacity, for every `M`; `growth_limit_iff`.
  4. `limit_respected_iff` — creation and any run after it.
-/
import LibMSVL.DynArray.BufferSize

namespace Msvl.DynArray

/-! ## The loops, for every request -/

/-- Once the variable has been shifted to 0 the loop does not end. -/
theorem doubleUntil_zero {needed : Nat} (h : 0 < needed) : ∀ fuel, doubleUntil needed fuel 0 = none
  | 0 => if_pos h
  | fuel + 1 => by
    rw [doubleUntil, if_pos h]
    exact doubleUntil_zero h fuel

/-- From `2 ^ k` the loop ends at the first power of two that is large enough, if 64 bits hold it,
    and never otherwise.  Induction on the rounds left. -/
theorem doubleUntil_any {needed : Nat} (hn : needed < 2 ^ 64) :
    ∀ fuel k, k ≤ 63 → 63 - k ≤ fuel →
      doubleUntil needed fuel (2 ^ k) =
        if 2 ^ max k (Nat.clog 2 needed) < 2 ^ 64 then some (2 ^ max k (Nat.clog 2 needed)) else none := by
  have hdone : ∀ fuel k, k ≤ 63 → needed ≤ 2 ^ k → doubleUntil needed fuel (2 ^ k) =
      if 2 ^ max k (Nat.clog 2 needed) < 2 ^ 64 then some (2 ^ max k (Nat.clog 2 needed)) else none := by
    intro fuel k hk hle
    have hsmall : 2 ^ k < 2 ^ 64 := Nat.pow_lt_pow_right (by decide) (by omega)
    rw [doubleUntil_of_le hle, Nat.max_eq_left (Nat.clog_le_of_le_pow hle), if_pos hsmall]
  -- what does not fit into 63 shifts does not fit at all
  have hlast : ∀ k, 63 ≤ k → 2 ^ k < needed → ¬ 2 ^ max k (Nat.clog 2 needed) < 2 ^ 64 := by
    intro k hk hlt hsmall
    have hclog : k < Nat.clog 2 needed := (Nat.lt_clog_iff_pow_lt (by decide)).mpr hlt
    have := (Nat.pow_lt_pow_iff_right (by decide)).mp hsmall
    omega
  intro fuel
  induction fuel with
  | zero =>
    intro k hk hf
    rcases Nat.lt_or_ge (2 ^ k) needed with hlt | hge
    · rw [doubleUntil, if_pos hlt, if_neg (hlast k (by omega) hlt)]
    · exact hdone 0 k hk hge
  | succ fuel ih =>
    intro k hk hf
    rcases Nat.lt_or_ge (2 ^ k) needed with hlt | hge
    · have hpow : 2 * 2 ^ k = 2 ^ (k + 1) := by rw [Nat.pow_succ, Nat.mul_comm]
      have hclog : k < Nat.clog 2 needed := (Nat.lt_clog_iff_pow_lt (by decide)).mpr hlt
      rw [doubleUntil, if_pos hlt, hpow]
      rcases Nat.lt_or_eq_of_le hk with hk' | rfl
      · have hsmall : 2 ^ (k + 1) < 2 ^ 64 := Nat.pow_lt_pow_right (by decide) (by omega)
        rw [wrap_of_lt hsmall, ih (k + 1) (by omega) (by omega), Nat.max_eq_right (by omega),
          Nat.max_eq_right (by omega)]
      · rw [show wrap (2 ^ (63 + 1)) = 0 by decide, doubleUntil_zero (by omega),
          if_neg (hlast 63 (by decide) hlt)]
    · exact hdone _ k hk hge

theorem roundedUp_eq (n : Nat) : roundedUp n = 2 ^ max 4 (Nat.clog 2 n) := by
  rw [roundedUp, Monotone.map_max (Nat.clog_monotone 2), show (16 : Nat) = 2 ^ 4 by decide,
    Nat.clog_pow 2 4 (by decide)]

theorem le_roundedUp (n : Nat) : n ≤ roundedUp n :=
  Nat.le_trans (Nat.le_max_right 16 n) (Nat.le_pow_clog (by decide) _)

theorem roundedUp_le {n k : Nat} (hk : 4 ≤ k) (hn : n ≤ 2 ^ k) : roundedUp n ≤ 2 ^ k := by
  rw [roundedUp_eq]
  exact Nat.pow_le_pow_right (by decide) (Nat.max_le.mpr ⟨hk, Nat.clog_le_of_le_pow hn⟩)

theorem lt_roundedUp {n k : Nat} (hn : 2 ^ k < n) : 2 ^ (k + 1) ≤ roundedUp n := by
  rw [roundedUp_eq]
  exact Nat.pow_le_pow_right (by decide)
    (Nat.le_trans ((Nat.lt_clog_iff_pow_lt (by decide)).mpr hn) (Nat.le_max_right _ _))

/-- The loop of `dyn_array_create`. -/
theorem doubleUntil_request {n : Nat} (hn : n < 2 ^ 64) :
    doubleUntil n 64 16 = if roundedUp n < 2 ^ 64 then some (roundedUp n) else none := by
  rw [roundedUp_eq]
  exact doubleUntil_any hn 64 4 (by decide) (by decide)

/-! ## Creation -/

/-- The event is about the structure, not about the buffer. -/
def MemEvent.onStruct : MemEvent → Bool
  | .mallocBuffer _ => false
  | _ => true

/-- The structure is released exactly once, and that is the last thing done with it. -/
def Released (ev : List MemEvent) : Prop :=
  ev.count .freeStruct = 1 ∧ (ev.filter MemEvent.onStruct).getLast? = some .freeStruct

/-- `dyn_array_create` for `n` objects under the limit `M`, as it should be. -/
structure CreateLimit (M n : Nat) (mStruct : Bool) (mBuf : Alloc)
    (res : Option (Option DynArrayT × List MemEvent)) : Prop where
  refused : M < n ∨ M < roundedUp n →
    ∃ ev, res = some (none, ev) ∧ (mStruct = true → .mallocStruct ∈ ev → Released ev)
  made : n ≤ M → roundedUp n ≤ M → mStruct = true → mBuf ≠ none →
    ∃ a ev, res = some (some a, ev) ∧ n ≤ a.capacity ∧ a.capacity ≤ M

/-- `dyn_array_import` of `n` objects, likewise. -/
structure ImportLimit (M n : Nat) (mStruct : Bool) (mBuf : Alloc) (res : Option (Option DynArrayT)) :
    Prop where
  refused : M < n ∨ M < roundedUp n → res = some none
  made : n ≤ M → roundedUp n ≤ M → mStruct = true → mBuf ≠ none →
    ∃ a, res = some (some a) ∧ n ≤ a.capacity ∧ a.capacity ≤ M

/-- Rounding stays within a limit that the request respects, or there is no structure to spoil. -/
def RoundsWithin (M n : Nat) (mStruct : Bool) : Prop := mStruct = true → n ≤ M → roundedUp n ≤ M

section

variable {M n w : Nat} (hM : M < 2 ^ 64) (hn : n < 2 ^ 64) (hw : 0 < w) (d : Bool)

include hM hn hw

/-- Where rounding stays within the limit, the array has the rounded capacity. -/
theorem create_within (hle : n ≤ M) (hround : roundedUp n ≤ M) (junk : Msvl.Bytes.Block) :
    ∃ ev, dynArrayCreate M n w d true (some junk) =
      some (some (freshArray (roundedUp n) w d junk), ev) := by
  rw [dynArrayCreate, if_pos ⟨by omega, hle⟩, if_pos rfl, doubleUntil_request hn,
    if_pos (by omega)]
  exact ⟨_, rfl⟩

/-- **Creation** respects the limit exactly when rounding does. -/
theorem create_limit_iff (mStruct : Bool) (mBuf : Alloc) :
    CreateLimit M n mStruct mBuf (dynArrayCreate M n w d mStruct mBuf) ↔
      RoundsWithin M n mStruct := by
  constructor
  · rintro ⟨hrefused, -⟩ rfl hle
    by_contra hround
    obtain ⟨ev, hres, hrel⟩ := hrefused (Or.inr (by omega))
    rw [dynArrayCreate, if_pos ⟨by omega, hle⟩, if_pos rfl, doubleUntil_request hn] at hres
    by_cases hsmall : roundedUp n < 2 ^ 64
    · -- the structure is freed, and then written
      rw [if_pos hsmall, Option.map_some] at hres
      simp only [if_pos (show roundedUp n > M by omega)] at hres
      cases mBuf with
      | some junk => cases hres
      | none =>
        cases hres
        have htwice := (hrel rfl (by simp)).1
        simp at htwice
    · rw [if_neg hsmall] at hres
      cases hres
  · intro hround
    refine ⟨fun hover => ?_, fun hle hrle hs hb => ?_⟩
    · rw [dynArrayCreate]
      by_cases hle : n ≤ M
      · have hs : mStruct = false := by
          by_contra hs
          have := hround (by simpa using hs) hle
          omega
        rw [if_pos ⟨by omega, hle⟩, hs]
        exact ⟨_, rfl, by simp⟩
      · rw [if_neg (by omega)]
        exact ⟨_, rfl, fun _ => by simp⟩
    · obtain ⟨junk, rfl⟩ := Option.ne_none_iff_exists'.mp hb
      obtain ⟨ev, hev⟩ := create_within hM hn hw d hle hrle junk
      rw [hs, hev]
      exact ⟨_, ev, rfl, le_roundedUp n, hrle⟩

/-- **Import** respects it then, too. -/
theorem import_limit (hn0 : 0 < n) {mStruct : Bool} {mBuf : Alloc}
    (hround : RoundsWithin M n mStruct) (src : Source) (g : Alloc) :
    ImportLimit M n mStruct mBuf (dynArrayImport M (some src) n w d mStruct mBuf g) := by
  obtain ⟨hrefused, -⟩ := (create_limit_iff hM hn hw d mStruct mBuf).mpr hround
  refine ⟨fun hover => ?_, fun hle hrle hs hb => ?_⟩
  · obtain ⟨ev, hcreate, -⟩ := hrefused hover
    rw [dynArrayImport, if_pos ⟨rfl, hn0⟩, hcreate]
    rfl
  · obtain ⟨junk, rfl⟩ := Option.ne_none_iff_exists'.mp hb
    obtain ⟨ev, hcreate⟩ := create_within hM hn hw d hle hrle junk
    obtain ⟨m, hins⟩ := import_fits (M := M) (b := freshArray (roundedUp n) w d junk) rfl
      (le_roundedUp n) hn hn0 src g
    rw [dynArrayImport, if_pos ⟨rfl, hn0⟩, hs, hcreate, Option.bind_some]
    simp only [hins, Option.map_some, if_true]
    exact ⟨_, rfl, le_roundedUp n, hrle⟩

end

/-! ## One call -/

/-- What every array has between calls under the limit `M`. -/
structure Within (M : Nat) (a : DynArrayT) : Prop where
  size_le : a.size ≤ a.capacity
  pow_two : ∃ k, 4 ≤ k ∧ a.capacity = 2 ^ k
  capacity_le : a.capacity ≤ M

/-- The call inserts into a full array that the limit does not keep from growing. -/
def Op.Asks (M : Nat) (op : Op) (a : DynArrayT) : Prop :=
  op.Inserts a ∧ a.size = a.capacity ∧ a.capacity < M

/-- What one call does to the capacity under any limit. -/
inductive Grown (M : Nat) (op : Op) (g : Alloc) (a : DynArrayT) : Option Result → Prop where
  | kept {r : Result} (hcap : r.arr.capacity = a.capacity) (hsize : r.arr.size ≤ a.capacity)
      (hask : op.Asks M a → g = none ∧ 2 * a.capacity < 2 ^ 64) : Grown M op g a (some r)
  | doubled {r : Result} (hask : op.Asks M a) (hg : g ≠ none) (hcap : r.arr.capacity = 2 * a.capacity)
      (hsize : r.arr.size = a.size + 1) (hret : r.ret = true) : Grown M op g a (some r)
  /-- the doubling loop does not end -/
  | endless (hask : op.Asks M a) (hover : 2 ^ 64 ≤ 2 * a.capacity) : Grown M op g a none

section

variable {M : Nat} (hM : M < 2 ^ 64) {a : DynArrayT} (h : Within M a)

include hM h

/-- `dyn_request_size_increase` of a full array. -/
theorem requestSizeIncrease_any (hfull : a.size = a.capacity) (g : Alloc) :
    dynRequestSizeIncrease M a 1 g =
      if a.capacity < M then
        if 2 * a.capacity < 2 ^ 64 then
          match g with
          | some junk => some (true, doubled a junk)
          | none => some (false, a)
        else none
      else some (false, a) := by
  obtain ⟨k, hk4, hk⟩ := h.pow_two
  have hcap := h.capacity_le
  have hpos := Nat.two_pow_pos k
  have hsum : wrap (a.size + 1) = a.capacity + 1 := by
    rw [hfull]
    exact wrap_of_lt (by
      rcases Nat.lt_or_ge (a.capacity + 1) (2 ^ 64) with hlt | hge
      · exact hlt
      · -- a power of two is not `2 ^ 64 - 1`
        exfalso
        have hle : 2 ^ k ≤ 2 ^ 63 := by
          refine Nat.pow_le_pow_right (by decide) ?_
          have := (Nat.pow_lt_pow_iff_right (a := 2) (by decide)).mp (show 2 ^ k < 2 ^ 64 by omega)
          omega
        omega)
  rw [dynRequestSizeIncrease, hsum, if_neg (by omega)]
  by_cases hlt : a.capacity < M
  · rw [if_pos hlt, if_pos (by omega)]
    by_cases hsmall : 2 * a.capacity < 2 ^ 64
    · rw [if_pos hsmall, wrap_of_lt hsmall, doubleUntil_of_le (by omega)]
      cases g with
      | none => rfl
      | some junk => rfl
    · -- the only power of two whose double is too large
      have hk63 : k = 63 := by
        have hlt64 := (Nat.pow_lt_pow_iff_right (a := 2) (by decide)).mp (show 2 ^ k < 2 ^ 64 by omega)
        by_contra hne
        have hle : 2 ^ k ≤ 2 ^ 62 := Nat.pow_le_pow_right (by decide) (by omega)
        omega
      have hwrap : wrap (2 * a.capacity) = 0 := by
        rw [hk, hk63]
        decide
      rw [if_neg hsmall, hwrap, doubleUntil_zero (by omega)]
      rfl
  · rw [if_neg hlt, if_neg (by omega)]

/-- `dyn_shift_insert` of one object, for a call that means it. -/
theorem insert_grown {op : Op} {p : Nat} {src : Option Source} (g : Alloc)
    (hop : op.Inserts a ↔ src.isSome ∧ p ≤ a.size) :
    Grown M op g a (dynShiftInsert M a p 1 .insert src g) := by
  have hs := h.size_le
  have hc := h.capacity_le
  cases src with
  | none => exact .kept rfl hs fun hask => absurd (hop.mp hask.1).1 Bool.false_ne_true
  | some src =>
    rcases Nat.lt_or_ge a.size p with hp | hp
    · rw [dynShiftInsert_past g hp]
      exact .kept rfl hs fun hask => by have := (hop.mp hask.1).2; omega
    · rw [dynShiftInsert, if_pos ⟨by decide, rfl, hp⟩]
      rcases Nat.lt_or_ge a.size a.capacity with hfit | hge
      · have hsum : wrap (a.size + 1) = a.size + 1 := wrap_of_lt (by omega)
        rw [dynRequestSizeIncrease, hsum, if_pos (by omega), Option.map_some]
        simp only [if_true, hsum]
        exact .kept rfl hfit fun hask => by have := hask.2.1; omega
      · have hfull : a.size = a.capacity := by omega
        rw [requestSizeIncrease_any hM h hfull g]
        by_cases hlt : a.capacity < M
        · have hask : op.Asks M a := ⟨hop.mpr ⟨rfl, hp⟩, hfull, hlt⟩
          rw [if_pos hlt]
          by_cases hsmall : 2 * a.capacity < 2 ^ 64
          · rw [if_pos hsmall]
            cases g with
            | none => exact .kept rfl hs fun _ => ⟨rfl, hsmall⟩
            | some junk =>
              obtain ⟨k, -, hk⟩ := h.pow_two
              have hpos := Nat.two_pow_pos k
              have hsum : wrap ((doubled a junk).size + 1) = a.size + 1 :=
                wrap_of_lt (by show a.size + 1 < 2 ^ 64; omega)
              simp only [Option.map_some, if_true, hsum]
              exact .doubled hask (by simp) rfl rfl rfl
          · rw [if_neg hsmall]
            exact .endless hask (by omega)
        · rw [if_neg hlt]
          exact .kept rfl hs fun hask => absurd hask.2.2 hlt

/-- `dyn_shift_remove` keeps the capacity. -/
theorem remove_grown {op : Op} (g : Alloc) (hop : ¬ op.Inserts a) (p : Nat) {k : Nat}
    (mode : ShiftMode) (dst : Bool) (hk : a.size ≠ 0 → k ≤ a.size) :
    Grown M op g a (some (dynShiftRemove a p k mode dst)) := by
  have hs := h.size_le
  have hc := h.capacity_le
  have hkeep : ∃ m s d, (dynShiftRemove a p k mode dst).arr =
      { a with array := m, size := s, destructed := d } ∧ s ≤ a.capacity := by
    unfold dynShiftRemove
    split
    · rename_i hg
      have hsub : wrap (a.size + 2 ^ 64 - k) = a.size - k := wrap_sub (by omega) (hk hg.2.1)
      have hle : wrap (a.size + 2 ^ 64 - k) ≤ a.capacity := by omega
      split
      · split
        · exact ⟨_, _, _, rfl, hle⟩
        · exact ⟨_, _, _, rfl, hle⟩
      · split
        · exact ⟨_, _, _, rfl, hs⟩
        · exact ⟨_, _, _, rfl, hs⟩
    · exact ⟨_, _, _, rfl, hs⟩
  obtain ⟨m, s, d, harr, hle⟩ := hkeep
  exact .kept (by rw [harr]) (by rw [harr]; exact hle) fun hask => absurd hask.1 hop

/-- **One call**, under any limit. -/
theorem run_grown (op : Op) (g : Alloc) : Grown M op g a (op.run M g a) := by
  have hone : a.size ≠ 0 → 1 ≤ a.size := Nat.pos_of_ne_zero
  cases op with
  | pushFront object => exact insert_grown hM h g ⟨fun hs => ⟨hs, Nat.zero_le _⟩, fun hs => hs.1⟩
  | pushBack object => exact insert_grown hM h g ⟨fun hs => ⟨hs, Nat.le_refl _⟩, fun hs => hs.1⟩
  | insert i object => exact insert_grown hM h g Iff.rfl
  | insertSorted object compare =>
    cases object with
    | none => exact .kept rfl h.size_le fun hask => nomatch hask.1
    | some src =>
      have hp := sortedPosition_le a (src.elem a) compare a.size 0
      have hop : (Op.insertSorted (some src) compare).Inserts a ↔ (some src).isSome ∧
          sortedPosition a (src.elem a) compare a.size 0 ≤ a.size :=
        ⟨fun _ => ⟨rfl, by omega⟩, fun _ => rfl⟩
      exact insert_grown hM h g hop
  | popFront => exact remove_grown hM h g id _ _ _ hone
  | popBack => exact remove_grown hM h g id _ _ _ hone
  | erase i => exact remove_grown hM h g id _ _ _ hone
  | clear =>
    have hno : ¬ Op.clear.Inserts a := id
    have hgrown := remove_grown hM h g hno 0 .erase false fun _ => Nat.le_refl a.size
    show Grown M .clear g a (some { ret := true, arr := dynArrayClear a })
    unfold dynArrayClear
    split
    · generalize dynShiftRemove a 0 a.size .erase false = r at hgrown ⊢
      cases hgrown with
      | kept hcap hsize _ => exact .kept hcap hsize fun hask => hask.1.elim
      | doubled hask => exact hask.1.elim
    · exact .kept rfl h.size_le fun hask => hask.1.elim
  | extractFront dst => exact remove_grown hM h g id _ _ _ hone
  | extractBack dst => exact remove_grown hM h g id _ _ _ hone
  | extract i dst => exact remove_grown hM h g id _ _ _ hone

end

/-! ## Growth within the limit -/

/-- The call returns, and keeps to the limit or is refused and changes nothing. -/
def GrowthLimit (M : Nat) (a : DynArrayT) (res : Option Result) : Prop :=
  ∃ r, res = some r ∧ (r.arr.capacity ≤ M ∨ r.ret = false ∧ r.arr = a)

/-- Where the array is going to be doubled, its double is within the limit.  (Of `2 ^ 63` there is
    no double, whatever `realloc` would say.) -/
def DoublesWithin (M : Nat) (op : Op) (g : Alloc) (a : DynArrayT) : Prop :=
  op.Asks M a → g ≠ none ∨ 2 ^ 64 ≤ 2 * a.capacity → 2 * a.capacity ≤ M

theorem growth_limit_iff {M : Nat} (hM : M < 2 ^ 64) {a : DynArrayT} (h : Within M a) (op : Op)
    (g : Alloc) : GrowthLimit M a (op.run M g a) ↔ DoublesWithin M op g a := by
  have hgrown := run_grown hM h op g
  have hc := h.capacity_le
  generalize op.run M g a = res at hgrown
  cases hgrown with
  | @kept r hcap hsize hask =>
    refine ⟨fun _ hasks hd => ?_, fun _ => ⟨r, rfl, Or.inl (by omega)⟩⟩
    obtain ⟨hnone, hsmall⟩ := hask hasks
    rcases hd with hd | hd
    · exact absurd hnone hd
    · omega
  | @doubled r hask hg hcap hsize hret =>
    constructor
    · rintro ⟨_, hr, hlim⟩ _ _
      cases hr
      rcases hlim with hle | ⟨hno, -⟩
      · omega
      · rw [hret] at hno
        cases hno
    · intro hd
      exact ⟨r, rfl, Or.inl (by rw [hcap]; exact hd hask (Or.inl hg))⟩
  | endless hask hover =>
    constructor
    · rintro ⟨r, hr, -⟩
      cases hr
    · intro hd
      have := hd hask (Or.inr hover)
      omega

/-- The array stays as it has to be. -/
theorem Within.run {M : Nat} (hM : M < 2 ^ 64) {a : DynArrayT} (h : Within M a) {op : Op} {g : Alloc}
    (hd : DoublesWithin M op g a) {r : Result} (hr : op.run M g a = some r) : Within M r.arr := by
  have hgrown := run_grown hM h op g
  rw [hr] at hgrown
  obtain ⟨k, hk4, hk⟩ := h.pow_two
  cases hgrown with
  | kept hcap hsize _ =>
    exact ⟨by omega, ⟨k, hk4, hcap.trans hk⟩, by rw [hcap]; exact h.capacity_le⟩
  | doubled hask hg hcap hsize _ =>
    have hpos := Nat.two_pow_pos k
    have hs := h.size_le
    refine ⟨by omega, ⟨k + 1, by omega, ?_⟩, ?_⟩
    · rw [hcap, hk, Nat.pow_succ, Nat.mul_comm]
    · rw [hcap]
      exact hd hask (Or.inl hg)

/-! ## Runs -/

/-- A run that returns, every call of which keeps to the limit or is refused. -/
def RunLimit (M : Nat) (a : DynArrayT) (ops : List (Op × Alloc)) : Prop :=
  ∃ steps last, runOps M a ops = some (steps, last) ∧
    ∀ st ∈ steps, GrowthLimit M st.before (some st.res)

/-- Every doubling of the run stays within the limit. -/
def RunDoublesWithin (M : Nat) : DynArrayT → List (Op × Alloc) → Prop
  | _, [] => True
  | a, (op, g) :: rest =>
    DoublesWithin M op g a ∧ ∀ r, op.run M g a = some r → RunDoublesWithin M r.arr rest

/-- **One run**: by induction on the calls, with `Within` carried along. -/
theorem run_limit_iff {M : Nat} (hM : M < 2 ^ 64) : ∀ (ops : List (Op × Alloc)) (a : DynArrayT),
    Within M a → (RunLimit M a ops ↔ RunDoublesWithin M a ops)
  | [], a, _ => ⟨fun _ => trivial, fun _ => ⟨[], a, rfl, by simp⟩⟩
  | (op, g) :: rest, a, h => by
    constructor
    · rintro ⟨steps, last, hrun, hall⟩
      rw [runOps] at hrun
      obtain ⟨r, hr, hrun⟩ := Option.bind_eq_some_iff.mp hrun
      obtain ⟨⟨more, last'⟩, hmore, hrun⟩ := Option.map_eq_some_iff.mp hrun
      cases hrun
      have hd : DoublesWithin M op g a := by
        rw [← growth_limit_iff hM h, hr]
        exact hall ⟨op, g, a, r⟩ List.mem_cons_self
      refine ⟨hd, fun r' hr' => ?_⟩
      rw [hr] at hr'
      cases hr'
      exact (run_limit_iff hM rest r.arr (h.run hM hd hr)).mp
        ⟨more, last, hmore, fun st hst => hall st (List.mem_cons_of_mem _ hst)⟩
    · rintro ⟨hd, hrest⟩
      obtain ⟨r, hr, hlim⟩ := (growth_limit_iff hM h op g).mpr hd
      obtain ⟨more, last, hmore, hall⟩ :=
        (run_limit_iff hM rest r.arr (h.run hM hd hr)).mpr (hrest r hr)
      refine ⟨⟨op, g, a, r⟩ :: more, last, ?_, ?_⟩
      · rw [runOps, hr, Option.bind_some, hmore]
        rfl
      · intro st hst
        rcases List.mem_cons.mp hst with rfl | hst
        · exact ⟨r, rfl, hlim⟩
        · exact hall st hst

/-- An array that creation or import for `n` objects returns under the limit `M`. -/
def Returned (M n w : Nat) (d mStruct : Bool) (mBuf : Alloc) (a : DynArrayT) : Prop :=
  (∃ ev, dynArrayCreate M n w d mStruct mBuf = some (some a, ev)) ∨
    ∃ src g, dynArrayImport M (some src) n w d mStruct mBuf g = some (some a)

theorem Returned.within {M n w : Nat} (hM : M < 2 ^ 64) (hn : n < 2 ^ 64) (hw : 0 < w)
    {d mStruct : Bool} {mBuf : Alloc} (hround : RoundsWithin M n mStruct) {a : DynArrayT}
    (h : Returned M n w d mStruct mBuf a) : Within M a := by
  have hcreated : ∀ b ev, dynArrayCreate M n w d mStruct mBuf = some (some b, ev) →
      Within M b ∧ b.size = 0 ∧ n ≤ b.capacity := by
    intro b ev hb
    have hle : n ≤ M := by
      by_contra hle
      rw [dynArrayCreate, if_neg (by omega)] at hb
      cases hb
    cases mStruct with
    | false =>
      rw [dynArrayCreate, if_pos ⟨by omega, hle⟩] at hb
      cases hb
    | true =>
      have hrle := hround rfl hle
      cases mBuf with
      | none =>
        rw [dynArrayCreate, if_pos ⟨by omega, hle⟩, if_pos rfl, doubleUntil_request hn,
          if_pos (by omega)] at hb
        cases hb
      | some junk =>
        obtain ⟨ev', hev⟩ := create_within hM hn hw d hle hrle junk
        rw [hev] at hb
        cases hb
        exact ⟨⟨Nat.zero_le _, ⟨_, Nat.le_max_left _ _, roundedUp_eq n⟩, hrle⟩, rfl, le_roundedUp n⟩
  rcases h with ⟨ev, h⟩ | ⟨src, g, h⟩
  · exact (hcreated a ev h).1
  · rw [dynArrayImport] at h
    split at h
    · next hpos =>
      obtain ⟨⟨made, ev⟩, hb, h⟩ := Option.bind_eq_some_iff.mp h
      cases made with
      | none => cases h
      | some b =>
        obtain ⟨hwithin, hz, hcap⟩ := hcreated b ev hb
        obtain ⟨m, hins⟩ := import_fits (M := M) hz hcap hn hpos.2 src g
        simp only [hins, Option.map_some, if_true, Option.some.injEq] at h
        subst h
        exact ⟨hcap, hwithin.pow_two, hwithin.capacity_le⟩
    · cases h

/-- **The limit is respected** by creation, by import and by every run of calls on what they return
    exactly when rounding the request and every doubling stay within it. -/
theorem limit_respected_iff {M n w : Nat} (hM : M < 2 ^ 64) (hn : n < 2 ^ 64) (hw : 0 < w)
    (d mStruct : Bool) (mBuf : Alloc) (ops : List (Op × Alloc)) :
    (CreateLimit M n mStruct mBuf (dynArrayCreate M n w d mStruct mBuf) ∧
      (∀ src g, 0 < n →
        ImportLimit M n mStruct mBuf (dynArrayImport M (some src) n w d mStruct mBuf g)) ∧
      ∀ a, Returned M n w d mStruct mBuf a → RunLimit M a ops) ↔
    (RoundsWithin M n mStruct ∧
      ∀ a, Returned M n w d mStruct mBuf a → RunDoublesWithin M a ops) := by
  rw [create_limit_iff hM hn hw d mStruct mBuf]
  constructor
  · rintro ⟨hround, -, hruns⟩
    exact ⟨hround, fun a ha => (run_limit_iff hM ops a (ha.within hM hn hw hround)).mp (hruns a ha)⟩
  · rintro ⟨hround, hruns⟩
    exact ⟨hround, fun src g hn0 => import_limit hM hn hw d hn0 hround src g,
      fun a ha => (run_limit_iff hM ops a (ha.within hM hn hw hround)).mpr (hruns a ha)⟩

/-- A request of 20 under the limit 100: rounded to 32. -/
theorem limit_respected_twenty :
    CreateLimit 100 20 true (some fun _ => 0) (dynArrayCreate 100 20 1 false true (some fun _ => 0)) :=
  ((limit_respected_iff (M := 100) (n := 20) (w := 1) (by decide) (by decide) (by decide) false true
    (some fun _ => 0) []).mpr ⟨fun _ _ => Nat.le_trans (roundedUp_le (k := 5) (by decide) (by decide))
      (by decide), fun _ _ => trivial⟩).1

/-- A request of 17 under the limit 20 is rounded to 32: the structure is freed, then written and
    returned. -/
theorem freed_and_returned :
    ¬ CreateLimit 20 17 true (some fun _ => 0) (dynArrayCreate 20 17 1 false true (some fun _ => 0)) := by
  rintro ⟨hrefused, -⟩
  have hover : 20 < roundedUp 17 := Nat.lt_of_lt_of_le (by decide) (lt_roundedUp (k := 4) (by decide))
  obtain ⟨ev, hres, -⟩ := hrefused (Or.inr hover)
  cases hres

end Msvl.DynArray
