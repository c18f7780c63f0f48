/-
  How many bytes are asked of the allocator.

  `DYN_MAX_CAPACITY` is commented "in bytes" but compared with a count of objects, and the product
  `capacity * data_type_size` is formed without a check.

  * `Exact` — the bytes asked for are that product as integers, so that every element position
    lies inside the buffer; `exact_iff`: it holds exactly when the product fits into 64 bits;
  * `CreationLaw`, `GrowthLaw` — exact buffers, and products that do not fit refused;
  * `create_law_iff`, `growth_law_iff` — when one call keeps them;
  * `buffer_exact_iff` — the headline, over creation, import and whole runs.
-/
import LibMSVL.DynArray.Capacity
import Mathlib.Data.Nat.Log
import Mathlib.Order.MinMax

namespace Msvl.DynArray

open Msvl.Bytes

/-! ## Exact buffers -/

/-- The product of a capacity and an element width is a `size_t`. -/
def Fits (capacity w : Nat) : Prop := capacity * w < 2 ^ 64

instance (capacity w : Nat) : Decidable (Fits capacity w) := inferInstanceAs (Decidable (_ < _))

/-- The block was asked for with the exact size, and element positions lie inside it. -/
structure Exact (a : DynArrayT) : Prop where
  bytes_eq : a.bytes = a.capacity * a.dataTypeSize
  inside : ∀ i, i < a.capacity →
    dynArrayPosition a i = i * a.dataTypeSize ∧ i * a.dataTypeSize + a.dataTypeSize ≤ a.bytes

theorem exact_iff {a : DynArrayT} (h : Wf a) : Exact a ↔ Fits a.capacity a.dataTypeSize := by
  have hb := h.bytes_eq
  constructor
  · intro he
    have hlt := wrap_lt (a.capacity * a.dataTypeSize)
    have hbe := he.bytes_eq
    unfold Fits
    omega
  · intro hf
    rw [wrap_of_lt hf] at hb
    refine ⟨hb, fun i hi => ?_⟩
    have hle : (i + 1) * a.dataTypeSize ≤ a.capacity * a.dataTypeSize := Nat.mul_le_mul_right _ hi
    rw [Nat.add_mul, Nat.one_mul] at hle
    have hw := h.width_pos
    unfold Fits at hf
    exact ⟨wrap_of_lt (by omega), by omega⟩

/-- What `dyn_array_create` rounds a request to: the next power of two, 16 at least. -/
def roundedUp (n : Nat) : Nat := 2 ^ Nat.clog 2 (max 16 n)

/-- The loop computes exactly that power.  Induction on the rounds left. -/
theorem doubleUntil_clog {needed : Nat} (hn : needed ≤ 2 ^ 56) :
    ∀ fuel k, k ≤ 56 → 56 - k ≤ fuel →
      doubleUntil needed fuel (2 ^ k) = some (2 ^ Nat.clog 2 (max (2 ^ k) needed)) := by
  have hmax : ∀ k, Nat.clog 2 (max (2 ^ k) needed) = max k (Nat.clog 2 needed) := by
    intro k
    rw [Monotone.map_max (Nat.clog_monotone 2), Nat.clog_pow 2 k (by decide)]
  intro fuel
  induction fuel with
  | zero =>
    intro k hk hf
    obtain rfl : k = 56 := by omega
    rw [doubleUntil_of_le hn, Nat.max_eq_left hn, Nat.clog_pow 2 56 (by decide)]
  | succ fuel ih =>
    intro k hk hf
    rcases Nat.lt_or_ge (2 ^ k) needed with hlt | hge
    · have hclog : k < Nat.clog 2 needed := (Nat.lt_clog_iff_pow_lt (by decide)).mpr hlt
      have hk56 : k < 56 := by
        have := Nat.clog_le_of_le_pow hn
        omega
      have hpow : 2 * 2 ^ k = 2 ^ (k + 1) := by rw [Nat.pow_succ, Nat.mul_comm]
      have hsmall : 2 ^ (k + 1) < 2 ^ 64 := Nat.pow_lt_pow_right (by decide) (by omega)
      rw [doubleUntil, if_pos hlt, hpow, wrap_of_lt hsmall, ih (k + 1) (by omega) (by omega), hmax,
        hmax, Nat.max_eq_right (by omega), Nat.max_eq_right (by omega)]
    · rw [doubleUntil_of_le hge, Nat.max_eq_left hge, Nat.clog_pow 2 k (by decide)]

theorem doubleUntil_roundedUp {n : Nat} (hn : n ≤ dynMaxCapacity) :
    doubleUntil n 64 16 = some (roundedUp n) :=
  doubleUntil_clog hn 64 4 (by decide) (by decide)

/-! ## Creation -/

/-- Creating and importing as they should be: what is returned has an exact buffer, and a request
    whose product does not fit is refused. -/
structure CreationLaw (n w : Nat) (res : Option DynArrayT) : Prop where
  exact : ∀ a, res = some a → Exact a
  refused : ¬ Fits (roundedUp n) w → res = none

/-- A returned array has the rounded capacity; nothing is returned only if a `malloc` failed. -/
theorem dynArrayCreate_rounded {n w : Nat} (hn : n ≤ dynMaxCapacity) (hw : 0 < w) (d mStruct : Bool)
    (mBuf : Alloc) :
    ∃ res ev, dynArrayCreate dynMaxCapacity n w d mStruct mBuf = some (res, ev) ∧
      (∀ a, res = some a → a.capacity = roundedUp n) ∧ (res = none ↔ mStruct = false ∨ mBuf = none) := by
  rw [dynArrayCreate, if_pos ⟨by omega, hn⟩]
  cases mStruct with
  | false => exact ⟨none, _, rfl, nofun, ⟨fun _ => .inl rfl, fun _ => rfl⟩⟩
  | true =>
    rw [if_pos rfl, doubleUntil_roundedUp hn]
    cases mBuf with
    | none => exact ⟨none, _, rfl, nofun, ⟨fun _ => .inr rfl, fun _ => rfl⟩⟩
    | some junk =>
      refine ⟨some (freshArray (roundedUp n) w d junk), _, rfl, fun a ha => ?_, ⟨nofun, ?_⟩⟩
      · obtain rfl := Option.some.inj ha
        rfl
      · rintro (hf | hf)
        · exact nomatch hf
        · exact nomatch hf

theorem creationLaw_iff {n w : Nat} {res : Option DynArrayT} {failed : Prop}
    (hres : ∀ a, res = some a → Wf a ∧ a.dataTypeSize = w ∧ a.capacity = roundedUp n)
    (hnone : res = none ↔ failed) : CreationLaw n w res ↔ Fits (roundedUp n) w ∨ failed := by
  constructor
  · intro hlaw
    by_cases hf : Fits (roundedUp n) w
    · exact .inl hf
    · exact .inr (hnone.mp (hlaw.refused hf))
  · rintro (hf | hf)
    · refine ⟨fun a ha => ?_, fun hno => absurd hf hno⟩
      obtain ⟨hwf, hw, hcap⟩ := hres a ha
      rw [exact_iff hwf, hw, hcap]
      exact hf
    · rw [hnone.mpr hf]
      exact ⟨nofun, fun _ => rfl⟩

/-- **Creation**: lawful exactly when the product fits or the allocator gives nothing. -/
theorem create_law_iff {n w : Nat} (hn : n ≤ dynMaxCapacity) (hw : 0 < w) (d mStruct : Bool)
    (mBuf : Alloc) :
    ∃ res ev, dynArrayCreate dynMaxCapacity n w d mStruct mBuf = some (res, ev) ∧
      (CreationLaw n w res ↔ Fits (roundedUp n) w ∨ mStruct = false ∨ mBuf = none) := by
  obtain ⟨res, ev, hrun, hcap, hnone⟩ := dynArrayCreate_rounded hn hw d mStruct mBuf
  refine ⟨res, ev, hrun, creationLaw_iff (fun a ha => ?_) hnone⟩
  subst ha
  obtain ⟨hwf, -, hwidth, -⟩ := dynArrayCreate_spec hrun
  exact ⟨hwf, hwidth, hcap a rfl⟩

/-- An array has the capacity it was asked for, rounded up. -/
theorem Asked.capacity_eq {n w : Nat} {a : DynArrayT} (hn : n ≤ dynMaxCapacity) (hw : 0 < w)
    (h : Asked n w a) : a.capacity = roundedUp n := by
  have hcreate : ∀ {d mStruct mBuf b ev},
      dynArrayCreate dynMaxCapacity n w d mStruct mBuf = some (some b, ev) → b.capacity = roundedUp n := by
    intro d mStruct mBuf b ev hb
    obtain ⟨res, ev', hrun, hcap, -⟩ := dynArrayCreate_rounded hn hw d mStruct mBuf
    rw [hrun] at hb
    exact hcap b (congrArg Prod.fst (Option.some.inj hb))
  cases h with
  | created h => exact hcreate h
  | @imported data d mStruct mBuf g _ h =>
    obtain ⟨res, hrun, hres⟩ := dynArrayImport_returns data n w d mStruct mBuf g
    obtain ⟨b, ev, m, hb, -, rfl⟩ := hres a (Option.some.inj (hrun.symm.trans h))
    exact show b.capacity = _ from hcreate hb

theorem import_law_iff {n w : Nat} (hn : n ≤ dynMaxCapacity) (hw : 0 < w) (hn0 : 0 < n) (src : Source)
    (d mStruct : Bool) (mBuf g : Alloc) :
    ∃ res, dynArrayImport dynMaxCapacity (some src) n w d mStruct mBuf g = some res ∧
      (CreationLaw n w res ↔ Fits (roundedUp n) w ∨ mStruct = false ∨ mBuf = none) := by
  obtain ⟨res, hrun, -⟩ := dynArrayImport_returns (some src) n w d mStruct mBuf g
  refine ⟨res, hrun, creationLaw_iff (fun a ha => ?_) ?_⟩
  · have hask : Asked n w a := .imported (ha ▸ hrun)
    exact ⟨hask.spec.1, hask.spec.2.1, hask.capacity_eq hn hw⟩
  · -- the import fails exactly when the creation does
    obtain ⟨made, ev, hcreate, -, hnone⟩ := dynArrayCreate_rounded hn hw d mStruct mBuf
    rw [← hnone]
    rw [dynArrayImport, if_pos ⟨rfl, hn0⟩, hcreate, Option.bind_some] at hrun
    cases made with
    | none =>
      obtain rfl := Option.some.inj hrun
      exact ⟨fun _ => rfl, fun _ => rfl⟩
    | some b =>
      obtain ⟨-, -, -, -, -, hz, hcap⟩ := dynArrayCreate_spec hcreate
      obtain ⟨m, hins⟩ := import_fits (M := dynMaxCapacity) hz hcap
        (Nat.lt_of_le_of_lt hn (by decide)) hn0 src g
      simp only [hins, Option.map_some, if_true, Option.some.injEq] at hrun
      subst hrun
      exact ⟨nofun, nofun⟩

/-! ## Growth -/

/-- An insertion as it should be: a buffer that grew is exact, growth whose product does not fit
    is refused, and what is refused leaves the array as it was. -/
structure GrowthLaw (op : Op) (a : DynArrayT) (r : Result) : Prop where
  exact : r.arr.capacity ≠ a.capacity → Exact r.arr
  refused : op.Grows a → ¬ Fits (2 * a.capacity) a.dataTypeSize → r.ret = false
  unchanged : r.ret = false → r.arr = a

/-- The call does not grow the array, or the doubled product fits, or `realloc` gives nothing. -/
def GrowthFits (op : Op) (g : Alloc) (a : DynArrayT) : Prop :=
  op.Grows a → Fits (2 * a.capacity) a.dataTypeSize ∨ g = none

/-- **One call** keeps the law exactly under that condition. -/
theorem growth_law_iff {op : Op} {g : Alloc} {a : DynArrayT} {r : Result} (h : Wf a)
    (ht : Touched op g a r) : GrowthLaw op a r ↔ GrowthFits op g a := by
  have hwf := ht.wf h
  cases ht with
  | kept m s d harr _ _ hret hgrows =>
    refine ⟨fun _ hg => .inr (hgrows hg).1, fun _ => ⟨fun hne => ?_, fun hg _ => (hgrows hg).2, hret⟩⟩
    rw [harr] at hne
    exact absurd rfl hne
  | grown junk m hg hgrows =>
    constructor
    · intro hlaw _
      by_cases hf : Fits (2 * a.capacity) a.dataTypeSize
      · exact .inl hf
      · exact nomatch hlaw.refused hgrows hf
    · intro hfits
      have hf : Fits (2 * a.capacity) a.dataTypeSize := by
        rcases hfits hgrows with hf | hnone
        · exact hf
        · rw [hg] at hnone
          exact nomatch hnone
      exact ⟨fun _ => (exact_iff hwf).mpr hf, fun _ hno => absurd hf hno, nofun⟩

/-- A call under the condition leaves an exact buffer exact. -/
theorem Touched.exact {op : Op} {g : Alloc} {a : DynArrayT} {r : Result} (ht : Touched op g a r)
    (h : Wf a) (he : Exact a) (hfits : GrowthFits op g a) : Exact r.arr := by
  have hlaw := (growth_law_iff h ht).mpr hfits
  by_cases hcap : r.arr.capacity = a.capacity
  · have hwf := ht.wf h
    cases ht with
    | kept m s d harr _ _ _ _ =>
      rw [exact_iff hwf, harr]
      exact (exact_iff h).mp he
    | grown junk m _ hgrows =>
      -- a doubled capacity is not the same one
      obtain ⟨k, -, -, hk⟩ := h.pow_two
      have hpos := Nat.two_pow_pos k
      have hcap : 2 * a.capacity = a.capacity := hcap
      omega
  · exact hlaw.exact hcap

/-! ## Runs -/

theorem first_mem_statesOf {a last : DynArrayT} {steps : List Step} :
    ∀ {ops : List (Op × Alloc)}, runOps dynMaxCapacity a ops = some (steps, last) →
      a ∈ statesOf steps last
  | [], hrun => by
    obtain ⟨rfl, rfl⟩ := Prod.mk.inj (Option.some.inj hrun)
    exact List.mem_singleton.mpr rfl
  | (op, g) :: rest, hrun => by
    obtain ⟨r, -, hrun⟩ := Option.bind_eq_some_iff.mp hrun
    obtain ⟨⟨steps', last'⟩, -, heq⟩ := Option.map_eq_some_iff.mp hrun
    obtain ⟨rfl, rfl⟩ := Prod.mk.inj heq
    exact List.mem_cons_self

/-- **One run** whose growing calls all meet the condition keeps every buffer exact. -/
theorem runOps_exact : ∀ (ops : List (Op × Alloc)) (a : DynArrayT), Wf a → Exact a →
    ∀ steps last, runOps dynMaxCapacity a ops = some (steps, last) →
      (∀ st ∈ steps, GrowthFits st.op st.alloc st.before) → ∀ b ∈ statesOf steps last, Exact b
  | [], a, _, he, steps, last, hrun, _ => by
    obtain ⟨rfl, rfl⟩ := Prod.mk.inj (Option.some.inj hrun)
    intro b hb
    obtain rfl := List.mem_singleton.mp hb
    exact he
  | (op, g) :: rest, a, h, he, steps, last, hrun, hfits => by
    obtain ⟨r, hr, ht⟩ := run_touched h op g
    rw [runOps, hr, Option.bind_some] at hrun
    obtain ⟨⟨steps', last'⟩, hrest, heq⟩ := Option.map_eq_some_iff.mp hrun
    obtain ⟨rfl, rfl⟩ := Prod.mk.inj heq
    have hone := hfits _ List.mem_cons_self
    have hall := runOps_exact rest r.arr (ht.wf h) (ht.exact h he hone) steps' last' hrest
      fun st hst => hfits st (List.mem_cons_of_mem _ hst)
    intro b hb
    rcases List.mem_cons.mp hb with rfl | hb
    · exact he
    · exact hall b hb

/-- **Buffers are exact exactly when the products fit.**  Creating and importing keep the law iff
    the rounded capacity times the width is a `size_t` or the allocator gives nothing; a run from
    what they return has exact buffers throughout and grows lawfully iff that product fits and so
    does the doubled one at every growth the allocator grants. -/
theorem buffer_exact_iff {n w : Nat} (hn : n ≤ dynMaxCapacity) (hw : 0 < w) :
    (∀ d mStruct mBuf, ∃ res ev, dynArrayCreate dynMaxCapacity n w d mStruct mBuf = some (res, ev) ∧
      (CreationLaw n w res ↔ Fits (roundedUp n) w ∨ mStruct = false ∨ mBuf = none)) ∧
    (0 < n → ∀ src d mStruct mBuf g,
      ∃ res, dynArrayImport dynMaxCapacity (some src) n w d mStruct mBuf g = some res ∧
        (CreationLaw n w res ↔ Fits (roundedUp n) w ∨ mStruct = false ∨ mBuf = none)) ∧
    ∀ a, Asked n w a → ∀ ops, ∃ steps last, runOps dynMaxCapacity a ops = some (steps, last) ∧
      ((∀ b ∈ statesOf steps last, Exact b) ∧ (∀ st ∈ steps, GrowthLaw st.op st.before st.res) ↔
        Fits (roundedUp n) w ∧ ∀ st ∈ steps, GrowthFits st.op st.alloc st.before) := by
  refine ⟨create_law_iff hn hw, import_law_iff hn hw, fun a ha ops => ?_⟩
  obtain ⟨hwf, hwidth, -⟩ := ha.spec
  have hcap := ha.capacity_eq hn hw
  have hfirst : Exact a ↔ Fits (roundedUp n) w := by rw [exact_iff hwf, hwidth, hcap]
  obtain ⟨steps, last, hrun, -, -, hall⟩ := runOps_touched ops a hwf
  refine ⟨steps, last, hrun, ?_⟩
  constructor
  · rintro ⟨hex, hlaw⟩
    exact ⟨hfirst.mp (hex a (first_mem_statesOf hrun)),
      fun st hst => (growth_law_iff (hall st hst).1 (hall st hst).2).mp (hlaw st hst)⟩
  · rintro ⟨hf, hfits⟩
    exact ⟨runOps_exact ops a hwf (hfirst.mpr hf) steps last hrun hfits,
      fun st hst => (growth_law_iff (hall st hst).1 (hall st hst).2).mpr (hfits st hst)⟩

/-- Sixteen objects of one byte: both laws hold of the creation. -/
theorem buffer_exact_bytes :
    ∃ res ev, dynArrayCreate dynMaxCapacity 16 1 false true (some fun _ => 0) = some (res, ev) ∧
      (CreationLaw 16 1 res ↔ Fits (roundedUp 16) 1 ∨ true = false ∨ (some fun _ => 0 : Alloc) = none) :=
  (buffer_exact_iff (n := 16) (w := 1) (by decide) (by decide)).1 false true (some fun _ => 0)

/-- The largest capacity for objects of 256 bytes: the product is `2 ^ 64`, `malloc` is asked for
    no bytes at all, and the array is returned. -/
theorem wrapped_buffer :
    ∃ a ev, dynArrayCreate dynMaxCapacity (2 ^ 56) 256 false true (some fun _ => 0) = some (some a, ev) ∧
      a.bytes = 0 ∧ a.capacity * a.dataTypeSize = 2 ^ 64 ∧ ¬ CreationLaw (2 ^ 56) 256 (some a) := by
  refine ⟨freshArray (2 ^ 56) 256 false fun _ => 0, _, rfl, by decide, by decide, fun hlaw => ?_⟩
  exact absurd (hlaw.exact _ rfl).bytes_eq (by decide)

end Msvl.DynArray
