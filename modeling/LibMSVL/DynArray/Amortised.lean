/-
  What growing costs over a whole run.

  A call that finds the buffer full has `realloc` carry the old buffer over into one of twice the
  capacity; every other call leaves the buffer where it is.  A single push can therefore cost as much
  as the whole array, yet a run of calls cannot: the capacities passed on the way are a geometric
  series, and each doubling is preceded by as many insertions as it carries elements over.

  * `Step.copied`, `Step.stored` — the two sides of the account;
  * `Paid` — the account of a run.  The capacity itself is the potential: it goes up by exactly what
    was carried over, and it never gets past twice what was stored;
  * `run_size_le` — one call adds one element at most; `paid_cons` — one call before a run;
  * `growth_amortised` — the headline.
-/
import LibMSVL.DynArray.Capacity
import Mathlib.Algebra.GroupWithZero.Nat

namespace Msvl.DynArray

/-! ## The account -/

/-- `realloc` gave a larger buffer. -/
def Step.grew (st : Step) : Bool := st.before.capacity != st.res.arr.capacity

/-- The elements `realloc` carried over: all that the old buffer had room for. -/
def Step.copied (st : Step) : Nat := if st.grew then st.before.capacity else 0

/-- The call left an element more. -/
def Step.stored (st : Step) : Bool := st.before.size < st.res.arr.size

/-- The account of a run that begins with `a` and ends with `last`. -/
structure Paid (a : DynArrayT) (steps : List Step) (last : DynArrayT) : Prop where
  copied : a.capacity + (steps.map Step.copied).sum = last.capacity
  doubled : last.capacity = a.capacity * 2 ^ steps.countP Step.grew
  size_le : last.size ≤ a.size + steps.countP Step.stored
  asked : last.capacity = a.capacity ∨ last.capacity < 2 * (a.size + steps.countP Step.stored)

/-! ## One call -/

theorem wrap_le (n : Nat) : wrap n ≤ n := Nat.mod_le n _

theorem requestSizeIncrease_size {M k : Nat} {a b : DynArrayT} {g : Alloc} {ok : Bool}
    (h : dynRequestSizeIncrease M a k g = some (ok, b)) : b.size = a.size := by
  rw [dynRequestSizeIncrease] at h
  by_cases hfit : wrap (a.size + k) ≤ a.capacity
  · rw [if_pos hfit] at h
    obtain rfl := congrArg Prod.snd (Option.some.inj h)
    rfl
  · by_cases hM : wrap (a.size + k) ≤ M
    · simp only [if_neg hfit, if_pos hM] at h
      obtain ⟨c, -, hc⟩ := Option.map_eq_some_iff.mp h
      cases g with
      | some junk =>
        obtain rfl := congrArg Prod.snd hc
        rfl
      | none =>
        obtain rfl := congrArg Prod.snd hc
        rfl
    · simp only [if_neg hfit, if_neg hM] at h
      obtain rfl := congrArg Prod.snd (Option.some.inj h)
      rfl

/-- An insertion of one adds one at most. -/
theorem dynShiftInsert_size {M p : Nat} {a : DynArrayT} {mode : ShiftMode} {src : Option Source}
    {g : Alloc} {r : Result} (h : dynShiftInsert M a p 1 mode src g = some r) :
    r.arr.size ≤ a.size + 1 := by
  unfold dynShiftInsert at h
  split at h
  · obtain rfl := Option.some.inj h
    exact Nat.le_succ a.size
  · split at h
    · obtain ⟨⟨ok, b⟩, hreq, hr⟩ := Option.map_eq_some_iff.mp h
      have hb := requestSizeIncrease_size hreq
      subst hr
      cases ok with
      | true =>
        show wrap (b.size + 1) ≤ a.size + 1
        rw [hb]
        exact wrap_le _
      | false =>
        show b.size ≤ a.size + 1
        omega
    · obtain rfl := Option.some.inj h
      exact Nat.le_succ a.size

/-- A removal adds none. -/
theorem dynShiftRemove_size {p k : Nat} {a : DynArrayT} {mode : ShiftMode} {dst : Bool}
    (hs : a.size < 2 ^ 64) (hk : a.size ≠ 0 → k ≤ a.size) :
    (dynShiftRemove a p k mode dst).arr.size ≤ a.size := by
  unfold dynShiftRemove
  split
  · rename_i hg
    have hsub : wrap (a.size + 2 ^ 64 - k) ≤ a.size := by
      rw [wrap_sub hs (hk hg.2.1)]
      exact Nat.sub_le _ _
    split
    · split
      · exact hsub
      · exact hsub
    · split
      · exact Nat.le_refl _
      · exact Nat.le_refl _
  · exact Nat.le_refl _

theorem run_size_le {M : Nat} {a : DynArrayT} (h : Wf a) {op : Op} {g : Alloc} {r : Result}
    (hrun : op.run M g a = some r) : r.arr.size ≤ a.size + 1 := by
  have hone : a.size ≠ 0 → 1 ≤ a.size := Nat.pos_of_ne_zero
  have hrem : ∀ {p k mode dst}, (a.size ≠ 0 → k ≤ a.size) →
      (dynShiftRemove a p k mode dst).arr.size ≤ a.size + 1 := fun hk =>
    Nat.le_succ_of_le (dynShiftRemove_size h.size_lt hk)
  cases op with
  | pushFront object => exact dynShiftInsert_size hrun
  | pushBack object => exact dynShiftInsert_size hrun
  | insert i object => exact dynShiftInsert_size hrun
  | insertSorted object compare =>
    cases object with
    | none =>
      obtain rfl := Option.some.inj hrun
      exact Nat.le_succ a.size
    | some src =>
      change dynShiftInsert M a _ 1 .insert (some src) g = some r at hrun
      exact dynShiftInsert_size hrun
  | clear =>
    obtain rfl := Option.some.inj hrun
    show (dynArrayClear a).size ≤ a.size + 1
    unfold dynArrayClear
    split
    · exact hrem fun _ => Nat.le_refl _
    · exact Nat.le_succ a.size
  | popFront => exact Option.some.inj hrun ▸ hrem hone
  | popBack => exact Option.some.inj hrun ▸ hrem hone
  | erase i => exact Option.some.inj hrun ▸ hrem hone
  | extractFront dst => exact Option.some.inj hrun ▸ hrem hone
  | extractBack dst => exact Option.some.inj hrun ▸ hrem hone
  | extract i dst => exact Option.some.inj hrun ▸ hrem hone

/-! ## Runs -/

theorem Paid.nil (a : DynArrayT) : Paid a [] a where
  copied := rfl
  doubled := (Nat.mul_one a.capacity).symm
  size_le := Nat.le_refl _
  asked := .inl rfl

/-- **One call before a run.**  The buffer was kept, and the account is that of the rest; or it was
    full, and what `realloc` carried over is the size it had. -/
theorem paid_cons {op : Op} {g : Alloc} {a last : DynArrayT} {r : Result} {steps : List Step}
    (hpos : 0 < a.capacity) (ht : Touched op g a r) (hsize : r.arr.size ≤ a.size + 1)
    (h : Paid r.arr steps last) :
    Paid a (⟨op, g, a, r⟩ :: steps) last := by
  have hstored : r.arr.size ≤ a.size + if a.size < r.arr.size then 1 else 0 := by
    split <;> omega
  have hcount : (Step.mk op g a r :: steps).countP Step.stored =
      steps.countP Step.stored + if a.size < r.arr.size then 1 else 0 := by
    rw [List.countP_cons]
    simp only [Step.stored, decide_eq_true_eq]
  have hle : last.size ≤ a.size + (Step.mk op g a r :: steps).countP Step.stored := by
    have := h.size_le
    omega
  cases ht with
  | kept m s d harr _ _ _ _ =>
    have hcap : r.arr.capacity = a.capacity := by rw [harr]
    have hno : Step.grew ⟨op, g, a, r⟩ = false := by simp [Step.grew, hcap]
    refine ⟨?_, ?_, hle, ?_⟩
    · rw [List.map_cons, List.sum_cons, Step.copied, hno, ← hcap]
      simpa using h.copied
    · rw [List.countP_cons, hno, ← hcap]
      exact h.doubled
    · rw [hcount, ← hcap]
      refine h.asked.imp_right fun hlt => ?_
      omega
  | grown junk m _ hgrows =>
    have hfull := hgrows.2.1
    have hyes : Step.grew ⟨op, g, a, ⟨true, { doubled a junk with array := m, size := a.size + 1 }, none⟩⟩
        = true := by
      refine bne_iff_ne.mpr fun heq => ?_
      have heq : a.capacity = 2 * a.capacity := heq
      omega
    refine ⟨?_, ?_, hle, .inr ?_⟩
    · have hcopied := h.copied
      rw [List.map_cons, List.sum_cons, Step.copied, if_pos hyes, ← hcopied]
      show a.capacity + (a.capacity + _) = 2 * a.capacity + _
      omega
    · rw [List.countP_cons, if_pos hyes, h.doubled, Nat.pow_succ]
      show 2 * a.capacity * _ = _
      rw [Nat.mul_comm 2, Nat.mul_assoc, Nat.mul_comm 2]
    · -- the elements carried over are those there were
      rw [hcount, if_pos (Nat.lt_succ_self a.size)]
      rcases h.asked with heq | hlt
      · have heq : last.capacity = 2 * a.capacity := heq
        omega
      · have hlt : last.capacity < 2 * (a.size + 1 + steps.countP Step.stored) := hlt
        omega

/-- **One run**: the account of every run of calls.  Induction on the calls. -/
theorem runOps_paid : ∀ (ops : List (Op × Alloc)) (a : DynArrayT), Wf a →
    ∃ steps last, runOps dynMaxCapacity a ops = some (steps, last) ∧ Wf last ∧ Paid a steps last
  | [], a, h => ⟨[], a, rfl, h, .nil a⟩
  | (op, g) :: rest, a, h => by
    obtain ⟨r, hrun, ht⟩ := run_touched h op g
    obtain ⟨steps, last, hsteps, hlast, hpaid⟩ := runOps_paid rest r.arr (ht.wf h)
    refine ⟨⟨op, g, a, r⟩ :: steps, last, ?_, hlast, paid_cons ?_ ht (run_size_le h hrun) hpaid⟩
    · rw [runOps, hrun, Option.bind_some, hsteps]
      rfl
    · have hge := (h.bounded (Nat.zero_le a.capacity)).capacity_ge
      omega

/-- **Growth is paid for by the insertions.**  From every array created or imported, over every run of
    calls and every pattern of answers of the allocator:

    1. the elements carried over by `realloc`, all calls together, make up the growth of the capacity;
    2. the capacity is the first one, doubled once for each `realloc` that gave a buffer, of which a
       run of any length has 52 at most;
    3. either it never grew, or it is below twice the elements there were and were stored since;
    4. so the run copies two elements for each one stored at most, and those there were. -/
theorem growth_amortised {n w : Nat} {a : DynArrayT} (ha : Asked n w a) (ops : List (Op × Alloc)) :
    ∃ steps last, runOps dynMaxCapacity a ops = some (steps, last) ∧ Paid a steps last ∧
      steps.countP Step.grew ≤ 52 ∧
      (steps.map Step.copied).sum ≤ a.size + 2 * steps.countP Step.stored := by
  obtain ⟨hwf, -, -⟩ := ha.spec
  obtain ⟨steps, last, hrun, hlast, hpaid⟩ := runOps_paid ops a hwf
  refine ⟨steps, last, hrun, hpaid, ?_, ?_⟩
  · have hge := (hwf.bounded (Nat.zero_le a.capacity)).capacity_ge
    have hle := hlast.capacity_le
    have hpow : 2 ^ (4 + steps.countP Step.grew) ≤ 2 ^ 56 := by
      rw [Nat.pow_add]
      calc 2 ^ 4 * 2 ^ steps.countP Step.grew ≤ a.capacity * 2 ^ steps.countP Step.grew :=
            Nat.mul_le_mul_right _ hge
        _ = last.capacity := hpaid.doubled.symm
        _ ≤ 2 ^ 56 := hle
    have := (Nat.pow_le_pow_iff_right (by decide)).mp hpow
    omega
  · have hcopied := hpaid.copied
    have hsize := hwf.size_le
    rcases hpaid.asked with heq | hlt
    · omega
    · omega

/-- Seventeen pushes onto sixteen places: one doubling, sixteen elements carried over. -/
theorem growth_amortised_seventeen :
    ∃ steps last, runOps dynMaxCapacity (freshArray 16 1 false fun _ => 0)
        (List.replicate 17 (.pushBack (some (.outside fun _ => 7)), some fun _ => 0)) = some (steps, last) ∧
      Paid (freshArray 16 1 false fun _ => 0) steps last ∧ steps.countP Step.grew ≤ 52 ∧
      (steps.map Step.copied).sum ≤ 0 + 2 * steps.countP Step.stored :=
  growth_amortised
    (.created (show dynArrayCreate dynMaxCapacity 16 1 false true (some fun _ => 0) = _ from rfl)) _

end Msvl.DynArray
