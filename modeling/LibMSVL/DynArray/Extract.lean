/-
  Extraction and the ownership of elements.

  `dyn_array.h` says of the extract family: "Removes the object … and places it at the desired
  location.  Does not destruct the object since it is returned to the user".  `dyn_shift_remove`
  copies the element and RETURNS before the removal: the closing `memmove` and the update of `size`
  stand after the `return true;` of the EXTRACT branch.

  * `Handover` — the documented effect of extracting element `i`;
  * `handover_iff` — the code has it exactly when no destination is given (nothing is copied then);
  * `Owned` — the consequence for a run that ends in `dyn_array_destroy`: every inserted element is
    handed out or destructed, once;
  * `runOps_ledger` — what the code does guarantee: every inserted element is destructed once,
    handed out or not.  Hence `Owned` fails as soon as one extraction succeeds.
-/
import LibMSVL.DynArray.Refine

namespace Msvl.DynArray

open Msvl.Bytes

/-! ## One extraction -/

/-- Element `i` is handed over: to a given destination it is copied and leaves the array without
    being destructed; without one nothing happens. -/
structure Handover (a : DynArrayT) (i : Nat) (dst : Bool) (r : Result) : Prop where
  given : dst = true → r.ret = true ∧ r.out = some (record a.array a.dataTypeSize i) ∧
    r.arr.destructed = a.destructed ∧ r.arr.size = a.size - 1 ∧
    contents r.arr = (contents a).eraseIdx i
  null : dst = false → r.ret = false ∧ r.out = none ∧ r.arr = a

/-- `dyn_shift_remove` in mode EXTRACT, in bounds: the array is returned as it is. -/
theorem dynShiftRemove_extract {a : DynArrayT} (h : Wf a) (hr : Roomy a) {i : Nat} (dst : Bool)
    (hi : i < a.size) :
    dynShiftRemove a i 1 .extract dst =
      { ret := dst, arr := a, out := if dst then some (record a.array a.dataTypeSize i) else none } := by
  have hs := h.size_le
  have hc := h.capacity_le
  have hsum : wrap (i + 1) = i + 1 := wrap_of_lt (by omega)
  have hn : wrap (a.dataTypeSize * 1) = a.dataTypeSize := by
    have := sizeNElems_eq h hr (n := 1) (by omega)
    rwa [dynSizeNElems, Nat.one_mul] at this
  rw [dynShiftRemove, if_pos ⟨by decide, by omega, by decide, by rw [hsum]; exact hi⟩,
    if_neg (by decide), hn, position_eq h hr (by omega)]
  cases dst <;> rfl

/-- A successful extraction would have to shrink an array that it leaves alone. -/
theorem handover_iff {a : DynArrayT} (h : Wf a) (hr : Roomy a) {i : Nat} (dst : Bool)
    (hi : i < a.size) : Handover a i dst (dynShiftRemove a i 1 .extract dst) ↔ dst = false := by
  rw [dynShiftRemove_extract h hr dst hi]
  cases dst with
  | false => exact ⟨fun _ => rfl, fun _ => ⟨fun hf => by simp at hf, fun _ => ⟨rfl, rfl, rfl⟩⟩⟩
  | true =>
    refine ⟨fun hh => ?_, fun hf => by simp at hf⟩
    have hsize : a.size = a.size - 1 := (hh.given rfl).2.2.2.1
    omega

/-! ## Runs with extractions -/

/-- The calls in question: outside objects, indices in range. -/
def Op.InRange (op : Op) (a : DynArrayT) : Prop :=
  match op with
  | .pushFront object | .pushBack object | .insert _ object | .insertSorted object _ =>
    ∀ o ∈ object, o.External
  | .erase i | .extract i _ => i < a.size
  | .popFront | .popBack | .clear | .extractFront _ | .extractBack _ => True

/-- The call extracts and is given a destination. -/
def Op.Destination : Op → Prop
  | .extractFront dst | .extractBack dst | .extract _ dst => dst = true
  | _ => False

/-- The elements a call puts into the array. -/
def Step.inserted (st : Step) : List Elem :=
  match st.res.ret, st.op with
  | true, .pushFront (some o) | true, .pushBack (some o) | true, .insert _ (some o)
  | true, .insertSorted (some o) _ => [o.bytes st.before.dataTypeSize]
  | _, _ => []

/-- The elements of a run, by fate: `steps` is the run, `last` the array it leaves, which is then
    destroyed. -/
def Owned (l : List Elem) (steps : List Step) (last : DynArrayT) : Prop :=
  (l ++ steps.flatMap Step.inserted).Perm
    (steps.flatMap (fun st => st.res.out.toList) ++ (dynArrayDestroy last).destructed)

/-! ## What is handed out -/

theorem dynShiftInsert_out {M : Nat} {a : DynArrayT} {p n : Nat} {mode : ShiftMode}
    {src : Option Source} {g : Alloc} {r : Result} (hrun : dynShiftInsert M a p n mode src g = some r) :
    r.out = none := by
  cases src with
  | none =>
    cases hrun
    rfl
  | some src =>
    rw [dynShiftInsert] at hrun
    split at hrun
    · obtain ⟨⟨ok, b⟩, -, hr⟩ := Option.map_eq_some_iff.mp hrun
      cases ok <;> exact hr ▸ rfl
    · cases hrun
      rfl

theorem dynShiftRemove_erase_out (a : DynArrayT) (p n : Nat) (dst : Bool) :
    (dynShiftRemove a p n .erase dst).out = none := by
  rw [dynShiftRemove]
  split
  · rfl
  · rfl

theorem dynShiftRemove_extract_out {a : DynArrayT} (h : Wf a) (hr : Roomy a) {i : Nat} (dst : Bool)
    (hi : a.size = 0 ∨ i < a.size) :
    (dynShiftRemove a i 1 .extract dst).out = none ↔ (dst = true → a.size = 0) := by
  rcases hi with hz | hlt
  · rw [dynShiftRemove_empty hz]
    exact iff_of_true rfl fun _ => hz
  · rw [dynShiftRemove_extract h hr dst hlt]
    cases dst with
    | false => exact iff_of_true rfl nofun
    | true => exact iff_of_false nofun fun hz => absurd (hz rfl) (Nat.ne_of_gt (Nat.zero_lt_of_lt hlt))

/-- **One call hands something out** iff it is given a destination and the array has elements. -/
theorem Op.run_out {a : DynArrayT} (h : Wf a) (hr : Roomy a) {op : Op} {g : Alloc} {r : Result}
    (hs : op.InRange a) (hrun : op.run dynMaxCapacity g a = some r) :
    r.out = none ↔ (op.Destination → a.size = 0) := by
  cases op with
  | extractFront dst =>
    cases hrun
    exact dynShiftRemove_extract_out h hr dst (Nat.eq_zero_or_pos a.size)
  | extractBack dst =>
    cases hrun
    refine dynShiftRemove_extract_out h hr dst ((Nat.eq_zero_or_pos a.size).imp_right fun hpos => ?_)
    rw [wrap_sub h.size_lt hpos]
    omega
  | extract i dst =>
    cases hrun
    exact dynShiftRemove_extract_out h hr dst (Or.inr hs)
  | pushFront object | pushBack object | insert i object =>
    exact iff_of_true (dynShiftInsert_out hrun) False.elim
  | insertSorted object cmp =>
    refine iff_of_true ?_ False.elim
    cases object with
    | none =>
      cases hrun
      rfl
    | some o =>
      have hins : dynArrayInsertSorted dynMaxCapacity a (some o) (some cmp) g = some r := hrun
      rw [dynArrayInsertSorted] at hins
      exact dynShiftInsert_out hins
  | popFront | popBack | erase i =>
    cases hrun
    exact iff_of_true (dynShiftRemove_erase_out a _ 1 false) False.elim
  | clear =>
    cases hrun
    exact iff_of_true rfl False.elim

/-! ## The ledger -/

/-- A call other than an extraction conserves elements: what it erases and what it leaves is what
    was there and what it inserted. -/
theorem erasedFrom_onList_perm (st : Step) (hs : st.op.InScope st.before) (hret : st.res.ret = true)
    (hok : ¬ st.op.Refused st.before st.alloc) :
    (st.op.erasedFrom (contents st.before)
        ++ st.op.onList st.before.dataTypeSize (contents st.before)).Perm
      (contents st.before ++ st.inserted) := by
  obtain ⟨op, g, a, r⟩ := st
  have hlen := contents_length a
  simp only at hs hret hok ⊢
  -- inserting anywhere inside is consing, up to order
  have hins : ∀ p x, p ≤ (contents a).length → ((contents a).insertIdx p x).Perm (contents a ++ [x]) :=
    fun p x hp => (List.perm_insertIdx x (contents a) hp).trans (List.perm_append_singleton x _).symm
  cases op with
  | pushFront object =>
    cases object with
    | none => exact absurd (Or.inl rfl) hok
    | some o =>
      simp only [Step.inserted, hret]
      exact (List.perm_append_singleton _ _).symm
  | pushBack object =>
    cases object with
    | none => exact absurd (Or.inl rfl) hok
    | some o =>
      simp only [Step.inserted, hret]
      exact List.Perm.refl _
  | insert i object =>
    cases object with
    | none => exact absurd (Or.inl rfl) hok
    | some o =>
      simp only [Step.inserted, hret]
      have hi : i ≤ a.size := Nat.le_of_not_lt fun hlt => hok (Or.inr (Or.inl hlt))
      exact hins i _ (by omega)
  | insertSorted object cmp =>
    cases object with
    | none => exact absurd (Or.inl rfl) hok
    | some o =>
      simp only [Step.inserted, hret]
      exact hins _ _ List.findIdx_le_length
  | popFront =>
    simp only [Step.inserted, hret, List.append_nil]
    show ((contents a).take 1 ++ (contents a).tail).Perm _
    rw [← List.drop_one, List.take_append_drop]
  | popBack =>
    simp only [Step.inserted, hret, List.append_nil]
    show ((contents a).drop ((contents a).length - 1) ++ (contents a).dropLast).Perm _
    rw [List.dropLast_eq_take]
    refine List.perm_append_comm.trans ?_
    rw [List.take_append_drop]
  | erase i =>
    simp only [Step.inserted, hret, List.append_nil]
    show (((contents a).drop i).take 1 ++ (contents a).eraseIdx i).Perm _
    rw [List.eraseIdx_eq_take_drop_succ, ← List.append_assoc]
    refine (List.perm_append_comm.append_right _).trans ?_
    rw [List.append_assoc, ← List.drop_drop, List.take_append_drop, List.take_append_drop]
  | clear =>
    simp only [Step.inserted, hret]
    exact List.Perm.refl _
  | extractFront dst => exact absurd hs id
  | extractBack dst => exact absurd hs id
  | extract i dst => exact absurd hs id

/-- What one call of a run does to the ledger of elements. -/
structure Ledger (st : Step) : Prop where
  wf : Wf st.res.arr
  destructor : st.res.arr.destructor = st.before.destructor
  conserved : st.before.destructor = true →
    (st.res.arr.destructed ++ contents st.res.arr).Perm
      ((st.before.destructed ++ contents st.before) ++ st.inserted)

/-- An extraction leaves the ledger alone: it changes nothing. -/
theorem extract_ledger {a : DynArrayT} (h : Wf a) (hr : Roomy a) (op : Op) (g : Alloc) (i : Nat)
    (dst : Bool) (hi : a.size = 0 ∨ i < a.size)
    (hins : ∀ r, Step.inserted ⟨op, g, a, r⟩ = []) :
    Ledger ⟨op, g, a, dynShiftRemove a i 1 .extract dst⟩ := by
  have harr : (dynShiftRemove a i 1 .extract dst).arr = a := by
    rcases hi with hz | hlt
    · rw [dynShiftRemove_empty hz]
    · rw [dynShiftRemove_extract h hr dst hlt]
  refine ⟨?_, ?_, fun _ => ?_⟩
  · show Wf (dynShiftRemove a i 1 .extract dst).arr
    rw [harr]
    exact h
  · show (dynShiftRemove a i 1 .extract dst).arr.destructor = _
    rw [harr]
  · rw [hins, List.append_nil]
    show ((dynShiftRemove a i 1 .extract dst).arr.destructed ++ contents _).Perm _
    rw [harr]

/-- Every other call moves elements between the array and the destructor's log. -/
theorem inScope_ledger {a : DynArrayT} (h : Wf a) (hr : Roomy a) (op : Op) (g : Alloc)
    (hs : op.InScope a) :
    ∃ r, op.run dynMaxCapacity g a = some r ∧ (Roomy r.arr → Ledger ⟨op, g, a, r⟩) := by
  obtain ⟨r, hrun, hspec⟩ := run_correct h hr op g hs
  refine ⟨r, hrun, fun hroom => ⟨hspec.wf, hspec.destructor, fun hd => ?_⟩⟩
  have hcor := hspec.correct hroom
  cases hret : r.ret with
  | false =>
    have hsame : r.arr = a := hcor.unchanged hret
    have hins : Step.inserted ⟨op, g, a, r⟩ = [] := by simp [Step.inserted, hret]
    rw [hins, List.append_nil]
    show (r.arr.destructed ++ contents r.arr).Perm _
    rw [hsame]
  | true =>
    have hok : ¬ op.Refused a g := fun hf => by
      have := hcor.false_iff.mpr hf
      simp [hret] at this
    have hlog : r.arr.destructed = a.destructed ++ op.erasedFrom (contents a) := by
      have := hcor.destructed_eq hret
      rwa [if_pos hd] at this
    show (r.arr.destructed ++ contents r.arr).Perm _
    rw [hlog, hcor.contents_eq hret, List.append_assoc, List.append_assoc]
    exact (erasedFrom_onList_perm ⟨op, g, a, r⟩ hs hret hok).append_left _

/-- **One call**, extractions included. -/
theorem run_ledger {a : DynArrayT} (h : Wf a) (hr : Roomy a) (op : Op) (g : Alloc)
    (hs : op.InRange a) :
    ∃ r, op.run dynMaxCapacity g a = some r ∧ (Roomy r.arr → Ledger ⟨op, g, a, r⟩) := by
  cases op with
  | extractFront dst =>
    refine ⟨_, rfl, fun _ => extract_ledger h hr (.extractFront dst) g 0 dst ?_ fun r => ?_⟩
    · exact (Nat.eq_zero_or_pos a.size)
    · cases hret : r.ret <;> simp [Step.inserted, hret]
  | extractBack dst =>
    refine ⟨_, rfl, fun _ =>
      extract_ledger h hr (.extractBack dst) g (wrap (a.size + 2 ^ 64 - 1)) dst ?_ fun r => ?_⟩
    · rcases Nat.eq_zero_or_pos a.size with hz | hpos
      · exact Or.inl hz
      · rw [wrap_sub h.size_lt hpos]
        omega
    · cases hret : r.ret <;> simp [Step.inserted, hret]
  | extract i dst =>
    refine ⟨_, rfl, fun _ => extract_ledger h hr (.extract i dst) g i dst (Or.inr hs) fun r => ?_⟩
    cases hret : r.ret <;> simp [Step.inserted, hret]
  | pushFront object => exact inScope_ledger h hr (.pushFront object) g hs
  | pushBack object => exact inScope_ledger h hr (.pushBack object) g hs
  | insert i object => exact inScope_ledger h hr (.insert i object) g hs
  | insertSorted object cmp => exact inScope_ledger h hr (.insertSorted object cmp) g hs
  | popFront => exact inScope_ledger h hr .popFront g hs
  | popBack => exact inScope_ledger h hr .popBack g hs
  | erase i => exact inScope_ledger h hr (.erase i) g hs
  | clear => exact inScope_ledger h hr .clear g hs

/-- **One run**: what has been destructed and what is left is what was there and what came in. -/
theorem runOps_ledger : ∀ (ops : List (Op × Alloc)) (a : DynArrayT), Wf a → Roomy a →
    a.destructor = true → Disciplined Op.InRange a ops →
    ∃ steps last, runOps dynMaxCapacity a ops = some (steps, last) ∧ Wf last ∧ Roomy last ∧
      last.destructor = true ∧
      (∀ st ∈ steps, st.res.out = none ↔ (st.op.Destination → st.before.size = 0)) ∧
      (last.destructed ++ contents last).Perm
        ((a.destructed ++ contents a) ++ steps.flatMap Step.inserted)
  | [], a, h, hr, hd, _ => ⟨[], a, rfl, h, hr, hd, nofun, by simp⟩
  | (op, g) :: rest, a, h, hr, hd, ⟨hs, hrest⟩ => by
    obtain ⟨r, hrun, hled⟩ := run_ledger h hr op g hs
    obtain ⟨hroom, hdis⟩ := hrest r hrun
    obtain ⟨hwf, hdes, hcons⟩ := hled hroom
    obtain ⟨steps, last, hsteps, hlwf, hlroom, hldes, hout, hperm⟩ :=
      runOps_ledger rest r.arr hwf hroom (hdes.trans hd) hdis
    refine ⟨⟨op, g, a, r⟩ :: steps, last, ?_, hlwf, hlroom, hldes, ?_, ?_⟩
    · rw [runOps, hrun, Option.bind_some, hsteps]
      rfl
    · intro st hst
      rcases List.mem_cons.mp hst with rfl | hst
      · exact Op.run_out h hr hs hrun
      · exact hout st hst
    · refine hperm.trans ?_
      rw [List.flatMap_cons, ← List.append_assoc]
      exact (hcons hd).append_right _

/-- `dyn_array_destroy` destructs what is left. -/
theorem destroy_destructed {a : DynArrayT} (h : Wf a) (hr : Roomy a) (hd : a.destructor = true) :
    (dynArrayDestroy a).destructed = a.destructed ++ contents a := by
  rw [dynArrayDestroy, dynArrayClear]
  split
  · rename_i hz
    rw [dynShiftRemove_erase h hr false hz (by omega)]
    show (erased a 0 a.size).destructed = _
    rw [erased_destructed (by omega), if_pos hd, List.drop_zero, List.take_of_length_le (by simp)]
  · rename_i hz
    have hnil : contents a = [] :=
      List.length_eq_zero_iff.mp (by rw [contents_length]; omega)
    rw [hnil, List.append_nil]

/-- Since every element is destructed anyway, handing one out breaks the ledger. -/
theorem owned_iff {l : List Elem} {steps : List Step} {last : DynArrayT}
    (hperm : ((dynArrayDestroy last).destructed).Perm (l ++ steps.flatMap Step.inserted)) :
    Owned l steps last ↔ ∀ st ∈ steps, st.res.out = none := by
  constructor
  · intro ho st hst
    have hlen := ho.length_eq
    have hlen' := hperm.length_eq
    simp only [List.length_append] at hlen hlen'
    have hz : steps.flatMap (fun st => st.res.out.toList) = [] :=
      List.length_eq_zero_iff.mp (by omega)
    have hst' := List.flatMap_eq_nil_iff.mp hz st hst
    cases hout : st.res.out with
    | none => rfl
    | some e => simp [hout] at hst'
  · intro hnone
    have hz : steps.flatMap (fun st => st.res.out.toList) = [] :=
      List.flatMap_eq_nil_iff.mpr fun st hst => by rw [hnone st hst]; rfl
    rw [Owned, hz, List.nil_append]
    exact hperm.symm

/-- **Extraction hands elements over exactly when it hands out none.**  One call of the family
    behaves as documented iff its destination is NULL; a run that ends in `dyn_array_destroy`
    accounts for every element once iff each of its extractions has no destination or meets an empty
    array. -/
theorem extract_transfers_iff (a : DynArrayT) (hr : Roomy a) :
    (∀ dst : Bool, Wf a →
      (∀ i, i < a.size → (Handover a i dst (dynArrayExtract a i dst) ↔ dst = false)) ∧
      (0 < a.size → (Handover a 0 dst (dynArrayExtractFront a dst) ↔ dst = false)) ∧
      (0 < a.size → (Handover a (a.size - 1) dst (dynArrayExtractBack a dst) ↔ dst = false))) ∧
    (∀ (l : List Elem) (ops : List (Op × Alloc)), Obtained a l →
      a.destructor = true → Disciplined Op.InRange a ops →
      ∃ steps last, runOps dynMaxCapacity a ops = some (steps, last) ∧
        (Owned l steps last ↔ ∀ st ∈ steps, st.op.Destination → st.before.size = 0)) := by
  refine ⟨fun dst h => ⟨fun i hi => handover_iff h hr dst hi, fun hpos => handover_iff h hr dst hpos,
    fun hpos => ?_⟩, fun l ops hobt hd hdis => ?_⟩
  · rw [dynArrayExtractBack, wrap_sub h.size_lt hpos]
    exact handover_iff h hr dst (by omega)
  · obtain ⟨hwf, hcont, hlog⟩ := hobt.spec hr
    obtain ⟨steps, last, hrun, hlwf, hlroom, hldes, hout, hperm⟩ :=
      runOps_ledger ops a hwf hr hd hdis
    refine ⟨steps, last, hrun, (owned_iff ?_).trans (forall₂_congr hout)⟩
    rw [destroy_destructed hlwf hlroom hldes]
    rwa [hlog, hcont, List.nil_append] at hperm

/-- A run on the array below: one element pushed, then extracted. -/
theorem extract_transfers_run :
    ∃ steps last, runOps dynMaxCapacity (freshArray 16 1 true fun _ => 0)
        [(.pushBack (some (.outside fun _ => 7)), none), (.extract 0 true, none)] = some (steps, last) ∧
      (Owned [] steps last ↔ ∀ st ∈ steps, st.op.Destination → st.before.size = 0) :=
  (extract_transfers_iff (freshArray 16 1 true fun _ => 0) (Nat.le_refl _)).2 [] _
    (.created (show dynArrayCreate dynMaxCapacity 0 1 true true (some fun _ => 0) = _ from rfl)) rfl
    (by
      refine ⟨fun o ho => by cases ho; trivial, fun r hr => ?_⟩
      cases hr
      refine ⟨Nat.le_refl _, Nat.zero_lt_one, fun r hr => ?_⟩
      cases hr
      exact ⟨Nat.le_refl _, trivial⟩)

/-- One element pushed, then handed out: it is still in the array, and is destructed at the end. -/
theorem extract_keeps_element :
    ∃ steps last, runOps dynMaxCapacity (freshArray 16 1 true fun _ => 0)
        [(.pushBack (some (.outside fun _ => 7)), none), (.extract 0 true, none)] = some (steps, last) ∧
      steps.flatMap Step.inserted = [[7]] ∧ steps.flatMap (fun st => st.res.out.toList) = [[7]] ∧
      contents last = [[7]] ∧ (dynArrayDestroy last).destructed = [[7]] ∧ ¬ Owned [] steps last ∧
      ∃ st ∈ steps, ¬ Handover st.before 0 true st.res := by
  refine ⟨_, _, rfl, rfl, rfl, rfl, rfl, fun ho => absurd ho.length_eq (by decide),
    _, List.mem_cons_of_mem _ (List.mem_singleton.mpr rfl), fun hh => ?_⟩
  exact absurd (hh.given rfl).2.2.2.1 (by decide)

end Msvl.DynArray
