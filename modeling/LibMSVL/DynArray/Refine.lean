/-
  The dynamic array refines a list, over whole runs.

  The abstract side is plain list vocabulary: `Op.onList` is what a call does to a list of
  elements, `Op.erasedFrom` the elements it takes out for good, `Op.Refused` when it may be turned
  down.  The faithful side is `Op.run` of `DynArrayT/Defs`.

  1. **One insertion** (`dynShiftInsert_one`) and **one removal** (`dynShiftRemove_one`): the whole
     public interface is these two at different positions, so the off-by-one questions are settled
     here, once.
  2. **One call** (`run_correct`): case by case over `Op`, each case picks a position.
  3. **One run** (`runOps_correct`): induction on the calls, carrying `Wf` and `Roomy`.
  4. `run_refines_list` — the headline: from any array the library creates or imports, for any
     calls and any answers of the allocator.
-/
import LibMSVL.DynArray.Inv

namespace Msvl.DynArray

open Msvl.Bytes

/-! ## The list side -/

/-- The object lies outside the array. -/
def Source.External : Source → Prop
  | .outside _ => True
  | .own _ => False

/-- The `w` bytes of an outside object. -/
def Source.bytes (w : Nat) : Source → Elem
  | .outside f => bytesAt f 0 w
  | .own _ => []

/-- What a call does to the list of elements (objects are `w` bytes wide). -/
def Op.onList (w : Nat) (op : Op) (l : List Elem) : List Elem :=
  match op with
  | .pushFront (some o) => o.bytes w :: l
  | .pushBack (some o) => l ++ [o.bytes w]
  | .insert i (some o) => l.insertIdx i (o.bytes w)
  | .insertSorted (some o) cmp =>
    l.insertIdx (l.findIdx fun e => !decide (cmp e (o.bytes w) < 0)) (o.bytes w)
  | .popFront | .extractFront true => l.tail
  | .popBack | .extractBack true => l.dropLast
  | .erase i | .extract i true => l.eraseIdx i
  | .clear => []
  | _ => l

/-- The elements a call erases, in index order. -/
def Op.erasedFrom (op : Op) (l : List Elem) : List Elem :=
  match op with
  | .popFront => l.take 1
  | .popBack => l.drop (l.length - 1)
  | .erase i => (l.drop i).take 1
  | .clear => l
  | _ => []

/-- A full array that may not or cannot grow. -/
def GrowthRefused (a : DynArrayT) (g : Alloc) : Prop :=
  a.capacity < a.size + 1 ∧ (dynMaxCapacity < a.size + 1 ∨ g = none)

/-- The index is past the end, the object pointer is NULL, there is nothing to pop, or growth is
    refused. -/
def Op.Refused (op : Op) (a : DynArrayT) (g : Alloc) : Prop :=
  match op with
  | .pushFront object | .pushBack object | .insertSorted object _ => object = none ∨ GrowthRefused a g
  | .insert i object => object = none ∨ a.size < i ∨ GrowthRefused a g
  | .popFront | .popBack => a.size = 0
  | .erase i => a.size ≤ i
  | _ => False

/-- The calls in question: outside objects, erasures in range, nothing handed out. -/
def Op.InScope (op : Op) (a : DynArrayT) : Prop :=
  match op with
  | .pushFront object | .pushBack object | .insert _ object | .insertSorted object _ =>
    ∀ o ∈ object, o.External
  | .erase i => i < a.size
  | .popFront | .popBack | .clear => True
  | .extractFront _ | .extractBack _ | .extract _ _ => False

/-- One call did what the list says, or was refused and did nothing. -/
structure Step.Correct (st : Step) : Prop where
  false_iff : st.res.ret = false ↔ st.op.Refused st.before st.alloc
  unchanged : st.res.ret = false → st.res.arr = st.before
  contents_eq : st.res.ret = true →
    contents st.res.arr = st.op.onList st.before.dataTypeSize (contents st.before)
  destructed_eq : st.res.ret = true →
    st.res.arr.destructed = st.before.destructed
      ++ if st.before.destructor then st.op.erasedFrom (contents st.before) else []

/-! ## List facts -/

theorem insertIdx_eq_take_drop {α : Type} (x : α) :
    ∀ (l : List α) (p : Nat), p ≤ l.length → l.insertIdx p x = l.take p ++ [x] ++ l.drop p
  | l, 0, _ => by simp
  | [], p + 1, h => absurd h (by simp)
  | y :: l, p + 1, h => by
    rw [List.insertIdx_succ_cons, insertIdx_eq_take_drop x l p (by simpa using h)]
    simp

theorem dropLast_eq_erased {α : Type} (l : List α) (n : Nat) (h : l.length = n + 1) :
    l.dropLast = l.take n ++ l.drop (n + 1) := by
  rw [List.dropLast_eq_take, h, List.drop_of_length_le (by omega), List.append_nil]
  rfl

/-! ## One insertion -/

theorem bytesAt_eq_records (f : Block) (w : Nat) : [bytesAt f 0 w] = records f w 0 1 := by
  rw [records_one, record, Nat.zero_mul]

/-- Inserting one outside object at `p`, whatever the fill and the allocator: the element stands
    at `p`, or the call was refused for one of two reasons and the array is untouched. -/
theorem dynShiftInsert_one {a : DynArrayT} (h : Wf a) (hr : Roomy a) (p : Nat) (f : Block)
    (g : Alloc) :
    ∃ r, dynShiftInsert dynMaxCapacity a p 1 .insert (some (.outside f)) g = some r ∧ Wf r.arr ∧
      r.arr.dataTypeSize = a.dataTypeSize ∧ r.arr.destructor = a.destructor ∧
      r.arr.destructed = a.destructed ∧ r.out = none ∧
      (r.ret = false ↔ a.size < p ∨ GrowthRefused a g) ∧
      (r.ret = false → r.arr = a) ∧
      (r.ret = true → Roomy r.arr →
        contents r.arr = (contents a).insertIdx p (bytesAt f 0 a.dataTypeSize)) := by
  rcases Nat.lt_or_ge a.size p with hp | hp
  · exact ⟨_, dynShiftInsert_past g hp, h, rfl, rfl, rfl, rfl,
      ⟨fun _ => Or.inl hp, fun _ => rfl⟩, fun _ => rfl, fun hf => by simp at hf⟩
  · -- the list side of the two successful cases
    have hlist : ∀ {b : DynArrayT}, Wf b → Roomy b → contents b = contents a → b.size = a.size →
        b.dataTypeSize = a.dataTypeSize → b.size + 1 ≤ b.capacity →
        contents (inserted b p 1 f) = (contents a).insertIdx p (bytesAt f 0 a.dataTypeSize) := by
      intro b hb hbr hcont hsize hw hfit
      rw [inserted_contents hb hbr f (by omega) hfit, hcont, hw, ← bytesAt_eq_records,
        insertIdx_eq_take_drop _ _ _ (by rw [contents_length]; exact hp)]
    rcases Nat.lt_or_ge a.capacity (a.size + 1) with hfull | hfit
    · rw [dynShiftInsert_full h f g hp hfull]
      by_cases hM : dynMaxCapacity < a.size + 1
      · rw [if_pos hM]
        exact ⟨_, rfl, h, rfl, rfl, rfl, rfl, ⟨fun _ => Or.inr ⟨hfull, Or.inl hM⟩, fun _ => rfl⟩,
          fun _ => rfl, fun hf => by simp at hf⟩
      · rw [if_neg hM]
        cases g with
        | none =>
          exact ⟨_, rfl, h, rfl, rfl, rfl, rfl, ⟨fun _ => Or.inr ⟨hfull, Or.inr rfl⟩, fun _ => rfl⟩,
            fun _ => rfl, fun hf => by simp at hf⟩
        | some junk =>
          have hd : Wf (doubled a junk) := doubled_wf h junk hfull (by omega)
          have hcap : (doubled a junk).size + 1 ≤ (doubled a junk).capacity := by
            obtain ⟨k, _, _, hk⟩ := h.pow_two
            have hpos := Nat.two_pow_pos k
            have hs := h.size_le
            show a.size + 1 ≤ 2 * a.capacity
            omega
          refine ⟨_, rfl, inserted_wf hd f hcap, rfl, rfl, rfl, rfl, ?_, fun hf => by simp at hf,
            fun _ hroom => hlist hd hroom (doubled_contents h hr junk) rfl rfl hcap⟩
          constructor
          · intro hf
            simp at hf
          · rintro (hlt | ⟨-, hlt | hnone⟩)
            · omega
            · exact absurd hlt hM
            · exact absurd hnone (by simp)
    · refine ⟨_, dynShiftInsert_fits h f g (by decide) hp hfit, inserted_wf h f hfit, rfl, rfl, rfl,
        rfl, ?_, fun hf => by simp at hf, fun _ _ => hlist h hr rfl rfl rfl hfit⟩
      constructor
      · intro hf
        simp at hf
      · rintro (hlt | ⟨hfull, -⟩)
        · omega
        · omega

/-! ## The calls, one by one -/

/-- The scan of `dyn_array_insert_sorted` finds what `findIdx` finds in the rest of the array. -/
theorem sortedPosition_eq {a : DynArrayT} (h : Wf a) (hr : Roomy a) (x : Elem)
    (cmp : Elem → Elem → Int) :
    ∀ n i, i + n ≤ a.capacity → sortedPosition a x cmp n i
      = i + (records a.array a.dataTypeSize i n).findIdx fun e => !decide (cmp e x < 0) := by
  intro n
  induction n with
  | zero => intro i _; simp [sortedPosition]
  | succ n ih =>
    intro i hi
    rw [sortedPosition, position_eq h hr (by omega),
      records_split _ _ i (n + 1) 1 (by omega), records_one, List.singleton_append,
      List.findIdx_cons]
    show (if cmp (record a.array a.dataTypeSize i) x < 0 then _ else _) = _
    by_cases hlt : cmp (record a.array a.dataTypeSize i) x < 0
    · rw [if_pos hlt, ih (i + 1) (by omega), Nat.add_sub_cancel]
      simp only [hlt, decide_true, Bool.not_true, cond_false]
      omega
    · rw [if_neg hlt]
      simp [hlt]

theorem sortedPosition_all {a : DynArrayT} (h : Wf a) (hr : Roomy a) (x : Elem)
    (cmp : Elem → Elem → Int) :
    sortedPosition a x cmp a.size 0 = (contents a).findIdx fun e => !decide (cmp e x < 0) := by
  rw [sortedPosition_eq h hr x cmp a.size 0 (by have := h.size_le; omega), Nat.zero_add]
  rfl

/-- Everything a run needs to know of one call. -/
structure CallSpec (op : Op) (g : Alloc) (a : DynArrayT) (r : Result) : Prop where
  wf : Wf r.arr
  width : r.arr.dataTypeSize = a.dataTypeSize
  destructor : r.arr.destructor = a.destructor
  correct : Roomy r.arr → Step.Correct ⟨op, g, a, r⟩

/-- An insertion at `p` is correct for every call that means "insert at `p`". -/
theorem insert_callSpec {a : DynArrayT} (h : Wf a) (hr : Roomy a) (op : Op) (p : Nat) (f : Block)
    (g : Alloc)
    (href : op.Refused a g ↔ a.size < p ∨ GrowthRefused a g)
    (hlist : p ≤ a.size → op.onList a.dataTypeSize (contents a)
      = (contents a).insertIdx p (bytesAt f 0 a.dataTypeSize))
    (hers : op.erasedFrom (contents a) = []) :
    ∃ r, dynShiftInsert dynMaxCapacity a p 1 .insert (some (.outside f)) g = some r ∧
      CallSpec op g a r := by
  obtain ⟨r, hrun, hwf, hw, hd, hlog, -, hfalse, hsame, hcont⟩ := dynShiftInsert_one h hr p f g
  refine ⟨r, hrun, hwf, hw, hd, fun hroom => ⟨hfalse.trans href.symm, hsame, fun ht => ?_, fun _ => ?_⟩⟩
  · have hp : p ≤ a.size := by
      rcases Nat.lt_or_ge a.size p with hlt | hge
      · rw [hfalse.mpr (Or.inl hlt)] at ht
        simp at ht
      · exact hge
    rw [hlist hp]
    exact hcont ht hroom
  · rw [hers, hlog]
    simp

/-- A NULL object is refused. -/
theorem null_callSpec {a : DynArrayT} (h : Wf a) (op : Op) (g : Alloc) (href : op.Refused a g) :
    CallSpec op g a { ret := false, arr := a } :=
  ⟨h, rfl, rfl, fun _ => ⟨⟨fun _ => href, fun _ => rfl⟩, fun _ => rfl, fun hf => by simp at hf,
    fun hf => by simp at hf⟩⟩

/-- Erasing `k` elements at `p` is correct for every call that means it. -/
theorem erase_callSpec {a : DynArrayT} (h : Wf a) (hr : Roomy a) (op : Op) (g : Alloc) {p k : Nat}
    (hk0 : k ≠ 0) (hpk : p + k ≤ a.size) (href : ¬ op.Refused a g)
    (hlist : op.onList a.dataTypeSize (contents a) = (contents a).take p ++ (contents a).drop (p + k))
    (hers : op.erasedFrom (contents a) = ((contents a).drop p).take k) :
    CallSpec op g a (dynShiftRemove a p k .erase false) := by
  rw [dynShiftRemove_erase h hr false hk0 hpk]
  refine ⟨erased_wf h p k, rfl, rfl, fun _ => ⟨⟨fun hf => by simp at hf, fun hf => absurd hf href⟩,
    fun hf => by simp at hf, fun _ => ?_, fun _ => ?_⟩⟩
  · rw [hlist]
    exact erased_contents hpk
  · rw [hers]
    exact erased_destructed hpk

/-- Popping an empty array is refused. -/
theorem pop_empty_callSpec {a : DynArrayT} (h : Wf a) (op : Op) (g : Alloc) (hz : a.size = 0)
    (href : op.Refused a g) (p : Nat) : CallSpec op g a (dynShiftRemove a p 1 .erase false) := by
  rw [dynShiftRemove_empty hz]
  exact null_callSpec h op g href

/-- **One call**: it returns, and it is correct. -/
theorem run_correct {a : DynArrayT} (h : Wf a) (hr : Roomy a) (op : Op) (g : Alloc)
    (hs : op.InScope a) : ∃ r, op.run dynMaxCapacity g a = some r ∧ CallSpec op g a r := by
  cases op with
  | pushFront object =>
    cases object with
    | none => exact ⟨_, rfl, null_callSpec h _ g (Or.inl rfl)⟩
    | some o =>
      cases o with
      | own off => exact absurd (hs _ rfl) id
      | outside f =>
        refine insert_callSpec h hr _ 0 f g ?_ (fun _ => ?_) rfl
        · simp [Op.Refused]
        · rw [List.insertIdx_zero]
          rfl
  | pushBack object =>
    cases object with
    | none => exact ⟨_, rfl, null_callSpec h _ g (Or.inl rfl)⟩
    | some o =>
      cases o with
      | own off => exact absurd (hs _ rfl) id
      | outside f =>
        refine insert_callSpec h hr _ a.size f g ?_ (fun _ => ?_) rfl
        · simp [Op.Refused]
        · rw [← contents_length a, List.insertIdx_length_self]
          rfl
  | insert i object =>
    cases object with
    | none => exact ⟨_, rfl, null_callSpec h _ g (Or.inl rfl)⟩
    | some o =>
      cases o with
      | own off => exact absurd (hs _ rfl) id
      | outside f =>
        refine insert_callSpec h hr _ i f g ?_ (fun _ => rfl) rfl
        simp [Op.Refused]
  | insertSorted object cmp =>
    cases object with
    | none => exact ⟨_, rfl, null_callSpec h _ g (Or.inl rfl)⟩
    | some o =>
      cases o with
      | own off => exact absurd (hs _ rfl) id
      | outside f =>
        have hx : (Source.outside f).elem a = bytesAt f 0 a.dataTypeSize := rfl
        have hpos := sortedPosition_all h hr (bytesAt f 0 a.dataTypeSize) cmp
        have hle : sortedPosition a (bytesAt f 0 a.dataTypeSize) cmp a.size 0 ≤ a.size := by
          rw [hpos]
          exact Nat.le_trans List.findIdx_le_length (Nat.le_of_eq (contents_length a))
        show ∃ r, dynShiftInsert dynMaxCapacity a (sortedPosition a ((Source.outside f).elem a) cmp a.size 0)
          1 .insert (some (.outside f)) g = some r ∧ _
        rw [hx]
        refine insert_callSpec h hr _ _ f g ?_ (fun _ => ?_) rfl
        · constructor
          · rintro (hn | hg)
            · exact absurd hn (by simp)
            · exact Or.inr hg
          · rintro (hlt | hg)
            · omega
            · exact Or.inr hg
        · rw [hpos]
          rfl
  | popFront =>
    refine ⟨_, rfl, ?_⟩
    by_cases hz : a.size = 0
    · exact pop_empty_callSpec h .popFront g hz hz 0
    · refine erase_callSpec h hr .popFront g (by decide) (by omega) hz ?_ rfl
      rw [List.take_zero, List.nil_append, Nat.zero_add, List.drop_one]
      rfl
  | popBack =>
    refine ⟨_, rfl, ?_⟩
    by_cases hz : a.size = 0
    · exact pop_empty_callSpec h .popBack g hz hz _
    · have hpos : wrap (a.size + 2 ^ 64 - 1) = a.size - 1 := wrap_sub h.size_lt (by omega)
      show CallSpec _ g a (dynShiftRemove a (wrap (a.size + 2 ^ 64 - 1)) 1 .erase false)
      rw [hpos]
      have hlen := contents_length a
      refine erase_callSpec h hr .popBack g (by decide) (by omega) hz ?_ ?_
      · exact dropLast_eq_erased _ _ (by omega)
      · show (contents a).drop ((contents a).length - 1) = _
        rw [hlen, List.take_of_length_le]
        simp only [List.length_drop]
        omega
  | erase i =>
    have hi : i < a.size := hs
    refine ⟨_, rfl, erase_callSpec h hr (.erase i) g (by decide) hi ?_ ?_ rfl⟩
    · show ¬ a.size ≤ i
      omega
    · exact List.eraseIdx_eq_take_drop_succ _ _
  | clear =>
    refine ⟨_, rfl, ?_⟩
    show CallSpec .clear g a { ret := true, arr := dynArrayClear a }
    by_cases hz : a.size = 0
    · have hnil : contents a = [] := List.length_eq_zero_iff.mp (by rw [contents_length]; exact hz)
      rw [dynArrayClear, if_neg (not_not_intro hz)]
      exact ⟨h, rfl, rfl, fun _ => ⟨⟨fun hf => by simp at hf, fun hf => absurd hf id⟩,
        fun hf => by simp at hf, fun _ => hnil, fun _ => by
          show a.destructed = a.destructed ++ if a.destructor then contents a else []
          rw [hnil]; simp⟩⟩
    · rw [dynArrayClear, if_pos hz]
      have hspec := erase_callSpec h hr .clear g (p := 0) hz (by omega)
        (fun hf => hf) (by
          rw [List.take_zero, Nat.zero_add, List.drop_of_length_le (by simp)]; rfl) (by
          rw [List.drop_zero, List.take_of_length_le (by simp)]; rfl)
      rw [dynShiftRemove_erase h hr false hz (by omega)] at hspec ⊢
      exact hspec
  | extractFront dst => exact absurd hs id
  | extractBack dst => exact absurd hs id
  | extract i dst => exact absurd hs id

/-! ## Runs -/

/-- A run whose every call is in `scope` when it is made and whose allocator keeps its word. -/
def Disciplined (scope : Op → DynArrayT → Prop) : DynArrayT → List (Op × Alloc) → Prop
  | _, [] => True
  | a, (op, g) :: rest =>
    scope op a ∧
      ∀ r, op.run dynMaxCapacity g a = some r → Roomy r.arr ∧ Disciplined scope r.arr rest

/-- The list a run leaves: every successful call applied in turn. -/
def listAfter (w : Nat) (l : List Elem) (steps : List Step) : List Elem :=
  steps.foldl (fun l st => if st.res.ret then st.op.onList w l else l) l

/-- **One run**: by induction on the calls, with `Wf` and `Roomy` carried along. -/
theorem runOps_correct : ∀ (ops : List (Op × Alloc)) (a : DynArrayT), Wf a → Roomy a →
    Disciplined Op.InScope a ops →
    ∃ steps last, runOps dynMaxCapacity a ops = some (steps, last) ∧
      (∀ st ∈ steps, st.Correct) ∧
      contents last = listAfter a.dataTypeSize (contents a) steps
  | [], a, _, _, _ => ⟨[], a, rfl, by simp, rfl⟩
  | (op, g) :: rest, a, h, hr, ⟨hs, hrest⟩ => by
    obtain ⟨r, hrun, hspec⟩ := run_correct h hr op g hs
    obtain ⟨hroom, hdis⟩ := hrest r hrun
    obtain ⟨steps, last, hsteps, hall, hlast⟩ := runOps_correct rest r.arr hspec.wf hroom hdis
    have hcor : Step.Correct ⟨op, g, a, r⟩ := hspec.correct hroom
    refine ⟨⟨op, g, a, r⟩ :: steps, last, ?_, ?_, ?_⟩
    · rw [runOps, hrun, Option.bind_some, hsteps]
      rfl
    · intro st hst
      rcases List.mem_cons.mp hst with rfl | hmem
      · exact hcor
      · exact hall st hmem
    · rw [hlast, hspec.width]
      show listAfter _ _ steps = listAfter _ (if r.ret then _ else _) steps
      cases hret : r.ret with
      | true => rw [hcor.contents_eq hret]; rfl
      | false => rw [hcor.unchanged hret]; rfl

/-- Arrays the library hands out, with the elements they start with. -/
inductive Obtained : DynArrayT → List Elem → Prop where
  | created {capacity w d mStruct mBuf a ev}
      (h : dynArrayCreate dynMaxCapacity capacity w d mStruct mBuf = some (some a, ev)) :
      Obtained a []
  | imported {f count w d mStruct mBuf g a}
      (h : dynArrayImport dynMaxCapacity (some (.outside f)) count w d mStruct mBuf g = some (some a)) :
      Obtained a (records f w 0 count)

/-- An imported array is the created one with the client's elements in it. -/
theorem dynArrayImport_spec {f : Block} {count w : Nat} {d mStruct : Bool} {mBuf g : Alloc}
    {a : DynArrayT}
    (h : dynArrayImport dynMaxCapacity (some (.outside f)) count w d mStruct mBuf g = some (some a)) :
    Wf a ∧ a.destructed = [] ∧ (Roomy a → contents a = records f w 0 count) := by
  unfold dynArrayImport at h
  split at h
  · rename_i hg
    obtain ⟨⟨arr, ev⟩, hcreate, h⟩ := Option.bind_eq_some_iff.mp h
    cases arr with
    | none => simp at h
    | some b =>
      obtain ⟨hwf, hcont, hw, -, hlog, hsize, hcap⟩ := dynArrayCreate_spec hcreate
      have hfits := dynShiftInsert_fits (M := dynMaxCapacity) hwf f g (p := 0) (k := count)
        (by omega) (Nat.zero_le _) (by omega)
      simp only [hfits, Option.map_some, if_true, Option.some.injEq] at h
      subst h
      refine ⟨inserted_wf hwf f (by omega), hlog, fun hroom => ?_⟩
      rw [inserted_contents hwf hroom f (Nat.zero_le _) (by omega), hcont, hw]
      simp
  · simp at h

theorem Obtained.spec {a : DynArrayT} {l : List Elem} (h : Obtained a l) (hr : Roomy a) :
    Wf a ∧ contents a = l ∧ a.destructed = [] := by
  cases h with
  | created h =>
    obtain ⟨hwf, hcont, -, -, hlog, -⟩ := dynArrayCreate_spec h
    exact ⟨hwf, hcont, hlog⟩
  | imported h =>
    obtain ⟨hwf, hlog, hcont⟩ := dynArrayImport_spec h
    exact ⟨hwf, hcont hr, hlog⟩

/-- **The array refines a list.**  From any array created or imported, every disciplined run goes
    through; each call is refused exactly for the stated reasons and then changes nothing, and
    otherwise does to the elements what it does to a list and destructs exactly the elements it
    erases; the elements at the end are those of the list. -/
theorem run_refines_list {a : DynArrayT} {l : List Elem} (h : Obtained a l) (hr : Roomy a)
    (ops : List (Op × Alloc)) (hd : Disciplined Op.InScope a ops) :
    a.destructed = [] ∧ contents a = l ∧
    ∃ steps last, runOps dynMaxCapacity a ops = some (steps, last) ∧
      (∀ st ∈ steps, st.Correct) ∧ contents last = listAfter a.dataTypeSize l steps := by
  obtain ⟨hwf, hcont, hlog⟩ := h.spec hr
  obtain ⟨steps, last, hrun, hall, hlast⟩ := runOps_correct ops a hwf hr hd
  exact ⟨hlog, hcont, steps, last, hrun, hall, by rw [hlast, hcont]⟩

/-- One-byte elements, a destructor, and a run with insertions at both ends, a pop of either kind
    and a refused NULL. -/
theorem run_refines_list_bytes :
    ∃ steps last, runOps dynMaxCapacity (freshArray 16 1 true fun _ => 0)
        [(.pushBack (some (.outside fun _ => 7)), none), (.pushFront (some (.outside fun _ => 5)), none),
          (.insert 1 none, none), (.popFront, none)] = some (steps, last) ∧
      (∀ st ∈ steps, st.Correct) ∧ contents last = [[7]] := by
  have hrun := run_refines_list
    (a := freshArray 16 1 true fun _ => 0) (l := [])
    (.created (show dynArrayCreate dynMaxCapacity 0 1 true true (some fun _ => 0) = _ from rfl))
    (Nat.le_refl _)
    [(.pushBack (some (.outside fun _ => 7)), none), (.pushFront (some (.outside fun _ => 5)), none),
      (.insert 1 none, none), (.popFront, none)]
    (by
      refine ⟨fun o ho => by cases ho; trivial, fun r hr => ?_⟩
      cases hr
      refine ⟨Nat.le_refl _, fun o ho => by cases ho; trivial, fun r hr => ?_⟩
      cases hr
      refine ⟨Nat.le_refl _, fun o ho => (by cases ho), fun r hr => ?_⟩
      cases hr
      refine ⟨Nat.le_refl _, trivial, fun r hr => ?_⟩
      cases hr
      exact ⟨Nat.le_refl _, trivial⟩)
  obtain ⟨-, -, steps, last, hsteps, hall, hlast⟩ := hrun
  refine ⟨steps, last, hsteps, hall, ?_⟩
  rw [hlast]
  cases hsteps
  rfl

end Msvl.DynArray
