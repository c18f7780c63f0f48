/-
  Looking at an array: the 'view' and 'get' functions, and `dyn_array_for_each`.

  The views hand out pointers into the array's block; what a client reads through one of them is
  `Source.elem`.  `dyn_array_for_each` walks a byte pointer through the block and gives each element's
  address to a function of the client, which may write there.

  * `dynArrayForEach` — the walk, with the function as a parameter.  It gets at memory and at its
    argument only: a function that calls back into the array is not covered;
  * `Visits` — what such a function is on elements: it reads and writes the element it is given;
  * `forEachLoop_mapM` — the walk is `List.mapM` in the state monad of the argument, with the bytes
    outside the walked range as its frame;
  * `Observed` — all that can be seen of an array, against a list;
  * `run_observed` — the headline: after every run the array is seen as the list of the refinement.
-/
import LibMSVL.DynArray.Copy

namespace Msvl.DynArray

open Msvl.Bytes

/-! ## The functions -/

/-- `dyn_array_back`. -/
def dynArrayBack (a : DynArrayT) : Option Source :=
  if a.size ≠ 0 then some (.own (dynArrayPosition a (wrap (a.size + 2 ^ 64 - 1)))) else none

/-- `dyn_array_size`. -/
def dynArraySize (a : DynArrayT) : Nat := a.size

/-- `dyn_array_empty`. -/
def dynArrayEmpty (a : DynArrayT) : Bool := dynArraySize a == 0

/-- `void (*func)(void *const, void *)`: given the address of an element, what it makes of memory and
    of its argument. -/
abbrev Visitor (σ : Type) := Nat → Block × σ → Block × σ

/-- The loop over `data_walker`, `n` rounds from `walker` on. -/
def forEachLoop {σ : Type} (func : Visitor σ) (w : Nat) : Nat → Nat → Block × σ → Block × σ
  | 0, _, s => s
  | n + 1, walker, s => forEachLoop func w n (walker + w) (func walker s)

/-- `dyn_array_for_each`: the return value, the array and the argument afterwards. -/
def dynArrayForEach {σ : Type} (a : DynArrayT) (func : Option (Visitor σ)) (arg : σ) :
    Bool × DynArrayT × σ :=
  match func with
  | none => (false, a, arg)
  | some func =>
    let s := forEachLoop func a.dataTypeSize a.size 0 (a.array, arg)
    (true, { a with array := s.1 }, s.2)

/-! ## The walk -/

/-- On an element of `w` bytes `func` does what `f` says, and it writes nowhere else. -/
structure Visits {σ : Type} (w : Nat) (func : Visitor σ) (f : Elem → StateM σ Elem) : Prop where
  own : ∀ p m s, (bytesAt (func p (m, s)).1 p w, (func p (m, s)).2) = (f (bytesAt m p w)).run s
  others : ∀ p m s o, o < p ∨ p + w ≤ o → (func p (m, s)).1 o = m o

theorem records_cons (m : Block) (w i n : Nat) :
    records m w i (n + 1) = record m w i :: records m w (i + 1) n := by
  rw [records_split m w i (n + 1) 1 (by omega), records_one]
  rfl

/-- The state monad threads the argument through the list. -/
theorem mapM_run_cons {σ : Type} {f : Elem → StateM σ Elem} {x y : Elem} {xs ys : List Elem}
    {s s₁ s₂ : σ} (hx : (y, s₁) = (f x).run s) (hxs : (ys, s₂) = (xs.mapM f).run s₁) :
    ((x :: xs).mapM f).run s = (y :: ys, s₂) := by
  rw [List.mapM_cons, StateT.run_bind, ← hx]
  show (xs.mapM f >>= fun l => pure (y :: l)).run s₁ = _
  rw [StateT.run_bind, ← hxs]
  rfl

/-- **The walk** over `n` elements from index `i` on: their bytes and the argument as `mapM` leaves
    them, the other bytes as they were.  Induction on the rounds. -/
theorem forEachLoop_mapM {σ : Type} {w : Nat} {func : Visitor σ} {f : Elem → StateM σ Elem}
    (hv : Visits w func f) : ∀ (n i : Nat) (m : Block) (s : σ),
    (records (forEachLoop func w n (i * w) (m, s)).1 w i n, (forEachLoop func w n (i * w) (m, s)).2)
        = ((records m w i n).mapM f).run s ∧
      ∀ o, o < i * w ∨ (i + n) * w ≤ o → (forEachLoop func w n (i * w) (m, s)).1 o = m o := by
  intro n
  induction n with
  | zero => exact fun i m s => ⟨rfl, fun _ _ => rfl⟩
  | succ n ih =>
    intro i m s
    rcases hfunc : func (i * w) (m, s) with ⟨m₁, s₁⟩
    have hone : (record m₁ w i, s₁) = (f (record m w i)).run s := by
      have hown := hv.own (i * w) m s
      rwa [hfunc] at hown
    have hkept : ∀ o, o < i * w ∨ (i + 1) * w ≤ o → m₁ o = m o := by
      intro o ho
      have hothers := hv.others (i * w) m s o (by rwa [Nat.add_mul, Nat.one_mul] at ho)
      rwa [hfunc] at hothers
    have hstep : forEachLoop func w (n + 1) (i * w) (m, s) = forEachLoop func w n ((i + 1) * w) (m₁, s₁) := by
      rw [forEachLoop, hfunc, Nat.add_mul, Nat.one_mul]
    obtain ⟨hrest, hframe⟩ := ih (i + 1) m₁ s₁
    rw [hstep]
    refine ⟨?_, fun o ho => ?_⟩
    · have hhead : record (forEachLoop func w n ((i + 1) * w) (m₁, s₁)).1 w i = record m₁ w i := by
        refine List.map_congr_left fun b hb => hframe _ (.inl ?_)
        have hb' := List.mem_range.mp hb
        rw [Nat.add_mul, Nat.one_mul]
        omega
      have htail : records m₁ w (i + 1) n = records m w (i + 1) n := by
        refine records_congr fun j _ => List.map_congr_left fun b _ => hkept _ (.inr ?_)
        have hle : (i + 1) * w ≤ (i + 1 + j) * w := Nat.mul_le_mul_right w (Nat.le_add_right _ j)
        omega
      rw [records_cons, hhead, records_cons m, ← htail]
      exact (mapM_run_cons hone hrest).symm
    · have hle : i * w ≤ (i + 1) * w := Nat.mul_le_mul_right w (Nat.le_succ i)
      have hle' : (i + 1) * w ≤ (i + (n + 1)) * w := Nat.mul_le_mul_right w (by omega)
      rw [hframe o (by rw [show i + 1 + n = i + (n + 1) by omega]; omega)]
      exact hkept o (by omega)

/-- `dyn_array_for_each` on the array: only what the block holds is changed, and that as `mapM` does. -/
theorem forEach_spec {σ : Type} {a : DynArrayT} {func : Visitor σ} {f : Elem → StateM σ Elem}
    (hv : Visits a.dataTypeSize func f) (s : σ) :
    ∃ b s', dynArrayForEach a (some func) s = (true, b, s') ∧ b = { a with array := b.array } ∧
      (contents b, s') = ((contents a).mapM f).run s := by
  have hwalk := (forEachLoop_mapM hv a.size 0 a.array s).1
  rw [Nat.zero_mul] at hwalk
  exact ⟨_, _, rfl, rfl, hwalk⟩

/-! ## What is seen -/

/-- The array is seen as the list `l`, by the counts and through every pointer handed out. -/
structure Observed (a : DynArrayT) (l : List Elem) : Prop where
  size : dynArraySize a = l.length
  empty : dynArrayEmpty a = l.isEmpty
  nth : ∀ i, (dynArrayAt a i).map (Source.elem · a) = l[i]?
  front : (dynArrayFront a).map (Source.elem · a) = l.head?
  back : (dynArrayBack a).map (Source.elem · a) = l.getLast?

/-- Through the address of an element the client reads the element. -/
theorem own_elem {a : DynArrayT} (h : Wf a) (hr : Roomy a) {i : Nat} (hi : i < a.size) :
    some (Source.elem (.own (dynArrayPosition a i)) a) = (contents a)[i]? := by
  have hlt : i < (contents a).length := by rwa [contents_length]
  have hs := h.size_le
  rw [List.getElem?_eq_getElem hlt, position_eq h hr (by omega)]
  simp only [contents, records_getElem, Nat.zero_add]
  show some (bytesAt _ 0 a.dataTypeSize) = some (bytesAt a.array (i * a.dataTypeSize) a.dataTypeSize)
  simp only [bytesAt, Source.block, Bool.false_eq_true, if_false, Nat.zero_add]

theorem observed_contents {a : DynArrayT} (h : Wf a) (hr : Roomy a) : Observed a (contents a) := by
  have hlen := contents_length a
  have hnth : ∀ i, (dynArrayAt a i).map (Source.elem · a) = (contents a)[i]? := by
    intro i
    unfold dynArrayAt
    split
    · rename_i hi
      exact own_elem h hr hi
    · exact (List.getElem?_eq_none (by omega)).symm
  refine ⟨hlen.symm, ?_, hnth, ?_, ?_⟩
  · rw [Bool.eq_iff_iff, List.isEmpty_iff_length_eq_zero, hlen]
    exact beq_iff_eq
  · rw [List.head?_eq_getElem?, dynArrayFront]
    split
    · rename_i hz
      rw [← own_elem h hr (Nat.pos_of_ne_zero hz), position_eq h hr (Nat.zero_le _), Nat.zero_mul]
      simp only [Option.map_some, Source.elem, Source.block, Bool.false_eq_true, if_false, Nat.zero_add]
    · exact (List.getElem?_eq_none (by omega)).symm
  · rw [List.getLast?_eq_getElem?, hlen, dynArrayBack]
    split
    · rename_i hz
      rw [wrap_sub h.size_lt (Nat.pos_of_ne_zero hz)]
      exact own_elem h hr (by omega)
    · exact (List.getElem?_eq_none (by omega)).symm

/-! ## Runs of calls and walks -/

/-- A function for `dyn_array_for_each` that keeps to the element it is given, of `w` bytes. -/
structure Walk (σ : Type) (w : Nat) where
  func : Visitor σ
  elem : Elem → StateM σ Elem
  visits : Visits w func elem

/-- What a client does: one of the calls, or a walk; `σ` is what the walks' argument points to. -/
inductive Use (σ : Type) (w : Nat) where
  | call (op : Op) (g : Alloc)
  | walk (v : Walk σ w)

section

variable {σ : Type} {w : Nat}

def Use.run (M : Nat) : Use σ w → DynArrayT × σ → Option (Bool × DynArrayT × σ)
  | .call op g, (a, s) => (op.run M g a).map fun r => (r.ret, r.arr, s)
  | .walk v, (a, s) => some (dynArrayForEach a (some v.func) s)

/-- The same on a list. -/
def Use.onList : Use σ w → List Elem × σ → List Elem × σ
  | .call op _, (l, s) => (op.onList w l, s)
  | .walk v, (l, s) => (l.mapM v.elem).run s

/-- A run, with what each use returned. -/
def runUses (M : Nat) : DynArrayT × σ → List (Use σ w) → Option (List (Use σ w × Bool) × DynArrayT × σ)
  | s, [] => some ([], s)
  | s, u :: us =>
    (u.run M s).bind fun (ret, t) => (runUses M t us).map fun (done, last) => ((u, ret) :: done, last)

/-- The list after the uses that returned true. -/
def seen (s : List Elem × σ) (done : List (Use σ w × Bool)) : List Elem × σ :=
  done.foldl (fun s ur => if ur.2 then ur.1.onList s else s) s

/-- The calls are within the scope of the refinement, and the allocator keeps its word. -/
def DisciplinedUses : DynArrayT × σ → List (Use σ w) → Prop
  | _, [] => True
  | (a, s), u :: us =>
    (∀ op g, u = .call op g → op.InScope a) ∧
      ∀ ret b t, u.run dynMaxCapacity (a, s) = some (ret, b, t) → Roomy b ∧ DisciplinedUses (b, t) us

theorem disciplined_cons {a b : DynArrayT} {s t : σ} {u : Use σ w} {us : List (Use σ w)} {ret : Bool}
    (hs : ∀ op g, u = .call op g → op.InScope a) (hrun : u.run dynMaxCapacity (a, s) = some (ret, b, t))
    (hroom : Roomy b) (hrest : DisciplinedUses (b, t) us) : DisciplinedUses (a, s) (u :: us) := by
  refine ⟨hs, fun ret' b' t' hrun' => ?_⟩
  rw [hrun] at hrun'
  cases hrun'
  exact ⟨hroom, hrest⟩

/-- **One use** returns, keeps the invariant, and shows on the elements what it is on lists. -/
theorem use_seen {a : DynArrayT} (h : Wf a) (hr : Roomy a) (hw : a.dataTypeSize = w) (s : σ)
    (u : Use σ w) (hs : ∀ op g, u = .call op g → op.InScope a) :
    ∃ ret b t, u.run dynMaxCapacity (a, s) = some (ret, b, t) ∧ Wf b ∧ b.dataTypeSize = w ∧
      (Roomy b → (contents b, t) = seen (contents a, s) [(u, ret)]) := by
  cases u with
  | call op g =>
    obtain ⟨r, hrun, hspec⟩ := run_correct h hr op g (hs op g rfl)
    refine ⟨r.ret, r.arr, s, by rw [Use.run, hrun, Option.map_some], hspec.wf, hspec.width.trans hw,
      fun hroom => ?_⟩
    have hcor := hspec.correct hroom
    cases hret : r.ret with
    | true =>
      show (contents r.arr, s) = (op.onList w (contents a), s)
      rw [hcor.contents_eq hret, hw]
    | false =>
      show (contents r.arr, s) = (contents a, s)
      rw [hcor.unchanged hret]
  | walk v =>
    subst hw
    obtain ⟨b, t, hrun, hb, hcont⟩ := forEach_spec v.visits s
    refine ⟨true, b, t, by rw [Use.run, hrun], ?_, by rw [hb], fun _ => hcont⟩
    rw [hb]
    exact ⟨h.size_le, h.pow_two, h.width_pos, h.bytes_eq⟩

/-- **One run**: by induction on the uses, with the invariant and the width carried along. -/
theorem runUses_seen : ∀ (us : List (Use σ w)) (a : DynArrayT) (s : σ), Wf a → Roomy a →
    a.dataTypeSize = w → DisciplinedUses (a, s) us →
    ∃ done last t, runUses dynMaxCapacity (a, s) us = some (done, last, t) ∧ Wf last ∧ Roomy last ∧
      (contents last, t) = seen (contents a, s) done
  | [], a, s, h, hr, _, _ => ⟨[], a, s, rfl, h, hr, rfl⟩
  | u :: us, a, s, h, hr, hw, ⟨hs, hrest⟩ => by
    obtain ⟨ret, b, t, hrun, hwf, hwidth, hseen⟩ := use_seen h hr hw s u hs
    obtain ⟨hroom, hdis⟩ := hrest ret b t hrun
    obtain ⟨done, last, t', huses, hwf', hroom', hall⟩ := runUses_seen us b t hwf hroom hwidth hdis
    refine ⟨(u, ret) :: done, last, t', ?_, hwf', hroom', ?_⟩
    · rw [runUses, hrun, Option.bind_some]
      show Option.map _ (runUses dynMaxCapacity (b, t) us) = _
      rw [huses]
      rfl
    · rw [hall, hseen hroom]
      rfl

end

/-- **The array is seen as the list.**  From every array created or imported, after every run in which
    calls within the scope of the refinement and walks follow each other in any order, whatever the
    allocator answered: the counts and the pointers at the front, at the back and at every index show
    the list that the calls that succeeded make of the elements there were, each walk being `mapM` over
    the list; and the walks leave their argument as `mapM` does. -/
theorem run_observed {σ : Type} {a : DynArrayT} {l : List Elem} (h : Obtained a l) (hr : Roomy a) (s : σ)
    (us : List (Use σ a.dataTypeSize)) (hd : DisciplinedUses (a, s) us) :
    ∃ done last t, runUses dynMaxCapacity (a, s) us = some (done, last, t) ∧
      Observed last (seen (l, s) done).1 ∧ t = (seen (l, s) done).2 := by
  obtain ⟨hwf, hcont, -⟩ := h.spec hr
  obtain ⟨done, last, t, hrun, hlast, hroom, hall⟩ := runUses_seen us a s hwf hr rfl hd
  rw [hcont] at hall
  refine ⟨done, last, t, hrun, ?_, by rw [← hall]⟩
  rw [← hall]
  exact observed_contents hlast hroom

/-- Sets an element to 8 and collects what it held. -/
def setAndCollectFunc : Visitor (List Elem) := fun p s =>
  (fun o => if o = p then 8 else s.1 o, s.2 ++ [bytesAt s.1 p 1])

/-- The same on elements. -/
def setAndCollectElem (e : Elem) (s : List Elem) : Elem × List Elem := ([8], s ++ [e])

theorem visits_setAndCollect : Visits 1 setAndCollectFunc setAndCollectElem where
  own p m s := by simp [setAndCollectFunc, setAndCollectElem, bytesAt, StateT.run]
  others p m s o ho := if_neg (by omega)

/-- A walk that sets every element to 8 and collects what it found. -/
def setAndCollect : Walk (List Elem) 1 where
  func := setAndCollectFunc
  elem := setAndCollectElem
  visits := visits_setAndCollect

/-- A push, that walk and a push: it finds 7 and leaves 8. -/
theorem run_observed_walk :
    ∃ done last t, runUses dynMaxCapacity (freshArray 16 1 false fun _ => 0, [])
        [.call (.pushBack (some (.outside fun _ => 7))) none, .walk setAndCollect,
          .call (.pushFront (some (.outside fun _ => 5))) none] = some (done, last, t) ∧
      Observed last [[5], [8]] ∧ t = [[7]] := by
  obtain ⟨done, last, t, hrun, hobs, ht⟩ := run_observed
    (a := freshArray 16 1 false fun _ => 0) (l := [])
    (.created (show dynArrayCreate dynMaxCapacity 0 1 false true (some fun _ => 0) = _ from rfl))
    (Nat.le_refl _) ([] : List Elem)
    [.call (.pushBack (some (.outside fun _ => 7))) none, .walk setAndCollect,
      .call (.pushFront (some (.outside fun _ => 5))) none]
    (disciplined_cons (fun op g hu => by cases hu; exact fun o ho => by cases ho; trivial) rfl (Nat.le_refl _)
      (disciplined_cons (fun op g hu => by cases hu) rfl (Nat.le_refl _)
        (disciplined_cons (fun op g hu => by cases hu; exact fun o ho => by cases ho; trivial) rfl
          (Nat.le_refl _) trivial)))
  refine ⟨done, last, t, hrun, ?_, ?_⟩
  · cases hrun
    exact hobs
  · cases hrun
    exact ht

end Msvl.DynArray
