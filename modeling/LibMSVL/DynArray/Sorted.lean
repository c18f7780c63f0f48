/-
  Sorted insertion and sorting.

  On the list side `dyn_array_insert_sorted` is `Msvl.Sorting.insertBefore`, so a run of insertions
  is `insertAll`; `dyn_array_sort` is whatever `qsort` does, of which only `Sorts` is known.

  * `insert_sorted_one` — one call: where the object goes, and when it is refused;
  * `Succeed.spec` — a run whose calls all succeed, on lists;
  * `insert_sorted_law` — one call, all calls from an empty array, and the comparison with
    `push_back` and `dyn_array_sort`.
-/
import LibMSVL.DynArray.Refine
import LibMSVL.Lib.Sorting

namespace Msvl.DynArray

open Msvl.Bytes Msvl.Sorting

/-! ## One insertion -/

/-- The object stands before the first element that is not less, and the array is sorted. -/
structure Placed (compare : Elem → Elem → Int) (a : DynArrayT) (x : Elem) (b : DynArrayT) : Prop where
  place : contents b =
    ((contents a).takeWhile fun e => compare e x < 0) ++
      x :: (contents a).dropWhile fun e => compare e x < 0
  sorted : Sorted compare (contents b)

theorem insert_sorted_one {compare : Elem → Elem → Int} (hcmp : TotalPreorder compare)
    {a : DynArrayT} (h : Wf a) (hr : Roomy a) (hsorted : Sorted compare (contents a)) (f : Block)
    (g : Alloc) :
    ∃ r, dynArrayInsertSorted dynMaxCapacity a (some (.outside f)) (some compare) g = some r ∧
      (r.ret = false ↔ GrowthRefused a g) ∧ (r.ret = false → r.arr = a) ∧
      (r.ret = true → Roomy r.arr → Placed compare a (bytesAt f 0 a.dataTypeSize) r.arr) := by
  have hle := sortedPosition_all h hr (bytesAt f 0 a.dataTypeSize) compare
  have hp : (contents a).findIdx (fun e => !decide (compare e (bytesAt f 0 a.dataTypeSize) < 0)) ≤ a.size :=
    Nat.le_trans List.findIdx_le_length (Nat.le_of_eq (contents_length a))
  rw [← hle] at hp
  obtain ⟨r, hrun, -, -, -, -, -, hfalse, hsame, hcont⟩ := dynShiftInsert_one h hr
    (sortedPosition a (bytesAt f 0 a.dataTypeSize) compare a.size 0) f g
  refine ⟨r, hrun, ?_, hsame, fun ht hroom => ?_⟩
  · rw [hfalse]
    constructor
    · rintro (hlt | hg)
      · omega
      · exact hg
    · exact Or.inr
  · have hins : contents r.arr = insertBefore compare (bytesAt f 0 a.dataTypeSize) (contents a) := by
      rw [hcont ht hroom, hle]
      rfl
    exact ⟨by rw [hins, insertBefore_split hcmp], by rw [hins]; exact insertBefore_sorted hcmp _ hsorted⟩

/-! ## Runs -/

/-- The calls succeed one after the other, the allocator keeping its word, and leave `last`. -/
def Succeed : DynArrayT → List (Op × Alloc) → DynArrayT → Prop
  | a, [], last => a = last
  | a, (op, g) :: rest, last =>
    ∃ r, op.run dynMaxCapacity g a = some r ∧ r.ret = true ∧ Roomy r.arr ∧ Succeed r.arr rest last

/-- **One run**: the list has gone through all calls.  Induction on the calls. -/
theorem Succeed.spec : ∀ {ops : List (Op × Alloc)} {a last : DynArrayT}, Wf a → Roomy a →
    (∀ op ∈ ops.map Prod.fst, ∀ b, op.InScope b) → Succeed a ops last →
    Wf last ∧ Roomy last ∧ last.dataTypeSize = a.dataTypeSize ∧
      contents last = (ops.map Prod.fst).foldl (fun l op => op.onList a.dataTypeSize l) (contents a)
  | [], a, _, h, hr, _, rfl => ⟨h, hr, rfl, rfl⟩
  | (op, g) :: rest, a, last, h, hr, hscope, ⟨r, hrun, hret, hroom, hrest⟩ => by
    obtain ⟨r', hrun', hspec⟩ := run_correct h hr op g (hscope op (by simp) a)
    rw [hrun] at hrun'
    cases hrun'
    have hscope' : ∀ op ∈ rest.map Prod.fst, ∀ b, op.InScope b :=
      fun o ho => hscope o (List.mem_cons_of_mem _ ho)
    obtain ⟨hwf, hroomy, hw, hcont⟩ := hrest.spec hspec.wf hroom hscope'
    refine ⟨hwf, hroomy, hw.trans hspec.width, ?_⟩
    rw [hcont, hspec.width, (hspec.correct hroom).contents_eq hret]
    rfl

/-- `dyn_array_insert_sorted` of objects one by one. -/
def insertSortedAll (compare : Elem → Elem → Int) (objs : List (Block × Alloc)) : List (Op × Alloc) :=
  objs.map fun (f, g) => (.insertSorted (some (.outside f)) compare, g)

/-- `dyn_array_push_back` of objects one by one. -/
def pushBackAll (objs : List (Block × Alloc)) : List (Op × Alloc) :=
  objs.map fun (f, g) => (.pushBack (some (.outside f)), g)

/-- The objects as the client sees them. -/
def objects (w : Nat) (objs : List (Block × Alloc)) : List Elem := objs.map fun (f, _) => bytesAt f 0 w

theorem inScope_insertSortedAll (compare : Elem → Elem → Int) (objs : List (Block × Alloc)) :
    ∀ op ∈ (insertSortedAll compare objs).map Prod.fst, ∀ b, op.InScope b := by
  intro op hop b
  rw [insertSortedAll, List.map_map] at hop
  obtain ⟨⟨f, g⟩, -, rfl⟩ := List.mem_map.mp hop
  rintro o ⟨⟩
  trivial

theorem inScope_pushBackAll (objs : List (Block × Alloc)) :
    ∀ op ∈ (pushBackAll objs).map Prod.fst, ∀ b, op.InScope b := by
  intro op hop b
  rw [pushBackAll, List.map_map] at hop
  obtain ⟨⟨f, g⟩, -, rfl⟩ := List.mem_map.mp hop
  rintro o ⟨⟩
  trivial

theorem foldl_insertSorted (w : Nat) (compare : Elem → Elem → Int) (objs : List (Block × Alloc)) :
    ∀ l, ((insertSortedAll compare objs).map Prod.fst).foldl (fun l op => op.onList w l) l =
      (objects w objs).foldl (fun l x => insertBefore compare x l) l := by
  induction objs with
  | nil => exact fun l => rfl
  | cons o objs ih => exact fun l => ih _

theorem foldl_pushBack (w : Nat) (objs : List (Block × Alloc)) :
    ∀ l, ((pushBackAll objs).map Prod.fst).foldl (fun l op => op.onList w l) l = l ++ objects w objs := by
  induction objs with
  | nil => exact fun l => (List.append_nil l).symm
  | cons o objs ih =>
    intro l
    exact (ih _).trans (List.append_assoc l _ _)

/-! ## Sorting -/

/-- `qsort` sorts, by any comparison that is fit for it. -/
def Sorts (qsort : Qsort) : Prop :=
  ∀ (m : Block) (n w : Nat) (compare : Elem → Elem → Int), TotalPreorder compare →
    (records (qsort m n w compare) w 0 n).Perm (records m w 0 n) ∧
      Sorted compare (records (qsort m n w compare) w 0 n)

theorem dynArraySort_spec {qsort : Qsort} (hq : Sorts qsort) {compare : Elem → Elem → Int}
    (hcmp : TotalPreorder compare) (a : DynArrayT) :
    (contents (dynArraySort qsort a (some compare)).arr).Perm (contents a) ∧
      Sorted compare (contents (dynArraySort qsort a (some compare)).arr) := by
  by_cases hz : a.size = 0
  · have hnil : contents a = [] := List.length_eq_zero_iff.mp (by rw [contents_length]; exact hz)
    rw [dynArraySort, if_neg (not_not_intro hz)]
    exact ⟨.refl _, by rw [hnil]; exact .nil⟩
  · rw [dynArraySort, if_pos hz]
    exact hq a.array a.size a.dataTypeSize compare hcmp

/-- A `qsort`. -/
def sortBlock : Qsort := fun m n w compare =>
  layout w ((records m w 0 n).insertionSort (Le compare))

theorem sortBlock_sorts : Sorts sortBlock := by
  intro m n w compare hcmp
  have hlen : ((records m w 0 n).insertionSort (Le compare)).length = n := by
    rw [List.length_insertionSort, records_length]
  have hwidth : ∀ e ∈ (records m w 0 n).insertionSort (Le compare), e.length = w := by
    intro e he
    rw [List.mem_insertionSort, records, List.mem_map] at he
    obtain ⟨j, -, rfl⟩ := he
    simp [record, bytesAt]
  have hread : records (sortBlock m n w compare) w 0 n = (records m w 0 n).insertionSort (Le compare) := by
    have := records_layout hwidth
    rwa [hlen] at this
  have := hcmp.total
  have := hcmp.isTrans
  rw [hread]
  exact ⟨List.perm_insertionSort _ _, List.pairwise_insertionSort _ _⟩

/-! ## The law -/

/-- What insertion one by one makes of `xs`, and how it compares with the sorted list `ys`. -/
structure SortedBy (compare : Elem → Elem → Int) (xs l ys : List Elem) : Prop where
  sorted : Sorted compare l
  perm : l.Perm xs
  ties : ∀ k, (l.filter fun e => compare e k = 0) = (xs.filter fun e => compare e k = 0).reverse
  keys : List.Forall₂ (fun e e' => compare e e' = 0) l ys

/-- **Sorted insertion.**  One call on a sorted array puts the object before the first element that
    is not less, or is refused for want of memory; inserting one by one into an empty array sorts,
    ties in reverse order, and up to ties gives what `push_back` and `dyn_array_sort` give. -/
theorem insert_sorted_law {compare : Elem → Elem → Int} (hcmp : TotalPreorder compare)
    {qsort : Qsort} (hq : Sorts qsort) :
    (∀ a f g, Wf a → Roomy a → Sorted compare (contents a) →
      ∃ r, dynArrayInsertSorted dynMaxCapacity a (some (.outside f)) (some compare) g = some r ∧
        (r.ret = false ↔ GrowthRefused a g) ∧ (r.ret = false → r.arr = a) ∧
        (r.ret = true → Roomy r.arr → Placed compare a (bytesAt f 0 a.dataTypeSize) r.arr)) ∧
    ∀ a b objs objs' last last', Obtained a [] → Roomy a → Obtained b [] → Roomy b →
      a.dataTypeSize = b.dataTypeSize → objs.map Prod.fst = objs'.map Prod.fst →
      Succeed a (insertSortedAll compare objs) last → Succeed b (pushBackAll objs') last' →
      SortedBy compare (objects a.dataTypeSize objs) (contents last)
        (contents (dynArraySort qsort last' (some compare)).arr) := by
  refine ⟨fun a f g h hr hsorted => insert_sorted_one hcmp h hr hsorted f g, ?_⟩
  intro a b objs objs' last last' ha hra hb hrb hw hobjs hrun hrun'
  obtain ⟨hwfa, hnil, -⟩ := ha.spec hra
  obtain ⟨hwfb, hnil', -⟩ := hb.spec hrb
  obtain ⟨-, -, -, hlast⟩ := hrun.spec hwfa hra (inScope_insertSortedAll compare objs)
  obtain ⟨-, -, -, hlast'⟩ := hrun'.spec hwfb hrb (inScope_pushBackAll objs')
  have hins : contents last = insertAll compare (objects a.dataTypeSize objs) := by
    rw [hlast, hnil, foldl_insertSorted]
    rfl
  have hpush : contents last' = objects a.dataTypeSize objs := by
    rw [hlast', hnil', foldl_pushBack, List.nil_append, ← hw]
    have heq := congrArg (List.map fun f => bytesAt f 0 a.dataTypeSize) hobjs
    rw [List.map_map, List.map_map] at heq
    exact heq.symm
  obtain ⟨hperm, hsorted⟩ := dynArraySort_spec hq hcmp last'
  have hsort := insertAll_sorted hcmp (objects a.dataTypeSize objs)
  have hall := insertAll_perm hcmp (objects a.dataTypeSize objs)
  rw [hpush] at hperm
  rw [hins]
  exact ⟨hsort, hall, insertAll_ties hcmp _, sorted_unique hcmp hsort hsorted (hall.trans hperm.symm)⟩

/-- Objects compared by their first bytes. -/
def firstByte (x y : Elem) : Int := (x.headD 0).toNat - (y.headD 0).toNat

theorem firstByte_preorder : TotalPreorder firstByte where
  swap a b := by
    unfold firstByte
    omega
  trans a b c := by
    unfold firstByte
    omega

/-- Two objects of two bytes with the same key 7, and one with 5. -/
def twoSevens : List (Block × Alloc) :=
  [(fun o => if o = 0 then 7 else 1, none), (fun o => if o = 0 then 7 else 2, none), (fun _ => 5, none)]

theorem insert_sorted_sevens :
    ∃ last last', Succeed (freshArray 16 2 false fun _ => 0) (insertSortedAll firstByte twoSevens) last ∧
      SortedBy firstByte [[7, 1], [7, 2], [5, 5]] (contents last)
        (contents (dynArraySort sortBlock last' (some firstByte)).arr) := by
  have hmade : Obtained (freshArray 16 2 false fun _ => 0) [] :=
    .created (show dynArrayCreate dynMaxCapacity 0 2 false true (some fun _ => 0) = _ from rfl)
  obtain ⟨last, hlast⟩ : ∃ last,
      Succeed (freshArray 16 2 false fun _ => 0) (insertSortedAll firstByte twoSevens) last :=
    ⟨_, _, rfl, rfl, Nat.le_refl _, _, rfl, rfl, Nat.le_refl _, _, rfl, rfl, Nat.le_refl _, rfl⟩
  obtain ⟨last', hlast'⟩ : ∃ last',
      Succeed (freshArray 16 2 false fun _ => 0) (pushBackAll twoSevens) last' :=
    ⟨_, _, rfl, rfl, Nat.le_refl _, _, rfl, rfl, Nat.le_refl _, _, rfl, rfl, Nat.le_refl _, rfl⟩
  exact ⟨last, last', hlast, (insert_sorted_law firstByte_preorder sortBlock_sorts).2 _ _ _ _ _ _
    hmade (Nat.le_refl _) hmade (Nat.le_refl _) rfl rfl hlast hlast'⟩

end Msvl.DynArray
