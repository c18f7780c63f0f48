/-
  The drain loop of `ManagerThread`: `while (!$$prsnt.empty())` with its label `SORT`.

  function.cpp keeps the pending elements in a vector and takes them with `pop_back`; msvl.c keeps
  them in a dynamic array and takes them with `dyn_array_extract_back`.  Everything else about the
  two loops is the same, so the loop is written once, over a `Pending` container.

  1. `drain` — the loop.  What the executed threads do to the container is a `Round` for each
     execution: the elements they push, and whether `g_prj_node` is set afterwards.  Reading an
     element after `$$Element_destroy` stops the loop with `dangling`.
  2. `Drains` — it ends with the container empty, every element executed once and destroyed once.
  3. `vector_drains` — the vector always drains.  Each pass executes one element more, and there are
     only so many (`Inv`, `measure`).
  4. `not_drains` — the array keeps what `dyn_array_extract_back` hands out, so a loop that has begun
     never sees it empty.
-/
import LibMSVL.DynArray.Capacity

namespace Msvl.Prsnt

open Msvl.DynArray

/-! ## The loop -/

/-- `$$Element *`, by its bytes. -/
abbrev Ptr := Elem

/-- What the threads do while one node is executed: the elements they push (with the answer of the
    `realloc` a push may make), and `g_prj_node != NULL` afterwards. -/
structure Round where
  pushes : List (Ptr × Alloc)
  prj : Bool

/-- The container of the pending elements. -/
structure Pending (π : Type) where
  isEmpty : π → Bool
  size : π → Nat
  /-- the element handed out, if any, and the container afterwards -/
  takeBack : π → Option Ptr × π
  /-- `none` when the call does not return -/
  pushBack : Ptr × Alloc → π → Option π

/-- `vector<$$Element *>`. -/
def vector : Pending (List Ptr) where
  isEmpty := List.isEmpty
  size := List.length
  takeBack l := (l.getLast?, l.dropLast)
  pushBack e l := some (l ++ [e.1])

/-- The address of a variable that holds `e`. -/
def addressOf (e : Ptr) : Source := .outside fun i => e.getD i 0

/-- `dyn_array_t` of pointers. -/
def dynArray : Pending DynArrayT where
  isEmpty a := a.size == 0
  size a := a.size
  takeBack a := ((dynArrayExtractBack a true).out, (dynArrayExtractBack a true).arr)
  pushBack e a := (dynArrayPushBack dynMaxCapacity a (some (addressOf e.1)) e.2).map Result.arr

/-- The manager's side of the loop; `executed` and `destroyed` record what happened to elements. -/
structure State (π : Type) where
  prsnt : π
  /-- `g_prj_node != NULL` -/
  prj : Bool := false
  /-- node executions so far -/
  round : Nat := 0
  executed : List Ptr := []
  destroyed : List Ptr := []

/-- Why the loop is not through. -/
inductive Stop
  /-- still going -/
  | fuel
  /-- `assert(false)`: no node for the thread of the element -/
  | notFound
  /-- `ele` is not assigned, or points to an element that was destroyed -/
  | dangling
  /-- a push does not return -/
  | hangs
  deriving DecidableEq, Repr

section

variable {π : Type} (P : Pending π) (behave : Nat → Round) (found : Ptr → Bool)

/-- A node is executed, and updated: its threads do what they do in this round. -/
def execute (s : State π) : Except Stop (State π) :=
  match (behave s.round).pushes.foldlM (fun q e => P.pushBack e q) s.prsnt with
  | some q => .ok { s with prsnt := q, prj := (behave s.round).prj, round := s.round + 1 }
  | none => .error .hangs

/-- `SORT:` — the deferred projection, if there is one. -/
def sort (s : State π) : Except Stop (State π) :=
  if s.prj then (execute P behave s).map fun t => { t with prj := false } else .ok s

/-- The body of the `while`; the flag tells whether it ends with `goto SORT`. -/
def pass (s : State π) : Except Stop (State π × Bool) :=
  match P.takeBack s.prsnt with
  | (none, _) => .error .dangling
  | (some ele, q) =>
    if ele ∈ s.destroyed then .error .dangling
    else if found ele then
      (execute P behave { s with prsnt := q }).map fun t =>
        ({ t with executed := t.executed ++ [ele], destroyed := t.destroyed ++ [ele] },
          decide (P.size q < P.size t.prsnt) || t.prj)
    else .error .notFound

/-- The loop, from `SORT` (`true`) or from its condition (`false`). -/
def drain : Nat → Bool → State π → Except Stop (State π)
  | 0, _, _ => .error .fuel
  | fuel + 1, true, s => (sort P behave s).bind (drain fuel false)
  | fuel + 1, false, s =>
    if P.isEmpty s.prsnt then .ok s
    else (pass P behave found s).bind fun (t, again) => drain fuel again t

/-- The elements pushed in the first `n` rounds. -/
def pushed (n : Nat) : List Ptr := (List.range n).flatMap fun i => (behave i).pushes.map Prod.fst

/-- **The loop does its work**: started on `q`, whose elements are `l`, it ends with the container
    empty, and the elements that were there or were pushed have been executed and destroyed, each
    as often as it was put in. -/
def Drains (l : List Ptr) (q : π) : Prop :=
  ∃ fuel s, drain P behave found fuel true { prsnt := q } = .ok s ∧ P.isEmpty s.prsnt = true ∧
    s.executed.Perm (l ++ pushed behave s.round) ∧ s.destroyed.Perm (l ++ pushed behave s.round)

/-- What is asked of the threads: finitely many pushes, of distinct elements, each with a node. -/
structure Behaves (l : List Ptr) : Prop where
  finite : ∃ n, ∀ m, n ≤ m → (behave m).pushes = []
  distinct : ∀ n, (l ++ pushed behave n).Nodup
  found : ∀ n, ∀ e ∈ l ++ pushed behave n, found e = true

end

section

variable {behave : Nat → Round} {found : Ptr → Bool} {l : List Ptr}

theorem pushed_succ (n : Nat) :
    pushed behave (n + 1) = pushed behave n ++ (behave n).pushes.map Prod.fst := by
  rw [pushed, List.range_succ, List.flatMap_append, List.flatMap_singleton]
  rfl

/-- After the last push the pushed elements are all there will be. -/
theorem pushed_length_le {n : Nat} (hn : ∀ m, n ≤ m → (behave m).pushes = []) :
    ∀ m, (pushed behave m).length ≤ (pushed behave n).length := by
  have hafter : ∀ k, (pushed behave (n + k)).length = (pushed behave n).length := by
    intro k
    induction k with
    | zero => rfl
    | succ k ih => rw [← Nat.add_assoc, pushed_succ, hn (n + k) (by omega), List.map_nil, List.append_nil, ih]
  have hbefore : ∀ m k, (pushed behave m).length ≤ (pushed behave (m + k)).length := by
    intro m k
    induction k with
    | zero => simp
    | succ k ih =>
      rw [← Nat.add_assoc, pushed_succ, List.length_append]
      omega
  intro m
  rcases Nat.le_total m n with hle | hle
  · have h := hbefore m (n - m)
    rwa [show m + (n - m) = n by omega] at h
  · have h := hafter (m - n)
    rw [show n + (m - n) = m by omega] at h
    omega

/-! ## The vector drains -/

/-- **The loop invariant**: every element is pending or executed, and what is executed is
    destroyed. -/
structure Inv (behave : Nat → Round) (l : List Ptr) (s : State (List Ptr)) : Prop where
  account : (s.prsnt ++ s.executed).Perm (l ++ pushed behave s.round)
  destroyed : s.destroyed = s.executed

theorem vector_foldlM (es : List (Ptr × Alloc)) :
    ∀ q : List Ptr, es.foldlM (fun q e => vector.pushBack e q) q = some (q ++ es.map Prod.fst) := by
  induction es with
  | nil => intro q; simp [vector]
  | cons e es ih =>
    intro q
    rw [List.foldlM_cons]
    show es.foldlM _ (q ++ [e.1]) = _
    rw [ih, List.map_cons, List.append_assoc]
    rfl

/-- Executing a node appends what its threads push. -/
theorem vector_execute (s : State (List Ptr)) :
    execute vector behave s = .ok { s with
      prsnt := s.prsnt ++ (behave s.round).pushes.map Prod.fst,
      prj := (behave s.round).prj, round := s.round + 1 } := by
  rw [execute, vector_foldlM]

theorem Inv.execute {s : State (List Ptr)} (h : Inv behave l s) (prj : Bool) :
    Inv behave l { s with prsnt := s.prsnt ++ (behave s.round).pushes.map Prod.fst, prj := prj,
                          round := s.round + 1 } where
  account := by
    show (s.prsnt ++ _ ++ s.executed).Perm (l ++ pushed behave (s.round + 1))
    rw [pushed_succ, ← List.append_assoc, List.append_assoc]
    refine (List.perm_append_comm.append_left _).trans ?_
    rw [← List.append_assoc]
    exact h.account.append_right _
  destroyed := h.destroyed

theorem vector_sort {s : State (List Ptr)} (h : Inv behave l s) :
    ∃ t, sort vector behave s = .ok t ∧ Inv behave l t ∧ t.executed = s.executed := by
  unfold sort
  split
  · rw [vector_execute]
    exact ⟨_, rfl, h.execute false, rfl⟩
  · exact ⟨s, rfl, h, rfl⟩

/-- One pass executes one element more. -/
theorem vector_pass (hb : Behaves behave found l) {s : State (List Ptr)} (h : Inv behave l s)
    (hne : s.prsnt ≠ []) :
    ∃ t again, pass vector behave found s = .ok (t, again) ∧ Inv behave l t ∧
      t.executed.length = s.executed.length + 1 := by
  have hsplit := List.dropLast_concat_getLast hne
  generalize s.prsnt.getLast hne = ele at hsplit
  have htake : vector.takeBack s.prsnt = (some ele, s.prsnt.dropLast) := by
    show (s.prsnt.getLast?, s.prsnt.dropLast) = _
    rw [← hsplit]
    simp
  -- the element taken is among those there were, and is not executed yet
  have hmem : ele ∈ l ++ pushed behave s.round := by
    refine h.account.subset ?_
    rw [← hsplit]
    simp
  have hfresh : ele ∉ s.destroyed := by
    rw [h.destroyed]
    intro hex
    have hnd : (s.prsnt ++ s.executed).Nodup := h.account.nodup_iff.mpr (hb.distinct s.round)
    refine (List.nodup_append.mp hnd).2.2 ele ?_ ele hex rfl
    rw [← hsplit]
    simp
  have hrest : Inv behave l
      { s with prsnt := s.prsnt.dropLast, executed := s.executed ++ [ele],
               destroyed := s.destroyed ++ [ele] } := by
    refine ⟨?_, by show s.destroyed ++ [ele] = _; rw [h.destroyed]⟩
    refine List.Perm.trans ?_ h.account
    show (s.prsnt.dropLast ++ (s.executed ++ [ele])).Perm _
    rw [← hsplit, List.dropLast_concat, List.append_assoc]
    exact List.perm_append_comm.append_left _
  unfold pass
  rw [htake]
  simp only [hfresh, if_false, hb.found s.round ele hmem, if_true, vector_execute]
  exact ⟨_, _, rfl, hrest.execute _, by simp⟩

/-- The passes that can still come, twice, and one step for `SORT`. -/
def measure (total : Nat) (at_sort : Bool) (s : State (List Ptr)) : Nat :=
  2 * (total - s.executed.length) + if at_sort then 1 else 0

/-- **Termination**: from any state of the invariant, within `measure` steps. -/
theorem vector_run (hb : Behaves behave found l) {total : Nat}
    (htotal : ∀ m, (l ++ pushed behave m).length ≤ total) :
    ∀ fuel at_sort (s : State (List Ptr)), Inv behave l s → measure total at_sort s < fuel →
      ∃ t, drain vector behave found fuel at_sort s = .ok t ∧ Inv behave l t ∧ t.prsnt = [] := by
  intro fuel
  induction fuel with
  | zero => intro _ _ _ hm; omega
  | succ fuel ih =>
    intro at_sort s h hm
    cases at_sort with
    | true =>
      obtain ⟨t, hrun, ht, hex⟩ := vector_sort h
      rw [drain, hrun]
      refine ih false t ht ?_
      simp only [measure, hex] at hm ⊢
      simp at hm ⊢
      omega
    | false =>
      rw [drain]
      by_cases hnil : s.prsnt = []
      · rw [if_pos (by rw [hnil]; rfl)]
        exact ⟨s, rfl, h, hnil⟩
      · have hsize := h.account.length_eq
        have hbound := htotal s.round
        have hpos := List.length_pos_iff.mpr hnil
        rw [List.length_append] at hsize
        obtain ⟨t, again, hrun, ht, hex⟩ := vector_pass hb h hnil
        rw [if_neg (by simpa [vector] using hnil), hrun]
        refine ih again t ht ?_
        simp only [measure, hex] at hm ⊢
        split <;> simp at hm <;> omega

/-- **The vector drains**, whatever it contains. -/
theorem vector_drains (hb : Behaves behave found l) : Drains vector behave found l l := by
  obtain ⟨n, hn⟩ := hb.finite
  have htotal : ∀ m, (l ++ pushed behave m).length ≤ l.length + (pushed behave n).length := by
    intro m
    have := pushed_length_le hn m
    rw [List.length_append]
    omega
  have hstart : Inv behave l { prsnt := l } := ⟨by simp [pushed], rfl⟩
  obtain ⟨t, hrun, ht, hnil⟩ := vector_run hb htotal _ true _ hstart (Nat.lt_succ_self _)
  have hex : t.executed.Perm (l ++ pushed behave t.round) := by
    have hacc := ht.account
    rwa [hnil, List.nil_append] at hacc
  exact ⟨_, t, hrun, by rw [hnil]; rfl, hex, by rw [ht.destroyed]; exact hex⟩

/-! ## The array does not -/

/-- `dyn_array_extract_back` leaves the array as it is. -/
theorem extractBack_arr (a : DynArrayT) (dst : Bool) : (dynArrayExtractBack a dst).arr = a := by
  unfold dynArrayExtractBack dynShiftRemove
  split
  · cases dst <;> rfl
  · rfl

/-- A push never shrinks it. -/
theorem pushBack_size {a b : DynArrayT} {e : Ptr × Alloc} (h : Wf a)
    (hp : dynArray.pushBack e a = some b) : Wf b ∧ a.size ≤ b.size := by
  obtain ⟨r, hrun, ht⟩ := run_touched h (.pushBack (some (addressOf e.1))) e.2
  obtain ⟨r', hrun', rfl⟩ := Option.map_eq_some_iff.mp hp
  obtain rfl : r = r' := Option.some.inj (hrun.symm.trans hrun')
  exact ⟨ht.wf h, ht.size_le rfl⟩

theorem foldlM_size : ∀ (es : List (Ptr × Alloc)) {a b : DynArrayT}, Wf a →
    es.foldlM (fun q e => dynArray.pushBack e q) a = some b → Wf b ∧ a.size ≤ b.size
  | [], a, b, h, hf => by
    obtain rfl := Option.some.inj hf
    exact ⟨h, Nat.le_refl _⟩
  | e :: es, a, b, h, hf => by
    rw [List.foldlM_cons] at hf
    obtain ⟨c, hpush, hrest⟩ := Option.bind_eq_some_iff.mp hf
    obtain ⟨hc, hle⟩ := pushBack_size h hpush
    obtain ⟨hb, hle'⟩ := foldlM_size es hc hrest
    exact ⟨hb, by omega⟩

theorem execute_size {s t : State DynArrayT} (h : Wf s.prsnt) (he : execute dynArray behave s = .ok t) :
    Wf t.prsnt ∧ s.prsnt.size ≤ t.prsnt.size := by
  unfold execute at he
  split at he
  · rename_i q hq
    obtain rfl := Except.ok.inj he
    exact foldlM_size _ h hq
  · cases he

theorem sort_size {s t : State DynArrayT} (h : Wf s.prsnt) (he : sort dynArray behave s = .ok t) :
    Wf t.prsnt ∧ s.prsnt.size ≤ t.prsnt.size := by
  unfold sort at he
  split at he
  · cases hx : execute dynArray behave s with
    | error e => rw [hx] at he; cases he
    | ok u =>
      rw [hx] at he
      obtain rfl := Except.ok.inj he
      have hu := execute_size h hx
      exact hu
  · obtain rfl := Except.ok.inj he
    exact ⟨h, Nat.le_refl _⟩

theorem pass_size {s t : State DynArrayT} {again : Bool} (h : Wf s.prsnt)
    (he : pass dynArray behave found s = .ok (t, again)) :
    Wf t.prsnt ∧ s.prsnt.size ≤ t.prsnt.size := by
  have harr : (dynArray.takeBack s.prsnt).2 = s.prsnt := extractBack_arr s.prsnt true
  unfold pass at he
  split at he
  · cases he
  · rename_i ele q htake
    obtain rfl : q = s.prsnt := by rw [← harr, htake]
    split at he
    · cases he
    · split at he
      · cases hx : execute dynArray behave s with
        | error e => rw [hx] at he; cases he
        | ok u =>
          rw [hx] at he
          obtain ⟨rfl, -⟩ := Prod.mk.inj (Except.ok.inj he)
          have hu := execute_size h hx
          exact hu
      · cases he

/-- **A loop that has begun never ends well.**  Induction on the steps. -/
theorem not_drains : ∀ fuel at_sort {s t : State DynArrayT}, Wf s.prsnt → s.prsnt.size ≠ 0 →
    drain dynArray behave found fuel at_sort s ≠ .ok t := by
  intro fuel
  induction fuel with
  | zero => intro _ _ _ _ _ hd; cases hd
  | succ fuel ih =>
    intro at_sort s t h hz hd
    cases at_sort with
    | true =>
      rw [drain] at hd
      cases hx : sort dynArray behave s with
      | error e => rw [hx] at hd; cases hd
      | ok u =>
        rw [hx] at hd
        obtain ⟨hu, hle⟩ := sort_size h hx
        exact ih false hu (by omega) hd
    | false =>
      rw [drain, if_neg (by simpa [dynArray] using hz)] at hd
      cases hx : pass dynArray behave found s with
      | error e => rw [hx] at hd; cases hd
      | ok u =>
        rw [hx] at hd
        obtain ⟨hu, hle⟩ := pass_size h hx
        exact ih u.2 hu (by omega) hd

theorem dynArray_drains_iff (a : DynArrayT) (h : Wf a) :
    Drains dynArray behave found (contents a) a ↔ a.size = 0 := by
  constructor
  · rintro ⟨fuel, s, hrun, -⟩
    by_cases hz : a.size = 0
    · exact hz
    · exact absurd hrun (not_drains fuel true h hz)
  · intro hz
    have hempty : dynArray.isEmpty a = true := by simpa [dynArray] using hz
    have hnil : contents a = [] := List.length_eq_zero_iff.mp (by rw [contents_length]; exact hz)
    have hrun : drain dynArray behave found 2 true { prsnt := a } = .ok { prsnt := a } := by
      show drain dynArray behave found 1 false { prsnt := a } = _
      rw [drain, if_pos hempty]
    exact ⟨2, _, hrun, hempty, by simp [hnil, pushed], by simp [hnil, pushed]⟩

/-- **The port drains its array exactly when there is nothing to drain**, where the vector of
    function.cpp drains always. -/
theorem prsnt_drains_iff {a : DynArrayT} (h : Wf a) (hb : Behaves behave found (contents a)) :
    Drains vector behave found (contents a) (contents a) ∧
      (Drains dynArray behave found (contents a) a ↔ a.size = 0) :=
  ⟨vector_drains hb, dynArray_drains_iff a h⟩

end

/-- Nobody pushes. -/
def silent (_ : Nat) : Round := { pushes := [], prj := false }

theorem silent_behaves {l : List Ptr} (hl : l.Nodup) : Behaves silent (fun _ => true) l where
  finite := ⟨0, fun _ _ => rfl⟩
  distinct n := by
    have hnil : pushed silent n = [] := List.flatMap_eq_nil_iff.mpr fun _ _ => rfl
    rw [hnil, List.append_nil]
    exact hl
  found _ _ _ := rfl

/-- An array of pointers with the pointer 1 in it. -/
def onePending : DynArrayT :=
  { freshArray 16 8 false (fun o => if o = 0 then 1 else 0) with size := 1 }

theorem onePending_wf : Wf onePending :=
  ⟨by decide, ⟨4, by decide, by decide, rfl⟩, by decide, rfl⟩

/-- The vector with this one element drains; so would the array if it were empty. -/
theorem prsnt_drains_one :
    Drains vector silent (fun _ => true) (contents onePending) (contents onePending) ∧
      (Drains dynArray silent (fun _ => true) (contents onePending) onePending ↔ onePending.size = 0) :=
  prsnt_drains_iff onePending_wf (silent_behaves (by decide))

/-- One element, no pushes: the first pass executes and destroys it, the second is handed the same
    pointer again. -/
theorem extracted_again :
    (∃ t, pass dynArray silent (fun _ => true) { prsnt := onePending } = .ok (t, false) ∧
      t.executed = contents onePending ∧ t.destroyed = contents onePending ∧
      contents t.prsnt = contents onePending) ∧
    drain dynArray silent (fun _ => true) 4 true { prsnt := onePending } = .error .dangling ∧
    ¬ Drains dynArray silent (fun _ => true) (contents onePending) onePending := by
  refine ⟨⟨_, rfl, rfl, rfl, rfl⟩, rfl, ?_⟩
  rintro ⟨fuel, s, hrun, -⟩
  exact not_drains fuel true onePending_wf (by decide) hrun

end Msvl.Prsnt
