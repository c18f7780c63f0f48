/-
  The scan of the children of a PAL node, `pal_node_is_correct_and_exit` of node.c.

  A pointer `it` walks over the slots of the child array up to `dyn_array_back(..) + 1`, and an index
  `i` is counted along.  Of an empty array the front is NULL and so is the back: `it` starts one below
  the end.  A finished leaf is freed and then erased, and the array's destructor destroys what the
  slot still holds.  Children are asked by `node_is_correct_and_exit`, which scans a PAL node in turn.

  1. `Slot` — where `it` may point.
  2. `palScan` — the loop; `palNodeIsCorrectAndExit` — the function, and its recursion.  What AND and
     PRJ children answer, and do below themselves, is `other`: these functions do not compile.
  3. `Scanned` — what a scan is to do.
  4. `palScan_step` — one round; `palScan_quiet`, `palScan_returned` — the rounds without a finished
     leaf, and what a scan that returns tells.
  5. `Sound` — trees without finished leaves and empty arrays.
  6. `palNodeIsCorrectAndExit_iff` — a scan does what it is to do where the tree is sound.
-/
import LibMSVL.Port.Destroy

namespace Msvl.Port

open Msvl.Fault
open Msvl.Function (Ptr Tid NodeType NodeLength)

/-! ## The scan -/

/-- `node_t **`: counted from NULL, or from the array of a node. -/
inductive Slot
  | null (k : Nat)
  | array (k : Nat)
  deriving DecidableEq, Repr

/-- `++it` -/
def Slot.next : Slot → Slot
  | null k => null (k + 1)
  | array k => array (k + 1)

/-- `dyn_array_front` -/
def front (childs : List Ptr) : Slot := if childs = [] then .null 0 else .array 0

/-- `dyn_array_back(..) + 1` -/
def behindBack (childs : List Ptr) : Slot := if childs = [] then .null 1 else .array childs.length

/-- `*it` -/
def deref (childs : List Ptr) : Slot → M Ptr
  | .null _ => throw .nullPointer
  | .array k =>
    match childs[k]? with
    | some p => pure p
    | none => throw .outOfBounds

/-- `node_is_correct_and_exit`, by type. -/
def nodeIsCorrectAndExit (pal other : Ptr → M Bool) (this : Ptr) : M Bool := do
  let n ← load this
  match n.type with
  | .leaf =>
    let exited ← nodeIsExit this
    pure (exited || n.len != .more)
  | .keep | .alw => nodeIsExit this
  | .pal => pal this
  | .and | .prj => other this

/-- `dyn_array_erase`: the destructor on the slot, then the slots behind it move up. -/
def arrayErase (destructor : Ptr → M Unit) (this : Ptr) (i : Nat) : M Unit := do
  let n ← load this
  match (n.childs.getD [])[i]? with
  | none => pure ()
  | some c =>
    destructor c
    store this fun n => { n with childs := n.childs.map fun cs => cs.eraseIdx i }

/-- `if(node_get_len(node) == EMPTY) this->has_empty = true` -/
def setHasEmpty (this : Ptr) (len : NodeLength) : M Unit :=
  if len = .empty then store this fun n => { n with hasEmpty := true } else pure ()

/-- The branch for a finished leaf; gives `empty_num`. -/
def palRemove (f : Nat) (this node : Ptr) (i emptyNum : Nat) : M Nat := do
  let c ← load node
  setHasEmpty this c.len
  free node
  arrayErase (nodeDestroy f) this i
  pure (if c.len = .empty then emptyNum + 1 else emptyNum)

/-- The loop of `pal_node_is_correct_and_exit`. -/
def palScan (correct : Ptr → M Bool) : Nat → Ptr → Slot → Nat → Nat → M Nat
  | 0, _, _, _, _ => throw .fuel
  | f + 1, this, it, i, emptyNum => do
    let n ← load this
    if it = behindBack (n.childs.getD []) then pure emptyNum
    else
      let node ← deref (n.childs.getD []) it
      note (.visited this node)
      let exited ← correct node
      let c ← load node
      if exited && c.type == .leaf then
        let emptyNum ← palRemove f this node i emptyNum
        palScan correct f this it i emptyNum
      else palScan correct f this it.next (i + 1) emptyNum

/-- `pal_node_is_correct_and_exit` -/
def palNodeIsCorrectAndExit (other : Ptr → M Bool) : Nat → Ptr → M Bool
  | 0, _ => throw .fuel
  | f + 1, this => do
    let n ← load this
    let size := (n.childs.getD []).length
    let correct := nodeIsCorrectAndExit (palNodeIsCorrectAndExit other f) other
    let emptyNum ← palScan correct f this (front (n.childs.getD [])) 0 0
    let n ← load this
    if n.len = .empty then pure true
    else if emptyNum = size then
      store this fun n => { n with len := .empty }
      pure true
    else pure false

/-! ## What it is to do -/

/-- A leaf that has exited, or waits for nothing more in this state. -/
def finishedLeaf (m : Mem) (c : Ptr) : Bool :=
  match m.heap c with
  | some n => n.type == .leaf && (n.thread == 0 || m.exited n.thread || n.len != .more)
  | none => false

/-- A visit of the scan of `this`. -/
def Event.isVisit (this : Ptr) : Event → Bool
  | .visited owner _ => owner == this
  | _ => false

/-- **A scan** of `cs`: each child is visited once and in order, the finished leaves are no children
    any more, and each of them has been destroyed once. -/
structure Scanned (m : Mem) (this : Ptr) (cs : List Ptr) (m' : Mem) : Prop where
  visits : m'.log.filter (Event.isVisit this) =
    m.log.filter (Event.isVisit this) ++ cs.map (.visited this)
  childs : ∃ n, m'.heap this = some n ∧ n.childs = some (cs.filter fun c => !finishedLeaf m c)
  destroyed : ∀ c, m'.log.count (.freed c) =
    m.log.count (.freed c) + if c ∈ cs ∧ finishedLeaf m c = true then 1 else 0

/-! ## Trees below a PAL node -/

/-- The nodes below a PAL node, down to the children of PAL nodes. -/
inductive Grown (m : Mem) : Tree → Prop
  | node {p : Ptr} {n : Node} {kids : List Tree} (heap : m.heap p = some n)
      (childs : n.type = .pal → n.childs = some (kids.map Tree.ptr))
      (bare : n.type ≠ .pal → kids = []) (below : ∀ k ∈ kids, Grown m k) : Grown m (.node p kids)

/-- The types of a tree without AND and PRJ nodes. -/
inductive Plain (m : Mem) : Tree → Prop
  | node {p : Ptr} {n : Node} {kids : List Tree} (heap : m.heap p = some n)
      (type : n.type ≠ .and ∧ n.type ≠ .prj) (below : ∀ k ∈ kids, Plain m k) : Plain m (.node p kids)

/-- A leaf, KEEP or ALW node, or a PAL node that has children, none of them a finished leaf, and whose
    children are sound, too. -/
inductive Sound (m : Mem) : Tree → Prop
  | terminal {p : Ptr} {n : Node} (heap : m.heap p = some n)
      (type : n.type = .leaf ∨ n.type = .keep ∨ n.type = .alw) : Sound m (.node p [])
  | pal {p : Ptr} {n : Node} {kids : List Tree} (heap : m.heap p = some n) (type : n.type = .pal)
      (some_ : kids ≠ []) (busy : ∀ k ∈ kids, finishedLeaf m k.ptr = false)
      (below : ∀ k ∈ kids, Sound m k) : Sound m (.node p kids)

theorem mem_ptrsAll {x : Ptr} {ts : List Tree} : x ∈ Tree.ptrsAll ts ↔ ∃ t ∈ ts, x ∈ t.ptrs := by
  induction ts with
  | nil => simp [Tree.ptrsAll]
  | cons t ts ih => simp [Tree.ptrsAll, ih]

/-- The memory tells the tree. -/
theorem Grown.unique {m : Mem} {t : Tree} (h : Grown m t) :
    ∀ t', Grown m t' → t.ptr = t'.ptr → t = t' := by
  induction h with
  | @node p n kids heap childs bare below ih =>
    rintro _ ⟨heap', childs', bare', below'⟩ heq
    rename_i p' n' kids'
    obtain rfl : p = p' := heq
    cases heap.symm.trans heap'
    refine congrArg (Tree.node p) ?_
    by_cases hpal : n.type = .pal
    · have hmap := Option.some.inj ((childs hpal).symm.trans (childs' hpal))
      clear heap heap' childs childs' bare bare' below
      induction kids generalizing kids' with
      | nil => exact (List.map_eq_nil_iff.mp hmap.symm).symm
      | cons k kids ihk =>
        cases kids' with
        | nil => cases hmap
        | cons k' kids' =>
          injection hmap with hk hmap
          rw [ih k List.mem_cons_self k' (below' k' List.mem_cons_self) hk]
          refine congrArg (k' :: ·) (ihk (fun x hx => ih x (List.mem_cons_of_mem k hx))
            (fun x hx => below' x (List.mem_cons_of_mem k' hx)) hmap)
    · rw [bare hpal, bare' hpal]

/-- Every node of a tree has its own tree, which is smaller. -/
theorem Grown.subtree {m : Mem} {t : Tree} (h : Grown m t) :
    ∀ x ∈ t.ptrs, ∃ u, Grown m u ∧ u.ptr = x ∧ sizeOf u ≤ sizeOf t := by
  induction h with
  | @node p n kids heap childs bare below ih =>
    intro x hx
    rcases List.mem_cons.mp (show x ∈ p :: Tree.ptrsAll kids from hx) with rfl | hx
    · exact ⟨_, .node heap childs bare below, rfl, Nat.le_refl _⟩
    · obtain ⟨k, hk, hxk⟩ := mem_ptrsAll.mp hx
      obtain ⟨u, hu, rfl, hle⟩ := ih k hk x hxk
      have hlt := List.sizeOf_lt_of_mem hk
      exact ⟨u, hu, rfl, by rw [Tree.node.sizeOf_spec]; omega⟩

/-- No node is below itself. -/
theorem Grown.not_below {m : Mem} {t : Tree} (h : Grown m t) {k : Tree} (hk : k ∈ t.kids) :
    t.ptr ∉ k.ptrs := by
  intro hx
  obtain ⟨p, kids⟩ := t
  have hbelow : Grown m k := by
    cases h with
    | node _ _ _ below => exact below k hk
  obtain ⟨u, hu, hptr, hle⟩ := hbelow.subtree _ hx
  have hlt := List.sizeOf_lt_of_mem (show k ∈ kids from hk)
  rw [← h.unique u hu hptr.symm, Tree.node.sizeOf_spec] at hle
  omega

/-! ## One round -/

section

variable {m : Mem} {this c : Ptr} {n k : Node} {done rest : List Ptr} {correct : Ptr → M Bool}
  {b : Bool} {m' : Mem} (f e : Nat) (hthis : m.heap this = some n)
  (hchilds : n.childs = some (done ++ c :: rest))

include hthis hchilds

/-- **One round**, at the child behind those in `done`. -/
theorem palScan_step :
    palScan correct (f + 1) this (.array done.length) done.length e m =
      (correct c >>= fun exited => load c >>= fun k =>
        if exited && k.type == .leaf then
          palRemove f this c done.length e >>=
            fun e => palScan correct f this (.array done.length) done.length e
        else palScan correct f this (.array (done.length + 1)) (done.length + 1) e)
        (m.notes [.visited this c]) := by
  have hne : Slot.array done.length ≠ behindBack (done ++ c :: rest) := by
    rw [behindBack, if_neg (by simp)]
    simp
  have hderef : deref (done ++ c :: rest) (.array done.length) m = .ok (c, m) := by
    simp [deref]
  rw [palScan, bind_ok (load_ok hthis), hchilds, Option.getD_some, if_neg hne, bind_ok hderef,
    bind_ok (show note (.visited this c) m = .ok ((), m.notes [.visited this c]) from rfl)]
  rfl

omit hchilds in
/-- A finished leaf is not removed: it is freed, and then destroyed out of the slot it still has. -/
theorem palRemove_faults {cs : List Ptr} {i : Nat} (hchilds : n.childs = some cs)
    (hi : cs[i]? = some c) (hc : m.heap c = some k) : Faults (palRemove f this c i e) m := by
  intro b u hok
  rw [palRemove, bind_ok (load_ok hc)] at hok
  obtain ⟨_, m1, hstore, hok⟩ := ok_of_bind hok
  obtain ⟨_, m2, hfree, hok⟩ := ok_of_bind hok
  obtain ⟨_, m3, herase, -⟩ := ok_of_bind hok
  -- the array is as it was
  have hm1 : ∃ n1, m1.heap this = some n1 ∧ n1.childs = some cs := by
    unfold setHasEmpty at hstore
    split at hstore
    · rw [store_ok _ hthis] at hstore
      cases hstore
      exact ⟨_, Mem.set_self m this _, hchilds⟩
    · cases hstore
      exact ⟨n, hthis, hchilds⟩
  obtain ⟨n1, hthis1, hchilds1⟩ := hm1
  have hm2 : m2 = (m1.set c none).notes [.freed c] := by
    cases hc1 : m1.heap c with
    | none =>
      rw [free_none hc1] at hfree
      cases hfree
    | some k1 =>
      rw [free_ok hc1] at hfree
      cases hfree
      rfl
  have hgone : m2.heap c = none := by
    rw [hm2]
    exact Mem.set_self m1 c none
  by_cases hsame : this = c
  · rw [arrayErase, bind_error (load_none (hsame ▸ hgone))] at herase
    cases herase
  · have hthis2 : m2.heap this = some n1 := by
      rw [hm2]
      exact (Mem.set_of_ne none hsame).trans hthis1
    rw [arrayErase, bind_ok (load_ok hthis2), hchilds1, Option.getD_some, hi] at herase
    obtain ⟨_, m4, hdestroy, -⟩ := ok_of_bind herase
    exact nodeDestroy_freed hgone f _ _ hdestroy

end

/-! ## What a scan that returns tells -/

/-- The verdict is one on a leaf. -/
def Judges (m : Mem) (c : Ptr) (b : Bool) : Prop :=
  ∀ k, m.heap c = some k → (b && k.type == .leaf) = finishedLeaf m c

theorem judges_composite {m : Mem} {c : Ptr} {k : Node} (hc : m.heap c = some k)
    (htype : k.type ≠ .leaf) (b : Bool) : Judges m c b := by
  intro k' hk'
  obtain rfl := Option.some.inj (hc.symm.trans hk')
  rw [finishedLeaf, hc, beq_eq_false_iff_ne.mpr htype, Bool.and_false]
  simp [beq_eq_false_iff_ne.mpr htype]

/-- Where the call returns the tree is sound, and only the log has changed. -/
def Tells (m : Mem) (correct : Ptr → M Bool) (t : Tree) : Prop :=
  ∀ es b u, correct t.ptr (m.notes es) = .ok (b, u) →
    Sound m t ∧ (∃ es', u = m.notes (es ++ es')) ∧ Judges m t.ptr b

/-- A leaf, KEEP or ALW node is asked whether its thread has exited. -/
theorem terminal_ok {m : Mem} {c : Ptr} {k : Node} (hc : m.heap c = some k)
    (htype : k.type = .leaf ∨ k.type = .keep ∨ k.type = .alw) (pal other : Ptr → M Bool) :
    ∃ b, (∀ es, nodeIsCorrectAndExit pal other c (m.notes es) = .ok (b, m.notes es)) ∧
      Judges m c b := by
  have hexit : ∀ es, nodeIsExit c (m.notes es) = .ok (k.thread == 0 || m.exited k.thread, m.notes es) :=
    fun es => nodeIsExit_ok (m := m.notes es) hc
  have hload : ∀ es, load c (m.notes es) = .ok (k, m.notes es) := fun es => load_ok (m := m.notes es) hc
  rcases htype with htype | htype | htype
  · refine ⟨k.thread == 0 || m.exited k.thread || k.len != .more, fun es => ?_, fun k' hk' => ?_⟩
    · rw [nodeIsCorrectAndExit, bind_ok (hload es), htype]
      exact bind_ok (hexit es)
    · obtain rfl := Option.some.inj (hc.symm.trans hk')
      simp [finishedLeaf, hc, htype]
  all_goals
    refine ⟨_, fun es => ?_,
      judges_composite hc (by simp [htype]) (k.thread == 0 || m.exited k.thread)⟩
    rw [nodeIsCorrectAndExit, bind_ok (hload es), htype]
    exact hexit es

/-- The rounds of a scan that returns. -/
theorem palScan_returned {m : Mem} {this : Ptr} {n : Node} {correct : Ptr → M Bool}
    (hthis : m.heap this = some n) {rest : List Tree} :
    ∀ (done : List Ptr) (f e : Nat) (es : List Event), n.childs = some (done ++ rest.map Tree.ptr) →
      (∀ k ∈ rest, Tells m correct k ∧ ∃ c, m.heap k.ptr = some c) → ∀ e' u,
      palScan correct f this (.array done.length) done.length e (m.notes es) = .ok (e', u) →
      (∀ k ∈ rest, finishedLeaf m k.ptr = false ∧ Sound m k) ∧ e' = e ∧
        ∃ es', u = m.notes (es ++ es') := by
  induction rest with
  | nil =>
    intro done f e es hchilds _ e' u hok
    rw [List.map_nil, List.append_nil] at hchilds
    cases f with
    | zero => cases hok
    | succ f =>
      rw [palScan, bind_ok (load_ok (m := m.notes es) hthis), hchilds, Option.getD_some] at hok
      split at hok
      · cases hok
        exact ⟨nofun, rfl, [], congrArg m.notes (List.append_nil es).symm⟩
      · -- behind the last slot
        have hderef : deref done (.array done.length) (m.notes es) = .error .outOfBounds := by
          simp [deref]
        rw [bind_error hderef] at hok
        cases hok
  | cons k rest ih =>
    intro done f e es hchilds htells e' u hok
    cases f with
    | zero => cases hok
    | succ f =>
      obtain ⟨htell, c, hc⟩ := htells k List.mem_cons_self
      rw [palScan_step (m := m.notes es) f e hthis hchilds, Mem.notes_notes] at hok
      obtain ⟨exited, v, hcorrect, hok⟩ := ok_of_bind hok
      obtain ⟨hsound, ⟨es₁, rfl⟩, hjudge⟩ := htell _ _ _ hcorrect
      rw [bind_ok (load_ok (m := m.notes _) hc), hjudge c hc] at hok
      by_cases hbusy : finishedLeaf m k.ptr = true
      · rw [if_pos hbusy] at hok
        obtain ⟨_, t, hremove, -⟩ := ok_of_bind hok
        exact absurd hremove (palRemove_faults (m := m.notes _) f e hthis hchilds (by simp) hc _ _)
      · rw [if_neg hbusy] at hok
        have happend : done ++ (k :: rest).map Tree.ptr = (done ++ [k.ptr]) ++ rest.map Tree.ptr := by
          simp
        have hlen : (done ++ [k.ptr]).length = done.length + 1 := by simp
        rw [← hlen] at hok
        obtain ⟨hrest, rfl, es₂, rfl⟩ := ih (done ++ [k.ptr]) f e _ (happend ▸ hchilds)
          (fun x hx => htells x (List.mem_cons_of_mem k hx)) e' u hok
        refine ⟨fun x hx => ?_, rfl, _, congrArg m.notes ((List.append_assoc _ _ _).trans
          (List.append_assoc _ _ _))⟩
        rcases List.mem_cons.mp hx with rfl | hx
        · exact ⟨Bool.eq_false_iff.mpr hbusy, hsound⟩
        · exact hrest x hx

/-- Of an empty array the scan reads NULL. -/
theorem palScan_empty {m : Mem} {this : Ptr} {n : Node} {correct : Ptr → M Bool}
    (hthis : m.heap this = some n) (hchilds : n.childs = some []) (f : Nat) :
    Faults (palScan correct f this (front []) 0 0) m := by
  cases f with
  | zero => exact Faults.of_error rfl
  | succ f =>
    refine Faults.of_error (e := .nullPointer) ?_
    rw [palScan, bind_ok (load_ok hthis), hchilds, Option.getD_some, if_neg (by decide)]
    rfl

/-- **A scan that returns** has met a sound tree. -/
theorem palNode_tells {m : Mem} {p : Ptr} {n : Node} {kids : List Tree} {other : Ptr → M Bool}
    (hp : m.heap p = some n) (hpal : n.type = .pal) (hchilds : n.childs = some (kids.map Tree.ptr))
    {f : Nat}
    (htells : ∀ k ∈ kids,
      Tells m (nodeIsCorrectAndExit (palNodeIsCorrectAndExit other f) other) k ∧
        ∃ c, m.heap k.ptr = some c) {es : List Event} {b : Bool} {u : Mem}
    (hok : palNodeIsCorrectAndExit other (f + 1) p (m.notes es) = .ok (b, u)) :
    Sound m (.node p kids) ∧ ∃ es', u = m.notes (es ++ es') := by
  rw [palNodeIsCorrectAndExit, bind_ok (load_ok (m := m.notes es) hp), hchilds, Option.getD_some] at hok
  obtain ⟨e, v, hscan, hok⟩ := ok_of_bind hok
  have hne : kids ≠ [] := by
    rintro rfl
    exact palScan_empty (m := m.notes es) hp hchilds f _ _ hscan
  rw [front, if_neg (by simpa using hne)] at hscan
  obtain ⟨hkids, rfl, es', rfl⟩ := palScan_returned hp [] f 0 es hchilds htells e v hscan
  refine ⟨.pal hp hpal hne (fun k hk => (hkids k hk).1) fun k hk => (hkids k hk).2, es', ?_⟩
  have hlen : ¬ 0 = (kids.map Tree.ptr).length := by
    rw [List.length_map]
    exact fun h => hne (List.length_eq_zero_iff.mp h.symm)
  rw [bind_ok (load_ok (m := m.notes _) hp), if_neg hlen] at hok
  split at hok <;> cases hok <;> rfl

theorem Grown.tells {m : Mem} {t : Tree} (h : Grown m t) (hplain : Plain m t) (other : Ptr → M Bool) :
    ∀ f, Tells m (nodeIsCorrectAndExit (palNodeIsCorrectAndExit other f) other) t := by
  induction h with
  | @node p n kids heap childs bare below ih =>
    intro f es b u hok
    obtain ⟨heap', ⟨hand, hprj⟩, hbelow⟩ := hplain
    obtain rfl := Option.some.inj (heap.symm.trans heap')
    have hload : load p (m.notes es) = .ok (n, m.notes es) := load_ok (m := m.notes es) heap
    by_cases hpal : n.type = .pal
    · refine ⟨?_, ?_, judges_composite heap (by simp [hpal]) b⟩
      all_goals
        rw [Tree.ptr, nodeIsCorrectAndExit, bind_ok hload, hpal] at hok
        cases f with
        | zero => cases hok
        | succ f =>
          have hkids : ∀ k ∈ kids, Tells m (nodeIsCorrectAndExit (palNodeIsCorrectAndExit other f) other)
              k ∧ ∃ c, m.heap k.ptr = some c := by
            intro k hk
            refine ⟨ih k hk (hbelow k hk) f, ?_⟩
            cases below k hk with
            | node heap _ _ _ => exact ⟨_, heap⟩
          have htells := palNode_tells heap hpal (childs hpal) hkids hok
          first | exact htells.1 | exact htells.2
    · have hterm : n.type = .leaf ∨ n.type = .keep ∨ n.type = .alw := by
        cases htype : n.type <;> simp_all
      obtain ⟨b', hok', hjudge⟩ := terminal_ok heap hterm (palNodeIsCorrectAndExit other f) other
      cases (hok' es).symm.trans hok
      obtain rfl := bare hpal
      exact ⟨.terminal heap hterm, ⟨[], by rw [List.append_nil]⟩, hjudge⟩

/-! ## Sound trees -/

/-- The call returns, only the log changes, and what is added are visits of scans in the tree. -/
def Answers (m : Mem) (correct : Ptr → M Bool) (t : Tree) : Prop :=
  ∀ es, ∃ b es', correct t.ptr (m.notes es) = .ok (b, m.notes (es ++ es')) ∧ Judges m t.ptr b ∧
    ∀ ev ∈ es', ∃ o ∈ t.ptrs, ∃ c, ev = .visited o c

/-- Children among which no leaf is finished are visited, and nothing else happens. -/
theorem palScan_quiet {m : Mem} {this : Ptr} {n : Node} {correct : Ptr → M Bool} (e : Nat)
    (hthis : m.heap this = some n) {rest : List Tree} :
    ∀ (done : List Ptr) (f : Nat) (es : List Event), n.childs = some (done ++ rest.map Tree.ptr) →
      done ++ rest.map Tree.ptr ≠ [] → rest.length < f →
      (∀ k ∈ rest, Answers m correct k ∧ (∃ c, m.heap k.ptr = some c) ∧
        finishedLeaf m k.ptr = false ∧ this ∉ k.ptrs) →
      ∃ es', palScan correct f this (.array done.length) done.length e (m.notes es) =
          .ok (e, m.notes (es ++ es')) ∧
        es'.filter (Event.isVisit this) = rest.map (fun k => .visited this k.ptr) ∧
        ∀ ev ∈ es', ∃ o c, ev = .visited o c ∧ (o = this ∨ ∃ k ∈ rest, o ∈ k.ptrs) := by
  induction rest with
  | nil =>
    intro done f es hchilds hne hf _
    obtain ⟨f, rfl⟩ := Nat.exists_eq_succ_of_ne_zero (Nat.ne_of_gt hf)
    rw [List.map_nil, List.append_nil] at hchilds hne
    have hend : Slot.array done.length = behindBack done := by rw [behindBack, if_neg hne]
    refine ⟨[], ?_, rfl, nofun⟩
    rw [palScan, bind_ok (load_ok (m := m.notes es) hthis), hchilds, Option.getD_some, if_pos hend,
      List.append_nil]
    rfl
  | cons k rest ih =>
    intro done f es hchilds hne hf hkids
    obtain ⟨f, rfl⟩ := Nat.exists_eq_succ_of_ne_zero (Nat.ne_of_gt (Nat.zero_lt_of_lt hf))
    obtain ⟨hanswers, ⟨c, hc⟩, hbusy, hnot⟩ := hkids k List.mem_cons_self
    obtain ⟨b, es₁, hcorrect, hjudge, hvisits⟩ := hanswers (es ++ [.visited this k.ptr])
    have happend : done ++ (k :: rest).map Tree.ptr = (done ++ [k.ptr]) ++ rest.map Tree.ptr := by simp
    have hlen : (done ++ [k.ptr]).length = done.length + 1 := by simp
    obtain ⟨es₂, hscan, hfilter, hrest⟩ := ih (done ++ [k.ptr]) f
      (es ++ [.visited this k.ptr] ++ es₁) (happend ▸ hchilds) (happend ▸ hne)
      (Nat.lt_of_succ_lt_succ hf) fun x hx => hkids x (List.mem_cons_of_mem k hx)
    refine ⟨.visited this k.ptr :: (es₁ ++ es₂), ?_, ?_, ?_⟩
    · rw [palScan_step (m := m.notes es) f e hthis hchilds, Mem.notes_notes, bind_ok hcorrect,
        bind_ok (load_ok (m := m.notes _) hc), hjudge c hc, hbusy, if_neg Bool.false_ne_true, ← hlen,
        hscan]
      simp
    · have hnone : es₁.filter (Event.isVisit this) = [] := by
        rw [List.filter_eq_nil_iff]
        intro ev hev
        obtain ⟨o, ho, x, rfl⟩ := hvisits ev hev
        rw [Event.isVisit, beq_iff_eq]
        rintro rfl
        exact hnot ho
      have hself : Event.isVisit this (.visited this k.ptr) = true := beq_self_eq_true this
      rw [List.filter_cons_of_pos hself, List.filter_append, hnone, List.nil_append, hfilter]
      rfl
    · intro ev hev
      rcases List.mem_cons.mp hev with rfl | hev
      · exact ⟨this, k.ptr, rfl, Or.inl rfl⟩
      · rcases List.mem_append.mp hev with hev | hev
        · obtain ⟨o, ho, x, rfl⟩ := hvisits ev hev
          exact ⟨o, x, rfl, Or.inr ⟨k, List.mem_cons_self, ho⟩⟩
        · obtain ⟨o, x, rfl, ho⟩ := hrest ev hev
          refine ⟨o, x, rfl, ho.imp_right ?_⟩
          rintro ⟨y, hy, ho⟩
          exact ⟨y, List.mem_cons_of_mem k hy, ho⟩

/-- A scan of a sound PAL node. -/
theorem palNode_quiet {m : Mem} {p : Ptr} {n : Node} {kids : List Tree} {other : Ptr → M Bool}
    (hp : m.heap p = some n) (hchilds : n.childs = some (kids.map Tree.ptr)) (hne : kids ≠ []) {f : Nat}
    (hf : kids.length < f)
    (hkids : ∀ k ∈ kids,
      Answers m (nodeIsCorrectAndExit (palNodeIsCorrectAndExit other f) other) k ∧
        (∃ c, m.heap k.ptr = some c) ∧ finishedLeaf m k.ptr = false ∧ p ∉ k.ptrs) (es : List Event) :
    ∃ b es', palNodeIsCorrectAndExit other (f + 1) p (m.notes es) = .ok (b, m.notes (es ++ es')) ∧
      es'.filter (Event.isVisit p) = kids.map (fun k => .visited p k.ptr) ∧
      ∀ ev ∈ es', ∃ o ∈ (Tree.node p kids).ptrs, ∃ c, ev = .visited o c := by
  have hne' : kids.map Tree.ptr ≠ [] := by simpa using hne
  obtain ⟨es', hscan, hfilter, hvisits⟩ := palScan_quiet 0 hp [] f es hchilds hne' hf hkids
  replace hscan : palScan (nodeIsCorrectAndExit (palNodeIsCorrectAndExit other f) other) f p
    (.array 0) 0 0 (m.notes es) = _ := hscan
  have hlen : ¬ 0 = (kids.map Tree.ptr).length := by
    rw [List.length_map]
    exact fun h => hne (List.length_eq_zero_iff.mp h.symm)
  refine ⟨n.len == .empty, es', ?_, hfilter, fun ev hev => ?_⟩
  · rw [palNodeIsCorrectAndExit, bind_ok (load_ok (m := m.notes es) hp), hchilds, Option.getD_some,
      front, if_neg hne', bind_ok hscan, bind_ok (load_ok (m := m.notes _) hp), if_neg hlen]
    by_cases hempty : n.len = .empty
    · rw [if_pos hempty, hempty]
      rfl
    · rw [if_neg hempty, beq_eq_false_iff_ne.mpr hempty]
      rfl
  · obtain ⟨o, c, rfl, ho⟩ := hvisits ev hev
    refine ⟨o, ?_, c, rfl⟩
    rcases ho with rfl | ⟨k, hk, ho⟩
    · exact List.mem_cons_self
    · exact List.mem_cons_of_mem p (mem_ptrsAll.mpr ⟨k, hk, ho⟩)

/-- Some bound is large enough for all. -/
theorem exists_bound {P : Nat → Tree → Prop} {ts : List Tree}
    (h : ∀ t ∈ ts, ∃ F, ∀ f, F ≤ f → P f t) : ∃ F, ∀ f, F ≤ f → ∀ t ∈ ts, P f t := by
  induction ts with
  | nil => exact ⟨0, fun _ _ => nofun⟩
  | cons t ts ih =>
    obtain ⟨F, hF⟩ := h t List.mem_cons_self
    obtain ⟨G, hG⟩ := ih fun u hu => h u (List.mem_cons_of_mem t hu)
    refine ⟨max F G, fun f hf u hu => ?_⟩
    rcases List.mem_cons.mp hu with rfl | hu
    · exact hF f (Nat.le_trans (Nat.le_max_left F G) hf)
    · exact hG f (Nat.le_trans (Nat.le_max_right F G) hf) u hu

/-- **In a sound tree** every call returns, with enough of a bound. -/
theorem Sound.answers {m : Mem} {t : Tree} (h : Sound m t) (other : Ptr → M Bool) :
    Grown m t → ∃ F, ∀ f, F ≤ f →
      Answers m (nodeIsCorrectAndExit (palNodeIsCorrectAndExit other f) other) t := by
  induction h with
  | @terminal p n heap type =>
    refine fun _ => ⟨0, fun f _ es => ?_⟩
    obtain ⟨b, hok, hjudge⟩ := terminal_ok heap type (palNodeIsCorrectAndExit other f) other
    exact ⟨b, [], by rw [List.append_nil]; exact hok es, hjudge, nofun⟩
  | @pal p n kids heap type some_ busy _ ih =>
    intro hgrown
    have hnot : ∀ k ∈ kids, p ∉ k.ptrs := fun k hk => hgrown.not_below hk
    obtain ⟨heap', childs, -, below⟩ := hgrown
    obtain rfl := Option.some.inj (heap.symm.trans heap')
    obtain ⟨F, hF⟩ := exists_bound fun k hk => ih k hk (below k hk)
    refine ⟨max F (kids.length + 1) + 1, fun f hf es => ?_⟩
    obtain ⟨f, rfl⟩ := Nat.exists_eq_succ_of_ne_zero (Nat.ne_of_gt (Nat.zero_lt_of_lt hf))
    have hle := Nat.le_of_succ_le_succ hf
    have hkids : ∀ k ∈ kids, Answers m
        (nodeIsCorrectAndExit (palNodeIsCorrectAndExit other f) other) k ∧
        (∃ c, m.heap k.ptr = some c) ∧ finishedLeaf m k.ptr = false ∧ p ∉ k.ptrs := by
      intro k hk
      refine ⟨hF f (Nat.le_trans (Nat.le_max_left _ _) hle) k hk, ?_, busy k hk, hnot k hk⟩
      cases below k hk with
      | node heap _ _ _ => exact ⟨_, heap⟩
    obtain ⟨b, es', hok, -, hvisits⟩ := palNode_quiet heap (childs type) some_
      (Nat.le_trans (Nat.le_max_right _ _) hle) hkids es
    refine ⟨b, es', ?_, judges_composite heap (by simp [type]) b, hvisits⟩
    rw [Tree.ptr, nodeIsCorrectAndExit, bind_ok (load_ok (m := m.notes es) heap), type]
    exact hok

/-! ## The scan as a whole -/

/-- The scan returns and has done what it is to do. -/
def ScansWell (other : Ptr → M Bool) (m : Mem) (t : Tree) : Prop :=
  ∃ f b m', palNodeIsCorrectAndExit other f t.ptr m = .ok (b, m') ∧
    Scanned m t.ptr (t.kids.map Tree.ptr) m'

/-- Where nothing but visits is logged, a scan of busy children is done. -/
theorem scanned_of_visits {m : Mem} {p : Ptr} {n : Node} {kids : List Tree} {es : List Event}
    (hp : m.heap p = some n) (hchilds : n.childs = some (kids.map Tree.ptr))
    (hbusy : ∀ k ∈ kids, finishedLeaf m k.ptr = false)
    (hfilter : es.filter (Event.isVisit p) = kids.map fun k => .visited p k.ptr)
    (hvisits : ∀ ev ∈ es, ∃ o c, ev = .visited o c) :
    Scanned m p (kids.map Tree.ptr) (m.notes es) := by
  have hbusy' : ∀ c ∈ kids.map Tree.ptr, finishedLeaf m c = false := by
    intro c hc
    obtain ⟨k, hk, rfl⟩ := List.mem_map.mp hc
    exact hbusy k hk
  refine ⟨?_, ⟨n, hp, ?_⟩, fun c => ?_⟩
  · show (m.log ++ es).filter _ = _
    rw [List.filter_append, hfilter, List.map_map]
    rfl
  · have hall : (kids.map Tree.ptr).filter (fun c => !finishedLeaf m c) = kids.map Tree.ptr := by
      rw [List.filter_eq_self]
      intro c hc
      rw [hbusy' c hc]
      rfl
    rw [hall, hchilds]
  · have hnot : ¬ (c ∈ kids.map Tree.ptr ∧ finishedLeaf m c = true) := by
      rintro ⟨hc, hfinished⟩
      rw [hbusy' c hc] at hfinished
      cases hfinished
    have hnone : es.count (.freed c) = 0 := by
      rw [List.count_eq_zero]
      intro hmem
      obtain ⟨o, x, heq⟩ := hvisits _ hmem
      cases heq
    rw [if_neg hnot]
    show (m.log ++ es).count _ = _
    rw [List.count_append, hnone]

/-- **The scan of a PAL node** does what it is to do where the tree below is sound; and if there are
    no AND and PRJ nodes in it, nowhere else. -/
theorem palNodeIsCorrectAndExit_iff {m : Mem} {p : Ptr} {n : Node} {kids : List Tree}
    (hgrown : Grown m (.node p kids)) (hp : m.heap p = some n) (hpal : n.type = .pal)
    (other : Ptr → M Bool) :
    (Sound m (.node p kids) → ScansWell other m (.node p kids)) ∧
      (Plain m (.node p kids) → ScansWell other m (.node p kids) → Sound m (.node p kids)) := by
  have hnil : m.notes [] = m := by rw [Mem.notes, List.append_nil]
  constructor
  · intro hsound
    cases hsound with
    | terminal heap type =>
      obtain rfl := Option.some.inj (hp.symm.trans heap)
      rw [hpal] at type
      simp at type
    | pal heap type some_ busy below =>
      have hnot : ∀ k ∈ kids, p ∉ k.ptrs := fun k hk => hgrown.not_below hk
      obtain ⟨heap', childs, -, grown⟩ := hgrown
      obtain rfl := Option.some.inj (hp.symm.trans heap')
      obtain ⟨G, hG⟩ := exists_bound fun k hk => (below k hk).answers other (grown k hk)
      obtain ⟨b, es, hok, hfilter, hvisits⟩ := palNode_quiet hp (childs hpal) some_
        (f := max G (kids.length + 1)) (Nat.le_max_right _ _) (fun k hk => by
          refine ⟨hG _ (Nat.le_max_left _ _) k hk, ?_, busy k hk, hnot k hk⟩
          cases grown k hk with
          | node heap _ _ _ => exact ⟨_, heap⟩) []
      rw [hnil, List.nil_append] at hok
      refine ⟨_, b, _, hok, scanned_of_visits hp (childs hpal) busy hfilter fun ev hev => ?_⟩
      obtain ⟨o, -, c, rfl⟩ := hvisits ev hev
      exact ⟨o, c, rfl⟩
  · rintro hplain ⟨f, b, m', hok, -⟩
    refine (hgrown.tells hplain other f [] b m' ?_).1
    rw [hnil, Tree.ptr, nodeIsCorrectAndExit, bind_ok (load_ok hp), hpal]
    exact hok

/-- A PAL node, node 1, with the leaves 2 and 3; 3 is at the end of its interval, or not. -/
def palPair (len : NodeLength) (childs : List Ptr) : Mem where
  heap
    | 1 => some { thread := 11, father := none, childs := some childs, type := .pal, newType := .pal,
                  len := .more, isInit := true, hasEmpty := false, mutex := none, cond := none,
                  prjBlock := false, extQ := false }
    | 2 => some { thread := 12, father := some (.node 1), childs := some [], type := .leaf,
                  newType := .leaf, len := .more, isInit := true, hasEmpty := false, mutex := none,
                  cond := none, prjBlock := false, extQ := false }
    | 3 => some { thread := 13, father := some (.node 1), childs := some [], type := .leaf,
                  newType := .leaf, len := len, isInit := true, hasEmpty := false, mutex := none,
                  cond := none, prjBlock := false, extQ := false }
    | _ => none
  next := 4
  threadToNode
    | 11 => some 1
    | 12 => some 2
    | 13 => some 3
    | _ => none
  keepChilds := none
  isCopied := false
  threadRoot := some 1
  gFalse := some false
  exited := fun _ => false
  log := []

/-- The tree of node 1. -/
def palTree (childs : List Ptr) : Tree := .node 1 (childs.map fun c => .node c [])

theorem palTree_grown (len : NodeLength) : Grown (palPair len [2, 3]) (palTree [2, 3]) := by
  refine .node rfl (fun _ => rfl) (fun h => absurd rfl h) ?_
  rintro k hk
  obtain rfl | rfl : k = .node 2 [] ∨ k = .node 3 [] := by simpa using hk
  · exact .node rfl (by simp) (fun _ => rfl) nofun
  · exact .node rfl (by simp) (fun _ => rfl) nofun

theorem palTree_plain (len : NodeLength) : Plain (palPair len [2, 3]) (palTree [2, 3]) := by
  refine .node rfl (by simp) ?_
  rintro k hk
  obtain rfl | rfl : k = .node 2 [] ∨ k = .node 3 [] := by simpa using hk
  · exact .node rfl (by simp) nofun
  · exact .node rfl (by simp) nofun

theorem palPair_scanned :
    ScansWell (fun _ => pure false) (palPair .more [2, 3]) (palTree [2, 3]) ∧
      Sound (palPair .more [2, 3]) (palTree [2, 3]) := by
  have hsound : Sound (palPair .more [2, 3]) (palTree [2, 3]) := by
    refine .pal rfl rfl (by simp) (by simp [Tree.ptr, finishedLeaf, palPair]) ?_
    rintro k hk
    obtain rfl | rfl : k = .node 2 [] ∨ k = .node 3 [] := by simpa using hk
    · exact .terminal rfl (Or.inl rfl)
    · exact .terminal rfl (Or.inl rfl)
  obtain ⟨hif, honlyif⟩ := palNodeIsCorrectAndExit_iff (palTree_grown .more) rfl rfl
    fun _ => pure false
  exact ⟨hif hsound, honlyif (palTree_plain .more) (hif hsound)⟩

/-- A finished leaf, or no child at all. -/
theorem scan_breaks :
    ¬ ScansWell (fun _ => pure false) (palPair .empty [2, 3]) (palTree [2, 3]) ∧
      ¬ ScansWell (fun _ => pure false) (palPair .more []) (palTree []) := by
  have hnil : ∀ m : Mem, m.notes [] = m := fun m => by rw [Mem.notes, List.append_nil]
  constructor
  · rintro ⟨f, b, m', hok, -⟩
    have htells := (palTree_grown .empty).tells (palTree_plain .empty) (fun _ => pure false) f [] b m'
    rw [hnil] at htells
    obtain ⟨hsound, -⟩ := htells hok
    cases hsound with
    | pal _ _ _ busy _ =>
      have := busy (.node 3 []) (by simp)
      simp [Tree.ptr, finishedLeaf, palPair] at this
  · rintro ⟨f, b, m', hok, -⟩
    cases f with
    | zero => cases hok
    | succ f =>
      rw [palTree, Tree.ptr, palNodeIsCorrectAndExit,
        bind_ok (load_ok (m := palPair .more []) rfl)] at hok
      obtain ⟨_, _, hscan, -⟩ := ok_of_bind hok
      exact palScan_empty (m := palPair .more []) rfl rfl f _ _ hscan

end Msvl.Port
