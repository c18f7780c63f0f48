/-
  The destruction of a tree of nodes by `node_destroy`.

  `node_destroy` frees the children in a loop and then destroys the child array, whose destructor is
  `node_destroy` again: for slots that hold what has just been freed.

  1. `Stands` — a tree of registered nodes; `Destroyed` — what its destruction is to leave.
  2. `nodeDestroy_childless`, `nodeDestroy_live`, `nodeDestroy_parent` — what `node_destroy` does of
     a node without children whose thread has exited or is alive, and of one with a child.
  3. `nodeDestroy_iff` — when it is the destruction of the tree.
-/
import LibMSVL.Port.Node

namespace Msvl.Port

open Msvl.Fault
open Msvl.Function (Ptr Tid NodeType NodeLength)

/-! ## Trees -/

/-- A tree of nodes, by their addresses. -/
inductive Tree
  | node (p : Ptr) (kids : List Tree)

namespace Tree

def ptr : Tree → Ptr
  | node p _ => p

def kids : Tree → List Tree
  | node _ kids => kids

mutual

/-- The nodes of a tree, the root first. -/
def ptrs : Tree → List Ptr
  | node p kids => p :: ptrsAll kids

def ptrsAll : List Tree → List Ptr
  | [] => []
  | t :: ts => t.ptrs ++ ptrsAll ts

end

/-- The threads of the nodes of a tree. -/
def threads (m : Mem) (t : Tree) : List Tid := t.ptrs.filterMap fun p => (m.heap p).map Node.thread

end Tree

/-- The tree stands in the memory, every node registered under its thread. -/
inductive Stands (m : Mem) : Tree → Prop
  | node {p : Ptr} {n : Node} {kids : List Tree} (heap : m.heap p = some n)
      (childs : n.childs = some (kids.map Tree.ptr)) (thread : m.threadToNode n.thread = some p)
      (below : ∀ k ∈ kids, Stands m k) : Stands m (.node p kids)

/-- What is done once for a node that is destroyed. -/
def events (m : Mem) (p : Ptr) : List Event :=
  match m.heap p with
  | some n =>
    .joined n.thread :: (n.mutex.toList.map .mutexDestroyed ++
      (n.cond.toList.map .condDestroyed ++ [.freed p]))
  | none => []

/-- **The destruction of a tree**: each node freed once, its thread joined and taken out of the map,
    its mutex and cond destroyed. -/
structure Destroyed (m : Mem) (t : Tree) (m' : Mem) : Prop where
  heap : ∀ x, m'.heap x = if x ∈ t.ptrs then none else m.heap x
  map : ∀ x, m'.threadToNode x = if x ∈ t.threads m then none else m.threadToNode x
  log : m'.log.Perm (m.log ++ t.ptrs.flatMap (events m))

/-! ## One node -/

/-- What `node_destroy` leaves where a node has no children. -/
def Mem.without (m : Mem) (p : Ptr) (n : Node) : Mem :=
  (((m.unmap n.thread).exit n.thread).set p none).notes
    (.joined n.thread :: (n.mutex.toList.map .mutexDestroyed ++
      (n.cond.toList.map .condDestroyed ++ [.freed p])))

theorem forM_note (g : Ptr → Event) (qs : List Ptr) (m : Mem) :
    forM qs (fun q => note (g q)) m = .ok ((), m.notes (qs.map g)) := by
  induction qs generalizing m with
  | nil => simp [Mem.notes]
  | cons q qs ih =>
    rw [List.forM_cons, bind_ok (show note (g q) m = .ok ((), m.notes [g q]) from rfl), ih,
      Mem.notes_notes]
    rfl

/-- No signal is sent: the thread has exited, or the node is the root. -/
def Mem.Silent (m : Mem) (p : Ptr) : Prop := m.isExit p = true ∨ m.threadRoot = some p

/-- A signal ends the process. -/
theorem signal_run {m : Mem} {p : Ptr} {n : Node} (hp : m.heap p = some n) :
    (m.Silent p → signal p m = .ok ((), m)) ∧ (¬ m.Silent p → signal p m = .error .killed) := by
  have hexit : m.isExit p = (n.thread == 0 || m.exited n.thread) := by
    rw [Mem.isExit, hp, Option.any_some]
  rw [signal, bind_ok (nodeIsExit_ok hp), bind_ok (get_run m), ← hexit]
  constructor
  · rintro (hsilent | hroot)
    · rw [hsilent]
      rfl
    · rw [hroot, bne_self_eq_false, Bool.and_false]
      rfl
  · intro hlive
    have hlive' := not_or.mp hlive
    rw [Bool.not_eq_true] at hlive'
    rw [hlive'.1, bne_iff_ne.mpr hlive'.2]
    rfl

theorem release_ok {m : Mem} {p : Ptr} {n : Node} (hp : m.heap p = some n)
    (hmap : m.threadToNode n.thread = some p) (hsilent : m.Silent p) :
    release p m = .ok ((), m.without p n) := by
  have herase : mapErase n.thread m = .ok (true, m.unmap n.thread) := by
    show Except.ok ((m.threadToNode n.thread).isSome, m.unmap n.thread) = _
    rw [hmap]
    rfl
  let m1 := m.unmap n.thread
  let m2 := (m1.exit n.thread).notes [.joined n.thread]
  have hsignal : signal p m1 = .ok ((), m1) := (signal_run (m := m1) hp).1 hsilent
  have hjoin : join n.thread m1 = .ok ((), m2) := rfl
  rw [release, bind_ok (load_ok hp), bind_ok herase, bind_ok (show check true m1 = .ok ((), m1) from rfl),
    bind_ok hsignal, bind_ok hjoin, bind_ok (store_ok (m := m2) _ hp), bind_ok (forM_note _ _ _),
    bind_ok (forM_note _ _ _)]
  have h3 : (m2.set p (some { n with thread := 0 })).heap p = _ := Mem.set_self m2 p _
  rw [free_ok (m := ((m2.set p _).notes _).notes _) h3]
  refine congrArg (fun m => Except.ok ((), m)) ?_
  show (((((m2.set p _).set p none).notes _).notes _).notes _) = m.without p n
  rw [Mem.set_set, Mem.notes_notes, Mem.notes_notes]
  show (((m1.exit n.thread).set p none).notes [.joined n.thread]).notes _ = m.without p n
  rw [Mem.notes_notes]
  rfl

/-- A thread that is alive is sent the signal, and nothing is released. -/
theorem release_killed {m : Mem} {p : Ptr} {n : Node} (hp : m.heap p = some n)
    (hmap : m.threadToNode n.thread = some p) (hlive : ¬ m.Silent p) :
    release p m = .error .killed := by
  have herase : mapErase n.thread m = .ok (true, m.unmap n.thread) := by
    show Except.ok ((m.threadToNode n.thread).isSome, m.unmap n.thread) = _
    rw [hmap]
    rfl
  rw [release, bind_ok (load_ok hp), bind_ok herase,
    bind_ok (show check true (m.unmap n.thread) = .ok ((), m.unmap n.thread) from rfl)]
  exact bind_error ((signal_run (m := m.unmap n.thread) hp).2 hlive)

/-- Forgetting the father leaves the thread as it is. -/
theorem silent_orphan {m : Mem} {p : Ptr} {n : Node} (hp : m.heap p = some n) :
    (m.set p (some { n with father := none })).Silent p ↔ m.Silent p := by
  unfold Mem.Silent Mem.isExit
  rw [Mem.set_self, hp]
  rfl

section

variable {m : Mem} {p : Ptr} {n : Node} (hp : m.heap p = some n) (hc : n.childs.getD [] = [])
  (hcopied : m.isCopied = false)

include hp hc hcopied

/-- Without children `node_destroy` comes to the release at once. -/
theorem nodeDestroy_release (f : Nat) :
    nodeDestroy (f + 1) p m = release p (m.set p (some { n with father := none })) := by
  let m1 := m.set p (some { n with father := none })
  have h1 : m1.heap p = some { n with father := none } := Mem.set_self m p _
  have hfree : freeChilds p (n.childs.getD []) m1 = .ok ((), m1) := by
    rw [hc]
    rfl
  have hclear : arrayClear (nodeDestroy f) n.childs m1 = .ok ((), m1) := by
    rw [arrayClear, hc]
    rfl
  rw [nodeDestroy, bind_ok (get_run m), hcopied, if_neg Bool.false_ne_true, bind_ok (store_ok _ hp),
    bind_ok (load_ok h1), bind_ok hfree, bind_ok hclear]

variable (hmap : m.threadToNode n.thread = some p)

include hmap

theorem nodeDestroy_childless (hsilent : m.Silent p) (f : Nat) :
    nodeDestroy (f + 1) p m = .ok ((), m.without p n) := by
  have h1 := Mem.set_self m p (some { n with father := none })
  rw [nodeDestroy_release hp hc hcopied, release_ok h1 hmap ((silent_orphan hp).mpr hsilent)]
  refine congrArg (fun m => Except.ok ((), m)) ?_
  show (((m.unmap n.thread).exit n.thread).set p _ |>.set p none).notes _ = _
  rw [Mem.set_set]
  rfl

/-- While the thread is alive `node_destroy` does not return. -/
theorem nodeDestroy_live (hlive : ¬ m.Silent p) (f : Nat) : Faults (nodeDestroy f p) m := by
  cases f with
  | zero => exact Faults.of_error rfl
  | succ f =>
    have h1 := Mem.set_self m p (some { n with father := none })
    refine Faults.of_error (e := .killed) ?_
    rw [nodeDestroy_release hp hc hcopied]
    exact release_killed h1 hmap fun hsilent => hlive ((silent_orphan hp).mp hsilent)

end

theorem set_none_of_none {m : Mem} {x : Ptr} (p : Ptr) (h : m.heap x = none) :
    (m.set p none).heap x = none := by
  by_cases hx : x = p
  · rw [hx, Mem.set_self]
  · rwa [Mem.set_of_ne none hx]

/-- Behind the loop the children are gone. -/
theorem freeChilds_none {this : Ptr} {cs : List Ptr} : ∀ {m t : Mem},
    freeChilds this cs m = .ok ((), t) →
      (∀ x, m.heap x = none → t.heap x = none) ∧ ∀ c ∈ cs, t.heap c = none := by
  induction cs with
  | nil =>
    rintro m _ ⟨⟩
    exact ⟨fun _ h => h, by simp⟩
  | cons c cs ih =>
    intro m t h
    obtain ⟨_, m1, hload, h⟩ := ok_of_bind h
    obtain ⟨_, m2, hfree, h⟩ := ok_of_bind h
    obtain ⟨hnone, hgone⟩ := ih h
    have hm1 : m1 = m := by
      cases hp : m.heap this with
      | none =>
        rw [load_none hp] at hload
        cases hload
      | some n =>
        rw [load_ok hp] at hload
        cases hload
        rfl
    subst hm1
    cases hc : m1.heap c with
    | none =>
      rw [free_none hc] at hfree
      cases hfree
    | some n =>
      rw [free_ok hc] at hfree
      cases hfree
      refine ⟨fun x hx => hnone x (set_none_of_none c hx), fun x hx => ?_⟩
      rcases List.mem_cons.mp hx with rfl | hx
      · exact hnone x (Mem.set_self m1 x none)
      · exact hgone x hx

/-- With a child `node_destroy` does not return: the child is freed by the loop, and then given to
    the destructor. -/
theorem nodeDestroy_parent {m : Mem} {p c : Ptr} {n : Node} {cs : List Ptr} (hp : m.heap p = some n)
    (hc : n.childs = some (c :: cs)) (hcopied : m.isCopied = false) (f : Nat) :
    Faults (nodeDestroy f p) m := by
  cases f with
  | zero => exact Faults.of_error rfl
  | succ f =>
    have h1 := Mem.set_self m p (some { n with father := none })
    intro b u hok
    rw [nodeDestroy, bind_ok (get_run m), hcopied, if_neg Bool.false_ne_true,
      bind_ok (store_ok _ hp), bind_ok (load_ok h1)] at hok
    obtain ⟨_, t, hfree, hok⟩ := ok_of_bind hok
    obtain ⟨_, v, hclear, -⟩ := ok_of_bind hok
    have hgone : t.heap c = none := by
      refine (freeChilds_none hfree).2 c ?_
      show c ∈ n.childs.getD []
      rw [hc]
      exact List.mem_cons_self
    replace hclear : arrayClear (nodeDestroy f) n.childs t = .ok ((), v) := hclear
    rw [arrayClear, hc, Option.getD_some, List.forM_cons] at hclear
    obtain ⟨_, w, hdestroy, -⟩ := ok_of_bind hclear
    exact nodeDestroy_freed hgone f _ _ hdestroy

/-! ## The tree -/

/-- **The destruction of a tree** is what it is to be where the root has no children, and no signal
    is sent for it. -/
theorem nodeDestroy_iff {m : Mem} {t : Tree} (h : Stands m t) (hcopied : m.isCopied = false) :
    (∃ f m', nodeDestroy f t.ptr m = .ok ((), m') ∧ Destroyed m t m') ↔
      t.kids = [] ∧ m.Silent t.ptr := by
  obtain ⟨hp, hchilds, hmap, -⟩ := h
  rename_i p n kids
  constructor
  · rintro ⟨f, m', hok, -⟩
    cases kids with
    | nil =>
      refine ⟨rfl, ?_⟩
      by_contra hlive
      exact nodeDestroy_live hp (by rw [hchilds]; rfl) hcopied hmap hlive f _ _ hok
    | cons k kids => exact absurd hok (nodeDestroy_parent hp hchilds hcopied f _ _)
  · rintro ⟨hkids, hsilent⟩
    have hkids : kids = [] := hkids
    subst hkids
    have hthreads : (Tree.node p []).threads m = [n.thread] := by
      simp [Tree.threads, Tree.ptrs, Tree.ptrsAll, hp]
    refine ⟨1, m.without p n, nodeDestroy_childless hp (by rw [hchilds]; rfl) hcopied hmap hsilent 0, ?_⟩
    refine ⟨fun x => ?_, fun x => ?_, ?_⟩
    · simp [Tree.ptrs, Tree.ptrsAll, Mem.without, Mem.set, Mem.notes, Mem.exit, Mem.unmap]
    · rw [hthreads]
      simp [Mem.without, Mem.set, Mem.notes, Mem.exit, Mem.unmap]
    · simp [Tree.ptrs, Tree.ptrsAll, events, hp, Mem.without, Mem.set, Mem.notes, Mem.exit, Mem.unmap]

/-- Nodes 1 and 2, threads 11 and 12, a mutex for each; 2 is a child of 1, or there is no child.
    Thread 12 has exited. -/
def family (childs : List Ptr) : Mem where
  heap
    | 1 => some { thread := 11, father := none, childs := some childs, type := .and, newType := .and,
                  len := .more, isInit := true, hasEmpty := false, mutex := some 21, cond := some 31,
                  prjBlock := false, extQ := false }
    | 2 => some { thread := 12, father := some (.node 1), childs := some [], type := .leaf,
                  newType := .leaf, len := .more, isInit := true, hasEmpty := false,
                  mutex := some 22, cond := some 32, prjBlock := false, extQ := false }
    | _ => none
  next := 3
  threadToNode
    | 11 => some 1
    | 12 => some 2
    | _ => none
  keepChilds := none
  isCopied := false
  threadRoot := some 1
  gFalse := some false
  exited := fun t => t == 12
  log := []

theorem family_leaf (childs : List Ptr) : Stands (family childs) (.node 2 []) :=
  .node rfl rfl rfl (by simp)

theorem childless_destroyed :
    ∃ f m', nodeDestroy f 2 (family [2]) = .ok ((), m') ∧ Destroyed (family [2]) (.node 2 []) m' :=
  (nodeDestroy_iff (family_leaf [2]) rfl).mpr ⟨rfl, Or.inl rfl⟩

/-- The root with its child is not destroyed. -/
theorem parent_not_destroyed :
    Stands (family [2]) (.node 1 [.node 2 []]) ∧
      ¬ ∃ f m', nodeDestroy f 1 (family [2]) = .ok ((), m') ∧
        Destroyed (family [2]) (.node 1 [.node 2 []]) m' := by
  refine ⟨.node rfl rfl rfl ?_, ?_⟩
  · rintro k hk
    rw [List.mem_singleton.mp hk]
    exact family_leaf [2]
  · rintro ⟨f, m', hok, -⟩
    exact nodeDestroy_parent rfl rfl rfl f _ _ hok

end Msvl.Port
