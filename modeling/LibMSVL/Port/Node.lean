/-
  node.c: nodes on a heap, and what destroys them.

  The port frees what function.cpp deletes, and its child arrays have a destructor,
  `node_destroy_wrap`, that destroys the node held in a slot the array gives up.  Where the file does
  not compile it is read as it is meant: `thread` in `node_destroy` is `this->thread`, and the wrapper
  of msvl.c is the one node.c names.  Arguments stand in the order they are written in.

  1. `Mem` — the heap, the globals, and a log of what has been done once and for all.
  2. `load`, `store`, `free` — an access to a block that is not there is a fault.
  3. `nodeDestroy` — `node_destroy`, with the destructor of the child array.
  4. `Faults` — programs from which no run returns: among them the destruction of a node that has
     been freed (`nodeDestroy_freed`).
-/
import LibMSVL.Function.State
import LibMSVL.Lib.Fault

namespace Msvl.Port

open Msvl.Fault
open Msvl.Function (Ptr Tid NodeType NodeLength)

/-! ## Memory -/

/-- What a `node_t *` may hold: a node, or the address of a slot of a node's child array. -/
inductive Addr
  | node (p : Ptr)
  | slot (owner : Ptr) (i : Nat)
  deriving DecidableEq, Repr

/-- `node_t`, and `ext_Q` of `prj_node_t`. -/
structure Node where
  thread : Tid
  father : Option Addr
  /-- NULL, or the array -/
  childs : Option (List Ptr)
  type : NodeType
  newType : NodeType
  len : NodeLength
  isInit : Bool
  hasEmpty : Bool
  mutex : Option Ptr
  cond : Option Ptr
  /-- the block is large enough for `ext_Q` -/
  prjBlock : Bool
  extQ : Bool
  deriving DecidableEq, Repr

/-- What cannot be undone, and the visits of a scan. -/
inductive Event
  | freed (p : Ptr)
  | joined (t : Tid)
  | mutexDestroyed (q : Ptr)
  | condDestroyed (q : Ptr)
  /-- a child is met by the scan of `owner` -/
  | visited (owner p : Ptr)
  deriving DecidableEq, Repr

structure Mem where
  /-- `none`: no block, or one that has been freed -/
  heap : Ptr → Option Node
  /-- the next address `malloc` returns -/
  next : Ptr
  threadToNode : Tid → Option Ptr
  keepChilds : Option (List Ptr)
  isCopied : Bool
  threadRoot : Option Ptr
  /-- `g_false`: NULL, or what it points to -/
  gFalse : Option Bool
  exited : Tid → Bool
  log : List Event

inductive Fault
  | nullPointer
  /-- a block that is not there -/
  | noBlock
  | outOfBounds
  | assertion
  /-- `exit(1)` -/
  | exit
  /-- SIGUSR2, for which no handler is installed: the process ends -/
  | killed
  | fuel
  deriving DecidableEq, Repr

abbrev M := Run Mem Fault

def Mem.set (m : Mem) (p : Ptr) (n : Option Node) : Mem :=
  { m with heap := fun x => if x = p then n else m.heap x }

def Mem.notes (m : Mem) (es : List Event) : Mem := { m with log := m.log ++ es }

/-- The thread is taken out of the map. -/
def Mem.unmap (m : Mem) (t : Tid) : Mem :=
  { m with threadToNode := fun x => if x = t then none else m.threadToNode x }

/-- The thread has terminated. -/
def Mem.exit (m : Mem) (t : Tid) : Mem :=
  { m with exited := fun x => if x = t then true else m.exited x }

def load (p : Ptr) : M Node := do
  match (← get).heap p with
  | some n => pure n
  | none => throw .noBlock

def store (p : Ptr) (f : Node → Node) : M Unit := do
  let n ← load p
  modify fun m => m.set p (some (f n))

def note (e : Event) : M Unit := modify fun m => m.notes [e]

def free (p : Ptr) : M Unit := do
  let _ ← load p
  modify fun m => m.set p none
  note (.freed p)

/-- `assert` -/
def check (b : Bool) : M Unit := if b then pure () else throw .assertion

/-! ## node.c -/

/-- `node_is_exit` -/
def nodeIsExit (this : Ptr) : M Bool := do
  let n ← load this
  let m ← get
  pure (n.thread == 0 || m.exited n.thread)

/-- What it tells of a node that is there. -/
def Mem.isExit (m : Mem) (p : Ptr) : Bool :=
  (m.heap p).any fun n => n.thread == 0 || m.exited n.thread

/-- The destructor on every slot, as `dyn_array_clear` runs it. -/
def arrayClear (destructor : Ptr → M Unit) (childs : Option (List Ptr)) : M Unit :=
  forM (childs.getD []) destructor

/-- `dyn_hash_map_erase`: whether the thread was there. -/
def mapErase (t : Tid) : M Bool := do
  let m ← get
  modify fun m => m.unmap t
  pure (m.threadToNode t).isSome

/-- `if(!node_is_exit(this) && this != g_thread_root) pthread_kill(thread, SIGUSR2)` -/
def signal (this : Ptr) : M Unit := do
  let exited ← nodeIsExit this
  let m ← get
  if !exited && m.threadRoot != some this then throw .killed else pure ()

/-- `pthread_join`: the thread has terminated when it returns. -/
def join (t : Tid) : M Unit := do
  modify fun m => m.exit t
  note (.joined t)

/-- `free` on every child: the loop of `node_destroy`, which reads `this->childs` in each round. -/
def freeChilds (this : Ptr) : List Ptr → M Unit
  | [] => pure ()
  | temp :: rest => do
    let _ ← load this
    free temp
    freeChilds this rest

/-- The end of `node_destroy`: the thread, the mutex and the cond, and the block itself. -/
def release (this : Ptr) : M Unit := do
  let n ← load this
  let erased ← mapErase n.thread
  check erased
  signal this
  join n.thread
  store this fun n => { n with thread := 0 }
  forM n.mutex.toList fun q => note (.mutexDestroyed q)
  forM n.cond.toList fun q => note (.condDestroyed q)
  free this

/-- `node_destroy`.  The array runs it again on each slot. -/
def nodeDestroy : Nat → Ptr → M Unit
  | 0, _ => throw .fuel
  | f + 1, this => do
    let m ← get
    if m.isCopied then free this
    else
      store this fun n => { n with father := none }
      let n ← load this
      freeChilds this (n.childs.getD [])
      arrayClear (nodeDestroy f) n.childs
      release this

/-! ## Accesses -/

@[simp] theorem Mem.set_self (m : Mem) (p : Ptr) (n : Option Node) : (m.set p n).heap p = n :=
  if_pos rfl

theorem Mem.set_of_ne {m : Mem} {p x : Ptr} (n : Option Node) (h : x ≠ p) :
    (m.set p n).heap x = m.heap x := if_neg h

theorem Mem.set_set (m : Mem) (p : Ptr) (a b : Option Node) : (m.set p a).set p b = m.set p b := by
  unfold Mem.set
  congr 1
  funext x
  by_cases h : x = p <;> simp [h]

theorem Mem.notes_notes (m : Mem) (es es' : List Event) :
    (m.notes es).notes es' = m.notes (es ++ es') := by
  unfold Mem.notes
  rw [List.append_assoc]

theorem load_ok {m : Mem} {p : Ptr} {n : Node} (h : m.heap p = some n) : load p m = .ok (n, m) := by
  simp [load, bind_run, h]

theorem load_none {m : Mem} {p : Ptr} (h : m.heap p = none) : load p m = .error .noBlock := by
  simp [load, bind_run, h]

theorem store_ok {m : Mem} {p : Ptr} {n : Node} (f : Node → Node) (h : m.heap p = some n) :
    store p f m = .ok ((), m.set p (some (f n))) := by
  simp [store, bind_run, load_ok h]

theorem store_none {m : Mem} {p : Ptr} (f : Node → Node) (h : m.heap p = none) :
    store p f m = .error .noBlock := by
  simp [store, bind_run, load_none h]

theorem free_ok {m : Mem} {p : Ptr} {n : Node} (h : m.heap p = some n) :
    free p m = .ok ((), (m.set p none).notes [.freed p]) := by
  simp [free, note, bind_run, load_ok h]

theorem free_none {m : Mem} {p : Ptr} (h : m.heap p = none) : free p m = .error .noBlock := by
  simp [free, bind_run, load_none h]

theorem nodeIsExit_ok {m : Mem} {p : Ptr} {n : Node} (h : m.heap p = some n) :
    nodeIsExit p m = .ok (n.thread == 0 || m.exited n.thread, m) := by
  rw [nodeIsExit, bind_ok (load_ok h)]
  rfl

/-- A program from which no run returns. -/
def Faults {α : Type} (x : M α) (m : Mem) : Prop := ∀ a t, x m ≠ .ok (a, t)

theorem Faults.of_error {α : Type} {x : M α} {m : Mem} {e : Fault} (h : x m = .error e) :
    Faults x m := by
  intro a t hok
  rw [h] at hok
  cases hok

/-- A program whose rest faults from wherever its first part returns. -/
theorem Faults.bind {α β : Type} {x : M α} {f : α → M β} {m : Mem}
    (h : ∀ a t, x m = .ok (a, t) → Faults (f a) t) : Faults (x >>= f) m := by
  intro b u hok
  obtain ⟨a, t, hx, hf⟩ := ok_of_bind hok
  exact h a t hx b u hf

theorem Faults.bind_left {α β : Type} {x : M α} {f : α → M β} {m : Mem} (h : Faults x m) :
    Faults (x >>= f) m := Faults.bind fun a t hx => absurd hx (h a t)

/-- A node that has been freed cannot be destroyed. -/
theorem nodeDestroy_freed {m : Mem} {p : Ptr} (h : m.heap p = none) (f : Nat) :
    Faults (nodeDestroy f p) m := by
  cases f with
  | zero => exact Faults.of_error rfl
  | succ f =>
    by_cases hc : m.isCopied
    · refine Faults.of_error (e := .noBlock) ?_
      rw [nodeDestroy, bind_ok (get_run m), if_pos hc]
      exact free_none h
    · refine Faults.of_error (e := .noBlock) ?_
      rw [nodeDestroy, bind_ok (get_run m), if_neg hc]
      exact bind_error (store_none _ h)

end Msvl.Port
