/-
  `GetNewNode` of node.c: a node of the requested type in the place of a node.

  Three functions set the fields of the new node: `node_create`, `node_import` and the import of the
  type.  They pass arguments by position, and C converts between the types in question: a `bool` is a
  `NODETYPE`, a slot is a node, a node is a mutex.

  1. `nodeCreate`, `nodeImport` and the imports — every argument where it is written.
  2. `Converted` — what function.cpp makes of a node.
  3. `nodeImport_faults` — `node_import` does not return: `node_set_mutex(node, NULL)` writes to NULL.
  4. `getNewNode_never` — nor does `GetNewNode`, of any node.
-/
import LibMSVL.Port.Node

namespace Msvl.Port

open Msvl.Fault
open Msvl.Function (Ptr Tid NodeType NodeLength)

/-! ## The conversion -/

/-- A `bool` where a `NODETYPE` is expected: AND is 0, PAL is 1. -/
def typeOfBool (b : Bool) : NodeType := if b then .pal else .and

/-- A `NODETYPE` where a `bool` is expected. -/
def boolOfType (t : NodeType) : Bool := t != .and

/-- `dyn_array_import` of what `dyn_array_front` and `dyn_array_size` say of an array. -/
def arrayImport (childs : List Ptr) : Option (List Ptr) := if childs = [] then none else some childs

/-- `node_create`; `childs` is the array of `owner`.  The pair for the map is created of two sizes, so
    that no thread gets an entry. -/
def nodeCreate (thread : Tid) (father : Option Addr) (owner : Ptr) (childs : Option (List Ptr))
    (type : NodeType) (isInit : Bool) (mutex cond : Option Ptr) : M Ptr := do
  let node := (← get).next
  let childs' := match childs with
    | some cs => arrayImport cs
    | none => some []
  modify fun m => { m.set node (some
    { thread := thread, father := father, childs := childs', type := type, newType := type,
      len := .more, isInit := isInit, hasEmpty := false, mutex := mutex, cond := cond,
      prjBlock := type == .prj, extQ := false }) with next := node + 1 }
  -- the slot becomes the father of the new node
  forM (List.range (childs.getD []).length) fun i =>
    store node fun n => { n with father := some (.slot owner i) }
  pure node

/-- `node_set_mutex(mutex, this)` -/
def nodeSetMutex (mutex this : Option Ptr) : M Unit :=
  match this with
  | some p => store p fun n => { n with mutex := mutex }
  | none => throw .nullPointer

/-- `node_set_cond(cond, this)` -/
def nodeSetCond (cond this : Option Ptr) : M Unit :=
  match this with
  | some p => store p fun n => { n with cond := cond }
  | none => throw .nullPointer

/-- `node_import` -/
def nodeImport (node : Ptr) : M Ptr := do
  let n ← load node
  let newNode ← nodeCreate n.thread n.father node n.childs (typeOfBool n.isInit) (boolOfType n.type)
    n.mutex n.cond
  let n ← load node
  store newNode fun k => { k with newType := n.newType, len := n.len, hasEmpty := n.hasEmpty }
  nodeSetMutex (some node) none
  nodeSetCond (some node) none
  pure newNode

/-- `prj_node_import`: only the block of a PRJ node has `ext_Q`. -/
def prjNodeImport (node : Ptr) : M Ptr := do
  let ret ← nodeImport node
  let k ← load ret
  if k.prjBlock then
    store ret fun k => { k with extQ := true }
    pure ret
  else throw .outOfBounds

/-- `keep_node_import` and `alw_node_import`: NONE, which is 2, is the node whose length is set. -/
def keepNodeImport (node : Ptr) : M Ptr := do
  let ret ← nodeImport node
  store ret fun k => { k with len := .none }
  throw .outOfBounds

/-- The `switch` of `GetNewNode`, which has no case for PAL. -/
def importAs (f : Nat) (node : Ptr) (childs : Option (List Ptr)) : NodeType → M Ptr
  | .leaf => do
    arrayClear (nodeDestroy f) childs
    store node fun n => { n with childs := n.childs.map fun _ => [] }
    nodeImport node
  | .and => nodeImport node
  | .prj => prjNodeImport node
  | .keep | .alw => keepNodeImport node
  | .pal => throw .exit

/-- `GetNewNode` -/
def getNewNode (f : Nat) (node : Ptr) : M Ptr := do
  let n ← load node
  let erased ← mapErase n.thread
  check erased
  let newNode ← importAs f node n.childs n.newType
  modify fun m => { m with isCopied := true }
  modify fun m => { m with isCopied := false }
  pure newNode

/-! ## What it is to do -/

/-- **The conversion** of `node`, as `n` was, to `newNode`. -/
structure Converted (node newNode : Ptr) (n : Node) (m' : Mem) : Prop where
  made : ∃ k, m'.heap newNode = some k ∧ k.type = n.newType ∧ k.newType = n.newType ∧
    k.thread = n.thread ∧ k.father = n.father ∧ k.isInit = n.isInit ∧ k.mutex = n.mutex ∧
    k.cond = n.cond ∧ k.len = n.newType.startLen ∧ k.hasEmpty = false ∧
    k.childs = some (if n.newType = .leaf then [] else n.childs.getD [])
  childs : n.newType ≠ .leaf → ∀ c ∈ n.childs.getD [],
    ∃ k, m'.heap c = some k ∧ k.father = some (.node newNode)
  given : ∃ k, m'.heap node = some k ∧ k.mutex = none ∧ k.cond = none
  map : m'.threadToNode n.thread = some newNode

/-- `GetNewNode` returns a node that `node` has been converted to. -/
def Converts (m : Mem) (node : Ptr) : Prop :=
  ∃ f newNode m' n, m.heap node = some n ∧ getNewNode f node m = .ok (newNode, m') ∧
    Converted node newNode n m'

/-! ## It does not return -/

/-- A node gives up its mutex, but to NULL. -/
theorem nodeImport_faults (m : Mem) (node : Ptr) : Faults (nodeImport node) m := by
  refine Faults.bind fun n m1 _ => ?_
  refine Faults.bind fun newNode m2 _ => ?_
  refine Faults.bind fun n m3 _ => ?_
  refine Faults.bind fun _ m4 _ => ?_
  exact Faults.of_error (bind_error (e := .nullPointer) rfl)

theorem importAs_faults (m : Mem) (f : Nat) (node : Ptr) (childs : Option (List Ptr))
    (type : NodeType) : Faults (importAs f node childs type) m := by
  cases type with
  | leaf => exact Faults.bind fun _ m1 _ => Faults.bind fun _ m2 _ => nodeImport_faults m2 node
  | and => exact nodeImport_faults m node
  | prj => exact Faults.bind_left (nodeImport_faults m node)
  | keep => exact Faults.bind_left (nodeImport_faults m node)
  | alw => exact Faults.bind_left (nodeImport_faults m node)
  | pal => exact Faults.of_error rfl

theorem getNewNode_faults (m : Mem) (f : Nat) (node : Ptr) : Faults (getNewNode f node) m := by
  refine Faults.bind fun n m1 _ => ?_
  refine Faults.bind fun erased m2 _ => ?_
  refine Faults.bind fun _ m3 _ => ?_
  exact Faults.bind_left (importAs_faults m3 f node n.childs n.newType)

/-- **No node is converted**, whatever its type, its children and the type requested. -/
theorem getNewNode_never (m : Mem) (node : Ptr) : ¬ Converts m node := by
  rintro ⟨f, newNode, m', n, -, hok, -⟩
  exact getNewNode_faults m f node _ _ hok

/-- A leaf, node 1, which is to be an AND node. -/
def askingLeaf : Mem where
  heap
    | 1 => some { thread := 11, father := none, childs := some [], type := .leaf, newType := .and,
                  len := .more, isInit := true, hasEmpty := false, mutex := some 21, cond := some 31,
                  prjBlock := false, extQ := false }
    | _ => none
  next := 2
  threadToNode
    | 11 => some 1
    | _ => none
  keepChilds := none
  isCopied := false
  threadRoot := none
  gFalse := some false
  exited := fun _ => false
  log := []

theorem leaf_not_converted : ¬ Converts askingLeaf 1 := by
  rintro ⟨f, newNode, m', n, -, hok, -⟩
  exact getNewNode_faults askingLeaf f 1 _ _ hok

end Msvl.Port
