/-
  function.cpp: nodes, globals, and the steps that change them.

  1. `Node` — the fields of the class and of its derived class PrjNode.  Objects live on `heap` and
     are never reused: `getNewNode` leaves the old object where it is (its `delete` is commented
     out), and a destroyed object keeps what `~Node` left in it.
  2. `State` — the globals.  Three fields are ghosts, no branch of the code reads them: `birth` of
     a node, the serial number of its thread; `births`, the serial number given last; `active`,
     the nodes on the call stack whose caller compares `type` and `newType` when they return.
  3. `getNewNode`, `newThread`, … — what the operations on the tree do, in the words of the source.
  4. `Label.apply` — the steps programs are made of.  Each is one write, or a few that the code does
     without anything in between that could look at them: `replace` is `getNewNode` together with
     the assignment to the slot, `destroy` is the end of `~Node` together with the `erase`.
-/
import LibMSVL.Lib.Prog
import Mathlib.Logic.Function.Basic

namespace Msvl.Function

/-- The address of an object. -/
abbrev Ptr := Nat

/-- `pthread_t`; 0 is no thread. -/
abbrev Tid := Nat

/-! ## Nodes -/

/-- `NODELENGTH` -/
inductive NodeLength
  | more
  | empty
  | none
  deriving DecidableEq, Repr

/-- `NODETYPE`, without ROOT: no class has it and no argument of `MyCreateThread` stands for it. -/
inductive NodeType
  | and
  | pal
  | prj
  | keep
  | alw
  | leaf
  deriving DecidableEq, Repr

structure Node where
  thread : Tid
  father : Option Ptr
  childs : List Ptr
  type : NodeType
  newType : NodeType
  len : NodeLength
  hasEmpty : Bool
  mutex : Option Ptr
  cond : Option Ptr
  isInit : Bool
  /-- `PrjNode::extQ` -/
  extQ : Bool
  /-- `PrjNode::hasExtQ`; no constructor assigns it -/
  hasExtQ : Option Bool
  /-- ghost -/
  birth : Nat
  deriving DecidableEq, Repr

/-- AND, PAL and PRJ: the nodes that execute their children. -/
def NodeType.Composite : NodeType → Prop
  | .and | .pal | .prj => True
  | .keep | .alw | .leaf => False

instance (t : NodeType) : Decidable t.Composite := by
  cases t <;> unfold NodeType.Composite <;> infer_instance

/-- The length the constructor of a class sets. -/
def NodeType.startLen : NodeType → NodeLength
  | .keep | .alw => .none
  | _ => .more

/-- `$$Element` -/
structure Element where
  left : List Char
  right : List (List Char)
  priority : Int
  threadId : Tid
  deriving DecidableEq, Repr

/-! ## The globals -/

/-- What the file leaves to its surroundings. -/
structure Env where
  /-- what a read of memory that was never assigned gives -/
  garbage : Ptr → Bool
  /-- whether the vector of children of a node has moved when it has grown to a size -/
  moves : Ptr → Nat → Bool
  /-- whether SIGUSR2 ends the thread only, as `sig_usr2` does, which nobody installs: the call of
      `signal` is commented out.  By default it ends the process -/
  handler : Bool
  /-- whether `pthread_join` returns (EDEADLK) when two threads join each other -/
  joins : Bool

structure State where
  heap : Ptr → Node
  /-- the next free address of a node -/
  next : Ptr
  /-- the next free address of a mutex or cond -/
  nextLock : Ptr
  threadRoot : Option Ptr
  threadIDToNode : Tid → Option Ptr
  /-- `$$prsnt`, its back at the end -/
  prsnt : List Element
  keepChilds : List Ptr
  /-- `i` of `excuteKeepChilds`: the first element not dealt with -/
  keepPos : Nat
  changedNode : Option Ptr
  prjNode : Option Ptr
  /-- the thread has terminated -/
  exited : Tid → Bool
  /-- the thread that calls `Init` -/
  mainThread : Tid
  env : Env
  /-- ghost -/
  births : Nat
  /-- ghost -/
  active : List Ptr

namespace State

/-- A write to the fields of one object. -/
def modify (s : State) (n : Ptr) (f : Node → Node) : State :=
  { s with heap := fun x => if x = n then f (s.heap x) else s.heap x }

/-- `setFatherNode(father)` on every node of a vector. -/
def setFathers (s : State) (cs : List Ptr) (father : Option Ptr) : State :=
  { s with heap := fun x => if x ∈ cs then { s.heap x with father := father } else s.heap x }

/-- `Node::isExit` -/
def isExit (s : State) (n : Ptr) : Bool := (s.heap n).thread == 0 || s.exited (s.heap n).thread

/-- `~Node` gets past the thread of `n`. -/
def Joinable (s : State) (n : Ptr) : Prop :=
  s.isExit n = true ∨ s.threadRoot = some n ∧ s.env.joins = true ∨
    s.threadRoot ≠ some n ∧ s.env.handler = true

instance (s : State) (n : Ptr) : Decidable (s.Joinable n) :=
  inferInstanceAs (Decidable (_ ∨ _ ∧ _ ∨ _ ∧ _))

/-- Deleting `n`, which is not the root, does not end the process. -/
def Deletable (s : State) (n : Ptr) : Prop := s.isExit n = true ∨ s.env.handler = true

instance (s : State) (n : Ptr) : Decidable (s.Deletable n) :=
  inferInstanceAs (Decidable (_ ∨ _))

/-- `n` is the node its thread is mapped to. -/
def Reg (s : State) (n : Ptr) : Prop := s.threadIDToNode (s.heap n).thread = some n

instance (s : State) (n : Ptr) : Decidable (s.Reg n) :=
  inferInstanceAs (Decidable (s.threadIDToNode (s.heap n).thread = some n))

/-- A change of type is asked for: `getNodeType() != getNewNodeType()`. -/
def Open (s : State) (n : Ptr) : Prop := (s.heap n).type ≠ (s.heap n).newType

instance (s : State) (n : Ptr) : Decidable (s.Open n) :=
  inferInstanceAs (Decidable ((s.heap n).type ≠ (s.heap n).newType))

/-- The elements of `keepChilds` that wait. -/
def pending (s : State) : List Ptr := s.keepChilds.drop s.keepPos

/-- What `pthread_create` can return: not 0, and not the id of a thread that is not joined. -/
def Fresh (s : State) (id : Tid) : Prop :=
  id ≠ 0 ∧ id ≠ s.mainThread ∧ s.threadIDToNode id = Option.none

instance (s : State) (id : Tid) : Decidable (s.Fresh id) :=
  inferInstanceAs (Decidable (_ ∧ _ ∧ _))

end State

/-- Unassigned memory reads as 0, vectors stay where they are, nobody has installed a handler, mutual
    joins return. -/
def plain : Env := ⟨fun _ => false, fun _ _ => false, false, true⟩

/-- The program start. -/
def start (mainThread : Tid) (env : Env) : State where
  heap := fun _ =>
    { thread := 0, father := none, childs := [], type := .leaf, newType := .leaf, len := .more,
      hasEmpty := false, mutex := none, cond := none, isInit := false, extQ := true,
      hasExtQ := none, birth := 0 }
  next := 0
  nextLock := 0
  threadRoot := none
  threadIDToNode := fun _ => none
  prsnt := []
  keepChilds := []
  keepPos := 0
  changedNode := none
  prjNode := none
  exited := fun _ => false
  mainThread := mainThread
  env := env
  births := 0
  active := []

/-! ## Operations on the tree -/

/-- A constructor: the object `p` is put in place and into the map, and becomes the father of
    `childs`.  The constructors of KeepNode and AlwNode set the length of the father, too. -/
def construct (s : State) (p : Ptr) (node : Node) : State :=
  let s := { s with
    heap := fun x => if x = p then node else s.heap x
    threadIDToNode := Function.update s.threadIDToNode node.thread (some p) }
  let s := s.setFathers node.childs (some p)
  match node.type, node.father with
  | .keep, some father | .alw, some father => s.modify father fun x => { x with len := .none }
  | _, _ => s

/-- The object `Init` builds, with a new mutex and a new cond. -/
def rootNode (s : State) (type : NodeType) : Node where
  thread := s.mainThread
  father := none
  childs := []
  type := type
  newType := type
  len := .more
  hasEmpty := false
  mutex := some s.nextLock
  cond := some (s.nextLock + 1)
  isInit := false
  extQ := true
  hasExtQ := none
  birth := s.births + 1

/-- `Init`: the root, of type AND, PAL or PRJ. -/
def newRoot (s : State) (type : NodeType) : State :=
  construct { s with next := s.next + 1, nextLock := s.nextLock + 2, births := s.births + 1,
                     threadRoot := some s.next } s.next (rootNode s type)

/-- The object `MyCreateThread` builds, with a new mutex and a new cond. -/
def leafNode (s : State) (father : Ptr) (id : Tid) : Node where
  thread := id
  father := some father
  childs := []
  type := .leaf
  newType := .leaf
  len := .more
  hasEmpty := false
  mutex := some s.nextLock
  cond := some (s.nextLock + 1)
  isInit := false
  extQ := true
  hasExtQ := none
  birth := s.births + 1

/-- The end of `MyCreateThread`: a leaf for the new thread, as the last child. -/
def newThread (s : State) (father : Ptr) (id : Tid) : State :=
  State.modify (construct { s with next := s.next + 1, nextLock := s.nextLock + 2,
                                   births := s.births + 1,
                                   exited := Function.update s.exited id false }
      s.next (leafNode s father id)) father
    fun x => { x with childs := x.childs ++ [s.next] }

/-- The object `getNewNode` builds from `old`. -/
def typedNode (old : Node) : Node :=
  { old with type := old.newType, len := old.newType.startLen, hasEmpty := false, extQ := true,
             hasExtQ := none }

/-- `case LEAF:` of `getNewNode`. -/
def clearChilds (s : State) (n : Ptr) : State :=
  if (s.heap n).newType = .leaf then s.modify n fun x => { x with childs := [] } else s

/-- `getNewNode`; the new object is at `s.next`. -/
def getNewNode (s : State) (n : Ptr) : State :=
  let s' := clearChilds s n
  State.modify (construct { s' with next := s'.next + 1 } s'.next (typedNode (s'.heap n))) n
    fun x => { x with mutex := none, cond := none }

/-- `~Node` after its children: the thread is joined and leaves the map, its mutex and cond are
    freed. -/
def destroyNode (s : State) (n : Ptr) : State :=
  State.modify { s with threadIDToNode := Function.update s.threadIDToNode (s.heap n).thread none } n
    fun x => { x with father := none, thread := 0, mutex := none, cond := none }

/-- The end of `KeepNode::excute`. -/
def moveToKeepChilds (s : State) (n : Ptr) : State :=
  let cs := (s.heap n).childs
  let s' := { s with keepChilds := s.keepChilds ++ cs }.setFathers cs (s.heap n).father
  s'.modify n fun x => { x with childs := [] }

/-- The end of `AlwNode::excute`, but for the lengths. -/
def moveToFather (s : State) (n father : Ptr) : State :=
  let cs := (s.heap n).childs
  let s' := (s.setFathers cs (s.heap n).father).modify father
    fun x => { x with childs := x.childs ++ cs }
  s'.modify n fun x => { x with childs := [] }

/-! ## Steps -/

/-- Writes to a node that leave the tree as it is. -/
inductive Edit
  | len (l : NodeLength)
  | hasEmpty
  /-- `setNewNodeType(LEAF)`; with `changedNode = node` where `record` is set -/
  | leaf (record : Bool)
  /-- `father->setNewNodeType(NODETYPE(type))` in `MyCreateThread` -/
  | request (type : NodeType)
  | extQ (b : Bool)
  | hasExtQ (b : Bool)
  /-- the thread sets `isInit` when it starts -/
  | isInit
  deriving DecidableEq, Repr

def Edit.apply : Edit → Node → Node
  | .len l, x => { x with len := l }
  | .hasEmpty, x => { x with hasEmpty := true }
  | .leaf _, x => { x with newType := .leaf }
  | .request type, x => { x with newType := type }
  | .extQ b, x => { x with extQ := b }
  | .hasExtQ b, x => { x with hasExtQ := some b }
  | .isInit, x => { x with isInit := true }

inductive Label
  | edit (n : Ptr) (e : Edit)
  -- the tree
  | newRoot (type : NodeType)
  | newThread (father : Ptr) (id : Tid)
  /-- `owner->childs[i] = getNewNode(n)` -/
  | replace (owner : Ptr) (i : Nat) (n : Ptr)
  /-- `delete n` with its slot `i` of `owner->childs` erased -/
  | destroy (owner : Ptr) (i : Nat) (n : Ptr)
  | destroyRoot (r : Ptr)
  | moveToKeepChilds (n : Ptr)
  | moveToFather (n father : Ptr)
  /-- `excuteKeepChilds` adds the next element to its father -/
  | attach (c father : Ptr)
  /-- `excuteKeepChilds` has deleted the next element -/
  | drop (c : Ptr)
  | keepClear
  -- other globals
  | push (e : Element)
  | pop
  | changedNode (n : Option Ptr)
  | prjNode (n : Option Ptr)
  | exit (id : Tid)
  -- ghost: calls of `excute` whose caller looks at the types afterwards
  | enter (n : Ptr)
  | leave (n : Ptr)
  -- events without an effect
  | turn (n : Ptr)
  | updateNode (n : Ptr)
  /-- `prjNode->excute()` after the label SORT -/
  | deferred (n : Ptr)
  /-- `excuteKeepChilds` is going to delete the next element -/
  | refuse (c : Ptr)
  /-- `delete ele` -/
  | free (e : Element)
  | stateEnd
  deriving DecidableEq, Repr

def Label.apply : Label → State → State
  | .edit n e, s =>
    let s' := s.modify n e.apply
    match e with
    | .leaf true => { s' with changedNode := some n }
    | _ => s'
  | .newRoot type, s => Msvl.Function.newRoot s type
  | .newThread father id, s => Msvl.Function.newThread s father id
  | .replace owner i n, s =>
    (getNewNode s n).modify owner fun x => { x with childs := x.childs.set i s.next }
  | .destroy owner i n, s =>
    (destroyNode s n).modify owner fun x => { x with childs := x.childs.eraseIdx i }
  | .destroyRoot r, s => { destroyNode s r with threadRoot := none }
  | .moveToKeepChilds n, s => Msvl.Function.moveToKeepChilds s n
  | .moveToFather n father, s => Msvl.Function.moveToFather s n father
  | .attach c father, s =>
    State.modify { s with keepPos := s.keepPos + 1 } father
      fun x => { x with childs := x.childs ++ [c] }
  | .drop c, s => { destroyNode s c with keepPos := s.keepPos + 1 }
  | .keepClear, s => { s with keepChilds := [], keepPos := 0 }
  | .push e, s => { s with prsnt := s.prsnt ++ [e] }
  | .pop, s => { s with prsnt := s.prsnt.dropLast }
  | .changedNode n, s => { s with changedNode := n }
  | .prjNode n, s => { s with prjNode := n }
  | .exit id, s => { s with exited := Function.update s.exited id true }
  | .enter n, s => { s with active := n :: s.active }
  | .leave _, s => { s with active := s.active.tail }
  | .turn _, s | .updateNode _, s | .deferred _, s | .refuse _, s | .free _, s | .stateEnd, s => s

end Msvl.Function
