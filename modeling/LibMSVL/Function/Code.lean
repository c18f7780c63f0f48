/-
  function.cpp: the code.

  Every function of the file is a program over the steps of `Function.State`.  A loop or a recursion
  takes a bound on its depth and stops with `fuel` where the bound is too small; the statements
  about the code are about every bound.  A virtual function is a function of the node's `type`.  The
  loops take the function they call as an argument (`ex` for `excute`, `ic` for `isCorrectAndExit`).

  What a thread does in its turn is read from the input: a sequence of library calls that ends when
  the thread pauses or exits.  A run whose input is used up stops there with `waiting`, so the
  states in the middle of a run are the last states of shorter runs.

  What the file leaves open is in `Env`: a run stops where a signal without a handler ends the process
  (`killed`), where manager and main thread join each other for ever (`deadlock`), and where a vector
  moves under an iterator (`iterator`).

  Left out: the output of a state; `*pFalse`, which `GetMsvVar` sets to false and nobody else
  writes; the failure of `pthread_create`, which ends the process.
-/
import LibMSVL.Function.State

namespace Msvl.Function

open Msvl.Run

/-- Why a run stops. -/
inductive Stop
  /-- the input is used up -/
  | waiting
  | fuel
  /-- an id that `pthread_create` cannot return -/
  | impossible
  /-- an access outside a container, or `map::at` without the key -/
  | outOfRange
  | nullPointer
  /-- `assert(threadIDToNode.insert(ele).second)` -/
  | assertInsert
  /-- `assert(threadIDToNode.erase(thread) == 1)` -/
  | assertErase
  /-- `assert(false)` after a `find` without a result -/
  | assertFind
  | exitProcess
  /-- SIGUSR2, whose default action ends the process -/
  | killed
  /-- two threads join each other -/
  | deadlock
  /-- an iterator into a vector that has moved -/
  | iterator
  deriving DecidableEq, Repr

/-- The argument `type` of `MyCreateThread`: And Pal Prj Keep Alw Manager. -/
inductive CreateType
  | and
  | pal
  | prj
  | keep
  | alw
  | manager
  deriving DecidableEq, Repr

/-- `NODETYPE(type)`, for the types that are not Manager. -/
def CreateType.nodeType : CreateType → Option NodeType
  | .and => some .and
  | .pal => some .pal
  | .prj => some .prj
  | .keep => some .keep
  | .alw => some .alw
  | .manager => none

/-- The library calls a thread makes in its turn. -/
inductive Call
  /-- `id` is what `pthread_create` returns; `addr = false` is a NULL function -/
  | myCreateThread (addr : Bool) (type : CreateType) (id : Tid)
  | setNodeLength (type : NodeLength)
  | push (left : List Char) (right : List Char) (priority : Int)
  deriving DecidableEq, Repr

inductive Action
  | call (c : Call)
  | pause
  | exit
  deriving DecidableEq, Repr

abbrev M := Prog State Label Action Stop

abbrev act (l : Label) : M Unit := Prog.act Label.apply l

abbrev stop {α : Type} (e : Stop) : M α := Prog.stop e

abbrev get : M State := Prog.get

/-- `if (b) m` -/
def when (b : Bool) (m : M Unit) : M Unit := if b then m else pure ()

/-! ## Deleting nodes -/

/-- `assert(threadIDToNode.erase(node->getThread()) == 1)`: the test. -/
def checkErase (n : Ptr) : M Unit := do
  let s ← get
  if (s.threadIDToNode (s.heap n).thread).isSome then pure () else stop .assertErase

/-- `if (!isExit() && this != threadRoot) pthread_kill(thread, SIGUSR2);` and `pthread_join`.  The root
    belongs to the main thread, which is joining the manager meanwhile, and the manager runs this. -/
def joinThread (n : Ptr) : M Unit := do
  let s ← get
  if s.isExit n then pure ()
  else if s.threadRoot = some n then if s.env.joins then pure () else stop .deadlock
  else if s.env.handler then pure ()
  else stop .killed

/-- `~Node` from its assertion to the join. -/
def release (n : Ptr) : M Unit := do
  checkErase n
  joinThread n

/-- The loop of `~Node` over the children. -/
def deleteChilds : Nat → Ptr → M Unit
  | 0, _ => stop .fuel
  | f + 1, n => do
    let s ← get
    match (s.heap n).childs with
    | [] => pure ()
    | c :: _ => do
      deleteChilds f c
      release c
      act (.destroy n 0 c)
      deleteChilds f n

/-- `delete childs[i]; childs.erase(..)` -/
def deleteSlot (f : Nat) (owner : Ptr) (i : Nat) (n : Ptr) : M Unit := do
  deleteChilds f n
  release n
  act (.destroy owner i n)

/-- `owner->childs[i] = getNewNode(n)` -/
def replaceSlot (owner : Ptr) (i : Nat) (n : Ptr) : M Unit := do
  checkErase n
  act (.replace owner i n)

/-! ## isCorrectAndExit -/

/-- An EMPTY leaf. -/
def State.emptyLeaf (s : State) (n : Ptr) : Bool :=
  (s.heap n).len == .empty && (s.heap n).type == .leaf

/-- The loop of `AndNode::isCorrectAndExit` from child `i` on; gives `emptyNum` and `noneNum`. -/
def andScan (ic : Ptr → M Bool) : Nat → Ptr → Nat → Nat → Nat → M (Nat × Nat)
  | 0, _, _, _, _ => stop .fuel
  | f + 1, n, i, emptyNum, noneNum => do
    let s ← get
    match (s.heap n).childs[i]? with
    | none => pure (emptyNum, noneNum)
    | some node => do
      let exited ← ic node
      let s ← get
      if s.emptyLeaf node then do
        act (.edit n .hasEmpty)
        if exited then do
          deleteSlot f n i node
          andScan ic f n i (emptyNum + 1) noneNum
        else andScan ic f n (i + 1) (emptyNum + 1) noneNum
      else if (s.heap node).len = .none then andScan ic f n (i + 1) emptyNum (noneNum + 1)
      else andScan ic f n (i + 1) emptyNum noneNum

/-- `AndNode::isCorrectAndExit` -/
def andCorrect (ic : Ptr → M Bool) (f : Nat) (n : Ptr) : M Bool := do
  let s ← get
  let size := (s.heap n).childs.length
  let (emptyNum, noneNum) ← andScan ic f n 0 0 0
  let s ← get
  if (s.heap n).hasEmpty = false then do
    act (.edit n (.len (if noneNum = size then .none else .more)))
    pure false
  else if emptyNum + noneNum = size then do
    act (.edit n (.len .empty))
    pure true
  else pure false

/-- The loop of `PalNode::isCorrectAndExit` from child `i` on; gives `emptyNum`. -/
def palScan (ic : Ptr → M Bool) : Nat → Ptr → Nat → Nat → M Nat
  | 0, _, _, _ => stop .fuel
  | f + 1, n, i, emptyNum => do
    let s ← get
    match (s.heap n).childs[i]? with
    | none => pure emptyNum
    | some node => do
      let exited ← ic node
      let s ← get
      if exited && (s.heap node).type == .leaf then do
        if (s.heap node).len = .empty then do
          act (.edit n .hasEmpty)
          deleteSlot f n i node
          palScan ic f n i (emptyNum + 1)
        else do
          deleteSlot f n i node
          palScan ic f n i emptyNum
      else palScan ic f n (i + 1) emptyNum

/-- `PalNode::isCorrectAndExit` -/
def palCorrect (ic : Ptr → M Bool) (f : Nat) (n : Ptr) : M Bool := do
  let s ← get
  let size := (s.heap n).childs.length
  let emptyNum ← palScan ic f n 0 0
  let s ← get
  if (s.heap n).len = .empty then pure true
  else if emptyNum = size then do
    act (.edit n (.len .empty))
    pure true
  else pure false

/-- `PrjNode::isCorrectAndExit` -/
def prjCorrect (n : Ptr) : M Bool := do
  let s ← get
  match (s.heap n).childs with
  | [] => stop .outOfRange
  | q :: ps => do
    let exitNum := (if s.isExit q then 1 else 0) + ps.countP s.emptyLeaf
    if (s.heap n).len = .empty then pure true
    else if exitNum = ps.length + 1 then do
      act (.edit n (.len .empty))
      pure true
    else pure false

/-- `isCorrectAndExit` -/
def isCorrectAndExit : Nat → Ptr → M Bool
  | 0, _ => stop .fuel
  | f + 1, n => do
    let s ← get
    match (s.heap n).type with
    | .and => andCorrect (isCorrectAndExit f) f n
    | .pal => palCorrect (isCorrectAndExit f) f n
    | .prj => prjCorrect n
    | .keep | .alw => pure (s.isExit n)
    | .leaf => pure (s.isExit n || (s.heap n).len != .more)

/-! ## Library calls -/

/-- `setAndLen` -/
def setAndLen : Nat → Option Ptr → M Unit
  | 0, _ => stop .fuel
  | _ + 1, none => pure ()
  | f + 1, some node => do
    let s ← get
    if (s.heap node).type ≠ .and then pure ()
    else do
      let childs := (s.heap node).childs
      let none := childs.countP fun c => (s.heap c).len == .none
      let emp := childs.countP s.emptyLeaf
      when (0 < emp) (act (.edit node .hasEmpty))
      let s ← get
      if none = childs.length ∧ (s.heap node).hasEmpty = false then do
        act (.edit node (.len .none))
        setAndLen f (s.heap node).father
      else if emp + (if (s.heap node).hasEmpty then none else 0) = childs.length then do
        act (.edit node (.len .empty))
        act (.edit node (.leaf true))
      else pure ()

/-- `setPalLen` -/
def setPalLen (node : Ptr) : M Unit := do
  let s ← get
  let childs := (s.heap node).childs
  let none := childs.countP fun c => (s.heap c).len == .none
  let emp := childs.countP s.emptyLeaf
  if none = childs.length then act (.edit node (.len .none))
  else if emp + none = childs.length then do
    act (.edit node (.len .empty))
    act (.edit node (.leaf true))
  else pure ()

/-- `setPrjLen`.  Where `child` is not found, `pos` is never assigned. -/
def setPrjLen (father child : Ptr) : M Unit := do
  let s ← get
  let childs := (s.heap father).childs
  let sum := childs.countP fun c => (s.heap c).len != .more && (s.heap c).type == .leaf
  if sum = childs.length then do
    act (.edit father (.len .empty))
    act (.edit father (.leaf false))
  else if childs.head? = some child then pure ()
  else
    let atEnd := if child ∈ childs then childs.idxOf child + 1 == childs.length else s.env.garbage child
    if atEnd then pure ()
    else if ((s.heap father).hasExtQ.getD (s.env.garbage father)) = false then
      act (.prjNode (some father))
    else pure ()

/-- `setNodeLength`, called by thread `self`. -/
def setNodeLength (f : Nat) (self : Tid) (type : NodeLength) : M Unit := do
  let s ← get
  match s.threadIDToNode self with
  | none => stop .assertFind
  | some node => do
    act (.edit node (.len type))
    match (s.heap node).father with
    | none => pure ()
    | some temp =>
      match (s.heap temp).type with
      | .and => setAndLen f (some temp)
      | .pal => setPalLen temp
      | .prj => setPrjLen temp node
      | .keep | .alw | .leaf => pure ()

/-- `Init`, called by the main thread: `pthread_create` of the manager and the construction of the
    root. -/
def init (type : NodeType) : M Unit := do
  let s ← get
  match type with
  | .and | .pal | .prj =>
    if s.threadIDToNode s.mainThread = none then act (.newRoot type) else stop .assertInsert
  | .keep | .alw | .leaf => stop .exitProcess

/-- `MyCreateThread`, called by thread `self`. -/
def myCreateThread (self : Tid) (addr : Bool) (type : CreateType) (id : Tid) : M Unit := do
  match type.nodeType with
  | none => pure ()
  | some type => do
    let s ← get
    when s.threadRoot.isNone (init type)
    let s ← get
    match s.threadIDToNode self with
    | none => stop .outOfRange
    | some father => do
      act (.edit father (.request type))
      if addr = false then pure ()
      else if s.Fresh id then act (.newThread father id)
      else stop .impossible

/-- `isspace` in the C locale: the blank, and tab to carriage return. -/
def isspace (c : Char) : Bool := c.toNat == 32 || (9 ≤ c.toNat && c.toNat ≤ 13)

/-- The words of a string, as `istringstream >> word` gives them. -/
def words : List Char → List (List Char)
  | [] => []
  | c :: cs =>
    if isspace c then words cs
    else
      match cs with
      | [] => [[c]]
      | d :: _ =>
        if isspace d then [c] :: words cs
        else
          match words cs with
          | [] => [[c]]
          | w :: ws => (c :: w) :: ws

/-- `$$Push`, called by thread `self`. -/
def push (self : Tid) (left right : List Char) (priority : Int) : M Unit :=
  act (.push { left := left, right := words right, priority := priority, threadId := self })

def runCall (f : Nat) (self : Tid) : Call → M Unit
  | .myCreateThread addr type id => myCreateThread self addr type id
  | .setNodeLength type => setNodeLength f self type
  | .push left right priority => push self left right priority

/-- What thread `self` does until it pauses or exits. -/
def runThread : Nat → Tid → M Unit
  | 0, _ => stop .fuel
  | f + 1, self => do
    let a ← Prog.read .waiting
    match a with
    | .call c => do
      runCall f self c
      runThread f self
    | .pause => pure ()
    | .exit => act (.exit self)

/-! ## excute -/

/-- The hand-over in `LeafNode::excute`, `KeepNode::excute` and `AlwNode::excute`: the thread of `n`
    has initialised itself, gets the turn and gives it back. -/
def turn (f : Nat) (n : Ptr) : M Unit := do
  act (.turn n)
  act (.edit n .isInit)
  let s ← get
  runThread f (s.heap n).thread

/-- `LeafNode::excute` -/
def leafExcute (f : Nat) (n : Ptr) : M Unit := do
  let s ← get
  if s.isExit n || (s.heap n).len != .more then pure () else turn f n

/-- `KeepNode::excute` -/
def keepExcute (f : Nat) (n : Ptr) : M Unit := do
  let s ← get
  if s.isExit n then pure ()
  else do
    turn f n
    act (.moveToKeepChilds n)

/-- `while (temp != NULL && temp->getNodeLength() != MORE)`: the length is MORE again, upwards. -/
def raiseLen : Nat → Option Ptr → M Unit
  | 0, _ => stop .fuel
  | _ + 1, none => pure ()
  | f + 1, some temp => do
    let s ← get
    if (s.heap temp).len = .more then pure ()
    else do
      act (.edit temp (.len .more))
      raiseLen f (s.heap temp).father

/-- `AlwNode::excute` -/
def alwExcute (f : Nat) (n : Ptr) : M Unit := do
  let s ← get
  if s.isExit n then pure ()
  else do
    turn f n
    let s ← get
    match (s.heap n).father with
    | none => stop .nullPointer
    | some father => do
      act (.moveToFather n father)
      when (0 < (s.heap n).childs.length) (raiseLen f (some father))

/-- Executing child `i` until it asks for no other type: the body of the loops of `AndNode::excute`,
    `PalNode::excute` and `updateNode`, and the loops of `PrjNode::excute`.  (`PrjNode` reads the slot
    again each time, the others keep `child`; it is in its slot all the time.) -/
def excuteSlot (ex : Ptr → M Unit) : Nat → Ptr → Nat → M Unit
  | 0, _, _ => stop .fuel
  | f + 1, owner, i => do
    let s ← get
    match (s.heap owner).childs[i]? with
    | none => stop .outOfRange
    | some child => do
      act (.enter child)
      ex child
      let s ← get
      if s.Open child then do
        replaceSlot owner i child
        act (.leave child)
        excuteSlot ex f owner i
      else act (.leave child)

/-- The loop of `AndNode::excute` and `PalNode::excute` from child `i` on. -/
def excuteChilds (ex : Ptr → M Unit) : Nat → Ptr → Nat → M Unit
  | 0, _, _ => stop .fuel
  | f + 1, n, i => do
    let s ← get
    if i < (s.heap n).childs.length then do
      excuteSlot ex f n i
      excuteChilds ex f n (i + 1)
    else pure ()

/-- `AndNode::excute` -/
def andExcute (ex : Ptr → M Unit) (f : Nat) (n : Ptr) : M Unit := do
  let done ← andCorrect (isCorrectAndExit f) f n
  if done then act (.edit n (.leaf false)) else excuteChilds ex f n 0

/-- `child->excute()` while an iterator stands in the vector of children of `n`. -/
def throughIterator (ex : Ptr → M Unit) (n child : Ptr) : M Unit := do
  let s ← get
  ex child
  let t ← get
  if (s.heap n).childs.length < (t.heap n).childs.length ∧
      t.env.moves n (t.heap n).childs.length = true then stop .iterator
  else pure ()

/-- `PalNode::excute`, whose loop has an iterator where `AndNode` has an index: when a child, of type
    ALW, hands its children to `n` and the vector moves, the iterator is invalid. -/
def palExcute (ex : Ptr → M Unit) (f : Nat) (n : Ptr) : M Unit := do
  let done ← palCorrect (isCorrectAndExit f) f n
  if done then act (.edit n (.leaf false)) else excuteChilds (throughIterator ex n) f n 0

/-- `while (childs[1]->getNodeLength() == EMPTY)`: the next p takes over in the same state. -/
def prjNext (ex : Ptr → M Unit) : Nat → Ptr → M Unit
  | 0, _ => stop .fuel
  | f + 1, n => do
    let s ← get
    match (s.heap n).childs[1]? with
    | none => stop .outOfRange
    | some p =>
      if (s.heap p).len = .empty then do
        act (.edit n (.extQ true))
        deleteSlot f n 1 p
        let s ← get
        if (s.heap n).childs.length = 1 then pure ()
        else do
          excuteSlot ex f n 1
          prjNext ex f n
      else pure ()

/-- The p's of `PrjNode::excute`. -/
def prjP (ex : Ptr → M Unit) (f : Nat) (n : Ptr) : M Unit := do
  let s ← get
  if (s.heap n).childs.length ≤ 1 then act (.edit n (.extQ true))
  else do
    excuteSlot ex f n 1
    prjNext ex f n

/-- The q of `PrjNode::excute`. -/
def prjQ (ex : Ptr → M Unit) (f : Nat) (n : Ptr) : M Unit := do
  let s ← get
  act (.edit n (.hasExtQ (s.heap n).extQ))
  if (s.heap n).extQ then
    match (s.heap n).childs[0]? with
    | none => stop .outOfRange
    | some q => do
      let done ← isCorrectAndExit f q
      if done then pure ()
      else do
        excuteSlot ex f n 0
        act (.edit n (.extQ false))
  else pure ()

/-- `PrjNode::excute` -/
def prjExcute (ex : Ptr → M Unit) (f : Nat) (n : Ptr) : M Unit := do
  let done ← prjCorrect n
  if done then act (.edit n (.leaf false))
  else do
    prjP ex f n
    prjQ ex f n

/-- `excute` -/
def excute : Nat → Ptr → M Unit
  | 0, _ => stop .fuel
  | f + 1, n => do
    let s ← get
    match (s.heap n).type with
    | .and => andExcute (excute f) f n
    | .pal => palExcute (excute f) f n
    | .prj => prjExcute (excute f) f n
    | .keep => keepExcute f n
    | .alw => alwExcute f n
    | .leaf => leafExcute f n

/-! ## The manager -/

/-- `updateNode`; the search loop ends within the vector or goes past its end. -/
def updateNode (f : Nat) (node : Ptr) : M Unit := do
  act (.updateNode node)
  let s ← get
  if ¬ s.Open node ∨ s.threadRoot = some node then pure ()
  else
    match (s.heap node).father with
    | none => stop .nullPointer
    | some father =>
      match (s.heap father).childs.findIdx? (· == node) with
      | none => stop .outOfRange
      | some i => do
        replaceSlot father i node
        excuteSlot (excute f) f father i

/-- The topmost AND of the chain of AND fathers of `node`, or `node`; `none` if the bound is too
    small. -/
def topAnd : Nat → State → Ptr → Option Ptr
  | 0, _, _ => none
  | f + 1, s, node =>
    match (s.heap node).father with
    | none => some node
    | some father => if (s.heap father).type = .and then topAnd f s father else some node

/-- One element of `keepChilds` is added to its father and executed. -/
def keepExcuteChild (f : Nat) (node father : Ptr) : M Unit := do
  act (.attach node father)
  raiseLen f (some father)
  act (.enter father)
  act (.enter node)
  excute f node
  updateNode f node
  act (.leave node)
  let s ← get
  match (s.heap node).father with
  | none => stop .nullPointer
  | some father' => do
    updateNode f father'
    act (.leave father)

/-- `excuteKeepChilds` -/
def excuteKeepChilds : Nat → M Unit
  | 0 => stop .fuel
  | f + 1 => do
    let s ← get
    match s.keepChilds[s.keepPos]? with
    | none => act .keepClear
    | some node =>
      match topAnd f s node with
      | none => stop .fuel
      | some andFather =>
        if (s.heap andFather).len = .empty then do
          act (.refuse node)
          deleteChilds f node
          release node
          act (.drop node)
          excuteKeepChilds f
        else
          match (s.heap node).father with
          | none => stop .nullPointer
          | some father => do
            keepExcuteChild f node father
            excuteKeepChilds f

/-- `if (changedNode != NULL)` in the loop over `$$prsnt`. -/
def updateChanged (f : Nat) : M Unit := do
  let s ← get
  match s.changedNode with
  | none => pure ()
  | some n => do
    updateNode f n
    act (.changedNode none)

/-- The element at the back of `$$prsnt` is executed. -/
def excuteElement (f : Nat) (ele : Element) : M Unit := do
  act .pop
  let s ← get
  match s.threadIDToNode ele.threadId with
  | none => stop .assertFind
  | some tempNode => do
    act (.enter tempNode)
    excute f tempNode
    updateNode f tempNode
    act (.leave tempNode)
    updateChanged f
    act (.free ele)

/-- `while (!$$prsnt.empty())`; gives whether the loop was left by `goto SORT`. -/
def drain : Nat → M Bool
  | 0 => stop .fuel
  | f + 1 => do
    let s ← get
    match s.prsnt.getLast? with
    | none => pure false
    | some ele => do
      let preSize := s.prsnt.length - 1
      excuteElement f ele
      let s ← get
      if preSize < s.prsnt.length ∨ s.prjNode.isSome then pure true else drain f

/-- `if (prjNode != NULL)` after the label SORT. -/
def deferredPrj (f : Nat) : M Unit := do
  let s ← get
  match s.prjNode with
  | none => pure ()
  | some n => do
    act (.deferred n)
    excute f n
    act (.prjNode none)

/-- `ManagerThread` from the label SORT to the end of the do-loop. -/
def sort : Nat → Ptr → M Unit
  | 0, _ => stop .fuel
  | f + 1, root => do
    deferredPrj f
    let again ← drain f
    if again then sort f root
    else do
      let _ ← isCorrectAndExit f root
      let s ← get
      if s.keepChilds.isEmpty then act .stateEnd
      else do
        excuteKeepChilds f
        sort f root

/-- The do-loop of `ManagerThread`. -/
def states : Nat → Ptr → M Unit
  | 0, _ => stop .fuel
  | f + 1, root => do
    let s ← get
    if (s.heap root).newType = .leaf ∨ (s.heap root).len = .empty then pure ()
    else do
      excute f root
      act (.changedNode none)
      act (.prjNode none)
      sort f root
      states f root

/-- `ManagerThread` after its initial loop. -/
def managerThread (f : Nat) : M Unit := do
  let s ← get
  match s.threadRoot with
  | none => pure ()
  | some root => do
    states f root
    deleteChilds f root
    release root
    act (.destroyRoot root)

/-- Parallel statements, one after the other: the main thread makes its calls and waits in
    `MyWaitForObject` until the manager has ended. -/
def statements : Nat → M Unit
  | 0 => stop .fuel
  | f + 1 => do
    let s ← get
    runThread f s.mainThread
    managerThread f
    statements f

/-- A run of the program. -/
def run (f : Nat) (mainThread : Tid) (env : Env) (input : List Action) :
    Except Stop Unit × World State Label Action :=
  statements f ⟨start mainThread env, input, []⟩

end Msvl.Function
