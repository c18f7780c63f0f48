/-
  What the steps that change the tree do, field by field.

  Each of them is a chain of writes; here the chain is evaluated once for each field that the
  invariant of the tree speaks of.  `kept s n` are the children that `getNewNode` hands on.
-/
import LibMSVL.Function.State

namespace Msvl.Function

namespace State

abbrev thread (s : State) (x : Ptr) : Tid := (s.heap x).thread
abbrev father (s : State) (x : Ptr) : Option Ptr := (s.heap x).father
abbrev childs (s : State) (x : Ptr) : List Ptr := (s.heap x).childs
abbrev type (s : State) (x : Ptr) : NodeType := (s.heap x).type
abbrev newType (s : State) (x : Ptr) : NodeType := (s.heap x).newType
abbrev birth (s : State) (x : Ptr) : Nat := (s.heap x).birth

end State

/-- A write to one object. -/
theorem heap_modify (s : State) (n x : Ptr) (f : Node → Node) :
    (s.modify n f).heap x = if x = n then f (s.heap x) else s.heap x := rfl

/-- `setFather` for each of some children. -/
theorem heap_setFathers (s : State) (cs : List Ptr) (father : Option Ptr) (x : Ptr) :
    (s.setFathers cs father).heap x =
      if x ∈ cs then { s.heap x with father := father } else s.heap x := rfl

/-- The children `getNewNode` hands on: none to a leaf. -/
def kept (s : State) (n : Ptr) : List Ptr := if s.newType n = .leaf then [] else s.childs n

/-! ## Fields that a write does not touch -/

section Field

variable {α : Type} {g : Node → α} {s : State} {x : Ptr}

/-- A write to other fields leaves `g` alone. -/
theorem field_modify {n : Ptr} {f : Node → Node} (hf : ∀ y, g (f y) = g y) :
    g ((s.modify n f).heap x) = g (s.heap x) := by
  rw [heap_modify]
  split
  · exact hf _
  · rfl

/-- So do new fathers, where `g` does not read the father. -/
theorem field_setFathers {cs : List Ptr} {v : Option Ptr}
    (hf : ∀ y, g { y with father := v } = g y) :
    g ((s.setFathers cs v).heap x) = g (s.heap x) := by
  rw [heap_setFathers]
  split
  · exact hf _
  · rfl

/-- A constructor, for a field that it writes in the new object only. -/
theorem field_construct {p : Ptr} {node : Node} (hf : ∀ y, g { y with father := some p } = g y)
    (hl : ∀ y, g { y with len := .none } = g y) :
    g ((construct s p node).heap x) = if x = p then g node else g (s.heap x) := by
  have hnew : g (if x = p then node else s.heap x) = if x = p then g node else g (s.heap x) :=
    apply_ite g _ _ _
  rw [← hnew]
  unfold construct
  split
  · exact (field_modify hl).trans (field_setFathers hf)
  · exact (field_modify hl).trans (field_setFathers hf)
  · exact field_setFathers hf

end Field

/-! ## Constructors -/

/-- The constructor enters the object under its thread. -/
theorem construct_map (s : State) (p : Ptr) (node : Node) :
    (construct s p node).threadIDToNode =
      Function.update s.threadIDToNode node.thread (some p) := by
  unfold construct
  split <;> rfl

/-- The children handed to a constructor get the new object as father. -/
theorem construct_father (s : State) (p : Ptr) (node : Node) (x : Ptr) :
    (construct s p node).father x =
      if x ∈ node.childs then some p else if x = p then node.father else s.father x := by
  have hfather : ∀ t : State, ∀ F, (t.modify F fun y => { y with len := .none }).father x =
      t.father x := fun t F => field_modify (g := Node.father) fun _ => rfl
  have hset : ∀ t : State, (t.setFathers node.childs (some p)).father x =
      if x ∈ node.childs then some p else t.father x := by
    intro t
    simp only [State.father, heap_setFathers]
    split <;> rfl
  unfold construct
  split
  all_goals
    first
    | rw [hfather, hset]
    | rw [hset]
    simp only [State.father]
    split_ifs <;> rfl

/-- A constructor touches no global but the map. -/
theorem global_construct {β : Type} {φ : State → β}
    (hφ : ∀ (t : State) h m, φ { t with heap := h, threadIDToNode := m } = φ t)
    (s : State) (p : Ptr) (node : Node) : φ (construct s p node) = φ s := by
  have h : construct s p node =
      { s with heap := (construct s p node).heap,
               threadIDToNode := (construct s p node).threadIDToNode } := by
    unfold construct
    split <;> rfl
  rw [h]
  exact hφ s _ _

/-! ## A new root, a new thread -/

section NewRoot

variable (s : State) (type : NodeType) (x : Ptr)

/-- The root is the node of the main thread. -/
theorem newRoot_map : (newRoot s type).threadIDToNode =
    Function.update s.threadIDToNode s.mainThread (some s.next) := construct_map _ _ _

/-- It has no father. -/
theorem newRoot_father : (newRoot s type).father x =
    if x = s.next then none else s.father x := by
  exact (construct_father _ _ (rootNode s type) x).trans (if_neg List.not_mem_nil)

/-- Every field but father and length: the new object's at `s.next`, unchanged elsewhere. -/
theorem newRoot_field {α : Type} {g : Node → α} (hf : ∀ y v, g { y with father := v } = g y)
    (hl : ∀ y v, g { y with len := v } = g y) :
    g ((newRoot s type).heap x) = if x = s.next then g (rootNode s type) else g (s.heap x) :=
  field_construct (fun y => hf y _) fun y => hl y _

/-- Counters and root apart, `Init` writes no global but the map. -/
theorem newRoot_global {β : Type} {φ : State → β}
    (hφ : ∀ (t : State) h m, φ { t with heap := h, threadIDToNode := m } = φ t) :
    φ (newRoot s type) =
      φ { s with next := s.next + 1, nextLock := s.nextLock + 2, births := s.births + 1,
                 threadRoot := some s.next } :=
  global_construct hφ _ _ _

end NewRoot

section NewThread

variable (s : State) (F : Ptr) (id : Tid) (x : Ptr)

/-- The new node is entered under the new id. -/
theorem newThread_map : (newThread s F id).threadIDToNode =
    Function.update s.threadIDToNode id (some s.next) := construct_map _ _ _

/-- Its father is the node of the caller. -/
theorem newThread_father : (newThread s F id).father x =
    if x = s.next then some F else s.father x := by
  calc (newThread s F id).father x
      = (construct _ s.next (leafNode s F id)).father x := field_modify fun _ => rfl
    _ = _ := (construct_father _ _ _ x).trans (if_neg List.not_mem_nil)

/-- Every field but father, children and length: the new object's at `s.next`, unchanged
    elsewhere. -/
theorem newThread_field {α : Type} {g : Node → α} (hf : ∀ y v, g { y with father := v } = g y)
    (hl : ∀ y v, g { y with len := v } = g y) (hc : ∀ y v, g { y with childs := v } = g y) :
    g ((newThread s F id).heap x) =
      if x = s.next then g (leafNode s F id) else g (s.heap x) :=
  (field_modify fun y => hc y _).trans (field_construct (fun y => hf y _) fun y => hl y _)

/-- It is the last child of its father, and has none itself. -/
theorem newThread_childs (hF : F ≠ s.next) : (newThread s F id).childs x =
    if x = s.next then [] else if x = F then s.childs F ++ [s.next] else s.childs x := by
  have hc : ∀ y, (construct _ s.next (leafNode s F id)).childs y =
      if y = s.next then [] else s.childs y :=
    fun y => field_construct (s := { s with next := s.next + 1, nextLock := s.nextLock + 2,
                                            births := s.births + 1,
                                            exited := Function.update s.exited id false })
      (g := Node.childs) (fun _ => rfl) fun _ => rfl
  show (State.heap (State.modify _ F _) x).childs = _
  rw [heap_modify]
  split
  · next h =>
    subst h
    rw [if_neg hF]
    exact congrArg (· ++ [s.next]) ((hc x).trans (if_neg hF))
  · exact hc x

/-- The counters apart, `MyCreateThread` writes no global but the map; a new thread has not exited.
    -/
theorem newThread_global {β : Type} {φ : State → β}
    (hφ : ∀ (t : State) h m, φ { t with heap := h, threadIDToNode := m } = φ t) :
    φ (newThread s F id) = φ { s with next := s.next + 1, nextLock := s.nextLock + 2,
                                      births := s.births + 1,
                                      exited := Function.update s.exited id false } :=
  (hφ _ _ _).trans (global_construct hφ _ _ _)

end NewThread

/-! ## A replaced node -/

section Replace

variable (s : State) (owner : Ptr) (i : Nat) (n x : Ptr)

/-- `getNewNode`, and the slot. -/
theorem apply_replace : (Label.replace owner i n).apply s =
    (getNewNode s n).modify owner fun x => { x with childs := x.childs.set i s.next } := rfl

/-- A node that becomes a leaf gives up its children. -/
theorem childs_clearChilds : (clearChilds s n).childs x = if x = n then kept s n else s.childs x := by
  unfold clearChilds kept
  split
  · rw [State.childs, heap_modify]
    split <;> rfl
  · split
    · next h => rw [h]
    · rfl

/-- Nothing else in the objects changes. -/
theorem field_clearChilds {α : Type} {g : Node → α} (hc : ∀ y v, g { y with childs := v } = g y) :
    g ((clearChilds s n).heap x) = g (s.heap x) := by
  unfold clearChilds
  split
  · exact field_modify fun y => hc y _
  · rfl

/-- Nor any global but the map. -/
theorem global_clearChilds {β : Type} {φ : State → β}
    (hφ : ∀ (t : State) h m, φ { t with heap := h, threadIDToNode := m } = φ t) :
    φ (clearChilds s n) = φ s := by
  unfold clearChilds
  split
  · exact hφ s _ s.threadIDToNode
  · rfl

/-- No object is made. -/
theorem clearChilds_next : (clearChilds s n).next = s.next :=
  global_clearChilds s n fun _ _ _ => rfl

/-- The children given up keep their entries in the map: the deletes are commented out. -/
theorem clearChilds_map : (clearChilds s n).threadIDToNode = s.threadIDToNode := by
  unfold clearChilds
  split <;> rfl

/-- The object that replaces `n`. -/
def newNode (s : State) (n : Ptr) : Node := typedNode { s.heap n with childs := kept s n }

/-- The new object copies the old one, whose children may be given up. -/
theorem typedNode_clearChilds : typedNode ((clearChilds s n).heap n) = newNode s n := by
  have h : (clearChilds s n).heap n = { s.heap n with childs := kept s n } := by
    unfold clearChilds kept
    split
    · rw [heap_modify, if_pos rfl]
    · rfl
  rw [h, newNode]

/-- `getNewNode` as a chain of writes: children, constructor, locks. -/
theorem getNewNode_eq : getNewNode s n =
    State.modify (construct { clearChilds s n with next := s.next + 1 } s.next (newNode s n)) n
      fun x => { x with mutex := none, cond := none } := by
  simp only [getNewNode, clearChilds_next, typedNode_clearChilds]

/-- The thread's entry leads to the new object. -/
theorem replace_map : ((Label.replace owner i n).apply s).threadIDToNode =
    Function.update s.threadIDToNode (s.thread n) (some s.next) := by
  show (getNewNode s n).threadIDToNode = _
  rw [getNewNode_eq]
  refine (construct_map _ _ _).trans ?_
  show Function.update (clearChilds s n).threadIDToNode _ _ = _
  rw [clearChilds_map]
  rfl

/-- The children handed on get the new object as father, which gets that of the old one. -/
theorem replace_father : ((Label.replace owner i n).apply s).father x =
    if x ∈ kept s n then some s.next else if x = s.next then s.father n else s.father x := by
  calc ((Label.replace owner i n).apply s).father x
      = (getNewNode s n).father x := by
        rw [apply_replace]
        exact field_modify (g := Node.father) fun _ => rfl
    _ = (construct { clearChilds s n with next := s.next + 1 } s.next (newNode s n)).father x := by
        rw [getNewNode_eq]
        exact field_modify (g := Node.father) fun _ => rfl
    _ = _ := by
        rw [construct_father]
        show (if x ∈ kept s n then some s.next
          else if x = s.next then s.father n else (clearChilds s n).father x) = _
        rw [show (clearChilds s n).father x = s.father x from
          field_clearChilds s n x (g := Node.father) fun _ _ => rfl]

/-- The slot holds the new object; new and old object have the children that are handed on. -/
theorem replace_childs (ho : owner ≠ n) : ((Label.replace owner i n).apply s).childs x =
    if x = owner then
      (if owner = s.next then kept s n else s.childs owner).set i s.next
    else if x = s.next ∨ x = n then kept s n else s.childs x := by
  have hg : ∀ y, (getNewNode s n).childs y =
      if y = s.next ∨ y = n then kept s n else s.childs y := by
    intro y
    calc (getNewNode s n).childs y
        = (construct { clearChilds s n with next := s.next + 1 } s.next (newNode s n)).childs y := by
          rw [getNewNode_eq]
          exact field_modify (g := Node.childs) fun _ => rfl
      _ = if y = s.next then kept s n else (clearChilds s n).childs y :=
          field_construct (g := Node.childs) (fun _ => rfl) fun _ => rfl
      _ = _ := by
          rw [childs_clearChilds]
          by_cases h : y = s.next <;> simp only [h, if_true, if_false, true_or, false_or]
  rw [apply_replace, State.childs, heap_modify]
  split
  · next h =>
    subst h
    show ((getNewNode s n).childs x).set i s.next = _
    rw [hg]
    simp [ho]
  · exact hg x

/-- The fields that are the same in old and new object. -/
theorem replace_field {α : Type} {g : Node → α} (hf : ∀ y v, g { y with father := v } = g y)
    (hl : ∀ y v, g { y with len := v } = g y) (hc : ∀ y v, g { y with childs := v } = g y)
    (hm : ∀ y v w, g { y with mutex := v, cond := w } = g y) :
    g (((Label.replace owner i n).apply s).heap x) =
      if x = s.next then g (newNode s n) else g (s.heap x) := by
  calc g (((Label.replace owner i n).apply s).heap x)
      = g ((getNewNode s n).heap x) := by
        rw [apply_replace]
        exact field_modify fun y => hc y _
    _ = g ((construct { clearChilds s n with next := s.next + 1 } s.next (newNode s n)).heap x) := by
        rw [getNewNode_eq]
        exact field_modify fun y => hm y _ _
    _ = if x = s.next then g (newNode s n) else g ((clearChilds s n).heap x) :=
        field_construct (fun y => hf y _) fun y => hl y _
    _ = _ := by rw [field_clearChilds s n x hc]

/-- Mutex and cond: the new object has them, the old one has not. -/
theorem replace_lock {α : Type} {g : Node → Option α} (hf : ∀ y v, g { y with father := v } = g y)
    (hl : ∀ y v, g { y with len := v } = g y) (hc : ∀ y v, g { y with childs := v } = g y)
    (hm : ∀ y : Node, g { y with mutex := none, cond := none } = none) :
    g (((Label.replace owner i n).apply s).heap x) =
      if x = n then none else if x = s.next then g (newNode s n) else g (s.heap x) := by
  calc g (((Label.replace owner i n).apply s).heap x)
      = g ((getNewNode s n).heap x) := by
        rw [apply_replace]
        exact field_modify fun y => hc y _
    _ = _ := by
        rw [getNewNode_eq, heap_modify]
        split
        · exact hm _
        · calc g ((construct { clearChilds s n with next := s.next + 1 } s.next (newNode s n)).heap x)
              = if x = s.next then g (newNode s n) else g ((clearChilds s n).heap x) :=
              field_construct (fun y => hf y _) fun y => hl y _
            _ = _ := by rw [field_clearChilds s n x hc]

/-- The counter of objects apart, a conversion writes no global but the map. -/
theorem replace_global {β : Type} {φ : State → β}
    (hφ : ∀ (t : State) h m, φ { t with heap := h, threadIDToNode := m } = φ t) :
    φ ((Label.replace owner i n).apply s) = φ { s with next := s.next + 1 } := by
  calc φ ((Label.replace owner i n).apply s)
      = φ (getNewNode s n) := hφ _ _ (getNewNode s n).threadIDToNode
    _ = φ (construct { clearChilds s n with next := s.next + 1 } s.next (newNode s n)) := by
        rw [getNewNode_eq]
        exact hφ (construct _ _ _) _ (construct _ _ _).threadIDToNode
    _ = φ { clearChilds s n with next := s.next + 1 } := global_construct hφ _ _ _
    _ = _ := @global_clearChilds s n _ (fun t => φ { t with next := s.next + 1 })
        fun t h m => hφ { t with next := s.next + 1 } h m

end Replace

/-! ## A destroyed node -/

section Destroy

variable (s : State) (owner : Ptr) (i : Nat) (n x : Ptr)

/-- `~Node` as a chain of writes: the entry, then the object. -/
theorem destroyNode_eq : destroyNode s n =
    State.modify { s with threadIDToNode := Function.update s.threadIDToNode (s.thread n) none } n
      fun x => { x with father := none, thread := 0, mutex := none, cond := none } := rfl

/-- `~Node`, and the slot. -/
theorem apply_destroy : (Label.destroy owner i n).apply s =
    (destroyNode s n).modify owner fun x => { x with childs := x.childs.eraseIdx i } := rfl

/-- The destroyed object has no father any more. -/
theorem destroy_father : ((Label.destroy owner i n).apply s).father x =
    if x = n then none else s.father x := by
  calc ((Label.destroy owner i n).apply s).father x
      = (destroyNode s n).father x := by
        rw [apply_destroy]
        exact field_modify (g := Node.father) fun _ => rfl
    _ = _ := by
        rw [destroyNode_eq, State.father, heap_modify]
        split <;> rfl

/-- The owner's vector loses one slot, the children behind move up. -/
theorem destroy_childs : ((Label.destroy owner i n).apply s).childs x =
    if x = owner then (s.childs owner).eraseIdx i else s.childs x := by
  have hd : ∀ y, (destroyNode s n).childs y = s.childs y := by
    intro y
    rw [destroyNode_eq]
    exact field_modify (g := Node.childs) fun _ => rfl
  rw [apply_destroy, State.childs, heap_modify]
  split
  · next h =>
    subst h
    exact congrArg (·.eraseIdx i) (hd x)
  · exact hd x

/-- The fields that `~Node` leaves. -/
theorem destroyNode_field {α : Type} {g : Node → α}
    (hg : ∀ y v w k l, g { y with father := v, thread := w, mutex := k, cond := l } = g y) :
    g ((destroyNode s n).heap x) = g (s.heap x) := by
  rw [destroyNode_eq]
  exact field_modify fun y => hg y _ _ _ _

/-- The fields that `~Node` writes. -/
theorem destroyNode_written {α : Type} {g : Node → α} {a : α}
    (hg : ∀ y : Node, g { y with father := none, thread := 0, mutex := none, cond := none } = a) :
    g ((destroyNode s n).heap x) = if x = n then a else g (s.heap x) := by
  rw [destroyNode_eq, heap_modify]
  split
  · exact hg _
  · rfl

/-- Where `g` does not read the children, the slot does not matter. -/
theorem destroy_field {α : Type} {g : Node → α} (hc : ∀ y v, g { y with childs := v } = g y) :
    g (((Label.destroy owner i n).apply s).heap x) = g ((destroyNode s n).heap x) := by
  rw [apply_destroy]
  exact field_modify fun y => hc y _

/-- The thread has no entry any more. -/
theorem destroy_map : ((Label.destroy owner i n).apply s).threadIDToNode =
    Function.update s.threadIDToNode (s.thread n) none := rfl

end Destroy

/-! ## Moved children -/

section Move

variable (s : State) (n F x : Ptr)

/-- The end of `KeepNode::excute` as a chain of writes. -/
theorem moveToKeepChilds_eq : moveToKeepChilds s n =
    (State.setFathers { s with keepChilds := s.keepChilds ++ s.childs n } (s.childs n)
      (s.father n)).modify n fun y => { y with childs := [] } := rfl

/-- The children get the father of the KEEP node. -/
theorem moveToKeepChilds_father : (moveToKeepChilds s n).father x =
    if x ∈ s.childs n then s.father n else s.father x := by
  calc (moveToKeepChilds s n).father x
      = (State.setFathers { s with keepChilds := s.keepChilds ++ s.childs n } (s.childs n)
          (s.father n)).father x := by
        rw [moveToKeepChilds_eq]
        exact field_modify (g := Node.father) fun _ => rfl
    _ = _ := by
        rw [State.father, heap_setFathers]
        split <;> rfl

/-- The KEEP node has no children any more, and nobody gets them yet. -/
theorem moveToKeepChilds_childs : (moveToKeepChilds s n).childs x =
    if x = n then [] else s.childs x := by
  rw [moveToKeepChilds_eq, State.childs, heap_modify]
  split
  · rfl
  · exact field_setFathers (g := Node.childs) fun _ => rfl

/-- Fathers and children apart, the objects stay as they are. -/
theorem moveToKeepChilds_field {α : Type} {g : Node → α}
    (hf : ∀ y v, g { y with father := v } = g y) (hc : ∀ y v, g { y with childs := v } = g y) :
    g ((moveToKeepChilds s n).heap x) = g (s.heap x) := by
  rw [moveToKeepChilds_eq]
  exact (field_modify fun y => hc y _).trans (field_setFathers fun y => hf y _)

/-- The end of `AlwNode::excute` as a chain of writes. -/
theorem moveToFather_eq : moveToFather s n F =
    ((s.setFathers (s.childs n) (s.father n)).modify F
      fun y => { y with childs := y.childs ++ s.childs n }).modify n
        fun y => { y with childs := [] } := rfl

/-- The children get the father of the ALW node. -/
theorem moveToFather_father : (moveToFather s n F).father x =
    if x ∈ s.childs n then s.father n else s.father x := by
  calc (moveToFather s n F).father x
      = (s.setFathers (s.childs n) (s.father n)).father x := by
        rw [moveToFather_eq]
        have hf : ∀ (f : Node → List Ptr) (y : Node), Node.father { y with childs := f y } = y.father :=
          fun _ _ => rfl
        exact (field_modify (g := Node.father) fun y => hf (fun _ => []) y).trans
          (field_modify (g := Node.father) fun y => hf (fun y => y.childs ++ s.childs n) y)
    _ = _ := by
        rw [State.father, heap_setFathers]
        split <;> rfl

/-- They follow those the father has. -/
theorem moveToFather_childs : (moveToFather s n F).childs x =
    if x = n then [] else if x = F then s.childs F ++ s.childs n else s.childs x := by
  have hset : ∀ y, (s.setFathers (s.childs n) (s.father n)).childs y = s.childs y :=
    fun y => field_setFathers (g := Node.childs) fun _ => rfl
  rw [moveToFather_eq, State.childs, heap_modify]
  split
  · rfl
  · rw [heap_modify]
    split
    · next h =>
      subst h
      exact congrArg (· ++ s.childs n) (hset x)
    · exact hset x

/-- Fathers and children apart, the objects stay as they are. -/
theorem moveToFather_field {α : Type} {g : Node → α}
    (hf : ∀ y v, g { y with father := v } = g y) (hc : ∀ y v, g { y with childs := v } = g y) :
    g ((moveToFather s n F).heap x) = g (s.heap x) := by
  rw [moveToFather_eq]
  exact (field_modify fun y => hc y _).trans
    ((field_modify fun y => hc y _).trans (field_setFathers fun y => hf y _))

end Move

/-! ## A keep child added to its father -/

section Attach

variable (s : State) (c F x : Ptr)

/-- `excuteKeepChilds` appends the waiting child and goes on to the next. -/
theorem apply_attach : (Label.attach c F).apply s =
    State.modify { s with keepPos := s.keepPos + 1 } F
      fun y => { y with childs := y.childs ++ [c] } := rfl

/-- It becomes the last child of its father. -/
theorem attach_childs : ((Label.attach c F).apply s).childs x =
    if x = F then s.childs F ++ [c] else s.childs x := by
  rw [apply_attach, State.childs, heap_modify]
  split
  · next h => rw [h]
  · rfl

/-- No other field is written. -/
theorem attach_field {α : Type} {g : Node → α} (hc : ∀ y v, g { y with childs := v } = g y) :
    g (((Label.attach c F).apply s).heap x) = g (s.heap x) := by
  rw [apply_attach]
  exact field_modify fun y => hc y _

end Attach

end Msvl.Function
