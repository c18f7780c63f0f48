/-
  What the code guarantees where it takes a step, and what follows.

  * `Guard b l s` — the step `l` is taken from `s` as the code takes it.  `b` bounds from below the
    birth of the nodes whose vectors lose a slot; it is the birth of the node that is executed or
    walked over, 1 for the manager's own work, and 0 for what happens outside of a statement.
  * `Guard.inv` — a guarded step keeps the invariant.
-/
import LibMSVL.Function.Delete
import LibMSVL.Function.Code

namespace Msvl.Function

/-! ## Guards -/

/-- The conversion of `n` is not asked for, or done, or left to the end of the statement. -/
def State.Settled (s : State) (n : Ptr) : Prop :=
  ¬ s.Open n ∨ ¬ s.Reg n ∨ s.threadRoot = some n

/-- `n` is the father of `c`, or of a father, and so on. -/
inductive State.Above (s : State) (c : Ptr) : Ptr → Prop
  | father {F : Ptr} : s.father c = some F → s.Above c F
  | next {F G : Ptr} : s.Above c F → s.father F = some G → s.Above c G

theorem State.Above.same {s t : State} {c n : Ptr} (hf : ∀ x, t.father x = s.father x)
    (h : s.Above c n) : t.Above c n := by
  induction h with
  | father hF => exact .father ((hf c).trans hF)
  | next _ hG ih => exact ih.next ((hf _).trans hG)

/-- What holds of `l` and the state before it.  `b` — see above. -/
def Guard (b : Nat) : Label → State → Prop
  | .edit n (.request _), s => s.Reg n ∧ (¬ (s.type n).Composite ∨ s.threadRoot = some n) ∧
      (n ∈ s.active ∨ s.threadRoot = some n)
  | .edit n (.leaf record), s => n < s.next ∧ (s.type n).Composite ∧
      (record = true → ∃ c ∈ s.active, s.Above c n)
  | .newRoot type, s => type.Composite ∧ s.threadRoot = none ∧
      s.threadIDToNode s.mainThread = none ∧ b = 0
  | .newThread father id, s => s.Reg father ∧ s.Fresh id ∧ b ≤ s.birth father
  | .replace owner i n, s => Slot s owner i n ∧ s.Open n ∧ b ≤ s.birth owner
  | .destroy owner i n, s => Slot s owner i n ∧ s.childs n = [] ∧ b ≤ s.birth owner
  | .destroyRoot r, s => s.threadRoot = some r ∧ s.childs r = [] ∧ b = 0
  | .moveToKeepChilds n, s => s.Reg n ∧ (∃ F, s.father n = some F) ∧ b ≤ s.birth n ∧
      s.type n = .keep ∧ n ∈ s.active
  | .moveToFather n father, s => s.Reg n ∧ s.father n = some father ∧ b ≤ s.birth n ∧
      ¬ (s.type n).Composite ∧ n ∈ s.active
  | .attach c father, s => s.keepChilds[s.keepPos]? = some c ∧ s.father c = some father ∧ b ≤ 1 ∧
      ∃ f A, topAnd f s c = some A ∧ (s.heap A).len ≠ .empty
  | .drop c, s => s.keepChilds[s.keepPos]? = some c ∧ s.childs c = [] ∧ b ≤ 1
  | .keepClear, s => s.pending = [] ∧ b ≤ 1
  | .push e, s => e.threadId = s.mainThread ∨
      ∃ n ∈ s.active, s.threadIDToNode e.threadId = some n
  | .pop, s => s.threadRoot ≠ none
  | .changedNode (some n), s => n < s.next
  | .prjNode (some n), s => n < s.next ∧ s.type n = .prj ∧
      ∃ c ∈ s.active, s.father c = some n
  | .leave n, s => s.active.head? = some n ∧ s.Settled n
  | .turn n, s => s.Reg n ∧ ¬ (s.type n).Composite ∧ n ∈ s.active
  | .updateNode n, s => n < s.next
  | .refuse c, s => s.keepChilds[s.keepPos]? = some c ∧
      ∃ f A, topAnd f s c = some A ∧ (s.heap A).len = .empty
  | .stateEnd, s => s.active = [] ∧ s.keepChilds = []
  | _, _ => True

theorem not_composite_keep {s : State} {n : Ptr} (hn : s.type n = .keep) :
    ¬ (s.type n).Composite := by
  rw [hn]
  exact id

theorem Guard.mono {b b' : Nat} (hb : b ≤ b') {l : Label} {s : State} (h : Guard b' l s) :
    Guard b l s := by
  cases l with
  | edit n e => cases e <;> exact h
  | newRoot type => exact ⟨h.1, h.2.1, h.2.2.1, Nat.le_zero.mp (h.2.2.2 ▸ hb)⟩
  | newThread F id => exact ⟨h.1, h.2.1, Nat.le_trans hb h.2.2⟩
  | replace o i n => exact ⟨h.1, h.2.1, Nat.le_trans hb h.2.2⟩
  | destroy o i n => exact ⟨h.1, h.2.1, Nat.le_trans hb h.2.2⟩
  | destroyRoot r => exact ⟨h.1, h.2.1, Nat.le_zero.mp (h.2.2 ▸ hb)⟩
  | moveToKeepChilds n => exact ⟨h.1, h.2.1, Nat.le_trans hb h.2.2.1, h.2.2.2⟩
  | moveToFather n F => exact ⟨h.1, h.2.1, Nat.le_trans hb h.2.2.1, h.2.2.2⟩
  | attach c F => exact ⟨h.1, h.2.1, Nat.le_trans hb h.2.2.1, h.2.2.2⟩
  | drop c => exact ⟨h.1, h.2.1, Nat.le_trans hb h.2.2⟩
  | keepClear => exact ⟨h.1, Nat.le_trans hb h.2⟩
  | changedNode n => cases n <;> exact h
  | prjNode n => cases n <;> exact h
  | _ => exact h

/-! ## Writes to a node -/

theorem apply_edit (s : State) (n : Ptr) (e : Edit) : (Label.edit n e).apply s =
    { s.modify n e.apply with changedNode := if e = .leaf true then some n else s.changedNode } := by
  cases e with
  | leaf record => cases record <;> rfl
  | _ => rfl

/-- The writes of `Edit` leave the tree and the map as they are. -/
theorem edit_field {α : Type} {g : Node → α} {s : State} {n : Ptr} {e : Edit}
    (hg : ∀ y, g (e.apply y) = g y) (x : Ptr) :
    g (((Label.edit n e).apply s).heap x) = g (s.heap x) := by
  rw [apply_edit]
  exact field_modify hg

/-- No global but `changedNode` is written. -/
theorem edit_global {β : Type} {φ : State → β} (s : State) (n : Ptr) (e : Edit)
    (hφ : ∀ u h c, φ { u with heap := h, changedNode := c } = φ u) :
    φ ((Label.edit n e).apply s) = φ s := by
  rw [apply_edit]
  exact hφ s (s.modify n e.apply).heap _

theorem sameMap_edit (s : State) (n : Ptr) (e : Edit) : SameMap s ((Label.edit n e).apply s) where
  next := edit_global s n e fun _ _ _ => rfl
  nextLock := edit_global s n e fun _ _ _ => rfl
  births := edit_global s n e fun _ _ _ => rfl
  map := edit_global s n e fun _ _ _ => rfl
  root := edit_global s n e fun _ _ _ => rfl
  main := edit_global s n e fun _ _ _ => rfl
  thread := edit_field (g := Node.thread) fun _ => by cases e <;> rfl
  birth := edit_field (g := Node.birth) fun _ => by cases e <;> rfl
  type := edit_field (g := Node.type) fun _ => by cases e <;> rfl
  mutex := edit_field (g := Node.mutex) fun _ => by cases e <;> rfl
  cond := edit_field (g := Node.cond) fun _ => by cases e <;> rfl

theorem edit_father (s : State) (n : Ptr) (e : Edit) (x : Ptr) :
    ((Label.edit n e).apply s).father x = s.father x :=
  edit_field (g := Node.father) (fun _ => by cases e <;> rfl) x

theorem edit_childs (s : State) (n : Ptr) (e : Edit) (x : Ptr) :
    ((Label.edit n e).apply s).childs x = s.childs x :=
  edit_field (g := Node.childs) (fun _ => by cases e <;> rfl) x

theorem edit_newType (s : State) (n : Ptr) (e : Edit) (x : Ptr) :
    ((Label.edit n e).apply s).newType x =
      if x = n then (e.apply (s.heap x)).newType else s.newType x := by
  rw [apply_edit, State.newType]
  show ((s.modify n e.apply).heap x).newType = _
  rw [heap_modify]
  split <;> rfl

section

variable {s : State} (h : Inv s)

include h

theorem links_edit (n : Ptr) (e : Edit) : Links ((Label.edit n e).apply s) := by
  have hsame := sameMap_edit s n e
  have hfather := edit_father s n e
  have hat : ∀ G i x, ((Label.edit n e).apply s).At G i x ↔ s.At G i x := by
    intro G i x
    unfold State.At
    rw [edit_childs]
  have hkeep : ((Label.edit n e).apply s).keepChilds = s.keepChilds :=
    edit_global s n e fun _ _ _ => rfl
  have hkeepPos : ((Label.edit n e).apply s).keepPos = s.keepPos :=
    edit_global s n e fun _ _ _ => rfl
  have hpending : ((Label.edit n e).apply s).pending = s.pending :=
    edit_global s n e fun _ _ _ => rfl
  generalize (Label.edit n e).apply s = t at *
  constructor
  · intro m hm G hG
    rw [hsame.next] at hm ⊢
    rw [hfather] at hG
    rw [hsame.birth, hsame.birth]
    exact h.up m hm G hG
  · intro G hG i c hc
    rw [hsame.next] at hG ⊢
    rw [hat] at hc
    rw [hsame.birth, hsame.birth, hfather]
    obtain ⟨hc', hb, hle⟩ := h.down G hG i c hc
    refine ⟨hc', hb, ?_⟩
    intro F hF
    rw [hsame.birth]
    exact hle F hF
  · intro x hx hheld i c hc
    rw [hsame.next] at hx
    rw [hsame.held] at hheld
    rw [hat] at hc
    rw [hsame.reg, hfather]
    exact h.held x hx hheld i c hc
  · intro x hx G hG i j hi hj
    rw [hsame.next] at hx
    rw [hfather] at hG
    rw [hat] at hi hj
    exact h.once x hx G hG i j hi hj
  · intro x hx hreg G hG i hi
    rw [hsame.next] at hx
    rw [hsame.reg] at hreg
    rw [hfather] at hG
    rw [hat] at hi
    exact h.gone x hx hreg G hG i hi
  · rw [hkeep, hkeepPos]
    exact h.pos
  · rw [hpending]
    exact h.pendOnce
  · intro c hc
    rw [hpending] at hc
    obtain ⟨hreg, F, hF, hno⟩ := h.pend c hc
    rw [hsame.reg, hfather]
    exact ⟨hreg, F, hF, fun i hi => hno i ((hat F i c).mp hi)⟩
  · intro x hx G hG hGreg
    rw [hsame.reg] at hx hGreg
    rw [hfather] at hG
    rw [hpending]
    exact (h.att x hx G hG hGreg).imp_left fun ⟨i, hi⟩ => ⟨i, (hat G i x).mpr hi⟩
  · intro r hr
    rw [hsame.root] at hr
    rw [hsame.reg, hfather]
    exact h.root r hr
  · intro x hx hfx
    rw [hsame.reg] at hx
    rw [hfather] at hfx
    rw [hsame.root]
    exact h.rootOnly x hx hfx

theorem objects_edit {b : Nat} {n : Ptr} {e : Edit} (hg : Guard b (.edit n e) s) :
    Objects ((Label.edit n e).apply s) := by
  have hprj : ((Label.edit n e).apply s).prjNode = s.prjNode := edit_global s n e fun _ _ _ => rfl
  refine (sameMap_edit s n e).objects h.toObjects ?_ ?_ ?_
  · intro x hx hr hc
    rw [edit_newType]
    split
    · next hxn =>
      subst hxn
      -- a composite node other than the root is asked to become a leaf, or nothing
      cases e with
      | leaf record => exact Or.inr rfl
      | request type =>
        rcases hg.2.1 with hno | hroot
        · exact absurd hc hno
        · exact absurd hroot hr
      | _ => exact h.newType x hx hr hc
    · exact h.newType x hx hr hc
  · intro m hm
    rw [apply_edit] at hm
    change (if e = .leaf true then some n else s.changedNode) = some m at hm
    split at hm
    · next hrec =>
      subst hrec
      cases hm
      exact hg.1
    · exact h.changed m hm
  · rw [hprj]
    exact h.prj

/-! ## Every step -/

/-- The fields of a state whose tree is the tree of `s`. -/
theorem Inv.same (ps : List Element) (kc : List Ptr) (kp : Nat) (ch pj : Option Ptr)
    (ex : Tid → Bool) (ac : List Ptr) (hpend : kc.drop kp = s.pending) (hpos : kp ≤ kc.length)
    (hch : ∀ n, ch = some n → n < s.next)
    (hpj : ∀ n, pj = some n → n < s.next ∧ (s.type n).Composite) :
    Inv { s with prsnt := ps, keepChilds := kc, keepPos := kp, changedNode := ch, prjNode := pj,
                 exited := ex, active := ac } where
  up := h.up
  down := h.down
  held := h.held
  once := h.once
  gone := h.gone
  pos := hpos
  pendOnce := by
    rw [State.pending, hpend]
    exact h.pendOnce
  pend := by
    intro c hc
    rw [State.pending, hpend] at hc
    exact h.pend c hc
  att := by
    intro x hx G hG hGreg
    rw [State.pending, hpend]
    exact h.att x hx G hG hGreg
  root := h.root
  rootOnly := h.rootOnly
  map := h.map
  birth := h.birth
  main := h.main
  rootType := h.rootType
  newType := h.newType
  locks := h.locks
  lockNext := h.lockNext
  mutexOwn := h.mutexOwn
  condOwn := h.condOwn
  changed := hch
  prj := hpj

/-- **A guarded step keeps the invariant.** -/
theorem Guard.inv {b : Nat} {l : Label} (hg : Guard b l s) : Inv (l.apply s) := by
  cases l with
  | edit n e => exact { links_edit h n e, objects_edit h hg with }
  | newRoot type => exact inv_newRoot h hg.1 hg.2.1 hg.2.2.1
  | newThread F id => exact inv_newThread h hg.1 hg.2.1
  | replace owner i n => exact inv_replace h hg.1 hg.2.1
  | destroy owner i n => exact (unlinked_destroy h hg.1 hg.2.1).inv h
  | destroyRoot r => exact (unlinked_destroyRoot h hg.1 hg.2.1).inv h
  | moveToKeepChilds n =>
    obtain ⟨hn, ⟨F, hF⟩, -⟩ := hg
    exact { links_moveToKeepChilds h hn hF,
            (sameObjects_moveToKeepChilds s n).objects h.toObjects with }
  | moveToFather n F =>
    exact { links_moveToFather h hg.1 hg.2.1,
            (sameObjects_moveToFather s n F).objects h.toObjects with }
  | attach c F =>
    exact { links_attach h hg.1 hg.2.1, (sameObjects_attach s c F).objects h.toObjects with }
  | drop c => exact (unlinked_drop h hg.1 hg.2.1).inv h
  | keepClear =>
    exact h.same s.prsnt [] 0 s.changedNode s.prjNode s.exited s.active hg.1.symm (Nat.le_refl 0)
      h.changed h.prj
  | push e =>
    exact h.same (s.prsnt ++ [e]) s.keepChilds s.keepPos s.changedNode s.prjNode s.exited s.active
      rfl h.pos h.changed h.prj
  | pop =>
    exact h.same s.prsnt.dropLast s.keepChilds s.keepPos s.changedNode s.prjNode s.exited s.active
      rfl h.pos h.changed h.prj
  | changedNode n =>
    refine h.same s.prsnt s.keepChilds s.keepPos n s.prjNode s.exited s.active rfl h.pos ?_ h.prj
    rintro m rfl
    exact hg
  | prjNode n =>
    refine h.same s.prsnt s.keepChilds s.keepPos s.changedNode n s.exited s.active rfl h.pos
      h.changed ?_
    rintro m rfl
    refine ⟨hg.1, ?_⟩
    rw [hg.2.1]
    trivial
  | exit id =>
    exact h.same s.prsnt s.keepChilds s.keepPos s.changedNode s.prjNode _ s.active rfl h.pos
      h.changed h.prj
  | enter n =>
    exact h.same s.prsnt s.keepChilds s.keepPos s.changedNode s.prjNode s.exited (n :: s.active) rfl
      h.pos h.changed h.prj
  | leave n =>
    exact h.same s.prsnt s.keepChilds s.keepPos s.changedNode s.prjNode s.exited s.active.tail rfl
      h.pos h.changed h.prj
  | turn n => exact h
  | updateNode n => exact h
  | deferred n => exact h
  | refuse c => exact h
  | free e => exact h
  | stateEnd => exact h

/-- Recording a node in `changedNode` needs no caller for this. -/
theorem inv_edit_leaf {n : Ptr} (hn : n < s.next) (hc : (s.type n).Composite) :
    Inv ((Label.edit n (.leaf true)).apply s) := by
  have hu : Inv ((Label.edit n (.leaf false)).apply s) := Guard.inv (b := 0) h ⟨hn, hc, by nofun⟩
  refine hu.same s.prsnt s.keepChilds s.keepPos (some n) s.prjNode s.exited s.active rfl h.pos ?_
    hu.prj
  rintro m hm
  cases hm
  exact hn

end

end Msvl.Function
