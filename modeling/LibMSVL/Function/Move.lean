/-
  Moving children: the ends of `KeepNode::excute`, `AlwNode::excute` and the attachment of a keep
  child.

  These steps change no object but for fathers and children (`SameObjects`).  Children of `n` go to
  the father `F` of `n` (`Handed`), which is older: nothing that `down` says about them becomes
  false, and `F` cannot have had them before (`Inv.child`).  A keep node hands them on through
  `keepChilds`, an alw node puts them into the vector of `F` itself.
-/
import LibMSVL.Function.Inv

namespace Msvl.Function

/-! ## Moving children -/

/-- The same objects, for the same threads, in the same map. -/
structure SameMap (s t : State) : Prop where
  next : t.next = s.next
  nextLock : t.nextLock = s.nextLock
  births : t.births = s.births
  map : t.threadIDToNode = s.threadIDToNode
  root : t.threadRoot = s.threadRoot
  main : t.mainThread = s.mainThread
  thread : ∀ x, t.thread x = s.thread x
  birth : ∀ x, t.birth x = s.birth x
  type : ∀ x, t.type x = s.type x
  mutex : ∀ x, (t.heap x).mutex = (s.heap x).mutex
  cond : ∀ x, (t.heap x).cond = (s.heap x).cond

/-- The same nodes are registered. -/
theorem SameMap.reg {s t : State} (h : SameMap s t) (x : Ptr) : t.Reg x ↔ s.Reg x := by
  unfold State.Reg
  rw [h.map, show (t.heap x).thread = (s.heap x).thread from h.thread x]

/-- Whose children were valid, still has valid ones. -/
theorem SameMap.held {s t : State} (h : SameMap s t) (x : Ptr) : t.Held x ↔ s.Held x := by
  unfold State.Held
  rw [h.reg, h.type]

/-- The rest of the invariant, if the three fields it speaks of besides are right. -/
theorem SameMap.objects {s t : State} (h : SameMap s t) (ho : Objects s)
    (hnewType : ∀ x, s.Reg x → s.threadRoot ≠ some x → (s.type x).Composite →
      t.newType x = s.type x ∨ t.newType x = .leaf)
    (hchanged : ∀ n, t.changedNode = some n → n < s.next)
    (hprj : ∀ n, t.prjNode = some n → n < s.next ∧ (s.type n).Composite) : Objects t where
  map := by
    intro i n hn
    rw [h.map] at hn
    rw [h.next, h.thread]
    exact ho.map i n hn
  birth := by
    intro n hn
    rw [h.next] at hn
    rw [h.birth, h.births]
    exact ho.birth n hn
  main := by
    rw [h.map, h.main, h.root]
    exact ho.main
  rootType := by
    intro r hr
    rw [h.root] at hr
    rw [h.type, h.thread, h.main]
    exact ho.rootType r hr
  newType := by
    intro x hx hr hc
    rw [h.reg] at hx
    rw [h.root] at hr
    rw [h.type] at hc
    rw [h.type]
    exact hnewType x hx hr hc
  locks := by
    intro x hx
    rw [h.reg] at hx
    rw [h.mutex, h.cond]
    exact ho.locks x hx
  lockNext := by
    intro x hx
    rw [h.next] at hx
    rw [h.mutex, h.cond, h.nextLock]
    exact ho.lockNext x hx
  mutexOwn := by
    intro x hx y hy m
    rw [h.next] at hx hy
    rw [h.mutex, h.mutex]
    exact ho.mutexOwn x hx y hy m
  condOwn := by
    intro x hx y hy m
    rw [h.next] at hx hy
    rw [h.cond, h.cond]
    exact ho.condOwn x hx y hy m
  changed := by
    rw [h.next]
    exact hchanged
  prj := by
    intro n hn
    rw [h.next, h.type]
    exact hprj n hn

/-- Nothing but fathers, children, lengths and flags of nodes, and the waiting elements, differ. -/
structure SameObjects (s t : State) : Prop extends SameMap s t where
  newType : ∀ x, t.newType x = s.newType x
  changed : t.changedNode = s.changedNode
  prj : t.prjNode = s.prjNode

/-- Which they are if they have not changed. -/
theorem SameObjects.objects {s t : State} (h : SameObjects s t) (ho : Objects s) : Objects t := by
  refine h.toSameMap.objects ho ?_ ?_ ?_
  · intro x
    rw [h.newType]
    exact ho.newType x
  · rw [h.changed]
    exact ho.changed
  · rw [h.prj]
    exact ho.prj

/-- The end of `KeepNode::excute` changes fathers, one vector and `keepChilds`. -/
theorem sameObjects_moveToKeepChilds (s : State) (n : Ptr) :
    SameObjects s (moveToKeepChilds s n) where
  next := rfl
  nextLock := rfl
  births := rfl
  map := rfl
  root := rfl
  main := rfl
  changed := rfl
  prj := rfl
  thread x := moveToKeepChilds_field s n x (g := Node.thread) (fun _ _ => rfl) fun _ _ => rfl
  birth x := moveToKeepChilds_field s n x (g := Node.birth) (fun _ _ => rfl) fun _ _ => rfl
  type x := moveToKeepChilds_field s n x (g := Node.type) (fun _ _ => rfl) fun _ _ => rfl
  newType x := moveToKeepChilds_field s n x (g := Node.newType) (fun _ _ => rfl) fun _ _ => rfl
  mutex x := moveToKeepChilds_field s n x (g := Node.mutex) (fun _ _ => rfl) fun _ _ => rfl
  cond x := moveToKeepChilds_field s n x (g := Node.cond) (fun _ _ => rfl) fun _ _ => rfl

/-- The end of `AlwNode::excute` changes fathers and two vectors. -/
theorem sameObjects_moveToFather (s : State) (n F : Ptr) :
    SameObjects s (moveToFather s n F) where
  next := rfl
  nextLock := rfl
  births := rfl
  map := rfl
  root := rfl
  main := rfl
  changed := rfl
  prj := rfl
  thread x := moveToFather_field s n F x (g := Node.thread) (fun _ _ => rfl) fun _ _ => rfl
  birth x := moveToFather_field s n F x (g := Node.birth) (fun _ _ => rfl) fun _ _ => rfl
  type x := moveToFather_field s n F x (g := Node.type) (fun _ _ => rfl) fun _ _ => rfl
  newType x := moveToFather_field s n F x (g := Node.newType) (fun _ _ => rfl) fun _ _ => rfl
  mutex x := moveToFather_field s n F x (g := Node.mutex) (fun _ _ => rfl) fun _ _ => rfl
  cond x := moveToFather_field s n F x (g := Node.cond) (fun _ _ => rfl) fun _ _ => rfl

/-- An attachment changes one vector and the position in `keepChilds`. -/
theorem sameObjects_attach (s : State) (c F : Ptr) :
    SameObjects s ((Label.attach c F).apply s) where
  next := rfl
  nextLock := rfl
  births := rfl
  map := rfl
  root := rfl
  main := rfl
  changed := rfl
  prj := rfl
  thread x := attach_field s c F x (g := Node.thread) fun _ _ => rfl
  birth x := attach_field s c F x (g := Node.birth) fun _ _ => rfl
  type x := attach_field s c F x (g := Node.type) fun _ _ => rfl
  newType x := attach_field s c F x (g := Node.newType) fun _ _ => rfl
  mutex x := attach_field s c F x (g := Node.mutex) fun _ _ => rfl
  cond x := attach_field s c F x (g := Node.cond) fun _ _ => rfl

/-! ### The father of the children -/

/-- The children of `n` have the father `F` of `n`, nobody else has another one. -/
structure Handed (s t : State) (n F : Ptr) : Prop extends SameObjects s t where
  giver : s.Reg n
  taker : s.father n = some F
  father : ∀ x, t.father x = if x ∈ s.childs n then some F else s.father x

namespace Handed

variable {s t : State} {n F : Ptr} (hh : Handed s t n F) (h : Inv s)

include hh h

/-- `F` is older than `n`. -/
theorem lt : n < s.next ∧ F < s.next ∧ s.birth F < s.birth n :=
  have hn := h.alloc hh.giver
  ⟨hn, h.up n hn F hh.taker⟩

/-- What is known of the children of `n` before they are handed over. -/
theorem child {x : Ptr} (hx : x ∈ s.childs n) :
    s.Reg x ∧ s.father x = some n ∧ s.birth n < s.birth x ∧ ∀ j, ¬ s.At F j x := by
  obtain ⟨i, hi⟩ := State.at_iff_mem.mp hx
  exact h.child hh.giver hh.taker hi

/-- Nobody else gets another father. -/
theorem stay {x : Ptr} (hx : s.father x ≠ some n) : t.father x = s.father x := by
  rw [hh.father, if_neg]
  exact fun hmem => hx (hh.child h hmem).2.1

/-- What waits is not among them. -/
theorem pending_stay {c : Ptr} (hc : c ∈ s.pending) : c ∉ s.childs n := by
  intro hmem
  obtain ⟨i, hi⟩ := State.at_iff_mem.mp hmem
  exact h.pending_not_at hc (hh.lt h).1 (Or.inl hh.giver) i hi

/-- The new father is older than the old one, so it is older than the children. -/
theorem up : ∀ x < t.next, ∀ G, t.father x = some G → G < t.next ∧ t.birth G < t.birth x := by
  intro x hx G hG
  rw [hh.next] at hx ⊢
  rw [hh.birth, hh.birth]
  rw [hh.father] at hG
  split at hG
  · next hmem =>
    cases hG
    obtain ⟨-, hF, hFn⟩ := hh.lt h
    have hnx := (hh.child h hmem).2.2.1
    exact ⟨hF, Nat.lt_trans hFn hnx⟩
  · exact h.up x hx G hG

/-- Whose vector the child `c` of `G` is in, it has no younger father than `G`. -/
theorem down_old {G c : Ptr} {i : Nat} (hG : G < s.next) (hc : s.At G i c) :
    c < t.next ∧ t.birth G < t.birth c ∧ ∀ F', t.father c = some F' → t.birth F' ≤ t.birth G := by
  obtain ⟨hc', hb, hle⟩ := h.down G hG i c hc
  rw [hh.next, hh.birth, hh.birth]
  refine ⟨hc', hb, ?_⟩
  intro F' hF'
  rw [hh.birth]
  rw [hh.father] at hF'
  split at hF'
  · next hmem =>
    cases hF'
    have hn := hle n (hh.child h hmem).2.1
    exact Nat.le_trans (Nat.le_of_lt (hh.lt h).2.2) hn
  · exact hle F' hF'

/-- The children of anybody but `n` keep their father. -/
theorem held_old {x c : Ptr} {i : Nat} (hx : x < s.next) (hheld : s.Held x) (hxn : x ≠ n)
    (hc : s.At x i c) : t.Reg c ∧ t.father c = some x := by
  obtain ⟨hreg, hfc⟩ := h.held x hx hheld i c hc
  refine ⟨(hh.reg c).mpr hreg, (hh.stay h ?_).trans hfc⟩
  rw [hfc]
  intro heq
  cases heq
  exact hxn rfl

/-- The root has no father. -/
theorem root_ : ∀ r, t.threadRoot = some r → t.Reg r ∧ t.father r = none := by
  intro r hr
  rw [hh.root] at hr
  obtain ⟨hreg, hfr⟩ := h.root r hr
  refine ⟨(hh.reg r).mpr hreg, (hh.stay h ?_).trans hfr⟩
  rw [hfr]
  intro heq
  cases heq

omit h in
/-- Only the root has none. -/
theorem rootOnly (h : Inv s) : ∀ x, t.Reg x → t.father x = none → t.threadRoot = some x := by
  intro x hx hfx
  rw [hh.reg] at hx
  rw [hh.toSameMap.root]
  rw [hh.father] at hfx
  split at hfx
  · cases hfx
  · exact h.rootOnly x hx hfx

end Handed

/-! ### To the waiting elements -/

/-- The children of `n` wait behind what waited. -/
structure HandedToKeep (s t : State) (n F : Ptr) : Prop extends Handed s t n F where
  at_ : ∀ G i x, t.At G i x ↔ G ≠ n ∧ s.At G i x
  pending : t.pending = s.pending ++ s.childs n
  pos : t.keepPos ≤ t.keepChilds.length

namespace HandedToKeep

variable {s t : State} {n F : Ptr} (hh : HandedToKeep s t n F) (h : Inv s)

include hh h

/-- Whoever has children is older than they are; `n` has none any more. -/
theorem down : ∀ G < t.next, ∀ i c, t.At G i c → c < t.next ∧ t.birth G < t.birth c ∧
    ∀ F', t.father c = some F' → t.birth F' ≤ t.birth G := by
  intro G hG i c hc
  rw [hh.next] at hG
  exact hh.down_old h hG ((hh.at_ G i c).mp hc).2

/-- The other vectors are what they were, and point back. -/
theorem held : ∀ x < t.next, t.Held x → ∀ i c, t.At x i c → t.Reg c ∧ t.father c = some x := by
  intro x hx hheld i c hc
  rw [hh.next] at hx
  rw [hh.toSameMap.held] at hheld
  obtain ⟨hxn, hc⟩ := (hh.at_ x i c).mp hc
  exact hh.held_old h hx hheld hxn hc

/-- No slot has been added. -/
theorem once : ∀ x < t.next, ∀ G, t.father x = some G → ∀ i j, t.At G i x → t.At G j x → i = j := by
  intro x hx G hG i j hi hj
  rw [hh.next] at hx
  obtain ⟨-, hi⟩ := (hh.at_ G i x).mp hi
  obtain ⟨-, hj⟩ := (hh.at_ G j x).mp hj
  rw [hh.father] at hG
  split at hG
  · next hmem =>
    cases hG
    exact absurd hi ((hh.child h hmem).2.2.2 i)
  · exact h.once x hx G hG i j hi hj

/-- No object has come off the map. -/
theorem gone : ∀ x < t.next, ¬ t.Reg x → ∀ G, t.father x = some G → ∀ i, ¬ t.At G i x := by
  intro x hx hreg G hG i hi
  rw [hh.next] at hx
  rw [hh.reg] at hreg
  obtain ⟨-, hi⟩ := (hh.at_ G i x).mp hi
  rw [hh.father] at hG
  split at hG
  · next hmem => exact hreg (hh.child h hmem).1
  · exact h.gone x hx hreg G hG i hi

/-- The children of `n` are distinct, and none of them waited. -/
theorem pendOnce : t.pending.Nodup := by
  rw [hh.pending, List.nodup_append]
  refine ⟨h.pendOnce, h.childs_nodup (hh.lt h).1 (Or.inl hh.giver), ?_⟩
  rintro a ha b hb rfl
  exact hh.pending_stay h ha hb

/-- The children of `n` are in no vector now. -/
theorem pend : ∀ c ∈ t.pending, t.Reg c ∧ ∃ G, t.father c = some G ∧ ∀ i, ¬ t.At G i c := by
  intro c hc
  rw [hh.pending, List.mem_append] at hc
  rw [hh.reg, hh.father]
  rcases hc with hc | hc
  · obtain ⟨hreg, G, hG, hno⟩ := h.pend c hc
    refine ⟨hreg, G, ?_, fun i hi => hno i ((hh.at_ G i c).mp hi).2⟩
    rw [if_neg (hh.pending_stay h hc), hG]
  · obtain ⟨hreg, -, -, hno⟩ := hh.child h hc
    exact ⟨hreg, F, if_pos hc, fun i hi => hno i ((hh.at_ F i c).mp hi).2⟩

/-- They wait; everybody else is where he was. -/
theorem att : ∀ x, t.Reg x → ∀ G, t.father x = some G → t.Reg G →
    (∃ i, t.At G i x) ∨ x ∈ t.pending := by
  intro x hx G hG hGreg
  rw [hh.reg] at hx hGreg
  rw [hh.pending, List.mem_append]
  by_cases hmem : x ∈ s.childs n
  · exact Or.inr (Or.inr hmem)
  · rw [hh.father, if_neg hmem] at hG
    rcases h.att x hx G hG hGreg with ⟨i, hi⟩ | hp
    · refine Or.inl ⟨i, (hh.at_ G i x).mpr ⟨?_, hi⟩⟩
      rintro rfl
      exact hmem (State.at_iff_mem.mpr ⟨i, hi⟩)
    · exact Or.inr (Or.inl hp)

/-- **Fathers and children agree** when the children of a KEEP node wait. -/
theorem links : Links t where
  up := hh.up h
  down := hh.down h
  held := hh.held h
  once := hh.once h
  gone := hh.gone h
  pos := hh.pos
  pendOnce := hh.pendOnce h
  pend := hh.pend h
  att := hh.att h
  root := hh.root_ h
  rootOnly := hh.rootOnly h

end HandedToKeep

/-- The vectors: that of `n` is empty. -/
theorem moveToKeepChilds_at {s : State} {n : Ptr} (G : Ptr) (i : Nat) (x : Ptr) :
    (moveToKeepChilds s n).At G i x ↔ G ≠ n ∧ s.At G i x := by
  unfold State.At
  rw [moveToKeepChilds_childs]
  split
  · next hGn => simp [hGn]
  · next hGn => simp [hGn]

/-- So they do after `KeepNode::excute`. -/
theorem links_moveToKeepChilds {s : State} (h : Inv s) {n F : Ptr} (hn : s.Reg n)
    (hF : s.father n = some F) : Links (moveToKeepChilds s n) := by
  have hh : HandedToKeep s (moveToKeepChilds s n) n F :=
    { sameObjects_moveToKeepChilds s n with
      giver := hn
      taker := hF
      father := fun x => by rw [moveToKeepChilds_father, hF]
      at_ := moveToKeepChilds_at
      pending := List.drop_append_of_le_length h.pos
      pos := by
        show s.keepPos ≤ (s.keepChilds ++ s.childs n).length
        rw [List.length_append]
        exact Nat.le_trans h.pos (Nat.le_add_right _ _) }
  exact hh.links h

/-! ### To the father -/

/-- The children of `n` come after those of `F`. -/
structure HandedToFather (s t : State) (n F : Ptr) : Prop extends Handed s t n F where
  at_ : ∀ G i x, t.At G i x ↔ G ≠ n ∧
    (s.At G i x ∨ G = F ∧ (s.childs F).length ≤ i ∧ s.At n (i - (s.childs F).length) x)
  pending : t.pending = s.pending
  pos : t.keepPos ≤ t.keepChilds.length

namespace HandedToFather

variable {s t : State} {n F : Ptr} (hh : HandedToFather s t n F) (h : Inv s)

include hh h

omit hh h in
/-- A slot of `n` holds a child of `n`. -/
theorem mem_of_at {i : Nat} {x : Ptr} (hi : s.At n i x) : x ∈ s.childs n :=
  State.at_iff_mem.mpr ⟨i, hi⟩

/-- The children of `n` are younger than `F`, which is older than `n`. -/
theorem down : ∀ G < t.next, ∀ i c, t.At G i c → c < t.next ∧ t.birth G < t.birth c ∧
    ∀ F', t.father c = some F' → t.birth F' ≤ t.birth G := by
  intro G hG i c hc
  rw [hh.next] at hG
  rcases ((hh.at_ G i c).mp hc).2 with hc | ⟨rfl, -, hc⟩
  · exact hh.down_old h hG hc
  · have hmem := mem_of_at hc
    obtain ⟨hreg, -, hb, -⟩ := hh.child h hmem
    rw [hh.next, hh.birth, hh.birth]
    refine ⟨h.alloc hreg, Nat.lt_trans (hh.lt h).2.2 hb, ?_⟩
    intro F' hF'
    rw [hh.father, if_pos hmem] at hF'
    cases hF'
    exact Nat.le_of_eq (hh.birth _)

/-- They point to `F`, in whose vector they are. -/
theorem held : ∀ x < t.next, t.Held x → ∀ i c, t.At x i c → t.Reg c ∧ t.father c = some x := by
  intro x hx hheld i c hc
  rw [hh.next] at hx
  rw [hh.toSameMap.held] at hheld
  obtain ⟨hxn, hc | ⟨rfl, -, hc⟩⟩ := (hh.at_ x i c).mp hc
  · exact hh.held_old h hx hheld hxn hc
  · rw [hh.reg, hh.father]
    exact ⟨(hh.child h (mem_of_at hc)).1, if_pos (mem_of_at hc)⟩

/-- A child of `n` was in no slot of `F`, and in one of `n`. -/
theorem once : ∀ x < t.next, ∀ G, t.father x = some G → ∀ i j, t.At G i x → t.At G j x → i = j := by
  intro x hx G hG i j hi hj
  rw [hh.next] at hx
  rw [hh.father] at hG
  split at hG
  · next hxn =>
    cases hG
    obtain ⟨-, hfx, -, hno⟩ := hh.child h hxn
    obtain ⟨-, hi | ⟨-, hile, hi⟩⟩ := (hh.at_ F i x).mp hi
    · exact absurd hi (hno i)
    · obtain ⟨-, hj | ⟨-, hjle, hj⟩⟩ := (hh.at_ F j x).mp hj
      · exact absurd hj (hno j)
      · have heq := h.once x hx n hfx _ _ hi hj
        omega
  · next hxn =>
    obtain ⟨-, hi | ⟨-, -, hi⟩⟩ := (hh.at_ G i x).mp hi
    · obtain ⟨-, hj | ⟨-, -, hj⟩⟩ := (hh.at_ G j x).mp hj
      · exact h.once x hx G hG i j hi hj
      · exact absurd (mem_of_at hj) hxn
    · exact absurd (mem_of_at hi) hxn

/-- No object has come off the map. -/
theorem gone : ∀ x < t.next, ¬ t.Reg x → ∀ G, t.father x = some G → ∀ i, ¬ t.At G i x := by
  intro x hx hreg G hG i hi
  rw [hh.next] at hx
  rw [hh.reg] at hreg
  have hxn : x ∉ s.childs n := fun hxn => hreg (hh.child h hxn).1
  rw [hh.father, if_neg hxn] at hG
  obtain ⟨-, hi | ⟨-, -, hi⟩⟩ := (hh.at_ G i x).mp hi
  · exact h.gone x hx hreg G hG i hi
  · exact hxn (mem_of_at hi)

/-- What waited is still in no vector. -/
theorem pend : ∀ c ∈ t.pending, t.Reg c ∧ ∃ G, t.father c = some G ∧ ∀ i, ¬ t.At G i c := by
  intro c hc
  rw [hh.pending] at hc
  have hcn := hh.pending_stay h hc
  obtain ⟨hreg, G, hG, hno⟩ := h.pend c hc
  rw [hh.reg, hh.father, if_neg hcn]
  refine ⟨hreg, G, hG, ?_⟩
  intro i hi
  obtain ⟨-, hi | ⟨-, -, hi⟩⟩ := (hh.at_ G i c).mp hi
  · exact hno i hi
  · exact hcn (mem_of_at hi)

/-- Everybody is in his father's vector or waits, as before. -/
theorem att : ∀ x, t.Reg x → ∀ G, t.father x = some G → t.Reg G →
    (∃ i, t.At G i x) ∨ x ∈ t.pending := by
  intro x hx G hG hGreg
  rw [hh.reg] at hx hGreg
  rw [hh.pending]
  rw [hh.father] at hG
  split at hG
  · next hxn =>
    cases hG
    have hne : F ≠ n := by
      rintro rfl
      exact Nat.lt_irrefl _ (hh.lt h).2.2
    obtain ⟨i, hi⟩ := State.at_iff_mem.mp hxn
    refine Or.inl ⟨(s.childs F).length + i, (hh.at_ F _ x).mpr ⟨hne, Or.inr ⟨rfl, ?_, ?_⟩⟩⟩
    · exact Nat.le_add_right _ _
    · rwa [Nat.add_sub_cancel_left]
  · next hxn =>
    rcases h.att x hx G hG hGreg with ⟨i, hi⟩ | hp
    · refine Or.inl ⟨i, (hh.at_ G i x).mpr ⟨?_, Or.inl hi⟩⟩
      rintro rfl
      exact hxn (mem_of_at hi)
    · exact Or.inr hp

/-- **Fathers and children agree** when `F` has the children of an ALW node. -/
theorem links : Links t where
  up := hh.up h
  down := hh.down h
  held := hh.held h
  once := hh.once h
  gone := hh.gone h
  pos := hh.pos
  pendOnce := by
    rw [hh.pending]
    exact h.pendOnce
  pend := hh.pend h
  att := hh.att h
  root := hh.root_ h
  rootOnly := hh.rootOnly h

end HandedToFather

/-- The vectors: that of `n` stands behind that of `F`. -/
theorem moveToFather_at {s : State} {n F : Ptr} (G : Ptr) (i : Nat) (x : Ptr) :
    (moveToFather s n F).At G i x ↔ G ≠ n ∧
      (s.At G i x ∨ G = F ∧ (s.childs F).length ≤ i ∧ s.At n (i - (s.childs F).length) x) := by
  unfold State.At
  rw [moveToFather_childs]
  by_cases hGn : G = n
  · simp [hGn]
  · by_cases hGF : G = F
    · subst hGF
      rw [if_neg hGn, if_pos rfl, List.getElem?_append]
      split
      · next hlt =>
        constructor
        · exact fun hi => ⟨hGn, Or.inl hi⟩
        · rintro ⟨-, hi | ⟨-, hle, -⟩⟩
          · exact hi
          · omega
      · next hlt =>
        constructor
        · exact fun hi => ⟨hGn, Or.inr ⟨rfl, by omega, hi⟩⟩
        · rintro ⟨-, hi | ⟨-, -, hi⟩⟩
          · rw [List.getElem?_eq_none (by omega)] at hi
            cases hi
          · exact hi
    · simp [hGn, hGF]

/-- So they do after `AlwNode::excute`. -/
theorem links_moveToFather {s : State} (h : Inv s) {n F : Ptr} (hn : s.Reg n)
    (hF : s.father n = some F) : Links (moveToFather s n F) := by
  have hh : HandedToFather s (moveToFather s n F) n F :=
    { sameObjects_moveToFather s n F with
      giver := hn
      taker := hF
      father := fun x => by rw [moveToFather_father, hF]
      at_ := moveToFather_at
      pending := rfl
      pos := h.pos }
  exact hh.links h

/-! ### From the waiting elements -/

/-- The first waiting element `c` is the last child of its father `F`. -/
structure Attached (s t : State) (c F : Ptr) : Prop extends SameObjects s t where
  taker : s.father c = some F
  father : ∀ x, t.father x = s.father x
  at_ : ∀ G i x, t.At G i x ↔ s.At G i x ∨ G = F ∧ i = (s.childs F).length ∧ x = c
  pending : s.pending = c :: t.pending
  pos : t.keepPos ≤ t.keepChilds.length

namespace Attached

variable {s t : State} {c F : Ptr} (ha : Attached s t c F) (h : Inv s)

include ha h

/-- What is known of the child that waits first. -/
theorem waiting : s.Reg c ∧ F < s.next ∧ s.birth F < s.birth c ∧ ∀ j, ¬ s.At F j c := by
  have hmem : c ∈ s.pending := by
    rw [ha.pending]
    exact List.mem_cons_self
  obtain ⟨hreg, F', hF', hno⟩ := h.pend c hmem
  rw [ha.taker] at hF'
  cases hF'
  obtain ⟨hF, hb⟩ := h.up c (h.alloc hreg) F ha.taker
  exact ⟨hreg, hF, hb, hno⟩

/-- It waits no more, and the others are distinct. -/
theorem nodup : c ∉ t.pending ∧ t.pending.Nodup := by
  have honce := h.pendOnce
  rwa [ha.pending, List.nodup_cons] at honce

/-- The child is younger than its father. -/
theorem down : ∀ G < t.next, ∀ i x, t.At G i x → x < t.next ∧ t.birth G < t.birth x ∧
    ∀ F', t.father x = some F' → t.birth F' ≤ t.birth G := by
  intro G hG i x hx
  rw [ha.next] at hG ⊢
  rw [ha.birth, ha.birth, ha.father]
  rcases (ha.at_ G i x).mp hx with hx | ⟨rfl, -, rfl⟩
  · obtain ⟨hx', hb, hle⟩ := h.down G hG i x hx
    refine ⟨hx', hb, fun F' hF' => ?_⟩
    rw [ha.birth]
    exact hle F' hF'
  · obtain ⟨hreg, -, hb, -⟩ := ha.waiting h
    refine ⟨h.alloc hreg, hb, fun F' hF' => ?_⟩
    rw [ha.taker] at hF'
    cases hF'
    exact Nat.le_of_eq (ha.birth _)

/-- It points to the father, in whose vector it is. -/
theorem held : ∀ x < t.next, t.Held x → ∀ i y, t.At x i y → t.Reg y ∧ t.father y = some x := by
  intro x hx hheld i y hy
  rw [ha.next] at hx
  rw [ha.toSameMap.held] at hheld
  rw [ha.reg, ha.father]
  rcases (ha.at_ x i y).mp hy with hy | ⟨rfl, -, rfl⟩
  · exact h.held x hx hheld i y hy
  · exact ⟨(ha.waiting h).1, ha.taker⟩

/-- It was in no vector before. -/
theorem once : ∀ x < t.next, ∀ G, t.father x = some G → ∀ i j, t.At G i x → t.At G j x → i = j := by
  intro x hx G hG i j hi hj
  rw [ha.next] at hx
  rw [ha.father] at hG
  obtain ⟨-, -, -, hno⟩ := ha.waiting h
  rcases (ha.at_ G i x).mp hi with hi | ⟨rfl, rfl, rfl⟩
  · rcases (ha.at_ G j x).mp hj with hj | ⟨rfl, -, rfl⟩
    · exact h.once x hx G hG i j hi hj
    · exact absurd hi (hno i)
  · rcases (ha.at_ _ j _).mp hj with hj | ⟨-, hj, -⟩
    · exact absurd hj (hno j)
    · exact hj.symm

/-- It is registered; all others are where they were. -/
theorem gone : ∀ x < t.next, ¬ t.Reg x → ∀ G, t.father x = some G → ∀ i, ¬ t.At G i x := by
  intro x hx hxreg G hG i hi
  rw [ha.next] at hx
  rw [ha.reg] at hxreg
  rw [ha.father] at hG
  rcases (ha.at_ G i x).mp hi with hi | ⟨rfl, -, rfl⟩
  · exact h.gone x hx hxreg G hG i hi
  · exact hxreg (ha.waiting h).1

/-- What waits still is in no vector. -/
theorem pend : ∀ x ∈ t.pending, t.Reg x ∧ ∃ G, t.father x = some G ∧ ∀ i, ¬ t.At G i x := by
  intro x hx
  have hx' : x ∈ s.pending := by
    rw [ha.pending]
    exact List.mem_cons_of_mem _ hx
  obtain ⟨hxreg, G, hG, hxno⟩ := h.pend x hx'
  rw [ha.reg, ha.father]
  refine ⟨hxreg, G, hG, ?_⟩
  intro i hi
  rcases (ha.at_ G i x).mp hi with hi | ⟨rfl, -, rfl⟩
  · exact hxno i hi
  · exact (ha.nodup h).1 hx

/-- The child is in its father's vector, the others wait or are where they were. -/
theorem att : ∀ x, t.Reg x → ∀ G, t.father x = some G → t.Reg G →
    (∃ i, t.At G i x) ∨ x ∈ t.pending := by
  intro x hx G hG hGreg
  rw [ha.reg] at hx hGreg
  rw [ha.father] at hG
  rcases h.att x hx G hG hGreg with ⟨i, hi⟩ | hp
  · exact Or.inl ⟨i, (ha.at_ G i x).mpr (Or.inl hi)⟩
  · rw [ha.pending, List.mem_cons] at hp
    rcases hp with rfl | hp
    · rw [ha.taker] at hG
      cases hG
      exact Or.inl ⟨_, (ha.at_ F _ x).mpr (Or.inr ⟨rfl, rfl, rfl⟩)⟩
    · exact Or.inr hp

/-- **Fathers and children agree** when a keep child is attached. -/
theorem links : Links t where
  up := by
    intro x hx G hG
    rw [ha.next] at hx ⊢
    rw [ha.father] at hG
    rw [ha.birth, ha.birth]
    exact h.up x hx G hG
  down := ha.down h
  held := ha.held h
  once := ha.once h
  gone := ha.gone h
  pos := ha.pos
  pendOnce := (ha.nodup h).2
  pend := ha.pend h
  att := ha.att h
  root := by
    intro r hr
    rw [ha.root] at hr
    rw [ha.reg, ha.father]
    exact h.root r hr
  rootOnly := by
    intro x hx hfx
    rw [ha.reg] at hx
    rw [ha.father] at hfx
    rw [ha.root]
    exact h.rootOnly x hx hfx

end Attached

/-- The vectors: one more slot, the last of `F`. -/
theorem attach_at {s : State} {c F : Ptr} (G : Ptr) (i : Nat) (x : Ptr) :
    ((Label.attach c F).apply s).At G i x ↔
      s.At G i x ∨ G = F ∧ i = (s.childs F).length ∧ x = c := by
  unfold State.At
  rw [attach_childs]
  split
  · next h =>
    subst h
    rw [List.getElem?_append]
    split
    · next hlt =>
      constructor
      · exact Or.inl
      · rintro (hi | ⟨-, rfl, -⟩)
        · exact hi
        · omega
    · next hlt =>
      rw [List.getElem?_singleton, List.getElem?_eq_none (by omega)]
      constructor
      · intro hi
        split at hi
        · cases hi
          exact Or.inr ⟨rfl, by omega, rfl⟩
        · cases hi
      · rintro (hi | ⟨-, rfl, rfl⟩)
        · cases hi
        · simp
  · next hGF => simp [hGF]

/-- So they do after each round of `excuteKeepChilds`. -/
theorem links_attach {s : State} (h : Inv s) {c F : Ptr} (hc : s.keepChilds[s.keepPos]? = some c)
    (hF : s.father c = some F) : Links ((Label.attach c F).apply s) := by
  obtain ⟨hlt, hget⟩ := List.getElem?_eq_some_iff.mp hc
  have ha : Attached s ((Label.attach c F).apply s) c F :=
    { sameObjects_attach s c F with
      taker := hF
      father := fun x => attach_field s c F x (g := Node.father) fun _ _ => rfl
      at_ := attach_at
      pending := by
        show s.keepChilds.drop s.keepPos = c :: s.keepChilds.drop (s.keepPos + 1)
        rw [List.drop_eq_getElem_cons hlt, hget]
      pos := hlt }
  exact ha.links h

end Msvl.Function
