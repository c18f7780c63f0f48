/-
  Nodes for new threads: `Init` and `MyCreateThread`.

  `Spawned s t id k` says how the objects differ when a node of type `k` has been built at `s.next`
  for a thread with the free id `id`; it is the same for the root and for any other thread.  Nobody
  points to the new address yet, and its thread is younger than every other.  `Born` adds where the
  node stands: it is the last child of its father, or the root.
-/
import LibMSVL.Function.Move

namespace Msvl.Function

/-! ## One more object -/

/-- What each object below `p` owns alone it owns alone beside the new object at `p`. -/
theorem own_succ {g g' : Ptr → Option Ptr} {p : Ptr}
    (hown : ∀ x < p, ∀ y < p, ∀ m, g x = some m → g y = some m → x = y)
    (hold : ∀ x < p, g' x = g x) (hnew : ∀ x < p, ∀ m, g x = some m → g' p ≠ some m) :
    ∀ x < p + 1, ∀ y < p + 1, ∀ m, g' x = some m → g' y = some m → x = y := by
  intro x hx y hy m hmx hmy
  rcases Nat.lt_succ_iff_lt_or_eq.mp hx with hx | rfl
  · rw [hold x hx] at hmx
    rcases Nat.lt_succ_iff_lt_or_eq.mp hy with hy | rfl
    · rw [hold y hy] at hmy
      exact hown x hx y hy m hmx hmy
    · exact absurd hmy (hnew x hx m hmx)
  · rcases Nat.lt_succ_iff_lt_or_eq.mp hy with hy | rfl
    · rw [hold y hy] at hmy
      exact absurd hmx (hnew y hy m hmy)
    · rfl

/-- Nobody knows the new address yet. -/
theorem Inv.fresh {s : State} (h : Inv s) {G : Ptr} (hG : G < s.next) (i : Nat) :
    ¬ s.At G i s.next :=
  fun hi => Nat.lt_irrefl _ (h.down G hG i _ hi).1

/-! ## A new thread -/

/-- A node for a new thread has been built at `s.next`. -/
structure Spawned (s t : State) (id : Tid) (k : NodeType) : Prop where
  free : s.threadIDToNode id = none
  next : t.next = s.next + 1
  nextLock : t.nextLock = s.nextLock + 2
  births : t.births = s.births + 1
  map : t.threadIDToNode = Function.update s.threadIDToNode id (some s.next)
  main : t.mainThread = s.mainThread
  changed : t.changedNode = s.changedNode
  prj : t.prjNode = s.prjNode
  thread : ∀ x, t.thread x = if x = s.next then id else s.thread x
  birth : ∀ x, t.birth x = if x = s.next then s.births + 1 else s.birth x
  type : ∀ x, t.type x = if x = s.next then k else s.type x
  newType : ∀ x, t.newType x = if x = s.next then k else s.newType x
  mutex : ∀ x, (t.heap x).mutex = if x = s.next then some s.nextLock else (s.heap x).mutex
  cond : ∀ x, (t.heap x).cond = if x = s.next then some (s.nextLock + 1) else (s.heap x).cond

section

variable {s t : State} {id : Tid} {k : NodeType} (hb : Spawned s t id k)

include hb

/-- One more node is registered, at the new address. -/
theorem Spawned.reg (x : Ptr) : t.Reg x ↔ x = s.next ∨ s.Reg x := by
  have hthread : (t.heap x).thread = if x = s.next then id else s.thread x := hb.thread x
  unfold State.Reg
  rw [hb.map, hthread]
  by_cases hx : x = s.next
  · simp [hx]
  · rw [if_neg hx, Function.update_apply]
    split
    · next hidx =>
      rw [show (s.heap x).thread = id from hidx, hb.free]
      simp [hx, Ne.symm hx]
    · simp [hx]

/-- Old objects keep birth and type, and are registered as before. -/
theorem Spawned.old {x : Ptr} (hx : x < s.next) : t.birth x = s.birth x ∧ t.type x = s.type x ∧
    (t.Reg x ↔ s.Reg x) := by
  have hne : x ≠ s.next := Nat.ne_of_lt hx
  rw [hb.birth, if_neg hne, hb.type, if_neg hne, hb.reg]
  exact ⟨rfl, rfl, or_iff_right hne⟩

/-- Whose children were valid, still has valid ones. -/
theorem Spawned.held {x : Ptr} (hx : x < s.next) : t.Held x ↔ s.Held x := by
  obtain ⟨-, htype, hreg⟩ := hb.old hx
  unfold State.Held
  rw [htype, hreg]

/-- The new node is registered, and younger than all others. -/
theorem Spawned.new : t.birth s.next = s.births + 1 ∧ t.Reg s.next := by
  rw [hb.birth, if_pos rfl, hb.reg]
  exact ⟨rfl, Or.inl rfl⟩

/-- An address below the new bound is old or the new object's. -/
theorem Spawned.lt_next {x : Ptr} (hx : x < t.next) : x = s.next ∨ x < s.next := by
  rw [hb.next] at hx
  rcases Nat.lt_or_ge x s.next with h | h
  · exact Or.inr h
  · exact Or.inl (Nat.le_antisymm (Nat.le_of_lt_succ hx) h)

/-- The rest of the invariant, if main thread and root agree afterwards. -/
theorem Spawned.objects (ho : Objects s)
    (hmain : ∀ n, t.threadIDToNode t.mainThread = some n → t.threadRoot = some n)
    (hroot : ∀ r, t.threadRoot = some r → (t.type r).Composite ∧ t.thread r = t.mainThread)
    (hnewRoot : t.threadRoot = s.threadRoot ∨ s.threadRoot = none ∧ t.threadRoot = some s.next) :
    Objects t where
  map := by
    intro i n hn
    rw [hb.map, Function.update_apply] at hn
    rw [hb.next, hb.thread]
    split at hn
    · next hi =>
      cases hn
      exact ⟨Nat.lt_succ_self _, by rw [if_pos rfl, hi]⟩
    · obtain ⟨hlt, hthread⟩ := ho.map i n hn
      exact ⟨Nat.lt_succ_of_lt hlt, by rw [if_neg (Nat.ne_of_lt hlt)]; exact hthread⟩
  birth := by
    intro n hn
    rw [hb.births]
    rcases hb.lt_next hn with rfl | hlt
    · rw [hb.new.1]
      omega
    · rw [(hb.old hlt).1]
      have := ho.birth n hlt
      omega
  main := hmain
  rootType := hroot
  newType := by
    intro x hx hr hc
    rw [hb.newType, hb.type]
    rw [hb.type] at hc
    split
    · exact Or.inl rfl
    · next hne =>
      rw [if_neg hne] at hc
      have hxs : s.Reg x := ((hb.reg x).mp hx).resolve_left hne
      refine ho.newType x hxs ?_ hc
      rcases hnewRoot with h | ⟨h, -⟩
      · rw [← h]
        exact hr
      · rw [h]
        exact fun hcon => by cases hcon
  locks := by
    intro x hx
    rw [hb.mutex, hb.cond]
    split
    · exact ⟨⟨_, rfl⟩, _, rfl⟩
    · next hne => exact ho.locks x (((hb.reg x).mp hx).resolve_left hne)
  lockNext := by
    intro x hx
    rw [hb.mutex, hb.cond, hb.nextLock]
    split
    · refine ⟨fun m hm => ?_, fun c hc => ?_⟩
      · cases hm
        exact Nat.lt_add_of_pos_right (by decide)
      · cases hc
        exact Nat.lt_succ_self _
    · next hne =>
      obtain ⟨hm, hc⟩ := ho.lockNext x ((hb.lt_next hx).resolve_left hne)
      exact ⟨fun m h => Nat.lt_add_right 2 (hm m h), fun c h => Nat.lt_add_right 2 (hc c h)⟩
  mutexOwn := by
    rw [hb.next]
    refine own_succ ho.mutexOwn ?_ ?_
    · intro x hx
      rw [hb.mutex, if_neg (Nat.ne_of_lt hx)]
    · intro x hx m hm heq
      rw [hb.mutex, if_pos rfl] at heq
      cases heq
      exact Nat.lt_irrefl _ ((ho.lockNext x hx).1 _ hm)
  condOwn := by
    rw [hb.next]
    refine own_succ ho.condOwn ?_ ?_
    · intro x hx
      rw [hb.cond, if_neg (Nat.ne_of_lt hx)]
    · intro x hx m hm heq
      rw [hb.cond, if_pos rfl] at heq
      cases heq
      exact Nat.not_succ_lt_self ((ho.lockNext x hx).2 _ hm)
  changed := by
    intro n hn
    rw [hb.changed] at hn
    rw [hb.next]
    exact Nat.lt_succ_of_lt (ho.changed n hn)
  prj := by
    intro n hn
    rw [hb.prj] at hn
    obtain ⟨hlt, hc⟩ := ho.prj n hn
    rw [hb.next, (hb.old hlt).2.1]
    exact ⟨Nat.lt_succ_of_lt hlt, hc⟩

end

/-! ## Its place -/

/-- The new node is the last child of its father, or it is the root. -/
structure Born (s t : State) (id : Tid) (k : NodeType) (o : Option Ptr) : Prop
    extends Spawned s t id k where
  grown : ∀ F, o = some F → s.Reg F
  father : ∀ x, t.father x = if x = s.next then o else s.father x
  at_ : ∀ G i x, t.At G i x ↔
    G ≠ s.next ∧ (s.At G i x ∨ o = some G ∧ i = (s.childs G).length ∧ x = s.next)
  keepChilds : t.keepChilds = s.keepChilds
  keepPos : t.keepPos = s.keepPos
  root : (∃ F, o = some F) ∧ t.threadRoot = s.threadRoot ∨
    o = none ∧ s.threadRoot = none ∧ t.threadRoot = some s.next

namespace Born

variable {s t : State} {id : Tid} {k : NodeType} {o : Option Ptr} (hb : Born s t id k o)

include hb

/-- Nothing more waits. -/
theorem pending : t.pending = s.pending := by
  unfold State.pending
  rw [hb.keepChilds, hb.keepPos]

/-- Nobody else gets another father. -/
theorem stay {x : Ptr} (hx : x < s.next) : t.father x = s.father x := by
  rw [hb.father, if_neg (Nat.ne_of_lt hx)]

/-- An old node is where it was. -/
theorem at_old {G x : Ptr} {i : Nat} (hx : x < s.next) (hat : t.At G i x) : s.At G i x :=
  ((hb.at_ G i x).mp hat).2.resolve_right fun hnew => Nat.ne_of_lt hx hnew.2.2

variable (h : Inv s)

include h

/-- The father of the new node is older, its birth being the latest. -/
theorem up : ∀ x < t.next, ∀ G, t.father x = some G → G < t.next ∧ t.birth G < t.birth x := by
  intro x hx G hG
  rcases hb.lt_next hx with rfl | hlt
  · rw [hb.father, if_pos rfl] at hG
    have hGl := h.alloc (hb.grown G hG)
    rw [hb.next, hb.new.1, (hb.old hGl).1]
    exact ⟨Nat.lt_succ_of_lt hGl, Nat.lt_succ_of_le (h.birth G hGl).2⟩
  · rw [hb.stay hlt] at hG
    obtain ⟨hG', hlt'⟩ := h.up x hlt G hG
    rw [hb.next, (hb.old hlt).1, (hb.old hG').1]
    exact ⟨Nat.lt_succ_of_lt hG', hlt'⟩

/-- The new child is younger than whoever has it. -/
theorem down : ∀ G < t.next, ∀ i c, t.At G i c → c < t.next ∧ t.birth G < t.birth c ∧
    ∀ F', t.father c = some F' → t.birth F' ≤ t.birth G := by
  intro G hG i c hc
  obtain ⟨hGp, hc⟩ := (hb.at_ G i c).mp hc
  have hG' := (hb.lt_next hG).resolve_left hGp
  rw [hb.next, (hb.old hG').1]
  rcases hc with hc | ⟨ho, -, rfl⟩
  · obtain ⟨hc', hlt, hle⟩ := h.down G hG' i c hc
    rw [hb.stay hc', (hb.old hc').1]
    refine ⟨Nat.lt_succ_of_lt hc', hlt, ?_⟩
    intro F' hF'
    rw [(hb.old (h.up c hc' F' hF').1).1]
    exact hle F' hF'
  · rw [hb.father, if_pos rfl, hb.new.1, ho]
    refine ⟨Nat.lt_succ_self _, Nat.lt_succ_of_le (h.birth G hG').2, ?_⟩
    intro F' hF'
    cases hF'
    exact Nat.le_of_eq (hb.old hG').1

/-- A vector that is valid has grown by a registered node that points back. -/
theorem held : ∀ x < t.next, t.Held x → ∀ i c, t.At x i c → t.Reg c ∧ t.father c = some x := by
  intro x hx hheld i c hc
  obtain ⟨hxp, hc⟩ := (hb.at_ x i c).mp hc
  have hx' := (hb.lt_next hx).resolve_left hxp
  rw [hb.toSpawned.held hx'] at hheld
  rcases hc with hc | ⟨ho, -, rfl⟩
  · obtain ⟨hreg, hfc⟩ := h.held x hx' hheld i c hc
    exact ⟨(hb.reg c).mpr (Or.inr hreg), (hb.stay (h.alloc hreg)).trans hfc⟩
  · rw [hb.father, if_pos rfl]
    exact ⟨hb.new.2, ho⟩

/-- The new node is in one slot only, and in nobody else's vector. -/
theorem once : ∀ x < t.next, ∀ G, t.father x = some G → ∀ i j, t.At G i x → t.At G j x → i = j := by
  intro x hx G hG i j hi hj
  rcases hb.lt_next hx with rfl | hlt
  · rw [hb.father, if_pos rfl] at hG
    have hGl := h.alloc (hb.grown G hG)
    have hi' := ((hb.at_ G i _).mp hi).2.resolve_left (h.fresh hGl i)
    have hj' := ((hb.at_ G j _).mp hj).2.resolve_left (h.fresh hGl j)
    exact hi'.2.1.trans hj'.2.1.symm
  · rw [hb.stay hlt] at hG
    exact h.once x hlt G hG i j (hb.at_old hlt hi) (hb.at_old hlt hj)

/-- Unregistered objects are old, and where they were not, they are not. -/
theorem gone : ∀ x < t.next, ¬ t.Reg x → ∀ G, t.father x = some G → ∀ i, ¬ t.At G i x := by
  intro x hx hreg G hG i hi
  rw [hb.reg, not_or] at hreg
  have hlt := (hb.lt_next hx).resolve_left hreg.1
  rw [hb.stay hlt] at hG
  exact h.gone x hlt hreg.2 G hG i (hb.at_old hlt hi)

/-- What waited is still in no vector. -/
theorem pend : ∀ c ∈ t.pending, t.Reg c ∧ ∃ G, t.father c = some G ∧ ∀ i, ¬ t.At G i c := by
  intro c hc
  rw [hb.pending] at hc
  obtain ⟨hreg, G, hG, hno⟩ := h.pend c hc
  have hlt := h.alloc hreg
  rw [hb.reg, hb.stay hlt]
  exact ⟨Or.inr hreg, G, hG, fun i hi => hno i (hb.at_old hlt hi)⟩

/-- Every registered node is in its father's vector or waits, the new one too. -/
theorem att : ∀ x, t.Reg x → ∀ G, t.father x = some G → t.Reg G →
    (∃ i, t.At G i x) ∨ x ∈ t.pending := by
  intro x hx G hG hGreg
  rw [hb.pending]
  rcases (hb.reg x).mp hx with rfl | hx
  · rw [hb.father, if_pos rfl] at hG
    have hne := Nat.ne_of_lt (h.alloc (hb.grown G hG))
    exact Or.inl ⟨_, (hb.at_ G _ _).mpr ⟨hne, Or.inr ⟨hG, rfl, rfl⟩⟩⟩
  · rw [hb.stay (h.alloc hx)] at hG
    have hG' := (h.up x (h.alloc hx) G hG).1
    rcases h.att x hx G hG ((hb.old hG').2.2.mp hGreg) with ⟨i, hi⟩ | hp
    · exact Or.inl ⟨i, (hb.at_ G i x).mpr ⟨Nat.ne_of_lt hG', Or.inl hi⟩⟩
    · exact Or.inr hp

/-- The root has no father. -/
theorem root_ : ∀ r, t.threadRoot = some r → t.Reg r ∧ t.father r = none := by
  intro r hr
  rcases hb.root with ⟨-, hroot⟩ | ⟨ho, -, hroot⟩
  · rw [hroot] at hr
    obtain ⟨hreg, hfr⟩ := h.root r hr
    exact ⟨(hb.reg r).mpr (Or.inr hreg), (hb.stay (h.alloc hreg)).trans hfr⟩
  · rw [hroot] at hr
    cases hr
    rw [hb.father, if_pos rfl]
    exact ⟨hb.new.2, ho⟩

/-- Only the root has none. -/
theorem rootOnly : ∀ x, t.Reg x → t.father x = none → t.threadRoot = some x := by
  intro x hx hfx
  rcases hb.root with ⟨⟨F, ho⟩, hroot⟩ | ⟨-, hno, hroot⟩
  · rcases (hb.reg x).mp hx with rfl | hx
    · rw [hb.father, if_pos rfl, ho] at hfx
      cases hfx
    · rw [hb.stay (h.alloc hx)] at hfx
      exact hroot.trans (h.rootOnly x hx hfx)
  · rcases (hb.reg x).mp hx with rfl | hx
    · exact hroot
    · rw [hb.stay (h.alloc hx)] at hfx
      have hcon := h.rootOnly x hx hfx
      rw [hno] at hcon
      cases hcon

/-- **Fathers and children agree** when a node has been made. -/
theorem links : Links t where
  up := hb.up h
  down := hb.down h
  held := hb.held h
  once := hb.once h
  gone := hb.gone h
  pos := by
    rw [hb.keepChilds, hb.keepPos]
    exact h.pos
  pendOnce := by
    rw [hb.pending]
    exact h.pendOnce
  pend := hb.pend h
  att := hb.att h
  root := hb.root_ h
  rootOnly := hb.rootOnly h

end Born

/-! ## `MyCreateThread` -/

/-- The vectors: one more slot, the last of `F`. -/
theorem newThread_at {s : State} {F : Ptr} {id : Tid} (hF : F < s.next) (G : Ptr) (i : Nat)
    (x : Ptr) : (newThread s F id).At G i x ↔ G ≠ s.next ∧
      (s.At G i x ∨ G = F ∧ i = (s.childs F).length ∧ x = s.next) := by
  unfold State.At
  rw [newThread_childs s F id G (Nat.ne_of_lt hF)]
  split
  · next h => simp [h]
  · next h =>
    split
    · next hGF =>
      subst hGF
      rw [List.getElem?_append]
      split
      · next hlt =>
        constructor
        · exact fun hi => ⟨h, Or.inl hi⟩
        · rintro ⟨-, hi | ⟨-, rfl, -⟩⟩
          · exact hi
          · omega
      · next hlt =>
        rw [List.getElem?_singleton, List.getElem?_eq_none (by omega)]
        constructor
        · intro hi
          split at hi
          · cases hi
            exact ⟨h, Or.inr ⟨rfl, by omega, rfl⟩⟩
          · cases hi
        · rintro ⟨-, hi | ⟨-, rfl, rfl⟩⟩
          · cases hi
          · simp
    · next hGF => simp [h, hGF]

/-- `MyCreateThread` builds a leaf for `id`. -/
theorem spawned_newThread {s : State} {id : Tid} (F : Ptr) (hid : s.threadIDToNode id = none) :
    Spawned s (newThread s F id) id .leaf where
  free := hid
  next := newThread_global s F id fun _ _ _ => rfl
  nextLock := newThread_global s F id fun _ _ _ => rfl
  births := newThread_global s F id fun _ _ _ => rfl
  map := newThread_map s F id
  main := newThread_global s F id fun _ _ _ => rfl
  changed := newThread_global s F id fun _ _ _ => rfl
  prj := newThread_global s F id fun _ _ _ => rfl
  thread x := newThread_field s F id x (g := Node.thread) (fun _ _ => rfl) (fun _ _ => rfl)
    fun _ _ => rfl
  birth x := newThread_field s F id x (g := Node.birth) (fun _ _ => rfl) (fun _ _ => rfl)
    fun _ _ => rfl
  type x := newThread_field s F id x (g := Node.type) (fun _ _ => rfl) (fun _ _ => rfl)
    fun _ _ => rfl
  newType x := newThread_field s F id x (g := Node.newType) (fun _ _ => rfl) (fun _ _ => rfl)
    fun _ _ => rfl
  mutex x := newThread_field s F id x (g := Node.mutex) (fun _ _ => rfl) (fun _ _ => rfl)
    fun _ _ => rfl
  cond x := newThread_field s F id x (g := Node.cond) (fun _ _ => rfl) (fun _ _ => rfl)
    fun _ _ => rfl

section

variable {s : State} (h : Inv s)

include h

/-- It is the last child of `F`. -/
theorem born_newThread {F : Ptr} {id : Tid} (hF : s.Reg F) (hid : s.threadIDToNode id = none) :
    Born s (newThread s F id) id .leaf (some F) :=
  { spawned_newThread F hid with
    grown := by
      rintro G ⟨⟩
      exact hF
    father := newThread_father s F id
    at_ := fun G i x => by
      rw [newThread_at (h.alloc hF), Option.some_inj]
      constructor
      · rintro ⟨hG, hi | ⟨rfl, hi⟩⟩
        · exact ⟨hG, Or.inl hi⟩
        · exact ⟨hG, Or.inr ⟨rfl, hi⟩⟩
      · rintro ⟨hG, hi | ⟨rfl, hi⟩⟩
        · exact ⟨hG, Or.inl hi⟩
        · exact ⟨hG, Or.inr ⟨rfl, hi⟩⟩
    keepChilds := newThread_global s F id fun _ _ _ => rfl
    keepPos := newThread_global s F id fun _ _ _ => rfl
    root := Or.inl ⟨⟨F, rfl⟩, newThread_global s F id fun _ _ _ => rfl⟩ }

/-- **A new thread** keeps the invariant, if its id is fresh. -/
theorem inv_newThread {F : Ptr} {id : Tid} (hF : s.Reg F) (hid : s.Fresh id) :
    Inv (newThread s F id) := by
  have hb := spawned_newThread F hid.2.2
  have hroot : (newThread s F id).threadRoot = s.threadRoot :=
    newThread_global s F id fun _ _ _ => rfl
  refine { (born_newThread h hF hid.2.2).links h, hb.objects h.toObjects ?_ ?_ (Or.inl hroot) with }
  · intro n hn
    rw [hb.map, hb.main, Function.update_of_ne (Ne.symm hid.2.1)] at hn
    rw [hroot]
    exact h.main n hn
  · intro r hr
    rw [hroot] at hr
    have hlt := h.alloc (h.root r hr).1
    rw [(hb.old hlt).2.1, hb.thread, if_neg (Nat.ne_of_lt hlt), hb.main]
    exact h.rootType r hr

end

/-! ## `Init` -/

/-- `Init` builds a node for the main thread. -/
theorem spawned_newRoot {s : State} (k : NodeType)
    (hmain : s.threadIDToNode s.mainThread = none) :
    Spawned s (newRoot s k) s.mainThread k where
  free := hmain
  next := newRoot_global s k fun _ _ _ => rfl
  nextLock := newRoot_global s k fun _ _ _ => rfl
  births := newRoot_global s k fun _ _ _ => rfl
  map := newRoot_map s k
  main := newRoot_global s k fun _ _ _ => rfl
  changed := newRoot_global s k fun _ _ _ => rfl
  prj := newRoot_global s k fun _ _ _ => rfl
  thread x := newRoot_field s k x (g := Node.thread) (fun _ _ => rfl) fun _ _ => rfl
  birth x := newRoot_field s k x (g := Node.birth) (fun _ _ => rfl) fun _ _ => rfl
  type x := newRoot_field s k x (g := Node.type) (fun _ _ => rfl) fun _ _ => rfl
  newType x := newRoot_field s k x (g := Node.newType) (fun _ _ => rfl) fun _ _ => rfl
  mutex x := newRoot_field s k x (g := Node.mutex) (fun _ _ => rfl) fun _ _ => rfl
  cond x := newRoot_field s k x (g := Node.cond) (fun _ _ => rfl) fun _ _ => rfl

section

variable {s : State} (h : Inv s)

include h

omit h in
/-- It is nobody's child. -/
theorem born_newRoot {k : NodeType} (hno : s.threadRoot = none)
    (hmain : s.threadIDToNode s.mainThread = none) :
    Born s (newRoot s k) s.mainThread k none :=
  { spawned_newRoot k hmain with
    grown := by
      rintro F ⟨⟩
    father := newRoot_father s k
    at_ := fun G i x => by
      have hchilds : (newRoot s k).childs G = if G = s.next then [] else s.childs G :=
        newRoot_field s k G (g := Node.childs) (fun _ _ => rfl) fun _ _ => rfl
      unfold State.At
      rw [hchilds]
      split
      · next hG => simp [hG]
      · next hG => simp [hG]
    keepChilds := newRoot_global s k fun _ _ _ => rfl
    keepPos := newRoot_global s k fun _ _ _ => rfl
    root := Or.inr ⟨rfl, hno, newRoot_global s k fun _ _ _ => rfl⟩ }

/-- **A new root** keeps the invariant, if there was none. -/
theorem inv_newRoot {k : NodeType} (hk : k.Composite) (hno : s.threadRoot = none)
    (hmain : s.threadIDToNode s.mainThread = none) : Inv (newRoot s k) := by
  have hb := spawned_newRoot k hmain
  have hroot : (newRoot s k).threadRoot = some s.next := newRoot_global s k fun _ _ _ => rfl
  refine { (born_newRoot hno hmain).links h, hb.objects h.toObjects ?_ ?_ (Or.inr ⟨hno, hroot⟩) with }
  · intro n hn
    rw [hb.map, hb.main, Function.update_self] at hn
    rw [hroot]
    exact hn
  · intro r hr
    rw [hroot] at hr
    cases hr
    rw [hb.type, if_pos rfl, hb.thread, if_pos rfl, hb.main]
    exact ⟨hk, rfl⟩

end

end Msvl.Function
