/-
  What guarded steps leave alone.

  `Frame b s t`: nodes born up to `b` stay registered with the father they have, the vectors of
  nodes born before `b` only grow at the end, and an object that is not registered any more stays
  so.  With `b` the birth of a node, this is what a caller knows after the node has been executed:
  the node and its slot are where they were.

  `Does` are the specifications of the code.  `Does.call` is the rule for calls: the steps of the
  callee have a bound that is not below the caller's, and the caller learns its frame.
-/
import LibMSVL.Function.Guard
import Mathlib.Data.List.Infix

namespace Msvl.Function

open Msvl.Run

/-! ## The frame -/

structure Frame (b : Nat) (s t : State) : Prop where
  next : s.next ≤ t.next
  type : ∀ x < s.next, t.type x = s.type x
  birth : ∀ x < s.next, t.birth x = s.birth x
  reg : ∀ x < s.next, s.birth x ≤ b → ∀ i, s.threadIDToNode i = some x →
    t.threadIDToNode i = some x ∧ t.father x = s.father x
  childs : ∀ x < s.next, s.birth x < b → s.childs x <+: t.childs x
  gone : ∀ x < s.next, ¬ s.Reg x → ¬ t.Reg x ∧ t.father x = s.father x
  root : 1 ≤ b → ∀ r, s.threadRoot = some r → t.threadRoot = some r
  keep : 2 ≤ b → t.keepPos = s.keepPos ∧ s.keepChilds <+: t.keepChilds
  main : t.mainThread = s.mainThread

theorem Frame.refl (b : Nat) (s : State) : Frame b s s where
  next := Nat.le_refl _
  type := fun _ _ => rfl
  birth := fun _ _ => rfl
  reg := fun _ _ _ _ h => ⟨h, rfl⟩
  childs := fun _ _ _ => List.prefix_refl _
  gone := fun _ _ h => ⟨h, rfl⟩
  root := fun _ _ h => h
  keep := fun _ => ⟨rfl, List.prefix_refl _⟩
  main := rfl

/-- What two parts of a run leave alone, the whole leaves alone. -/
theorem Frame.trans {b : Nat} {s t u : State} (h : Frame b s t) (h' : Frame b t u) :
    Frame b s u where
  next := Nat.le_trans h.next h'.next
  type := by
    intro x hx
    exact (h'.type x (Nat.lt_of_lt_of_le hx h.next)).trans (h.type x hx)
  birth := by
    intro x hx
    exact (h'.birth x (Nat.lt_of_lt_of_le hx h.next)).trans (h.birth x hx)
  reg := by
    intro x hx hb i hi
    have hx' := Nat.lt_of_lt_of_le hx h.next
    obtain ⟨hi, hf⟩ := h.reg x hx hb i hi
    obtain ⟨hi, hf'⟩ := h'.reg x hx' (by rwa [h.birth x hx]) i hi
    exact ⟨hi, hf'.trans hf⟩
  childs := by
    intro x hx hb
    have hx' := Nat.lt_of_lt_of_le hx h.next
    exact (h.childs x hx hb).trans (h'.childs x hx' (by rwa [h.birth x hx]))
  gone := by
    intro x hx hno
    obtain ⟨hno, hf⟩ := h.gone x hx hno
    obtain ⟨hno, hf'⟩ := h'.gone x (Nat.lt_of_lt_of_le hx h.next) hno
    exact ⟨hno, hf'.trans hf⟩
  root := fun hb r hr => h'.root hb r (h.root hb r hr)
  keep := by
    intro hb
    obtain ⟨hpos, hpre⟩ := h.keep hb
    obtain ⟨hpos', hpre'⟩ := h'.keep hb
    exact ⟨hpos'.trans hpos, hpre.trans hpre'⟩
  main := h'.main.trans h.main

/-- A lower bound says less. -/
theorem Frame.mono {b b' : Nat} {s t : State} (hb : b ≤ b') (h : Frame b' s t) : Frame b s t where
  next := h.next
  type := h.type
  birth := h.birth
  reg := fun x hx hxb => h.reg x hx (Nat.le_trans hxb hb)
  childs := fun x hx hxb => h.childs x hx (Nat.lt_of_lt_of_le hxb hb)
  gone := h.gone
  root := fun h1 => h.root (Nat.le_trans h1 hb)
  keep := fun h2 => h.keep (Nat.le_trans h2 hb)
  main := h.main

/-! ## One step -/

/-- Steps that touch neither the map nor the objects: only fathers of registered nodes born after
    `b` change. -/
theorem SameMap.frame {b : Nat} {s t : State} (h : SameMap s t)
    (hfather : ∀ x < s.next, t.father x = s.father x ∨ s.Reg x ∧ b < s.birth x)
    (hchilds : ∀ x < s.next, s.birth x < b → s.childs x <+: t.childs x)
    (hkeep : 2 ≤ b → t.keepPos = s.keepPos ∧ s.keepChilds <+: t.keepChilds) : Frame b s t where
  next := Nat.le_of_eq h.next.symm
  type := fun x _ => h.type x
  birth := fun x _ => h.birth x
  reg := by
    intro x hx hb i hi
    rw [h.map]
    rcases hfather x hx with hf | ⟨-, hlt⟩
    · exact ⟨hi, hf⟩
    · omega
  childs := hchilds
  gone := by
    intro x hx hno
    rw [h.reg]
    rcases hfather x hx with hf | ⟨hreg, -⟩
    · exact ⟨hno, hf⟩
    · exact absurd hreg hno
  root := by
    intro _ r hr
    rw [h.root]
    exact hr
  keep := hkeep
  main := h.main

/-- A new node changes nobody but its father. -/
theorem Spawned.frame {b : Nat} {s t : State} {id : Tid} {k : NodeType} (h : Spawned s t id k)
    (hfather : ∀ x < s.next, t.father x = s.father x)
    (hchilds : ∀ x < s.next, s.childs x <+: t.childs x)
    (hroot : 1 ≤ b → t.threadRoot = s.threadRoot)
    (hkeep : t.keepPos = s.keepPos ∧ t.keepChilds = s.keepChilds) : Frame b s t where
  next := by
    rw [h.next]
    exact Nat.le_succ _
  type := fun x hx => (h.old hx).2.1
  birth := fun x hx => (h.old hx).1
  reg := by
    intro x hx _ i hi
    refine ⟨?_, hfather x hx⟩
    rw [h.map, Function.update_of_ne, hi]
    rintro rfl
    rw [h.free] at hi
    cases hi
  childs := fun x hx _ => hchilds x hx
  gone := by
    intro x hx hno
    rw [(h.old hx).2.2]
    exact ⟨hno, hfather x hx⟩
  root := by
    intro hb r hr
    rw [hroot hb]
    exact hr
  keep := by
    intro _
    rw [hkeep.1, hkeep.2]
    exact ⟨rfl, List.prefix_refl _⟩
  main := h.main

/-- A destroyed node was younger than the bound. -/
theorem Unlinked.frame {b : Nat} {s t : State} {n : Ptr} (hu : Unlinked s t n) (h : Inv s)
    (hb : b < s.birth n) (hchilds : ∀ x < s.next, s.birth x < b → s.childs x <+: t.childs x)
    (hroot : 1 ≤ b → s.threadRoot ≠ some n)
    (hkeep : 2 ≤ b → t.keepPos = s.keepPos ∧ s.keepChilds <+: t.keepChilds) : Frame b s t where
  next := Nat.le_of_eq hu.next.symm
  type := fun x _ => hu.type x
  birth := fun x _ => hu.birth x
  reg := by
    intro x hx hxb i hi
    have hxn : x ≠ n := by
      rintro rfl
      omega
    rw [hu.map, hu.father, if_neg hxn, Function.update_apply]
    refine ⟨?_, rfl⟩
    split
    · next heq =>
      have hreg : s.threadIDToNode (s.thread n) = some n := hu.reg
      rw [heq, hreg] at hi
      cases hi
      exact absurd rfl hxn
    · exact hi
  childs := hchilds
  gone := by
    intro x hx hno
    have hxn : x ≠ n := by
      rintro rfl
      exact hno hu.reg
    rw [hu.reg_iff h, hu.father, if_neg hxn]
    exact ⟨fun hcon => hno hcon.1, rfl⟩
  root := by
    intro h1 r hr
    rw [hu.root_iff]
    refine ⟨hr, ?_⟩
    rintro rfl
    exact hroot h1 hr
  keep := hkeep
  main := hu.main

section

variable {b : Nat} {s : State} (h : Inv s)

include h

/-- The vector that is written belongs to a node that is not older than the bound. -/
theorem frame_replace {owner n : Ptr} {i : Nat} (hs : Slot s owner i n) (hb : b ≤ s.birth owner) :
    Frame b s ((Label.replace owner i n).apply s) := by
  obtain ⟨ho, hn, hne, hob⟩ := hs.lt h
  have hreg := replace_reg hs
  have hmap := replace_map s owner i n
  have hfather := replace_father s owner i n
  have hchilds := fun x => replace_childs s owner i n x hne
  have hold : ∀ {α : Type} (g : Node → α), (∀ y v, g { y with father := v } = g y) →
      (∀ y v, g { y with len := v } = g y) → (∀ y v, g { y with childs := v } = g y) →
      (∀ y v w, g { y with mutex := v, cond := w } = g y) → ∀ x < s.next,
        g (((Label.replace owner i n).apply s).heap x) = g (s.heap x) := by
    intro α g hf hl hc hm x hx
    rw [replace_field s owner i n x hf hl hc hm, if_neg (Nat.ne_of_lt hx)]
  constructor
  · rw [show ((Label.replace owner i n).apply s).next = s.next + 1 from
      replace_global s owner i n fun _ _ _ => rfl]
    exact Nat.le_succ _
  · exact hold Node.type (fun _ _ => rfl) (fun _ _ => rfl) (fun _ _ => rfl) fun _ _ _ => rfl
  · exact hold Node.birth (fun _ _ => rfl) (fun _ _ => rfl) (fun _ _ => rfl) fun _ _ _ => rfl
  · intro x hx hxb k hk
    rw [hmap, hfather, if_neg (Nat.ne_of_lt hx), Function.update_apply]
    refine ⟨?_, if_neg ?_⟩
    · split
      · next heq =>
        have hn' : s.threadIDToNode (s.thread n) = some n := hs.reg
        rw [heq, hn'] at hk
        cases hk
        omega
      · exact hk
    · intro hk'
      have := (hs.kept h hk').2.2.1
      omega
  · intro x hx hxb
    have hxo : x ≠ owner := by
      rintro rfl
      omega
    have hxn : x ≠ n := by
      rintro rfl
      omega
    rw [hchilds, if_neg hxo, if_neg]
    rintro (heq | heq)
    · exact Nat.ne_of_lt hx heq
    · exact hxn heq
  · intro x hx hno
    rw [hreg, hfather, if_neg (Nat.ne_of_lt hx)]
    refine ⟨?_, if_neg fun hk => hno (hs.kept h hk).1⟩
    rintro (heq | ⟨hr, -⟩)
    · exact Nat.ne_of_lt hx heq
    · exact hno hr
  · intro _ r hr
    rw [show ((Label.replace owner i n).apply s).threadRoot = s.threadRoot from
      replace_global s owner i n fun _ _ _ => rfl]
    exact hr
  · intro _
    rw [show ((Label.replace owner i n).apply s).keepPos = s.keepPos from
      replace_global s owner i n fun _ _ _ => rfl,
      show ((Label.replace owner i n).apply s).keepChilds = s.keepChilds from
      replace_global s owner i n fun _ _ _ => rfl]
    exact ⟨rfl, List.prefix_refl _⟩
  · exact replace_global s owner i n fun _ _ _ => rfl

/-- Children of a registered node are registered, and younger. -/
theorem Inv.mem_child {n c : Ptr} (hn : s.Reg n) (hc : c ∈ s.childs n) :
    s.Reg c ∧ s.birth n < s.birth c := by
  obtain ⟨i, hi⟩ := State.at_iff_mem.mp hc
  have hn' := h.alloc hn
  exact ⟨(h.held n hn' (Or.inl hn) i c hi).1, (h.down n hn' i c hi).2.1⟩

/-- `n` loses its children, and is not older than the bound. -/
theorem frame_moveToKeepChilds {n : Ptr} (hn : s.Reg n) (hb : b ≤ s.birth n) :
    Frame b s (moveToKeepChilds s n) := by
  refine (sameObjects_moveToKeepChilds s n).toSameMap.frame ?_ ?_ ?_
  · intro x _
    rw [moveToKeepChilds_father]
    split
    · next hx =>
      obtain ⟨hxr, hxb⟩ := h.mem_child hn hx
      exact Or.inr ⟨hxr, by omega⟩
    · exact Or.inl rfl
  · intro x _ hxb
    have hxn : x ≠ n := by
      rintro rfl
      omega
    rw [moveToKeepChilds_childs, if_neg hxn]
  · exact fun _ => ⟨rfl, List.prefix_append _ _⟩

/-- The father's vector grows at the end, whatever its birth. -/
theorem frame_moveToFather {n F : Ptr} (hn : s.Reg n) (hb : b ≤ s.birth n) :
    Frame b s (moveToFather s n F) := by
  refine (sameObjects_moveToFather s n F).toSameMap.frame ?_ ?_ ?_
  · intro x _
    rw [moveToFather_father]
    split
    · next hx =>
      obtain ⟨hxr, hxb⟩ := h.mem_child hn hx
      exact Or.inr ⟨hxr, by omega⟩
    · exact Or.inl rfl
  · intro x _ hxb
    have hxn : x ≠ n := by
      rintro rfl
      omega
    rw [moveToFather_childs, if_neg hxn]
    split
    · next hxF =>
      rw [hxF]
      exact List.prefix_append _ _
    · exact List.prefix_refl _
  · exact fun _ => ⟨rfl, List.prefix_refl _⟩

omit h in
theorem frame_attach (c F : Ptr) (hb : b ≤ 1) : Frame b s ((Label.attach c F).apply s) := by
  refine (sameObjects_attach s c F).toSameMap.frame ?_ ?_ ?_
  · exact fun x _ => Or.inl (attach_field s c F x (g := Node.father) fun _ _ => rfl)
  · intro x _ _
    rw [attach_childs]
    split
    · next hxF =>
      rw [hxF]
      exact List.prefix_append _ _
    · exact List.prefix_refl _
  · intro h2
    omega

omit h in
theorem frame_edit (n : Ptr) (e : Edit) : Frame b s ((Label.edit n e).apply s) := by
  refine (sameMap_edit s n e).frame (fun x _ => Or.inl (edit_father s n e x)) ?_ ?_
  · intro x _ _
    rw [edit_childs]
  · intro _
    rw [show ((Label.edit n e).apply s).keepPos = s.keepPos from
      edit_global s n e fun _ _ _ => rfl,
      show ((Label.edit n e).apply s).keepChilds = s.keepChilds from
      edit_global s n e fun _ _ _ => rfl]
    exact ⟨rfl, List.prefix_refl _⟩

omit h in
/-- So does the vector of the caller. -/
theorem frame_newThread {F : Ptr} {id : Tid} (hF : F < s.next) (hid : s.Fresh id) :
    Frame b s (newThread s F id) := by
  refine (spawned_newThread F hid.2.2).frame ?_ ?_ ?_ ?_
  · intro x hx
    rw [newThread_father, if_neg (Nat.ne_of_lt hx)]
  · intro x hx
    rw [newThread_childs s F id x (Nat.ne_of_lt hF), if_neg (Nat.ne_of_lt hx)]
    split
    · next hxF =>
      rw [hxF]
      exact List.prefix_append _ _
    · exact List.prefix_refl _
  · exact fun _ => newThread_global s F id fun _ _ _ => rfl
  · exact ⟨newThread_global s F id fun _ _ _ => rfl, newThread_global s F id fun _ _ _ => rfl⟩

omit h in
/-- The root is new: bound 0. -/
theorem frame_newRoot {k : NodeType} (hmain : s.threadIDToNode s.mainThread = none) :
    Frame 0 s (newRoot s k) := by
  refine (spawned_newRoot k hmain).frame ?_ ?_ ?_ ?_
  · intro x hx
    rw [newRoot_father, if_neg (Nat.ne_of_lt hx)]
  · intro x hx
    rw [show (newRoot s k).childs x = if x = s.next then [] else s.childs x from
      newRoot_field s k x (g := Node.childs) (fun _ _ => rfl) fun _ _ => rfl,
      if_neg (Nat.ne_of_lt hx)]
  · intro hcon
    omega
  · exact ⟨newRoot_global s k fun _ _ _ => rfl, newRoot_global s k fun _ _ _ => rfl⟩

/-- The three ways to delete a node; `b` is below its birth. -/
theorem frame_destroy {owner n : Ptr} {i : Nat} (hs : Slot s owner i n) (hchilds : s.childs n = [])
    (hb : b ≤ s.birth owner) : Frame b s ((Label.destroy owner i n).apply s) := by
  obtain ⟨-, -, -, hob⟩ := hs.lt h
  refine (unlinked_destroy h hs hchilds).frame h (Nat.lt_of_le_of_lt hb hob) ?_
    (fun _ => hs.not_root h) fun _ => ⟨rfl, List.prefix_refl _⟩
  intro x _ hxb
  have hxo : x ≠ owner := by
    rintro rfl
    omega
  rw [destroy_childs, if_neg hxo]

theorem frame_destroyRoot {r : Ptr} (hr : s.threadRoot = some r) (hchilds : s.childs r = []) :
    Frame 0 s ((Label.destroyRoot r).apply s) := by
  have hb := (h.birth r (h.alloc (h.root r hr).1)).1
  refine (unlinked_destroyRoot h hr hchilds).frame h hb (fun _ _ hcon => ?_) (fun hcon => ?_)
    fun hcon => ?_
  all_goals omega

theorem frame_drop {c : Ptr} (hc : s.keepChilds[s.keepPos]? = some c) (hchilds : s.childs c = [])
    (hb : b ≤ 1) : Frame b s ((Label.drop c).apply s) := by
  have hmem : c ∈ s.pending := by
    obtain ⟨hlt, hget⟩ := List.getElem?_eq_some_iff.mp hc
    rw [State.pending, List.drop_eq_getElem_cons hlt, hget]
    exact List.mem_cons_self
  obtain ⟨hreg, F, hF, -⟩ := h.pend c hmem
  -- what waits has a father, so it is not the first node
  obtain ⟨hF', hFc⟩ := h.up c (h.alloc hreg) F hF
  have hF1 := (h.birth F hF').1
  refine (unlinked_drop h hc hchilds).frame h (by omega) ?_ ?_ fun hcon => by omega
  · intro x _ _
    rw [show ((Label.drop c).apply s).childs x = s.childs x from
      destroyNode_field s c x (g := Node.childs) fun _ _ _ _ _ => rfl]
  · intro _ hr
    have hf := (h.root c hr).2
    rw [hF] at hf
    cases hf

/-- **A guarded step obeys the frame.** -/
theorem Guard.frame {l : Label} (hg : Guard b l s) : Frame b s (l.apply s) := by
  -- the tree is not touched
  have hsame : ∀ ps kc kp ch pj ex ac, (2 ≤ b → kp = s.keepPos ∧ s.keepChilds <+: kc) →
      Frame b s { s with prsnt := ps, keepChilds := kc, keepPos := kp, changedNode := ch,
                         prjNode := pj, exited := ex, active := ac } :=
    fun _ _ _ _ _ _ _ hkeep => { Frame.refl b s with keep := hkeep }
  have hrefl : 2 ≤ b → s.keepPos = s.keepPos ∧ s.keepChilds <+: s.keepChilds :=
    fun _ => ⟨rfl, List.prefix_refl _⟩
  cases l with
  | edit n e => exact frame_edit n e
  | newRoot type =>
    obtain ⟨-, -, hmain, rfl⟩ := hg
    exact frame_newRoot hmain
  | newThread F id => exact frame_newThread (h.alloc hg.1) hg.2.1
  | replace owner i n => exact frame_replace h hg.1 hg.2.2
  | destroy owner i n => exact frame_destroy h hg.1 hg.2.1 hg.2.2
  | destroyRoot r =>
    obtain ⟨hr, hchilds, rfl⟩ := hg
    exact frame_destroyRoot h hr hchilds
  | moveToKeepChilds n => exact frame_moveToKeepChilds h hg.1 hg.2.2.1
  | moveToFather n F => exact frame_moveToFather h hg.1 hg.2.2.1
  | attach c F => exact frame_attach c F hg.2.2.1
  | drop c => exact frame_drop h hg.1 hg.2.1 hg.2.2
  | keepClear =>
    refine hsame _ _ _ _ _ _ _ fun h2 => ?_
    have := hg.2
    omega
  | push e => exact hsame _ _ _ _ _ _ _ hrefl
  | pop => exact hsame _ _ _ _ _ _ _ hrefl
  | changedNode n => exact hsame _ _ _ _ _ _ _ hrefl
  | prjNode n => exact hsame _ _ _ _ _ _ _ hrefl
  | exit id => exact hsame _ _ _ _ _ _ _ hrefl
  | enter n => exact hsame _ _ _ _ _ _ _ hrefl
  | leave n => exact hsame _ _ _ _ _ _ _ hrefl
  | turn n => exact Frame.refl b s
  | updateNode n => exact Frame.refl b s
  | deferred n => exact Frame.refl b s
  | refuse c => exact Frame.refl b s
  | free e => exact Frame.refl b s
  | stateEnd => exact Frame.refl b s

end

/-! ## Specifications of the code -/

/-- The assertions on the map that guard insertion and erasure have not failed. -/
def Safe (e : Stop) : Prop := e ≠ .assertInsert ∧ e ≠ .assertErase

/-- The steps of `m` from `s` are guarded, and `Q` holds when it returns. -/
abbrev Does {α : Type} (b : Nat) (m : M α) (s : State) (Q : α → State → Prop) : Prop :=
  Spec Label.apply (Guard b) Safe m s Q

/-- **The frame of a run**, step by step. -/
theorem Inv.reach {b : Nat} {s t : State} (h : Inv s)
    (hr : Reaches Label.apply (Guard b) s t) : Inv t ∧ Frame b s t := by
  obtain ⟨es, hes⟩ := hr
  have hstep : ∀ l u, Guard b l u → Inv u → Inv (l.apply u) := fun _ _ hg hu => hg.inv hu
  refine ⟨(hes.keeps hstep h).1, ?_⟩
  exact hes.rel hstep (Frame.refl b) (fun _ _ _ => Frame.trans) (fun _ _ hg hu => hg.frame hu) h

section

variable {α β : Type} {b b' : Nat} {s : State} {m : M α} {f : α → M β} {Q R : α → State → Prop}
  {P : β → State → Prop} (h : Inv s)

include h

/-- A last call, with a bound that is not below the caller's. -/
theorem Does.last (hb : b ≤ b') (hm : Does b' m s Q)
    (hR : ∀ a t, Inv t → Frame b' s t → Q a t → R a t) : Does b m s R := by
  refine Spec.imp (Spec.weaken (fun _ _ => Guard.mono hb) hm) ?_
  rintro a t - ⟨hq, hr⟩
  obtain ⟨ht, hf⟩ := h.reach hr
  exact hR a t ht hf hq

/-- A call, and the rest. -/
theorem Does.call (hb : b ≤ b') (hm : Does b' m s Q)
    (hf : ∀ a t, Inv t → Frame b' s t → Q a t → Does b (f a) t P) : Does b (m >>= f) s P := by
  refine Spec.bind (Spec.weaken (fun _ _ => Guard.mono hb) hm) ?_
  rintro a t - ⟨hq, hr⟩
  obtain ⟨ht, hft⟩ := h.reach hr
  exact hf a t ht hft hq

/-- A step, and the rest. -/
theorem Does.step {l : Label} {f : Unit → M β} (hg : Guard b l s)
    (hf : Inv (l.apply s) → Frame b s (l.apply s) → Does b (f ()) (l.apply s) P) :
    Does b (act l >>= f) s P :=
  Spec.act_bind hg (hf (hg.inv h) (hg.frame h))

end

/-! ## What a frame keeps -/

section

variable {b : Nat} {s t : State} (h : Inv s) (ht : Inv t) (hf : Frame b s t)

include h ht hf

/-- A registered node not younger than the bound: it is where it was. -/
theorem Frame.reg_of {n : Ptr} (hn : s.Reg n) (hb : s.birth n ≤ b) :
    t.Reg n ∧ t.thread n = s.thread n ∧ t.father n = s.father n := by
  obtain ⟨hmap, hfather⟩ := hf.reg n (h.alloc hn) hb _ hn
  have hthread : t.thread n = s.thread n := (ht.map _ _ hmap).2
  refine ⟨?_, hthread, hfather⟩
  show t.threadIDToNode (t.thread n) = some n
  rw [hthread]
  exact hmap

theorem Frame.held {n : Ptr} (hn : n < s.next) (hheld : s.Held n) (hb : s.birth n ≤ b) :
    n < t.next ∧ t.Held n := by
  refine ⟨Nat.lt_of_lt_of_le hn hf.next, ?_⟩
  unfold State.Held
  rw [hf.type n hn]
  exact hheld.imp_left fun hr => (hf.reg_of h ht hr hb).1

/-- Below the father, a child keeps its slot. -/
theorem Slot.frame {owner c : Ptr} {i : Nat} (hs : Slot s owner i c) (hb : s.birth c ≤ b) :
    Slot t owner i c := by
  obtain ⟨ho, -, -, hob⟩ := hs.lt h
  obtain ⟨hreg, -, hfather⟩ := hf.reg_of h ht hs.reg hb
  refine ⟨?_, hreg, hfather.trans hs.father⟩
  obtain ⟨cs, hcs⟩ := hf.childs owner ho (Nat.lt_of_lt_of_le hob hb)
  have hat : (s.childs owner)[i]? = some c := hs.at_
  show (t.childs owner)[i]? = some c
  rw [← hcs, List.getElem?_append_left (List.getElem?_eq_some_iff.mp hat).1, hat]

end

/-- A valid vector gives slots. -/
theorem Inv.slot {s : State} (h : Inv s) {n c : Ptr} {i : Nat} (hn : n < s.next)
    (hheld : s.Held n) (hat : s.At n i c) : Slot s n i c := by
  obtain ⟨hreg, hfather⟩ := h.held n hn hheld i c hat
  exact ⟨hat, hreg, hfather⟩

end Msvl.Function
