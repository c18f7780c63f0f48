/-
  Library calls, and the turns in which threads make them.

  `Caller b s self` — who may call: the main thread outside of a turn, or the thread of a node that
  executes itself (a LEAF, KEEP or ALW node with a caller that looks at its type afterwards), with
  the birth of that node as the bound.  No step of a turn makes the caller lose this.
-/
import LibMSVL.Function.Walk

namespace Msvl.Function

open Msvl.Run

/-- A step that is taken sometimes: both ways are to be shown. -/
theorem does_when {b : Nat} {c : Bool} {m : M Unit} {s : State} {Q : Unit → State → Prop}
    (hm : c = true → Does b m s Q) (hq : c = false → Q () s) : Does b (when c m) s Q := by
  cases c with
  | true => exact hm rfl
  | false => exact Spec.pure (hq rfl)

/-! ## setNodeLength -/

/-- Up the AND fathers of the caller, each of which is the father of a node being executed. -/
theorem does_setAndLen (b f : Nat) : ∀ (o : Option Ptr) (s : State), Inv s →
    (∀ n, o = some n → n < s.next ∧ ∃ c ∈ s.active, s.Above c n) →
    Does b (setAndLen f o) s (Back s) := by
  induction f with
  | zero => exact fun o s _ _ => Spec.stop ⟨by decide, by decide⟩
  | succ f ih =>
    intro o s h ho
    cases o with
    | none => exact Spec.pure rfl
    | some node =>
      obtain ⟨hnode, c, hc, habove⟩ := ho node rfl
      rw [setAndLen]
      refine Spec.get ?_
      split
      · exact Spec.pure rfl
      · next hand =>
        have hand : s.type node = .and := not_not.mp hand
        refine Does.call h (Nat.le_refl b)
          (Q := fun _ t => t.active = s.active ∧ ∀ x, t.father x = s.father x)
          (does_when (fun _ => Spec.act trivial ⟨rfl, edit_father s node .hasEmpty⟩)
            fun _ => ⟨rfl, fun _ => rfl⟩) ?_
        rintro _ t ht hf ⟨hback, hfathers⟩
        have hact : c ∈ t.active := by rwa [hback]
        have habove := habove.same hfathers
        refine Spec.get ?_
        have hnode' : node < t.next := Nat.lt_of_lt_of_le hnode hf.next
        have htype : (t.type node).Composite := by
          rw [hf.type node hnode, hand]
          trivial
        split
        · refine Does.step ht trivial fun hu hfu => ?_
          refine Does.last hu (Nat.le_refl b) (ih _ _ hu ?_) ?_
          · intro m hm
            refine ⟨Nat.lt_of_lt_of_le (ht.up node hnode' m hm).1 hfu.next, c, hact, ?_⟩
            exact (habove.next hm).same (edit_father t node _)
          · intro a v _ _ hback'
            exact Eq.trans hback' hback
        · generalize (if (t.heap node).hasEmpty = true then _ else 0) = noneNum
          split
          · refine Does.step ht trivial fun hu hfu => ?_
            refine Spec.act ⟨Nat.lt_of_lt_of_le hnode' hfu.next, ?_, fun _ => ?_⟩ hback
            · rw [hfu.type node hnode']
              exact htype
            · exact ⟨c, hact, habove.same (edit_father t node _)⟩
          · exact Spec.pure hback

/-- The PAL father of the caller. -/
theorem does_setPalLen (b : Nat) {node : Ptr} {s : State} (h : Inv s) (hn : node < s.next)
    (hc : (s.type node).Composite) (ha : ∃ c ∈ s.active, s.father c = some node) :
    Does b (setPalLen node) s (Back s) := by
  obtain ⟨c, hact, hfather⟩ := ha
  rw [setPalLen]
  refine Spec.get ?_
  dsimp only
  split
  · exact Spec.act trivial rfl
  · split
    · refine Does.step h trivial fun hu hfu => ?_
      refine Spec.act ⟨Nat.lt_of_lt_of_le hn hfu.next, ?_, fun _ => ⟨c, hact, .father ?_⟩⟩ rfl
      · rw [hfu.type node hn]
        exact hc
      · rw [edit_father]
        exact hfather
    · exact Spec.pure rfl

/-- The PRJ father of the caller, which `prjNode` may be set to. -/
theorem does_setPrjLen (b : Nat) {father : Ptr} (child : Ptr) {s : State} (h : Inv s)
    (hn : father < s.next) (htype : s.type father = .prj)
    (ha : ∃ c ∈ s.active, s.father c = some father) :
    Does b (setPrjLen father child) s (Back s) := by
  rw [setPrjLen]
  refine Spec.get ?_
  dsimp only
  generalize (if child ∈ (s.heap father).childs then
    (s.heap father).childs.idxOf child + 1 == (s.heap father).childs.length
    else s.env.garbage child) = atEnd
  split
  · refine Does.step h trivial fun hu hfu => ?_
    refine Spec.act ⟨Nat.lt_of_lt_of_le hn hfu.next, ?_, by nofun⟩ rfl
    rw [hfu.type father hn, htype]
    trivial
  · split
    · exact Spec.pure rfl
    · split
      · exact Spec.pure rfl
      · split
        · exact Spec.act ⟨hn, htype, ha⟩ rfl
        · exact Spec.pure rfl

/-! ## Callers -/

/-- `self` makes library calls, with bound `b`. -/
def Caller (b : Nat) (s : State) (self : Tid) : Prop :=
  self = s.mainThread ∧ b = 0 ∨
  s.threadRoot ≠ none ∧ ∃ n, s.threadIDToNode self = some n ∧ b = s.birth n ∧
    ¬ (s.type n).Composite ∧ n ∈ s.active

/-- A caller stays one while others write. -/
theorem Caller.frame {b : Nat} {s t : State} {self : Tid} (h : Inv s) (hc : Caller b s self)
    (hf : Frame b s t) (hback : t.active = s.active) : Caller b t self := by
  rcases hc with ⟨hself, hb⟩ | ⟨hroot, n, hn, rfl, hcomp, hact⟩
  · exact Or.inl ⟨hself.trans hf.main.symm, hb⟩
  · obtain ⟨hn', -⟩ := h.map self n hn
    obtain ⟨r, hr⟩ := Option.ne_none_iff_exists'.mp hroot
    refine Or.inr ⟨?_, n, (hf.reg n hn' (Nat.le_refl _) self hn).1, (hf.birth n hn').symm, ?_, ?_⟩
    · rw [hf.root (h.birth n hn').1 r hr]
      exact Option.some_ne_none r
    · rw [hf.type n hn']
      exact hcomp
    · rw [hback]
      exact hact

/-- The node of a caller. -/
theorem Caller.node {b : Nat} {s : State} {self : Tid} {n : Ptr} (h : Inv s)
    (hc : Caller b s self) (hn : s.threadIDToNode self = some n) :
    s.Reg n ∧ (¬ (s.type n).Composite ∨ s.threadRoot = some n) ∧
      (n ∈ s.active ∨ s.threadRoot = some n) ∧ b ≤ s.birth n := by
  have hreg : s.Reg n := by
    show s.threadIDToNode (s.thread n) = some n
    rw [(h.map self n hn).2]
    exact hn
  rcases hc with ⟨rfl, rfl⟩ | ⟨-, m, hm, rfl, hcomp, hact⟩
  · have hroot := h.main n hn
    exact ⟨hreg, Or.inr hroot, Or.inr hroot, Nat.zero_le _⟩
  · rw [hn] at hm
    cases hm
    exact ⟨hreg, Or.inl hcomp, Or.inl hact, Nat.le_refl _⟩

/-- `setNodeLength` is made by guarded steps, and gives the node back as it was executed. -/
theorem does_setNodeLength {b : Nat} (f : Nat) {self : Tid} (type : NodeLength) {s : State}
    (h : Inv s) (hcall : Caller b s self) : Does b (setNodeLength f self type) s (Back s) := by
  rw [setNodeLength]
  refine Spec.get ?_
  split
  · exact Spec.stop ⟨by decide, by decide⟩
  · next node hself =>
    have hnode := (h.map self node hself).1
    refine Does.step h trivial fun hu hfu => ?_
    split
    · exact Spec.pure rfl
    · next temp htemp =>
      -- the root has no father, so this is the node of a thread that has its turn
      have hact : node ∈ ((Label.edit node (.len type)).apply s).active := by
        refine (hcall.node h hself).2.2.1.resolve_right fun hroot => ?_
        exact absurd ((h.root node hroot).2.symm.trans htemp) nofun
      have hfather : ((Label.edit node (.len type)).apply s).father node = some temp :=
        (edit_father s node _ node).trans htemp
      have htemp := (h.up node hnode temp htemp).1
      have htemp' := Nat.lt_of_lt_of_le htemp hfu.next
      split
      · refine does_setAndLen b f _ _ hu ?_
        intro n hn
        cases hn
        exact ⟨htemp', node, hact, .father hfather⟩
      · next hpal =>
        refine does_setPalLen b hu htemp' ?_ ⟨node, hact, hfather⟩
        rw [hfu.type temp htemp, State.type, hpal]
        trivial
      · next hprj =>
        refine does_setPrjLen b node hu htemp' ?_ ⟨node, hact, hfather⟩
        rw [hfu.type temp htemp, State.type, hprj]
      all_goals exact Spec.pure rfl

/-! ## MyCreateThread -/

/-- `Init`, outside of a statement: bound 0. -/
theorem does_init {type : NodeType} {s : State} (h : Inv s) (hroot : s.threadRoot = none) :
    Does 0 (init type) s (Back s) := by
  -- without a root the main thread is not in the map, so the insertion succeeds
  have hmain : s.threadIDToNode s.mainThread = none := by
    by_contra hcon
    obtain ⟨n, hn⟩ := Option.ne_none_iff_exists'.mp hcon
    rw [h.main n hn] at hroot
    cases hroot
  have hback : (newRoot s type).active = s.active := newRoot_global s type fun _ _ _ => rfl
  rw [init]
  refine Spec.get ?_
  split
  · rw [if_pos hmain]
    exact Spec.act ⟨trivial, hroot, hmain, rfl⟩ hback
  · rw [if_pos hmain]
    exact Spec.act ⟨trivial, hroot, hmain, rfl⟩ hback
  · rw [if_pos hmain]
    exact Spec.act ⟨trivial, hroot, hmain, rfl⟩ hback
  all_goals exact Spec.stop ⟨by decide, by decide⟩

/-- `MyCreateThread` adds a child to the caller's own node. -/
theorem does_myCreateThread {b : Nat} {self : Tid} (addr : Bool) (type : CreateType) (id : Tid)
    {s : State} (h : Inv s) (hc : Caller b s self) :
    Does b (myCreateThread self addr type id) s (Back s) := by
  rw [myCreateThread]
  split
  · exact Spec.pure rfl
  · next type _ =>
    refine Spec.get ?_
    refine Does.call h (Nat.le_refl b) (Q := Back s) (does_when ?_ fun _ => rfl) ?_
    · intro hnone
      rw [Option.isNone_iff_eq_none] at hnone
      rcases hc with ⟨-, rfl⟩ | ⟨hroot, -⟩
      · exact does_init h hnone
      · exact absurd hnone hroot
    intro _ t ht hf hback
    have hct := hc.frame h hf hback
    refine Spec.get ?_
    split
    · exact Spec.stop ⟨by decide, by decide⟩
    · next father hfather =>
      obtain ⟨hreg, htype, hact, hb⟩ := hct.node ht hfather
      refine Does.step ht ⟨hreg, htype, hact⟩ fun hu hfu => ?_
      have hsame := sameMap_edit t father (.request type)
      split
      · exact Spec.pure hback
      · split
        · next hid =>
          refine Spec.act ⟨(hsame.reg father).mpr hreg, ?_, ?_⟩ ?_
          · unfold State.Fresh
            rw [hsame.main, hsame.map]
            exact hid
          · rw [hsame.birth]
            exact hb
          · exact Eq.trans (newThread_global _ father id fun _ _ _ => rfl) hback
        · exact Spec.stop ⟨by decide, by decide⟩

/-! ## Turns -/

/-- Every library call of a caller. -/
theorem does_runCall {b : Nat} (f : Nat) {self : Tid} (c : Call) {s : State} (h : Inv s)
    (hc : Caller b s self) : Does b (runCall f self c) s (Back s) := by
  cases c with
  | myCreateThread addr type id => exact does_myCreateThread addr type id h hc
  | setNodeLength type => exact does_setNodeLength f type h hc
  | push left right priority =>
    refine Spec.act ?_ rfl
    rcases hc with ⟨hself, -⟩ | ⟨-, n, hn, -, -, hact⟩
    · exact Or.inl hself
    · exact Or.inr ⟨n, hact, hn⟩

/-- All calls of a turn, whatever they are. -/
theorem does_runThread {b : Nat} {self : Tid} (f : Nat) : ∀ s : State, Inv s → Caller b s self →
    Does b (runThread f self) s (Back s) := by
  induction f with
  | zero => exact fun s _ _ => Spec.stop ⟨by decide, by decide⟩
  | succ f ih =>
    intro s h hc
    rw [runThread]
    refine Spec.read ⟨by decide, by decide⟩ ?_
    rintro (c | - | -)
    · refine Does.call h (Nat.le_refl b) (does_runCall f c h hc) ?_
      intro _ t ht hf hback
      refine Does.last ht (Nat.le_refl b) (ih t ht (hc.frame h hf hback)) ?_
      intro _ u _ _ hback'
      exact Eq.trans hback' hback
    · exact Spec.pure rfl
    · exact Spec.act trivial rfl

/-- `n` can be executed. -/
structure Ready (s : State) (n : Ptr) : Prop where
  lt : n < s.next
  held : s.Held n
  root : s.threadRoot ≠ none
  active : ¬ (s.type n).Composite → n ∈ s.active

/-- A leaf, KEEP or ALW node that can be executed is registered. -/
theorem Ready.reg {s : State} {n : Ptr} (hn : Ready s n) (hc : ¬ (s.type n).Composite) : s.Reg n :=
  hn.held.resolve_right hc

/-- A turn of `n` stays below `n`. -/
theorem does_turn (f : Nat) {n : Ptr} {s : State} (h : Inv s) (hn : Ready s n)
    (hc : ¬ (s.type n).Composite) : Does (s.birth n) (turn f n) s (Back s) := by
  have hreg := hn.reg hc
  rw [turn]
  refine Does.step h ⟨hreg, hc, hn.active hc⟩ fun _ _ => ?_
  refine Does.step h trivial fun hu hfu => ?_
  refine Spec.get ?_
  obtain ⟨hreg', -⟩ := hfu.reg_of h hu hreg (Nat.le_refl _)
  have hsame := sameMap_edit s n .isInit
  refine Does.last hu (Nat.le_refl _) (does_runThread f _ hu (Or.inr ⟨?_, n, hreg', ?_, ?_, ?_⟩)) ?_
  · rw [hsame.root]
    exact hn.root
  · exact (hsame.birth n).symm
  · rw [hsame.type]
    exact hc
  · exact hn.active hc
  · intro _ t _ _ hback
    exact hback

/-- A node that is no composite has a father. -/
theorem Inv.father_of {s : State} (h : Inv s) {n : Ptr} (hn : s.Reg n)
    (hc : ¬ (s.type n).Composite) : ∃ F, s.father n = some F := by
  cases hF : s.father n with
  | none => exact absurd (h.rootType n (h.rootOnly n hn hF)).1 hc
  | some F => exact ⟨F, rfl⟩

/-- `LeafNode::excute`: one turn, if the thread is alive. -/
theorem does_leafExcute (f : Nat) {n : Ptr} {s : State} (h : Inv s) (hn : Ready s n)
    (hc : ¬ (s.type n).Composite) : Does (s.birth n) (leafExcute f n) s (Back s) := by
  rw [leafExcute]
  refine Spec.get ?_
  split
  · exact Spec.pure rfl
  · exact does_turn f h hn hc

/-- `KeepNode::excute`: the turn, then `n` gives up its children. -/
theorem does_keepExcute (f : Nat) {n : Ptr} {s : State} (h : Inv s) (hn : Ready s n)
    (htype : s.type n = .keep) : Does (s.birth n) (keepExcute f n) s (Back s) := by
  have hc := not_composite_keep htype
  rw [keepExcute]
  refine Spec.get ?_
  split
  · exact Spec.pure rfl
  · refine Does.call h (Nat.le_refl _) (does_turn f h hn hc) ?_
    intro _ t ht hf hback
    obtain ⟨hreg, -, -⟩ := hf.reg_of h ht (hn.reg hc) (Nat.le_refl _)
    have htypet : t.type n = .keep := (hf.type n hn.lt).trans htype
    refine Spec.act ⟨hreg, ht.father_of hreg (not_composite_keep htypet),
      Nat.le_of_eq (hf.birth n hn.lt).symm, htypet, ?_⟩ hback
    rw [show t.active = s.active from hback]
    exact hn.active hc

/-- Lengths upwards, from anywhere. -/
theorem does_raiseLen (b f : Nat) : ∀ (o : Option Ptr) (s : State), Inv s →
    Does b (raiseLen f o) s (Back s) := by
  induction f with
  | zero => exact fun o s _ => Spec.stop ⟨by decide, by decide⟩
  | succ f ih =>
    intro o s h
    cases o with
    | none => exact Spec.pure rfl
    | some temp =>
      rw [raiseLen]
      refine Spec.get ?_
      split
      · exact Spec.pure rfl
      · exact Does.step h trivial fun hu _ => ih _ _ hu

/-- `AlwNode::excute`: the turn, then the father's vector grows at its end. -/
theorem does_alwExcute (f : Nat) {n : Ptr} {s : State} (h : Inv s) (hn : Ready s n)
    (hc : ¬ (s.type n).Composite) : Does (s.birth n) (alwExcute f n) s (Back s) := by
  rw [alwExcute]
  refine Spec.get ?_
  split
  · exact Spec.pure rfl
  · refine Does.call h (Nat.le_refl _) (does_turn f h hn hc) ?_
    intro _ t ht hf hback
    obtain ⟨hreg, -, -⟩ := hf.reg_of h ht (hn.reg hc) (Nat.le_refl _)
    refine Spec.get ?_
    split
    · exact Spec.stop ⟨by decide, by decide⟩
    · next father hfather =>
      have hb := Nat.le_of_eq (hf.birth n hn.lt).symm
      have hct : ¬ (t.type n).Composite := by
        rw [hf.type n hn.lt]
        exact hc
      have hact : n ∈ t.active := by
        rw [show t.active = s.active from hback]
        exact hn.active hc
      refine Does.step ht ⟨hreg, hfather, hb, hct, hact⟩ fun hu _ => ?_
      refine does_when (fun _ => ?_) fun _ => hback
      refine Does.last hu (Nat.le_refl _) (does_raiseLen _ f _ _ hu) ?_
      intro _ v _ _ hback'
      exact Eq.trans hback' hback

end Msvl.Function
