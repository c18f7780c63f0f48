/-
  Steps that begin nothing.

  `Label.Light` — the steps of `~Node`, of `isCorrectAndExit`, of what `setNodeLength` does to the
  fathers, and of the moves of KEEP and ALW, with what the code knows of the nodes there: lengths
  other than MORE are written to AND, PAL and PRJ nodes, EMPTY to a projection when no p of it is
  MORE, and slot 1, where a projection has its first p, is erased for the others only.

  `Lightly m s` — from `s`, `m` takes light steps, and no object changes its type.
-/
import LibMSVL.Function.Kinds
import LibMSVL.Function.Lengths

namespace Msvl.Function

open Msvl.Run

/-! ## Light steps -/

def Label.Light : Label → State → Prop
  | .edit x (.len k), s => k = .more ∨ (s.type x).Composite ∧
      (k = .empty → s.type x = .prj → ∀ c ∈ (s.childs x).tail, (s.heap c).len ≠ .more)
  | .edit _ (.extQ _), _ | .edit _ (.hasExtQ _), _ | .edit _ (.request _), _ => False
  | .edit _ .isInit, _ | .newRoot _, _ | .destroyRoot _, _ | .exit _, _ => False
  | .destroy owner i _, s => i = 1 → s.type owner ≠ .prj
  | .replace _ _ _, _ | .enter _, _ | .leave _, _ | .turn _, _ => False
  | .changedNode _, _ | .prjNode none, _ | .deferred _, _ | .stateEnd, _ => False
  | _, _ => True

/-- No object changes its type. -/
def SameTypes (s : State) {α : Type} (_ : α) (t : State) : Prop := ∀ x, t.type x = s.type x

abbrev Lightly {α : Type} (m : M α) (s : State) : Prop :=
  Spec Label.apply Label.Light (fun _ => True) m s (SameTypes s)

section

variable {α β : Type} {m : M α} {f : α → M β} {s : State}

theorem SameTypes.refl (s : State) (a : α) : SameTypes s a s := fun _ => rfl

/-- No write to a node changes its type. -/
theorem sameTypes_edit (s : State) (n : Ptr) (e : Edit) (a : α) :
    SameTypes s a ((Label.edit n e).apply s) := (sameMap_edit s n e).type

theorem Lightly.pure (a : α) : Lightly (pure a : M α) s := Spec.pure (SameTypes.refl s a)

theorem Lightly.stop (e : Stop) : Lightly (stop e : M α) s := Spec.stop trivial

/-- One light program after the other; the second knows the types. -/
theorem Lightly.bind (hm : Lightly m s)
    (hf : ∀ a t, (∀ x, t.type x = s.type x) → Lightly (f a) t) : Lightly (m >>= f) s :=
  Spec.bind hm fun a t _ ht => Spec.imp (hf a t ht) fun _ _ _ hu x => (hu x).trans (ht x)

theorem Lightly.edit {n : Ptr} {e : Edit} (hl : (Label.edit n e).Light s) :
    Lightly (act (.edit n e)) s := Spec.act hl (sameTypes_edit s n e ())

/-- A length of an AND or PAL node. -/
theorem Lightly.len {n : Ptr} {k : NodeLength} (hcomp : (s.type n).Composite)
    (hne : s.type n ≠ .prj) : Lightly (act (.edit n (.len k))) s :=
  Lightly.edit (Or.inr ⟨hcomp, fun _ hprj => absurd hprj hne⟩)

/-- A projection ends; no p of it is MORE. -/
theorem Lightly.endPrj {n : Ptr} (hprj : s.type n = .prj)
    (hps : ∀ c ∈ (s.childs n).tail, (s.heap c).len ≠ .more) :
    Lightly (act (.edit n (.len .empty))) s := by
  refine Lightly.edit (Or.inr ⟨?_, fun _ _ => hps⟩)
  rw [hprj]
  trivial

theorem Lightly.when {b : Bool} {m : M Unit} (hm : Lightly m s) : Lightly (when b m) s := by
  unfold Msvl.Function.when
  split
  · exact hm
  · exact Lightly.pure ()

end

/-! ## Library calls -/

/-- `setAndLen` stops at the first father that is no AND. -/
theorem lightly_setAndLen (f : Nat) : ∀ o s, Lightly (setAndLen f o) s := by
  induction f with
  | zero => exact fun _ _ => Lightly.stop _
  | succ f ih =>
    intro o s
    cases o with
    | none => exact Lightly.pure _
    | some node =>
      refine Spec.get ?_
      split
      · exact Lightly.pure _
      · next hand =>
        have hand : s.type node = .and := not_not.mp hand
        refine Lightly.bind (Lightly.when (Lightly.edit trivial)) fun _ t ht => Spec.get ?_
        have hcomp : (t.type node).Composite := by
          rw [ht, hand]
          trivial
        have hne : t.type node ≠ .prj := by
          rw [ht, hand]
          nofun
        split
        · exact Lightly.bind (Lightly.len hcomp hne) fun _ u _ => ih _ u
        · generalize (if (t.heap node).hasEmpty = true then _ else 0) = noneNum
          split
          · exact Lightly.bind (Lightly.len hcomp hne) fun _ u _ => Lightly.edit trivial
          · exact Lightly.pure _

/-- `setPalLen` is called for a PAL node. -/
theorem lightly_setPalLen {node : Ptr} {s : State} (hn : s.type node = .pal) :
    Lightly (setPalLen node) s := by
  have hcomp : (s.type node).Composite := by
    rw [hn]
    trivial
  have hne : s.type node ≠ .prj := by
    rw [hn]
    nofun
  refine Spec.get ?_
  dsimp only
  split
  · exact Lightly.len hcomp hne
  · split
    · exact Lightly.bind (Lightly.len hcomp hne) fun _ u _ => Lightly.edit trivial
    · exact Lightly.pure _

/-- `setPrjLen` ends a PRJ node when no p goes on. -/
theorem lightly_setPrjLen {father : Ptr} (child : Ptr) {s : State} (hn : s.type father = .prj) :
    Lightly (setPrjLen father child) s := by
  refine Spec.get ?_
  dsimp only
  generalize (if child ∈ (s.heap father).childs then
    (s.heap father).childs.idxOf child + 1 == (s.heap father).childs.length
    else s.env.garbage child) = atEnd
  split
  · next hall =>
    refine Lightly.bind (Lightly.endPrj hn fun c hc => ?_) fun _ u _ => Lightly.edit trivial
    have hleft := List.countP_eq_length.mp hall c (List.mem_of_mem_tail hc)
    exact ne_of_beq_false (by simpa using (Bool.and_eq_true _ _ |>.mp hleft).1)
  · split
    · exact Lightly.pure _
    · split
      · exact Lightly.pure _
      · split
        · exact Spec.act trivial (SameTypes.refl _ ())
        · exact Lightly.pure _

/-- `setNodeLength` after the length of the thread's own node has been written; `s` is the state
    before. -/
theorem lightly_setFather (f : Nat) (node : Ptr) (o : Option Ptr) {s t : State}
    (ht : ∀ x, t.type x = s.type x) :
    Lightly (match o with
      | none => pure ()
      | some temp =>
        match (s.heap temp).type with
        | .and => setAndLen f (some temp)
        | .pal => setPalLen temp
        | .prj => setPrjLen temp node
        | .keep | .alw | .leaf => pure ()) t := by
  split
  · exact Lightly.pure _
  · next temp =>
    split
    · exact lightly_setAndLen f _ t
    · next htype => exact lightly_setPalLen ((ht temp).trans htype)
    · next htype => exact lightly_setPrjLen node ((ht temp).trans htype)
    all_goals exact Lightly.pure _

/-- Raising a length ends nothing. -/
theorem lightly_raiseLen (f : Nat) : ∀ o s, Lightly (raiseLen f o) s := by
  induction f with
  | zero => exact fun _ _ => Lightly.stop _
  | succ f ih =>
    intro o s
    cases o with
    | none => exact Lightly.pure _
    | some temp =>
      refine Spec.get ?_
      split
      · exact Lightly.pure _
      · exact Lightly.bind (Lightly.edit (Or.inl rfl)) fun _ t _ => ih _ t

end Msvl.Function
