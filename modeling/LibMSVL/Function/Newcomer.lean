/-
  Nodes that have not been placed yet.

  `Newcomer` — a node that is being built, or is a child of a node that is no AND, PAL or PRJ, or
  waits in `keepChilds`.  Every step moves newcomers only: what arrives in a vector of children
  (`came_at`), gets a father (`came_father`) or begins to wait (`came_pending`) is one.  All other
  nodes stay where they are, but for the slots in front of them that are erased.

  `apply_field` — a field of a node that only `Edit` and the deletion of the node write.
-/
import LibMSVL.Function.Ledger
import LibMSVL.Function.Frame

namespace Msvl.Function

open Msvl.Run

/-! ## Newcomers -/

/-- Being built, or a child of a node that is no AND, PAL or PRJ. -/
def State.Loose (s : State) (c : Ptr) : Prop :=
  c = s.next ∨ ∃ n k, s.Reg n ∧ ¬ (s.type n).Composite ∧ s.At n k c

/-- Not placed under an AND, PAL or PRJ yet. -/
def State.Newcomer (s : State) (c : Ptr) : Prop := s.Loose c ∨ c ∈ s.pending

section

variable {b : Nat} {l : Label} {s : State} (h : Inv s) (hg : Guard b l s)

include h

theorem State.Loose.father {c : Ptr} (hc : s.Loose c) :
    c = s.next ∨ ∃ n k, s.father c = some n ∧ ¬ (s.type n).Composite ∧ s.At n k c := by
  refine hc.imp_right ?_
  rintro ⟨n, k, hn, hcomp, hat⟩
  exact ⟨n, k, (h.held n (h.alloc hn) (Or.inl hn) k c hat).2, hcomp, hat⟩

/-- Only the children of nodes that are no composites are handed on in a conversion. -/
theorem Slot.loose {owner n c : Ptr} {i k : Nat} (hs : Slot s owner i n) (hopen : s.Open n)
    (hleaf : s.newType n ≠ .leaf) (hat : s.At n k c) : s.Loose c := by
  refine Or.inr ⟨n, k, hs.reg, fun hcomp => ?_, hat⟩
  rcases h.newType n hs.reg (hs.not_root h) hcomp with heq | heq
  · exact hopen heq.symm
  · exact hleaf heq

omit h in
theorem State.next_pending {c : Ptr} (hc : s.keepChilds[s.keepPos]? = some c) : c ∈ s.pending := by
  obtain ⟨hlt, hget⟩ := List.getElem?_eq_some_iff.mp hc
  rw [State.pending, List.drop_eq_getElem_cons hlt, hget]
  exact List.mem_cons_self

include hg

/-- Where a child comes from: it was in this slot or, when the vector loses one, in a later one, or
    it is a newcomer. -/
theorem came_at {x c : Ptr} {k : Nat} (hx : x < (l.apply s).next) (hat : (l.apply s).At x k c) :
    s.Newcomer c ∨ x < s.next ∧ ∃ j, s.At x j c ∧ k ≤ j ∧
      (k = j ∨ ∃ i q, l = .destroy x i q ∧ i ≤ k) := by
  have hold : x < s.next → s.At x k c → s.Newcomer c ∨ x < s.next ∧ ∃ j, s.At x j c ∧ k ≤ j ∧
      (k = j ∨ ∃ i q, l = .destroy x i q ∧ i ≤ k) :=
    fun hx hat => Or.inr ⟨hx, k, hat, Nat.le_refl k, Or.inl rfl⟩
  have below : (l.apply s).next = s.next + 1 → x ≠ s.next → x < s.next := fun hnext hne =>
    Nat.lt_of_le_of_ne (Nat.le_of_lt_succ (Nat.lt_of_lt_of_eq hx hnext)) hne
  cases l with
  | edit n e =>
    rw [(sameMap_edit s n e).next] at hx
    rw [State.At, edit_childs] at hat
    exact hold hx hat
  | newRoot type =>
    have hnext : ((Label.newRoot type).apply s).next = s.next + 1 :=
      (spawned_newRoot type hg.2.2.1).next
    rw [State.At, show ((Label.newRoot type).apply s).childs x = if x = s.next then [] else s.childs x
      from newRoot_field s type x (g := Node.childs) (fun _ _ => rfl) fun _ _ => rfl] at hat
    split at hat
    · cases hat
    · next hne => exact hold (below hnext hne) hat
  | newThread F id =>
    have hnext : ((Label.newThread F id).apply s).next = s.next + 1 :=
      (spawned_newThread F hg.2.1.2.2).next
    obtain ⟨hne, hat | ⟨-, -, rfl⟩⟩ := (newThread_at (h.alloc hg.1) x k c).mp hat
    · exact hold (below hnext hne) hat
    · exact Or.inl (Or.inl (Or.inl rfl))
  | replace owner i n =>
    have hnext : ((Label.replace owner i n).apply s).next = s.next + 1 :=
      replace_global s owner i n fun _ _ _ => rfl
    rw [replace_at h hg.1] at hat
    split at hat
    · next hxo =>
      rcases hat with ⟨-, rfl⟩ | ⟨-, hat⟩
      · exact Or.inl (Or.inl (Or.inl rfl))
      · refine hold ?_ (hxo ▸ hat)
        rw [hxo]
        exact (hg.1.lt h).1
    · split at hat
      · exact Or.inl (Or.inl (hg.1.loose h hg.2.1 hat.1 hat.2))
      · next hne =>
        exact hold (below hnext (not_or.mp hne).1) hat
  | destroy owner i n =>
    have hx : x < s.next := hx
    rw [State.At, destroy_childs] at hat
    split at hat
    · next hxo =>
      rw [List.getElem?_eraseIdx] at hat
      split at hat
      · exact hold hx (hxo ▸ hat)
      · refine Or.inr ⟨hx, k + 1, hxo ▸ hat, Nat.le_succ k, Or.inr ⟨i, n, ?_, by omega⟩⟩
        rw [hxo]
    · exact hold hx hat
  | destroyRoot r =>
    refine hold hx ?_
    rwa [State.At, show ((Label.destroyRoot r).apply s).childs x = s.childs x from
      destroyNode_field s r x (g := Node.childs) fun _ _ _ _ _ => rfl] at hat
  | moveToKeepChilds n =>
    rw [State.At, show ((Label.moveToKeepChilds n).apply s).childs x = _ from
      moveToKeepChilds_childs s n x] at hat
    split at hat
    · cases hat
    · exact hold hx hat
  | moveToFather n F =>
    rw [State.At, show ((Label.moveToFather n F).apply s).childs x = _ from
      moveToFather_childs s n F x] at hat
    split at hat
    · cases hat
    · split at hat
      · next hxF =>
        rw [List.getElem?_append] at hat
        split at hat
        · exact hold hx (hxF ▸ hat)
        · exact Or.inl (Or.inl (Or.inr ⟨n, _, hg.1, hg.2.2.2.1, hat⟩))
      · exact hold hx hat
  | attach c' F =>
    rw [State.At, attach_childs] at hat
    split at hat
    · next hxF =>
      rw [List.getElem?_append] at hat
      split at hat
      · exact hold hx (hxF ▸ hat)
      · obtain rfl := List.mem_singleton.mp (List.mem_of_getElem? hat)
        exact Or.inl (Or.inr (State.next_pending hg.1))
    · exact hold hx hat
  | drop c' =>
    refine hold hx ?_
    rwa [State.At, show ((Label.drop c').apply s).childs x = s.childs x from
      destroyNode_field s c' x (g := Node.childs) fun _ _ _ _ _ => rfl] at hat
  | _ => exact hold hx hat

/-- Only loose nodes get a father. -/
theorem came_father {c F : Ptr} (hF : (l.apply s).father c = some F) :
    s.Loose c ∨ s.father c = some F := by
  cases l with
  | edit n e => exact Or.inr ((edit_father s n e c).symm.trans hF)
  | newRoot type =>
    rw [show ((Label.newRoot type).apply s).father c = _ from newRoot_father s type c] at hF
    split at hF
    · cases hF
    · exact Or.inr hF
  | newThread F' id =>
    rw [show ((Label.newThread F' id).apply s).father c = _ from newThread_father s F' id c] at hF
    split at hF
    · next hc => exact Or.inl (Or.inl hc)
    · exact Or.inr hF
  | replace owner i n =>
    rw [replace_father] at hF
    split at hF
    · next hk =>
      obtain ⟨hleaf, j, hj⟩ := mem_kept.mp hk
      exact Or.inl (hg.1.loose h hg.2.1 hleaf hj)
    · split at hF
      · next hc => exact Or.inl (Or.inl hc)
      · exact Or.inr hF
  | destroy owner i n =>
    rw [destroy_father] at hF
    split at hF
    · cases hF
    · exact Or.inr hF
  | destroyRoot r =>
    rw [show ((Label.destroyRoot r).apply s).father c = _ from
      destroyNode_written s r c (g := Node.father) fun _ => rfl] at hF
    split at hF
    · cases hF
    · exact Or.inr hF
  | moveToKeepChilds n =>
    rw [show ((Label.moveToKeepChilds n).apply s).father c = _ from
      moveToKeepChilds_father s n c] at hF
    split at hF
    · next hk =>
      obtain ⟨j, hj⟩ := State.at_iff_mem.mp hk
      exact Or.inl (Or.inr ⟨n, j, hg.1, not_composite_keep hg.2.2.2.1, hj⟩)
    · exact Or.inr hF
  | moveToFather n F' =>
    rw [show ((Label.moveToFather n F').apply s).father c = _ from moveToFather_father s n F' c] at hF
    split at hF
    · next hk =>
      obtain ⟨j, hj⟩ := State.at_iff_mem.mp hk
      exact Or.inl (Or.inr ⟨n, j, hg.1, hg.2.2.2.1, hj⟩)
    · exact Or.inr hF
  | attach c' F' =>
    exact Or.inr ((attach_field s c' F' c (g := Node.father) fun _ _ => rfl).symm.trans hF)
  | drop c' =>
    rw [show ((Label.drop c').apply s).father c = _ from
      destroyNode_written s c' c (g := Node.father) fun _ => rfl] at hF
    split at hF
    · cases hF
    · exact Or.inr hF
  | _ => exact Or.inr hF

/-- Nodes without a father stay so. -/
theorem stays_fatherless {c : Ptr} (hc : c < s.next) (hno : s.father c = none) :
    (l.apply s).father c = none := by
  by_contra hcon
  obtain ⟨F, hF⟩ := Option.ne_none_iff_exists'.mp hcon
  rcases came_father h hg hF with hloose | hold
  · rcases hloose.father h with rfl | ⟨n, -, hn, -⟩
    · exact Nat.lt_irrefl _ hc
    · rw [hno] at hn
      cases hn
  · rw [hno] at hold
    cases hold

/-- The children of a KEEP node are put into `keepChilds`. -/
theorem came_pending {c : Ptr} (hc : c ∈ (l.apply s).pending) :
    c ∈ s.pending ∨ ∃ n, l = .moveToKeepChilds n ∧ c ∈ s.childs n := by
  have hsame : ∀ t : State, t.keepChilds = s.keepChilds → t.keepPos = s.keepPos →
      c ∈ t.pending → c ∈ s.pending := by
    intro t hkeep hpos ht
    unfold State.pending at ht
    rwa [hkeep, hpos] at ht
  have hlater : c ∈ s.keepChilds.drop (s.keepPos + 1) → c ∈ s.pending := fun hc =>
    List.drop_subset_drop_left _ (Nat.le_succ _) hc
  cases l with
  | edit n e =>
    exact Or.inl (hsame _ (edit_global s n e fun _ _ _ => rfl) (edit_global s n e fun _ _ _ => rfl) hc)
  | newRoot type =>
    exact Or.inl (hsame _ (newRoot_global s type fun _ _ _ => rfl)
      (newRoot_global s type fun _ _ _ => rfl) hc)
  | newThread F id =>
    exact Or.inl (hsame _ (newThread_global s F id fun _ _ _ => rfl)
      (newThread_global s F id fun _ _ _ => rfl) hc)
  | replace owner i n =>
    exact Or.inl (hsame _ (replace_global s owner i n fun _ _ _ => rfl)
      (replace_global s owner i n fun _ _ _ => rfl) hc)
  | moveToKeepChilds n =>
    have hc : c ∈ (s.keepChilds ++ s.childs n).drop s.keepPos := hc
    rw [List.drop_append_of_le_length h.pos] at hc
    exact (List.mem_append.mp hc).imp_right fun hc => ⟨n, rfl, hc⟩
  | attach c' F => exact Or.inl (hlater hc)
  | drop c' => exact Or.inl (hlater hc)
  | keepClear => exact absurd hc List.not_mem_nil
  | _ => exact Or.inl hc

/-- So only newcomers wait afterwards. -/
theorem newcomer_of_pending {c : Ptr} (hc : c ∈ (l.apply s).pending) : s.Newcomer c := by
  rcases came_pending h hg hc with hpend | ⟨n, rfl, hmem⟩
  · exact Or.inr hpend
  · obtain ⟨j, hj⟩ := State.at_iff_mem.mp hmem
    exact Or.inl (Or.inr ⟨n, j, hg.1, not_composite_keep hg.2.2.2.1, hj⟩)

end

/-! ## Fields -/

/-- The steps that delete `x`. -/
def Label.Deletes (x : Ptr) : Label → Prop
  | .destroy _ _ n | .destroyRoot n | .drop n => n = x
  | _ => False

section Field

variable {α : Type} {g : Node → α} {l : Label} {s : State} {x : Ptr}

theorem destroyNode_kept {n : Ptr} (hg : n = x → ∀ y : Node,
      g { y with father := none, thread := 0, mutex := none, cond := none } = g y) :
    g ((destroyNode s n).heap x) = g (s.heap x) := by
  rw [destroyNode_eq, heap_modify]
  split
  · next hx => exact hg hx.symm _
  · rfl

/-- A field that constructors, conversions and moves leave in the nodes there are. -/
theorem apply_field (hf : ∀ y v, g { y with father := v } = g y)
    (hl : ∀ y v, g { y with len := v } = g y) (hc : ∀ y v, g { y with childs := v } = g y)
    (hm : ∀ y v w, g { y with mutex := v, cond := w } = g y) (hx : x < s.next)
    (hedit : ∀ e, l = .edit x e → ∀ y, g (e.apply y) = g y)
    (hdel : l.Deletes x → ∀ y : Node,
      g { y with father := none, thread := 0, mutex := none, cond := none } = g y) :
    g ((l.apply s).heap x) = g (s.heap x) := by
  have hne : x ≠ s.next := Nat.ne_of_lt hx
  cases l with
  | edit n e =>
    rw [apply_edit]
    show g ((s.modify n e.apply).heap x) = _
    rw [heap_modify]
    split
    · next hxn => exact hedit e (by rw [hxn]) _
    · rfl
  | newRoot type => exact (newRoot_field s type x hf hl).trans (if_neg hne)
  | newThread F id => exact (newThread_field s F id x hf hl hc).trans (if_neg hne)
  | replace owner i n => exact (replace_field s owner i n x hf hl hc hm).trans (if_neg hne)
  | destroy owner i n =>
    exact (destroy_field s owner i n x hc).trans (destroyNode_kept hdel)
  | destroyRoot r => exact destroyNode_kept hdel
  | moveToKeepChilds n => exact moveToKeepChilds_field s n x hf hc
  | moveToFather n F => exact moveToFather_field s n F x hf hc
  | attach c F => exact attach_field s c F x hc
  | drop c => exact destroyNode_kept hdel
  | _ => rfl

end Field

/-- The flag of a projection is written by itself only. -/
theorem apply_hasExtQ {l : Label} {s : State} {x : Ptr} (hx : x < s.next)
    (hl : ∀ q, l ≠ .edit x (.hasExtQ q)) :
    ((l.apply s).heap x).hasExtQ = (s.heap x).hasExtQ := by
  refine apply_field (g := Node.hasExtQ) (fun _ _ => rfl) (fun _ _ => rfl) (fun _ _ => rfl)
    (fun _ _ _ => rfl) hx (fun e he y => ?_) fun _ _ => rfl
  cases e with
  | hasExtQ q => exact absurd he (hl q)
  | _ => rfl

theorem edit_hasExtQ (s : State) (n : Ptr) (q : Bool) :
    (((Label.edit n (.hasExtQ q)).apply s).heap n).hasExtQ = some q := by
  rw [apply_edit]
  show ((s.modify n _).heap n).hasExtQ = some q
  rw [heap_modify, if_pos rfl]
  rfl

end Msvl.Function
