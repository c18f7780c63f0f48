/-
  `delete`: the end of `~Node`, whose children have been deleted before.

  A node is deleted in a slot of its father, as the root, or where it waits in `keepChilds`.
  `Unlinked s t n` is what the three have in common: the node leaves the map and its father, every
  vector keeps the order of what stays (`slots`), and nothing that counts points to the node.
-/
import LibMSVL.Function.Replace

namespace Msvl.Function

/-! ## A deleted node -/

/-- The node `n`, which has no children, has been deleted. -/
structure Unlinked (s t : State) (n : Ptr) : Prop where
  reg : s.Reg n
  childs : s.childs n = []
  next : t.next = s.next
  nextLock : t.nextLock = s.nextLock
  births : t.births = s.births
  map : t.threadIDToNode = Function.update s.threadIDToNode (s.thread n) none
  main : t.mainThread = s.mainThread
  changed : t.changedNode = s.changedNode
  prj : t.prjNode = s.prjNode
  thread : ∀ x, t.thread x = if x = n then 0 else s.thread x
  father : ∀ x, t.father x = if x = n then none else s.father x
  birth : ∀ x, t.birth x = s.birth x
  type : ∀ x, t.type x = s.type x
  newType : ∀ x, t.newType x = s.newType x
  mutex : ∀ x, (t.heap x).mutex = if x = n then none else (s.heap x).mutex
  cond : ∀ x, (t.heap x).cond = if x = n then none else (s.heap x).cond
  slots : ∃ σ : Ptr → Nat → Nat, (∀ G i j, σ G i = σ G j → i = j) ∧
    ∀ G j x, t.At G j x ↔ s.At G (σ G j) x
  stays : ∀ G i x, s.At G i x → x ≠ n → ∃ j, t.At G j x
  off : ∀ G < s.next, s.Held G → ∀ j, ¬ t.At G j n
  pos : t.keepPos ≤ t.keepChilds.length
  pendOnce : t.pending.Nodup
  pending : ∀ x, x ∈ t.pending ↔ x ∈ s.pending ∧ x ≠ n
  root : s.threadRoot ≠ some n ∧ t.threadRoot = s.threadRoot ∨
    s.threadRoot = some n ∧ t.threadRoot = none

section

variable {s t : State} {n : Ptr} (hu : Unlinked s t n)

include hu

/-- The root afterwards is the root before, and not the deleted node. -/
theorem Unlinked.root_iff (r : Ptr) : t.threadRoot = some r ↔ s.threadRoot = some r ∧ r ≠ n := by
  rcases hu.root with ⟨hne, heq⟩ | ⟨heq, hnone⟩
  · rw [heq]
    constructor
    · intro hr
      refine ⟨hr, ?_⟩
      rintro rfl
      exact hne hr
    · exact And.left
  · rw [hnone, heq]
    constructor
    · intro hr
      cases hr
    · rintro ⟨hr, hrn⟩
      cases hr
      exact absurd rfl hrn

variable (h : Inv s)

include h

/-- One node less is registered. -/
theorem Unlinked.reg_iff (x : Ptr) : t.Reg x ↔ s.Reg x ∧ x ≠ n := by
  have hreg : s.threadIDToNode (s.thread n) = some n := hu.reg
  have hthread : (t.heap x).thread = if x = n then 0 else s.thread x := hu.thread x
  unfold State.Reg
  rw [hu.map, Function.update_apply]
  split at hthread
  · next hx =>
    subst hx
    rw [hthread]
    constructor
    · intro hcon
      split at hcon
      · cases hcon
      · next hne => exact absurd (h.map 0 x hcon).2.symm hne
    · exact fun hcon => absurd rfl hcon.2
  · next hx =>
    rw [hthread]
    split
    · next heq =>
      rw [show (s.heap x).thread = s.thread n from heq, hreg]
      simp [eq_comm]
    · exact (and_iff_left hx).symm

theorem Unlinked.objects : Objects t where
  map := by
    intro k m hm
    rw [hu.map, Function.update_apply] at hm
    split at hm
    · cases hm
    · next hk =>
      obtain ⟨hm', hthread⟩ := h.map k m hm
      rw [hu.next, hu.thread, if_neg]
      · exact ⟨hm', hthread⟩
      · rintro rfl
        exact hk hthread.symm
  birth := by
    intro m hm
    rw [hu.next] at hm
    rw [hu.birth, hu.births]
    exact h.birth m hm
  main := by
    intro m hm
    rw [hu.map, hu.main, Function.update_apply] at hm
    rw [hu.root_iff]
    split at hm
    · cases hm
    · next hk =>
      refine ⟨h.main m hm, ?_⟩
      rintro rfl
      exact hk (h.map _ _ hm).2.symm
  rootType := by
    intro r hr
    obtain ⟨hr, hrn⟩ := (hu.root_iff r).mp hr
    rw [hu.type, hu.thread, if_neg hrn, hu.main]
    exact h.rootType r hr
  newType := by
    intro x hx hr hc
    obtain ⟨hx, hxn⟩ := (hu.reg_iff h x).mp hx
    rw [hu.type] at hc
    rw [hu.newType, hu.type]
    exact h.newType x hx (fun hr' => hr ((hu.root_iff x).mpr ⟨hr', hxn⟩)) hc
  locks := by
    intro x hx
    obtain ⟨hx, hxn⟩ := (hu.reg_iff h x).mp hx
    rw [hu.mutex, hu.cond, if_neg hxn, if_neg hxn]
    exact h.locks x hx
  lockNext := by
    intro x hx
    rw [hu.next] at hx
    rw [hu.mutex, hu.cond, hu.nextLock]
    split
    · refine ⟨?_, ?_⟩
      · intro m hm
        cases hm
      · intro c hc
        cases hc
    · exact h.lockNext x hx
  mutexOwn := by
    intro x hx y hy m hmx hmy
    rw [hu.next] at hx hy
    rw [hu.mutex] at hmx hmy
    split at hmx
    · cases hmx
    · split at hmy
      · cases hmy
      · exact h.mutexOwn x hx y hy m hmx hmy
  condOwn := by
    intro x hx y hy m hmx hmy
    rw [hu.next] at hx hy
    rw [hu.cond] at hmx hmy
    split at hmx
    · cases hmx
    · split at hmy
      · cases hmy
      · exact h.condOwn x hx y hy m hmx hmy
  changed := by
    rw [hu.changed, hu.next]
    exact h.changed
  prj := by
    intro m hm
    rw [hu.prj] at hm
    rw [hu.next, hu.type]
    exact h.prj m hm

theorem Unlinked.links : Links t := by
  obtain ⟨σ, hσ, hat⟩ := hu.slots
  have hreg := hu.reg_iff h
  -- the father of what is not the deleted node
  have hfather : ∀ {x F}, t.father x = some F → x ≠ n ∧ s.father x = some F := by
    intro x F hF
    rw [hu.father] at hF
    split at hF
    · cases hF
    · next hxn => exact ⟨hxn, hF⟩
  constructor
  · intro m hm G hG
    rw [hu.next] at hm ⊢
    rw [hu.birth, hu.birth]
    exact h.up m hm G (hfather hG).2
  · intro G hG j c hc
    rw [hu.next] at hG ⊢
    obtain ⟨hc', hb, hle⟩ := h.down G hG _ c ((hat G j c).mp hc)
    rw [hu.birth, hu.birth]
    refine ⟨hc', hb, ?_⟩
    intro F hF
    rw [hu.birth]
    exact hle F (hfather hF).2
  · intro x hx hheld j c hc
    rw [hu.next] at hx
    have hheld' : s.Held x := by
      unfold State.Held at hheld ⊢
      rw [hreg, hu.type] at hheld
      exact hheld.imp And.left id
    obtain ⟨hcr, hcf⟩ := h.held x hx hheld' _ c ((hat x j c).mp hc)
    have hcn : c ≠ n := by
      rintro rfl
      exact hu.off x hx hheld' j hc
    rw [hreg, hu.father, if_neg hcn]
    exact ⟨⟨hcr, hcn⟩, hcf⟩
  · intro x hx G hG i j hi hj
    rw [hu.next] at hx
    exact hσ G i j (h.once x hx G (hfather hG).2 _ _ ((hat G i x).mp hi) ((hat G j x).mp hj))
  · intro x hx hxreg G hG j hj
    rw [hu.next] at hx
    obtain ⟨hxn, hG⟩ := hfather hG
    exact h.gone x hx (fun hr => hxreg ((hreg x).mpr ⟨hr, hxn⟩)) G hG _ ((hat G j x).mp hj)
  · exact hu.pos
  · exact hu.pendOnce
  · intro c hc
    obtain ⟨hc, hcn⟩ := (hu.pending c).mp hc
    obtain ⟨hcr, F, hF, hno⟩ := h.pend c hc
    rw [hreg, hu.father, if_neg hcn]
    exact ⟨⟨hcr, hcn⟩, F, hF, fun j hj => hno _ ((hat F j c).mp hj)⟩
  · intro x hx G hG hGreg
    obtain ⟨hxn, hG⟩ := hfather hG
    rcases h.att x ((hreg x).mp hx).1 G hG ((hreg G).mp hGreg).1 with ⟨i, hi⟩ | hp
    · exact Or.inl (hu.stays G i x hi hxn)
    · exact Or.inr ((hu.pending x).mpr ⟨hp, hxn⟩)
  · intro r hr
    obtain ⟨hr, hrn⟩ := (hu.root_iff r).mp hr
    obtain ⟨hrr, hrf⟩ := h.root r hr
    rw [hreg, hu.father, if_neg hrn]
    exact ⟨⟨hrr, hrn⟩, hrf⟩
  · intro x hx hfx
    obtain ⟨hxr, hxn⟩ := (hreg x).mp hx
    rw [hu.father, if_neg hxn] at hfx
    exact (hu.root_iff x).mpr ⟨h.rootOnly x hxr hfx, hxn⟩

/-- **A destroyed node** that had no children any more: the invariant is kept. -/
theorem Unlinked.inv : Inv t := { hu.links h, hu.objects h with }

end

/-! ## The three places -/

/-- What `~Node` leaves, apart from the vector or the list the node was in. -/
theorem unlinked_of {s t : State} {n : Ptr} (hreg : s.Reg n) (hchilds : s.childs n = [])
    (hheap : ∀ {α : Type} (g : Node → α), (∀ y v, g { y with childs := v } = g y) →
      ∀ x, g (t.heap x) = g ((destroyNode s n).heap x))
    (hglobal : ∀ {β : Type} (φ : State → β),
      (∀ u h k r, φ { u with heap := h, keepPos := k, threadRoot := r } = φ u) →
        φ t = φ (destroyNode s n))
    (hslots : ∃ σ : Ptr → Nat → Nat, (∀ G i j, σ G i = σ G j → i = j) ∧
      ∀ G j x, t.At G j x ↔ s.At G (σ G j) x)
    (hstays : ∀ G i x, s.At G i x → x ≠ n → ∃ j, t.At G j x)
    (hoff : ∀ G < s.next, s.Held G → ∀ j, ¬ t.At G j n)
    (hpos : t.keepPos ≤ t.keepChilds.length) (hpendOnce : t.pending.Nodup)
    (hpending : ∀ x, x ∈ t.pending ↔ x ∈ s.pending ∧ x ≠ n)
    (hroot : s.threadRoot ≠ some n ∧ t.threadRoot = s.threadRoot ∨
      s.threadRoot = some n ∧ t.threadRoot = none) : Unlinked s t n where
  reg := hreg
  childs := hchilds
  next := hglobal State.next fun _ _ _ _ => rfl
  nextLock := hglobal State.nextLock fun _ _ _ _ => rfl
  births := hglobal State.births fun _ _ _ _ => rfl
  map := hglobal State.threadIDToNode fun _ _ _ _ => rfl
  main := hglobal State.mainThread fun _ _ _ _ => rfl
  changed := hglobal State.changedNode fun _ _ _ _ => rfl
  prj := hglobal State.prjNode fun _ _ _ _ => rfl
  thread x := (hheap Node.thread (fun _ _ => rfl) x).trans (destroyNode_written s n x fun _ => rfl)
  father x := (hheap Node.father (fun _ _ => rfl) x).trans (destroyNode_written s n x fun _ => rfl)
  birth x := (hheap Node.birth (fun _ _ => rfl) x).trans
    (destroyNode_field s n x fun _ _ _ _ _ => rfl)
  type x := (hheap Node.type (fun _ _ => rfl) x).trans
    (destroyNode_field s n x fun _ _ _ _ _ => rfl)
  newType x := (hheap Node.newType (fun _ _ => rfl) x).trans
    (destroyNode_field s n x fun _ _ _ _ _ => rfl)
  mutex x := (hheap Node.mutex (fun _ _ => rfl) x).trans (destroyNode_written s n x fun _ => rfl)
  cond x := (hheap Node.cond (fun _ _ => rfl) x).trans (destroyNode_written s n x fun _ => rfl)
  slots := hslots
  stays := hstays
  off := hoff
  pos := hpos
  pendOnce := hpendOnce
  pending := hpending
  root := hroot

section

variable {s : State} (h : Inv s)

include h

/-- Out of the vector of its father. -/
theorem unlinked_destroy {owner n : Ptr} {i : Nat} (hs : Slot s owner i n)
    (hchilds : s.childs n = []) : Unlinked s ((Label.destroy owner i n).apply s) n := by
  -- slots from `i` on are one further to the front
  have hat : ∀ G j x, ((Label.destroy owner i n).apply s).At G j x ↔
      s.At G (if G = owner ∧ i ≤ j then j + 1 else j) x := by
    intro G j x
    unfold State.At
    rw [destroy_childs]
    by_cases hG : G = owner
    · subst hG
      rw [if_pos rfl, List.getElem?_eraseIdx]
      by_cases hj : i ≤ j
      · rw [if_neg (by omega), if_pos ⟨rfl, hj⟩]
      · rw [if_pos (by omega), if_neg (by omega)]
    · rw [if_neg hG, if_neg fun hcon => hG hcon.1]
  have hpend : n ∉ s.pending := by
    intro hp
    obtain ⟨-, F, hF, hno⟩ := h.pend n hp
    rw [hs.father] at hF
    cases hF
    exact hno i hs.at_
  refine unlinked_of hs.reg hchilds (fun g hg x => destroy_field s owner i n x hg)
    (fun φ hφ => hφ (destroyNode s n) _ s.keepPos s.threadRoot) ⟨_, ?_, hat⟩ ?_ ?_ h.pos h.pendOnce
    ?_ (Or.inl ⟨hs.not_root h, rfl⟩)
  · intro G j k hjk
    by_cases hG : G = owner
    · simp only [hG, true_and] at hjk
      split at hjk <;> split at hjk <;> omega
    · simpa only [hG, false_and, if_false] using hjk
  · intro G k x hx hxn
    by_cases hG : G = owner
    · subst hG
      have hki : k ≠ i := by
        rintro rfl
        have heq := hs.at_.symm.trans hx
        cases heq
        exact hxn rfl
      rcases Nat.lt_or_ge k i with hlt | hge
      · refine ⟨k, (hat _ _ _).mpr ?_⟩
        rw [if_neg (by omega)]
        exact hx
      · refine ⟨k - 1, (hat _ _ _).mpr ?_⟩
        rw [if_pos ⟨rfl, by omega⟩, Nat.sub_add_cancel (by omega)]
        exact hx
    · exact ⟨k, (hat _ _ _).mpr (by rw [if_neg fun hcon => hG hcon.1]; exact hx)⟩
  · intro G hG hheld j hj
    rw [hat] at hj
    have hf := (h.held G hG hheld _ n hj).2
    rw [hs.father] at hf
    cases hf
    have heq := h.once n (h.alloc hs.reg) owner hs.father _ i hj hs.at_
    simp only [true_and] at heq
    split at heq <;> omega
  · intro x
    refine ⟨fun hx => ⟨hx, ?_⟩, And.left⟩
    rintro rfl
    exact hpend hx

/-- The root, at the end of the statement. -/
theorem unlinked_destroyRoot {r : Ptr} (hr : s.threadRoot = some r) (hchilds : s.childs r = []) :
    Unlinked s ((Label.destroyRoot r).apply s) r := by
  have hat : ∀ G j x, ((Label.destroyRoot r).apply s).At G j x ↔ s.At G j x := by
    intro G j x
    unfold State.At
    rw [show ((Label.destroyRoot r).apply s).childs G = s.childs G from
      destroyNode_field s r G (g := Node.childs) fun _ _ _ _ _ => rfl]
  obtain ⟨hreg, hf⟩ := h.root r hr
  refine unlinked_of hreg hchilds (fun g _ x => rfl)
    (fun φ hφ => hφ (destroyNode s r) (destroyNode s r).heap s.keepPos none)
    ⟨fun _ j => j, fun _ _ _ => id, hat⟩ ?_ ?_ h.pos h.pendOnce ?_ (Or.inr ⟨hr, rfl⟩)
  · exact fun G k x hx _ => ⟨k, (hat G k x).mpr hx⟩
  · intro G hG hheld j hj
    have hf' := (h.held G hG hheld j r ((hat G j r).mp hj)).2
    rw [hf] at hf'
    cases hf'
  · intro x
    refine ⟨fun hx => ⟨hx, ?_⟩, And.left⟩
    rintro rfl
    obtain ⟨-, F, hF, -⟩ := h.pend x hx
    rw [hf] at hF
    cases hF

/-- A waiting child, which is in no vector. -/
theorem unlinked_drop {c : Ptr} (hc : s.keepChilds[s.keepPos]? = some c)
    (hchilds : s.childs c = []) : Unlinked s ((Label.drop c).apply s) c := by
  have hat : ∀ G j x, ((Label.drop c).apply s).At G j x ↔ s.At G j x := by
    intro G j x
    unfold State.At
    rw [show ((Label.drop c).apply s).childs G = s.childs G from
      destroyNode_field s c G (g := Node.childs) fun _ _ _ _ _ => rfl]
  obtain ⟨hlt, hget⟩ := List.getElem?_eq_some_iff.mp hc
  have hpending : s.pending = c :: ((Label.drop c).apply s).pending := by
    show s.keepChilds.drop s.keepPos = c :: s.keepChilds.drop (s.keepPos + 1)
    rw [List.drop_eq_getElem_cons hlt, hget]
  have hmem : c ∈ s.pending := by
    rw [hpending]
    exact List.mem_cons_self
  have honce := h.pendOnce
  rw [hpending, List.nodup_cons] at honce
  obtain ⟨hreg, F, hF, -⟩ := h.pend c hmem
  have hroot : s.threadRoot ≠ some c := by
    intro hr
    have hf := (h.root c hr).2
    rw [hF] at hf
    cases hf
  refine unlinked_of hreg hchilds (fun g _ x => rfl)
    (fun φ hφ => hφ (destroyNode s c) (destroyNode s c).heap (s.keepPos + 1) s.threadRoot)
    ⟨fun _ j => j, fun _ _ _ => id, hat⟩ ?_ ?_ hlt honce.2 ?_ (Or.inl ⟨hroot, rfl⟩)
  · exact fun G k x hx _ => ⟨k, (hat G k x).mpr hx⟩
  · intro G hG hheld j hj
    exact h.pending_not_at hmem hG hheld j ((hat G j c).mp hj)
  · intro x
    rw [hpending, List.mem_cons]
    constructor
    · intro hx
      refine ⟨Or.inr hx, ?_⟩
      rintro rfl
      exact honce.1 hx
    · rintro ⟨rfl | hx, hxc⟩
      · exact absurd rfl hxc
      · exact hx

end

end Msvl.Function
