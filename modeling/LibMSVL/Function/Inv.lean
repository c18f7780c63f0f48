/-
  The invariant of the thread tree.

  `getNewNode` replaces objects while fathers, children, the map and the pending lists hold raw
  pointers to them, so the invariant speaks of every object ever built, not of the tree only:

  * `Reg` nodes are those the map leads to.  `held` — the children of a registered node, and of
    every AND, PAL or PRJ object even after it has been replaced, are registered and point back.
  * `gone` — an object that is not registered any more is not in the vector of its father, so no
    search finds it.
  * `up`, `down` — a father's thread is older than the child's (`birth`); a node only moves towards
    older fathers.  This excludes cycles and double entries (`once`).
  * `pend` — what waits in `keepChilds` is registered and in no vector of its father; `att` — every
    other registered node is in the vector of its father, if that is registered.

  `Guard b l s` is what the code guarantees where it takes the step `l`; `b` bounds from below the
  birth of the nodes the step takes from (`Frame`, in the next module, is what follows).
-/
import LibMSVL.Function.Effects
import Mathlib.Data.List.Nodup

namespace Msvl.Function

/-! ## The invariant -/

/-- Child number `i` of `F` is `x`. -/
def State.At (s : State) (F : Ptr) (i : Nat) (x : Ptr) : Prop := (s.childs F)[i]? = some x

theorem State.at_iff_mem {s : State} {F x : Ptr} : x ∈ s.childs F ↔ ∃ i, s.At F i x :=
  List.mem_iff_getElem?

/-- The children of `x` are valid: it is registered, or of a type whose objects give up their
    children when they are replaced. -/
def State.Held (s : State) (x : Ptr) : Prop := s.Reg x ∨ (s.type x).Composite

/-- Fathers and children. -/
structure Links (s : State) : Prop where
  up : ∀ n < s.next, ∀ F, s.father n = some F → F < s.next ∧ s.birth F < s.birth n
  down : ∀ G < s.next, ∀ i c, s.At G i c → c < s.next ∧ s.birth G < s.birth c ∧
    ∀ F, s.father c = some F → s.birth F ≤ s.birth G
  held : ∀ x < s.next, s.Held x → ∀ i c, s.At x i c → s.Reg c ∧ s.father c = some x
  once : ∀ x < s.next, ∀ F, s.father x = some F → ∀ i j, s.At F i x → s.At F j x → i = j
  gone : ∀ x < s.next, ¬ s.Reg x → ∀ F, s.father x = some F → ∀ i, ¬ s.At F i x
  pos : s.keepPos ≤ s.keepChilds.length
  pendOnce : s.pending.Nodup
  pend : ∀ c ∈ s.pending, s.Reg c ∧ ∃ F, s.father c = some F ∧ ∀ i, ¬ s.At F i c
  att : ∀ x, s.Reg x → ∀ F, s.father x = some F → s.Reg F → (∃ i, s.At F i x) ∨ x ∈ s.pending
  root : ∀ r, s.threadRoot = some r → s.Reg r ∧ s.father r = none
  rootOnly : ∀ x, s.Reg x → s.father x = none → s.threadRoot = some x

/-- Everything else about the objects and the map. -/
structure Objects (s : State) : Prop where
  map : ∀ t n, s.threadIDToNode t = some n → n < s.next ∧ s.thread n = t
  birth : ∀ n < s.next, 1 ≤ s.birth n ∧ s.birth n ≤ s.births
  main : ∀ n, s.threadIDToNode s.mainThread = some n → s.threadRoot = some n
  rootType : ∀ r, s.threadRoot = some r → (s.type r).Composite ∧ s.thread r = s.mainThread
  newType : ∀ x, s.Reg x → s.threadRoot ≠ some x → (s.type x).Composite →
    s.newType x = s.type x ∨ s.newType x = .leaf
  locks : ∀ x, s.Reg x → (∃ m, (s.heap x).mutex = some m) ∧ ∃ c, (s.heap x).cond = some c
  lockNext : ∀ x < s.next, (∀ m, (s.heap x).mutex = some m → m < s.nextLock) ∧
    ∀ c, (s.heap x).cond = some c → c < s.nextLock
  mutexOwn : ∀ x < s.next, ∀ y < s.next, ∀ m, (s.heap x).mutex = some m →
    (s.heap y).mutex = some m → x = y
  condOwn : ∀ x < s.next, ∀ y < s.next, ∀ c, (s.heap x).cond = some c →
    (s.heap y).cond = some c → x = y
  changed : ∀ n, s.changedNode = some n → n < s.next
  prj : ∀ n, s.prjNode = some n → n < s.next ∧ (s.type n).Composite

structure Inv (s : State) : Prop extends Links s, Objects s

theorem Inv.alloc {s : State} (h : Inv s) {n : Ptr} (hn : s.Reg n) : n < s.next :=
  (h.map _ _ hn).1

/-! ## Consequences -/

section

variable {s : State} (h : Inv s)

include h

/-- A node is in no vector of an object older than its father. -/
theorem Inv.not_at_older {c n G : Ptr} (hG : G < s.next) (hc : s.father c = some n)
    (hb : s.birth G < s.birth n) (i : Nat) : ¬ s.At G i c := by
  intro hat
  have hle := (h.down G hG i c hat).2.2 n hc
  omega

/-- What is known of a child of a registered node `n` with father `F`. -/
theorem Inv.child {n F c : Ptr} (hn : s.Reg n) (hF : s.father n = some F) {i : Nat}
    (hat : s.At n i c) :
    s.Reg c ∧ s.father c = some n ∧ s.birth n < s.birth c ∧ ∀ j, ¬ s.At F j c := by
  have hn' := h.alloc hn
  obtain ⟨hc, hfc⟩ := h.held n hn' (Or.inl hn) i c hat
  obtain ⟨hF', hb⟩ := h.up n hn' F hF
  exact ⟨hc, hfc, (h.down n hn' i c hat).2.1, h.not_at_older hF' hfc hb⟩

theorem Inv.childs_nodup {x : Ptr} (hx : x < s.next) (hheld : s.Held x) : (s.childs x).Nodup := by
  rw [List.nodup_iff_getElem?_ne_getElem?]
  intro i j hij hj heq
  have hj' : s.At x j (s.childs x)[j] := List.getElem?_eq_getElem hj
  have hi' : s.At x i (s.childs x)[j] := heq.trans hj'
  obtain ⟨hc, hfc⟩ := h.held x hx hheld i _ hi'
  have := h.once _ (h.alloc hc) x hfc i j hi' hj'
  omega

/-- What waits is nobody's child. -/
theorem Inv.pending_not_at {c x : Ptr} (hc : c ∈ s.pending) (hx : x < s.next) (hheld : s.Held x)
    (i : Nat) : ¬ s.At x i c := by
  intro hat
  obtain ⟨-, F, hF, hno⟩ := h.pend c hc
  have hfc := (h.held x hx hheld i c hat).2
  rw [hF] at hfc
  cases hfc
  exact hno i hat

end

end Msvl.Function
