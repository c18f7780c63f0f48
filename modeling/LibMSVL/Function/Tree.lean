/-
  The tree below threadRoot, and its consistency with the map.

  `Path s p n`: the slots `p`, the last one first, lead from the root to `n`.  That a node occurs
  once in the tree is said with paths: two paths to it are the same.
-/
import LibMSVL.Function.Manager

namespace Msvl.Function

/-! ## The tree -/

inductive State.Path (s : State) : List Nat → Ptr → Prop
  | root {r : Ptr} : s.threadRoot = some r → Path s [] r
  | child {p : List Nat} {F : Ptr} {i : Nat} {n : Ptr} :
      Path s p F → s.At F i n → Path s (i :: p) n

/-- `n` is reachable from threadRoot through childs. -/
def State.InTree (s : State) (n : Ptr) : Prop := ∃ p, s.Path p n

/-- Reachable from `c` through childs. -/
inductive State.Below (s : State) (c : Ptr) : Ptr → Prop
  | refl : Below s c c
  | child {F : Ptr} {i : Nat} {n : Ptr} : Below s c F → s.At F i n → Below s c n

theorem State.InTree.child {s : State} {F n : Ptr} (hF : s.InTree F) (hn : n ∈ s.childs F) :
    s.InTree n := by
  obtain ⟨p, hp⟩ := hF
  obtain ⟨i, hi⟩ := State.at_iff_mem.mp hn
  exact ⟨i :: p, hp.child hi⟩

section

variable {s : State} (h : Inv s)

include h

theorem Inv.path_reg {p : List Nat} {n : Ptr} (hp : s.Path p n) : s.Reg n := by
  induction hp with
  | root hr => exact (h.root _ hr).1
  | child _ hat ih => exact (h.held _ (h.alloc ih) (Or.inl ih) _ _ hat).1

theorem Inv.inTree_reg {n : Ptr} (hn : s.InTree n) : s.Reg n := by
  obtain ⟨p, hp⟩ := hn
  exact h.path_reg hp

/-- A node that a path of the tree leads to has the last node of the path as its father. -/
theorem Inv.path_father {p : List Nat} {F n : Ptr} {i : Nat} (hp : s.Path p F)
    (hat : s.At F i n) : s.father n = some F := by
  have hF := h.path_reg hp
  exact (h.held F (h.alloc hF) (Or.inl hF) i n hat).2

theorem Inv.path_unique {p : List Nat} {n : Ptr} (hp : s.Path p n) :
    ∀ q, s.Path q n → p = q := by
  induction hp with
  | root hr =>
    intro q hq
    cases hq with
    | root _ => rfl
    | child hF hat =>
      -- the root has no father
      have hno := (h.root _ hr).2
      rw [h.path_father hF hat] at hno
      cases hno
  | child hF hat ih =>
    intro q hq
    have hfather := h.path_father hF hat
    cases hq with
    | root hr =>
      rw [(h.root _ hr).2] at hfather
      cases hfather
    | child hG hat' =>
      have hfather' := h.path_father hG hat'
      rw [hfather] at hfather'
      cases hfather'
      have hreg := h.path_reg (hF.child hat)
      rw [ih _ hG, h.once _ (h.alloc hreg) _ hfather _ _ hat hat']

end

/-! ## Consistency -/

/-- Tree, map and locks agree. -/
structure State.Consistent (s : State) : Prop where
  /-- each child points back -/
  father : ∀ n, s.InTree n → ∀ c ∈ s.childs n, s.father c = some n
  /-- no node occurs twice -/
  once : ∀ n p q, s.Path p n → s.Path q n → p = q
  /-- the thread of a node is mapped to the node itself -/
  map : ∀ n, s.InTree n → s.threadIDToNode (s.thread n) = some n
  /-- mutex and cond are there, and nobody else's -/
  locks : ∀ n, s.InTree n → ∃ m c, (s.heap n).mutex = some m ∧ (s.heap n).cond = some c ∧
    ∀ x, s.Reg x → x ≠ n → (s.heap x).mutex ≠ some m ∧ (s.heap x).cond ≠ some c

theorem Inv.consistent {s : State} (h : Inv s) : s.Consistent where
  father := by
    rintro n ⟨p, hp⟩ c hc
    obtain ⟨i, hi⟩ := State.at_iff_mem.mp hc
    exact h.path_father hp hi
  once := fun _ _ _ hp hq => h.path_unique hp _ hq
  map := fun _ hn => h.inTree_reg hn
  locks := by
    intro n hn
    have hreg := h.inTree_reg hn
    obtain ⟨⟨m, hm⟩, c, hc⟩ := h.locks n hreg
    refine ⟨m, c, hm, hc, ?_⟩
    intro x hx hne
    refine ⟨?_, ?_⟩
    · intro hmx
      exact hne (h.mutexOwn x (h.alloc hx) n (h.alloc hreg) m hmx hm)
    · intro hcx
      exact hne (h.condOwn x (h.alloc hx) n (h.alloc hreg) c hcx hc)

/-- **Tree and thread map are consistent in every state of every run**: at the end, wherever the run
    stops, and before each of its steps.  No run stops at the assertion of an insertion or erasure;
    the lookup of the thread of a node of the tree finds the node (`map`). -/
theorem run_consistent (f : Nat) (mainThread : Tid) (env : Env) (input : List Action) :
    (run f mainThread env input).2.st.Consistent ∧
    EveryStep (fun _ s => s.Consistent) (run f mainThread env input).2 ∧
    (run f mainThread env input).1 ≠ .error .assertInsert ∧
    (run f mainThread env input).1 ≠ .error .assertErase := by
  obtain ⟨hend, hlog⟩ := run_inv f mainThread env input
  have hsafe := (run_trace f mainThread env input).2
  refine ⟨hend.consistent, fun l s hmem => (hlog l s hmem).1.consistent, ?_, ?_⟩
  · intro hcon
    exact (hsafe _ hcon).1 rfl
  · intro hcon
    exact (hsafe _ hcon).2 rfl

end Msvl.Function
