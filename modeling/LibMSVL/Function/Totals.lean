/-
  How much work there is in a run.

  Every loop of the scheduler ends because something is used up: conversions answer requests, what a
  KEEP node hands over moves to an older father, what is popped was pushed.  Each total is bounded by
  a potential, a sum over the nodes there are: no step makes total and potential grow together by
  more than the calls of the threads pay for.

  1. `State.total` — sums over the nodes, and what the four changes do to them.
  2. `Node.debt` — the conversions a node may still go through.  `run_conversions`: a run converts at
     most two nodes for each type that `MyCreateThread` asks for.
  3. `State.level` — how old the father of a node is.  `run_moves`: with `m` threads KEEP nodes hand
     over less than `m * m` children altogether, however they are nested.
-/
import LibMSVL.Function.Statement
import Mathlib.Algebra.BigOperators.Group.Finset.Basic
import Mathlib.Algebra.BigOperators.Group.Finset.Piecewise
import Mathlib.Algebra.Order.BigOperators.Group.Finset
import Mathlib.Tactic.Ring

namespace Msvl.Function

open Msvl.Run

/-! ## Sums over the nodes -/

/-- The nodes there are. -/
def State.nodes (s : State) : Finset Ptr := (Finset.range s.next).filter s.Reg

/-- The sum of `v` over the nodes. -/
def State.total (s : State) (v : Ptr → Nat) : Nat := ∑ n ∈ s.nodes, v n

theorem Inv.mem_nodes {s : State} (h : Inv s) {n : Ptr} : n ∈ s.nodes ↔ s.Reg n := by
  rw [State.nodes, Finset.mem_filter, Finset.mem_range]
  exact ⟨fun hn => hn.2, fun hn => ⟨h.alloc hn, hn⟩⟩

section

variable {s t : State} (h : Inv s) (ht : Inv t) {v u : Ptr → Nat}

include h ht

theorem total_made {id : Tid} {k : NodeType} (hb : Spawned s t id k)
    (hold : ∀ x, s.Reg x → u x ≤ v x) : t.total u ≤ s.total v + u s.next := by
  have hnodes : t.nodes = insert s.next s.nodes := by
    ext x
    rw [ht.mem_nodes, hb.reg, Finset.mem_insert, h.mem_nodes]
  have hnew : s.next ∉ s.nodes := fun hn => Nat.lt_irrefl _ (h.alloc (h.mem_nodes.mp hn))
  calc t.total u = u s.next + ∑ n ∈ s.nodes, u n := by
        rw [State.total, hnodes, Finset.sum_insert hnew]
    _ ≤ u s.next + s.total v :=
        Nat.add_le_add_left (Finset.sum_le_sum fun x hx => hold x (h.mem_nodes.mp hx)) _
    _ = s.total v + u s.next := Nat.add_comm _ _

theorem total_replaced {owner n : Ptr} {i : Nat} (hs : Slot s owner i n)
    (hr : Replaced s t owner n i) (hold : ∀ x, s.Reg x → x ≠ n → u x ≤ v x) :
    t.total u + v n ≤ s.total v + u s.next := by
  have hnodes : t.nodes = insert s.next (s.nodes.erase n) := by
    ext x
    rw [ht.mem_nodes, hr.reg, Finset.mem_insert, Finset.mem_erase, h.mem_nodes, and_comm]
  have hnew : s.next ∉ s.nodes.erase n :=
    fun hn => Nat.lt_irrefl _ (h.alloc (h.mem_nodes.mp (Finset.mem_of_mem_erase hn)))
  have hle : ∑ x ∈ s.nodes.erase n, u x ≤ ∑ x ∈ s.nodes.erase n, v x := by
    refine Finset.sum_le_sum fun x hx => ?_
    obtain ⟨hne, hx⟩ := Finset.mem_erase.mp hx
    exact hold x (h.mem_nodes.mp hx) hne
  have hsum : ∑ x ∈ s.nodes.erase n, v x + v n = s.total v :=
    Finset.sum_erase_add _ _ (h.mem_nodes.mpr hs.reg)
  rw [State.total, hnodes, Finset.sum_insert hnew]
  omega

theorem total_deleted {n : Ptr} (hu : Unlinked s t n)
    (hold : ∀ x, s.Reg x → x ≠ n → u x ≤ v x) : t.total u ≤ s.total v := by
  have hnodes : t.nodes = s.nodes.erase n := by
    ext x
    rw [ht.mem_nodes, hu.reg_iff h, Finset.mem_erase, h.mem_nodes, and_comm]
  calc t.total u = ∑ x ∈ s.nodes.erase n, u x := by rw [State.total, hnodes]
    _ ≤ ∑ x ∈ s.nodes.erase n, v x := by
        refine Finset.sum_le_sum fun x hx => ?_
        obtain ⟨hne, hx⟩ := Finset.mem_erase.mp hx
        exact hold x (h.mem_nodes.mp hx) hne
    _ ≤ s.total v := Finset.sum_le_sum_of_subset (Finset.erase_subset n _)

omit ht in
theorem total_same (hs : SameMap s t) (hold : ∀ x, s.Reg x → u x ≤ v x) :
    t.total u ≤ s.total v := by
  have hnodes : t.nodes = s.nodes := by
    unfold State.nodes
    rw [hs.next]
    exact Finset.filter_congr fun x _ => hs.reg x
  rw [State.total, hnodes]
  exact Finset.sum_le_sum fun x hx => hold x (h.mem_nodes.mp hx)

end

/-! ## Conversions -/

/-- The conversions a node may go through before it is asked for another type: a composite may become
    a leaf; what is asked to become a composite may become one and then a leaf. -/
def Node.debt (x : Node) : Nat :=
  if x.type.Composite then 1
  else if x.type = x.newType then 0
  else if x.newType.Composite then 2
  else 1

/-- The root is not converted. -/
def State.debt (s : State) (n : Ptr) : Nat :=
  if s.threadRoot = some n then 0 else (s.heap n).debt

/-- `father->setNewNodeType(NODETYPE(type))` -/
def Label.requests : Label → Bool
  | .edit _ (.request _) => true
  | _ => false

def requests (log : Log) : Nat := log.countP fun x => x.1.requests

theorem debt_congr {x y : Node} (ht : x.type = y.type) (hn : x.newType = y.newType) :
    x.debt = y.debt := by
  unfold Node.debt
  rw [ht, hn]

/-- A conversion is paid for. -/
theorem Node.debt_typed {x y : Node} (hopen : x.type ≠ x.newType)
    (hx : x.type.Composite → x.newType = x.type ∨ x.newType = .leaf) (ht : y.type = x.newType)
    (hn : y.newType = x.newType) : y.debt < x.debt := by
  unfold Node.debt
  rw [ht, hn, if_pos (rfl : x.newType = x.newType)]
  by_cases hc : x.type.Composite
  · have hleaf : x.newType = .leaf := (hx hc).resolve_left fun heq => hopen heq.symm
    rw [hleaf, if_pos hc]
    decide
  · rw [if_neg hc, if_neg hopen]
    split
    · decide
    · decide

/-- A write adds to the debt of the node only when it asks for a type. -/
theorem debt_edit (n : Ptr) (e : Edit) (x : Node) (hleaf : ∀ r, e = .leaf r → x.type.Composite) :
    (e.apply x).debt ≤ x.debt + 2 * if (Label.edit n e).requests then 1 else 0 := by
  cases e with
  | leaf r =>
    have hc := hleaf r rfl
    unfold Node.debt
    rw [if_pos hc, if_pos (show (Edit.apply (.leaf r) x).type.Composite from hc)]
    exact Nat.le_refl 1
  | request type =>
    show _ ≤ x.debt + 2
    have hle : (Edit.apply (.request type) x).debt ≤ 2 := by
      unfold Node.debt
      split_ifs <;> decide
    omega
  | _ => exact Nat.le_refl _

theorem State.debt_congr {s t : State} {x : Ptr} (htype : t.type x = s.type x)
    (hnew : t.newType x = s.newType x) (hroot : t.threadRoot = some x ↔ s.threadRoot = some x) :
    t.debt x = s.debt x := by
  unfold State.debt
  rw [Function.debt_congr htype hnew]
  simp only [hroot]

section

variable {s t : State} (h : Inv s) (ht : Inv t)

include h ht

/-- A new thread owes nothing, and nothing is asked of the root. -/
theorem debt_made {id : Tid} {k : NodeType} (hb : Spawned s t id k)
    (hk : k = .leaf ∧ t.threadRoot = s.threadRoot ∨
      s.threadRoot = none ∧ t.threadRoot = some s.next) : t.total t.debt ≤ s.total s.debt := by
  have hnew : t.debt s.next = 0 := by
    unfold State.debt
    split
    · rfl
    · next hroot =>
      have hleaf : k = .leaf := (hk.resolve_right fun hr => hroot hr.2).1
      have htype : t.type s.next = k := (hb.type _).trans (if_pos rfl)
      have hnewType : t.newType s.next = k := (hb.newType _).trans (if_pos rfl)
      subst hleaf
      unfold Node.debt
      rw [show (t.heap s.next).type = _ from htype, show (t.heap s.next).newType = _ from hnewType]
      rfl
  have hle := total_made (v := s.debt) (u := t.debt) h ht hb ?_
  · omega
  · intro x hx
    have hne := Nat.ne_of_lt (h.alloc hx)
    refine Nat.le_of_eq (State.debt_congr ?_ ?_ ?_)
    · rw [hb.type, if_neg hne]
    · rw [hb.newType, if_neg hne]
    · rcases hk with ⟨-, heq⟩ | ⟨hno, hroot⟩
      · rw [heq]
      · rw [hno, hroot]
        refine iff_of_false ?_ (Option.some_ne_none x).symm
        exact fun heq => hne (Option.some.inj heq).symm

theorem debt_replaced {owner n : Ptr} {i : Nat} (hs : Slot s owner i n) (hopen : s.Open n)
    (hr : Replaced s t owner n i) : t.total t.debt + 1 ≤ s.total s.debt := by
  have hle := total_replaced (v := s.debt) (u := t.debt) h ht hs hr ?_
  · have hroot : t.threadRoot ≠ some s.next := by
      rw [hr.threadRoot]
      intro hcon
      exact Nat.lt_irrefl _ (h.alloc (h.root _ hcon).1)
    have hnew : t.debt s.next < s.debt n := by
      unfold State.debt
      rw [if_neg hroot, if_neg (hs.not_root h)]
      refine Node.debt_typed hopen (h.newType n hs.reg (hs.not_root h)) ?_ ?_
      · exact (hr.type s.next).trans (if_pos rfl)
      · exact (hr.newType s.next).trans (if_pos rfl)
    omega
  · intro x hx _
    have hne := Nat.ne_of_lt (h.alloc hx)
    refine Nat.le_of_eq (State.debt_congr ?_ ?_ (by rw [hr.threadRoot]))
    · rw [hr.type, if_neg hne]
    · rw [hr.newType, if_neg hne]

theorem debt_deleted {n : Ptr} (hu : Unlinked s t n) : t.total t.debt ≤ s.total s.debt := by
  refine total_deleted (v := s.debt) (u := t.debt) h ht hu fun x _ hxn => ?_
  refine Nat.le_of_eq (State.debt_congr (hu.type x) (hu.newType x) ?_)
  rw [hu.root_iff]
  exact ⟨fun hr => hr.1, fun hr => ⟨hr, hxn⟩⟩

omit ht in
/-- Only a request adds to what is owed. -/
theorem debt_same {b : Nat} {l : Label} (hg : Guard b l s) (hsame : SameMap s (l.apply s)) :
    (l.apply s).total (l.apply s).debt ≤ s.total s.debt + 2 * if l.requests then 1 else 0 := by
  by_cases hedit : ∃ n e, l = .edit n e
  · obtain ⟨n, e, rfl⟩ := hedit
    have hle := total_same (v := fun x => s.debt x +
      if x = n then 2 * (if (Label.edit n e).requests then 1 else 0) else 0)
      (u := ((Label.edit n e).apply s).debt) h hsame ?_
    · refine Nat.le_trans hle ?_
      unfold State.total
      rw [Finset.sum_add_distrib, Finset.sum_ite_eq']
      split <;> omega
    · intro x _
      unfold State.debt
      rw [hsame.root]
      split
      · exact Nat.zero_le _
      · rw [apply_edit]
        show ((s.modify n e.apply).heap x).debt ≤ _
        rw [heap_modify]
        split
        · next hxn =>
          subst hxn
          refine debt_edit x e _ ?_
          rintro r rfl
          exact hg.2.1
        · exact Nat.le_refl _
  · have hle := total_same (v := s.debt) (u := (l.apply s).debt) h hsame ?_
    · omega
    · intro x hx
      refine Nat.le_of_eq (State.debt_congr (hsame.type x) ?_ (by rw [hsame.root]))
      refine apply_field (g := Node.newType) (fun _ _ => rfl) (fun _ _ => rfl) (fun _ _ => rfl)
        (fun _ _ _ => rfl) (h.alloc hx) ?_ fun _ _ => rfl
      intro e he
      exact absurd ⟨x, e, he⟩ hedit

end

/-- No step makes conversions and debts grow by more than the requests. -/
theorem debt_step {b : Nat} {l : Label} {s : State} (h : Inv s) (hg : Guard b l s) :
    (l.apply s).total (l.apply s).debt + (if l.converts then 1 else 0) ≤
      s.total s.debt + 2 * if l.requests then 1 else 0 := by
  have ht := hg.inv h
  cases hg.change h with
  | made _ _ hconv hb hk =>
    have := debt_made h ht hb hk
    rw [if_neg (by simp [hconv])]
    omega
  | replaced _ _ hconv hs hopen hr =>
    have := debt_replaced h ht hs hopen hr
    rw [if_pos hconv]
    omega
  | deleted _ _ hconv hu =>
    have := debt_deleted h ht hu
    rw [if_neg (by simp [hconv])]
    omega
  | same _ _ hconv hsame =>
    have := debt_same h hg hsame
    rw [if_neg (by simp [hconv])]
    omega

/-! ## Children that are handed over -/

/-- How young the father of a node is. -/
def State.level (s : State) (n : Ptr) : Nat :=
  match s.father n with
  | none => 0
  | some F => s.birth F

theorem State.level_some {s : State} {n F : Ptr} (hF : s.father n = some F) :
    s.level n = s.birth F := by
  unfold State.level
  rw [hF]

section

variable {b : Nat} {l : Label} {s : State} (h : Inv s) (hg : Guard b l s)

include h hg

/-- A node that has a father other than before was a child of the new father's object, or of a child
    of the new father. -/
theorem father_moved {x F : Ptr} (hx : x < s.next) (hF : (l.apply s).father x = some F) :
    s.father x = some F ∨
    (∃ n, s.father x = some n ∧ F = s.next ∧ (l.apply s).birth s.next = s.birth n) ∨
    ∃ n, s.Reg n ∧ x ∈ s.childs n ∧ s.father n = some F := by
  have hne : x ≠ s.next := Nat.ne_of_lt hx
  cases l with
  | edit n e => exact Or.inl ((edit_father s n e x).symm.trans hF)
  | newRoot type =>
    have hfather : ((Label.newRoot type).apply s).father x = _ := newRoot_father s type x
    rw [hfather, if_neg hne] at hF
    exact Or.inl hF
  | newThread F' id =>
    have hfather : ((Label.newThread F' id).apply s).father x = _ := newThread_father s F' id x
    rw [hfather, if_neg hne] at hF
    exact Or.inl hF
  | replace owner i n =>
    rw [replace_father] at hF
    split at hF
    · next hk =>
      refine Or.inr (Or.inl ⟨n, (hg.1.kept h hk).2.1, (Option.some.inj hF).symm, ?_⟩)
      exact ((replaced h hg.1).birth s.next).trans (if_pos rfl)
    · exact Or.inl hF
  | destroy owner i n =>
    rw [destroy_father] at hF
    split at hF
    · cases hF
    · exact Or.inl hF
  | destroyRoot r =>
    have hfather : ((Label.destroyRoot r).apply s).father x = _ :=
      (unlinked_destroyRoot h hg.1 hg.2.1).father x
    rw [hfather] at hF
    split at hF
    · cases hF
    · exact Or.inl hF
  | moveToKeepChilds n =>
    have hfather : ((Label.moveToKeepChilds n).apply s).father x = _ := moveToKeepChilds_father s n x
    rw [hfather] at hF
    split at hF
    · next hmem => exact Or.inr (Or.inr ⟨n, hg.1, hmem, hF⟩)
    · exact Or.inl hF
  | moveToFather n F' =>
    have hfather : ((Label.moveToFather n F').apply s).father x = _ := moveToFather_father s n F' x
    rw [hfather] at hF
    split at hF
    · next hmem => exact Or.inr (Or.inr ⟨n, hg.1, hmem, hF⟩)
    · exact Or.inl hF
  | attach c F' =>
    exact Or.inl ((attach_field s c F' x (g := Node.father) fun _ _ => rfl).symm.trans hF)
  | drop c =>
    have hfather : ((Label.drop c).apply s).father x = _ :=
      (unlinked_drop h hg.1 hg.2.1).father x
    rw [hfather] at hF
    split at hF
    · cases hF
    · exact Or.inl hF
  | _ => exact Or.inl hF

/-- Fathers get older, never younger. -/
theorem level_le {x : Ptr} (hx : x < s.next) : (l.apply s).level x ≤ s.level x := by
  cases hF : (l.apply s).father x with
  | none =>
    unfold State.level
    rw [hF]
    exact Nat.zero_le _
  | some F =>
    rw [State.level_some hF]
    have hbirth := (hg.frame h).birth
    rcases father_moved h hg hx hF with hold | ⟨n, hn, rfl, hb⟩ | ⟨n, hn, hmem, hnF⟩
    · rw [State.level_some hold, hbirth F (h.up x hx F hold).1]
    · rw [State.level_some hn, hb]
    · obtain ⟨i, hi⟩ := State.at_iff_mem.mp hmem
      obtain ⟨hlt, hb⟩ := h.up n (h.alloc hn) F hnF
      rw [State.level_some (h.held n (h.alloc hn) (Or.inl hn) i x hi).2, hbirth F hlt]
      exact Nat.le_of_lt hb

omit hg in
theorem level_lt_births {x : Ptr} (hx : x < s.next) : s.level x < s.births := by
  have hpos := h.birth x hx
  cases hF : s.father x with
  | none =>
    unfold State.level
    rw [hF]
    exact Nat.lt_of_lt_of_le hpos.1 hpos.2
  | some F =>
    rw [State.level_some hF]
    exact Nat.lt_of_lt_of_le (h.up x hx F hF).2 hpos.2

end

/-- What the step hands over to keepChilds. -/
def Label.hands : Label → State → List Ptr
  | .moveToKeepChilds n, s => s.childs n
  | _, _ => []

theorem handed_step (l : Label) (s : State) (log : Log) :
    handed ((l, s) :: log) = handed log ++ l.hands s := by
  rw [handed_cons]
  cases l <;> rfl

/-- What a KEEP node hands over gets an older father. -/
theorem level_moveToKeepChilds {b : Nat} {s : State} (h : Inv s) {n : Ptr}
    (hg : Guard b (.moveToKeepChilds n) s) :
    (moveToKeepChilds s n).total (moveToKeepChilds s n).level + (s.childs n).length ≤
      s.total s.level := by
  obtain ⟨hn, ⟨F, hF⟩, -⟩ := id hg
  have hsame := (sameObjects_moveToKeepChilds s n).toSameMap
  have hchild : ∀ x, x ∈ s.childs n → s.Reg x ∧ s.father x = some n := by
    intro x hx
    obtain ⟨i, hi⟩ := State.at_iff_mem.mp hx
    exact h.held n (h.alloc hn) (Or.inl hn) i x hi
  have hle := total_same (v := s.level)
    (u := fun x => (moveToKeepChilds s n).level x + if x ∈ s.childs n then 1 else 0) h hsame ?_
  · have hnodes : (moveToKeepChilds s n).nodes = s.nodes := by
      unfold State.nodes
      rw [hsame.next]
      exact Finset.filter_congr fun x _ => hsame.reg x
    have hcount : ∑ x ∈ s.nodes, (if x ∈ s.childs n then 1 else 0) = (s.childs n).length := by
      have hset : (s.nodes.filter fun x => x ∈ s.childs n) = (s.childs n).toFinset := by
        ext x
        rw [Finset.mem_filter, List.mem_toFinset, h.mem_nodes]
        exact ⟨fun hx => hx.2, fun hx => ⟨(hchild x hx).1, hx⟩⟩
      rw [← Finset.card_filter, hset]
      exact List.toFinset_card_of_nodup (h.childs_nodup (h.alloc hn) (Or.inl hn))
    unfold State.total at hle ⊢
    rw [Finset.sum_add_distrib, hnodes, hcount] at hle
    rw [hnodes]
    exact hle
  · intro x hx
    split
    · next hmem =>
      have hfather : (moveToKeepChilds s n).father x = some F := by
        rw [moveToKeepChilds_father, if_pos hmem, hF]
      obtain ⟨-, hb⟩ := h.up n (h.alloc hn) F hF
      rw [State.level_some hfather, State.level_some (hchild x hmem).2, hsame.birth]
      exact hb
    · exact level_le h hg (h.alloc hx)

/-- No step makes moves and levels grow by more than a new node brings. -/
theorem level_step {b : Nat} {l : Label} {s : State} (h : Inv s) (hg : Guard b l s) :
    (l.apply s).total (l.apply s).level + (l.hands s).length + s.births * s.births ≤
      s.total s.level + (l.apply s).births * (l.apply s).births := by
  have ht := hg.inv h
  have hold : ∀ x, s.Reg x → (l.apply s).level x ≤ s.level x := fun x hx => level_le h hg (h.alloc hx)
  by_cases hkeep : ∃ n, l = .moveToKeepChilds n
  · obtain ⟨n, rfl⟩ := hkeep
    have hle := level_moveToKeepChilds h hg
    have hbirths : ((Label.moveToKeepChilds n).apply s).births = s.births := rfl
    rw [hbirths]
    exact Nat.add_le_add_right hle _
  · have hnone : l.hands s = [] := by
      cases l with
      | moveToKeepChilds n => exact absurd ⟨n, rfl⟩ hkeep
      | _ => rfl
    rw [hnone, List.length_nil, Nat.add_zero]
    cases hg.change h with
    | made _ _ _ hb _ =>
      have hle := total_made (v := s.level) (u := (l.apply s).level) h ht hb hold
      have hnew : (l.apply s).level s.next < (l.apply s).births := by
        refine level_lt_births ht ?_
        rw [hb.next]
        exact Nat.lt_succ_self _
      rw [hb.births] at hnew ⊢
      have hsq : (s.births + 1) * (s.births + 1) = s.births * s.births + 2 * s.births + 1 := by ring
      omega
    | @replaced owner n i _ _ _ hs _ hr =>
      have hle := total_replaced (v := s.level) (u := (l.apply s).level) h ht hs hr
        fun x hx _ => hold x hx
      obtain ⟨ho, -⟩ := hs.lt h
      have hnew : (l.apply s).level s.next = s.level n := by
        have hfather : (l.apply s).father s.next = some owner := by
          rw [hr.father, if_neg (hs.next_not_kept h), if_pos rfl]
        rw [State.level_some hfather, State.level_some hs.father, hr.birth,
          if_neg (Nat.ne_of_lt ho)]
      rw [hr.births]
      omega
    | deleted _ _ _ hu =>
      have hle := total_deleted (v := s.level) (u := (l.apply s).level) h ht hu
        fun x hx _ => hold x hx
      rw [hu.births]
      omega
    | same _ _ _ hsame =>
      have hle := total_same (v := s.level) (u := (l.apply s).level) h hsame hold
      rw [hsame.births]
      omega

/-! ## Clearings -/

/-- The calls of `excuteKeepChilds` that have ended with something to clear. -/
def cleared (log : Log) : Nat := log.countP fun x => x.1 == .keepClear && !x.2.keepChilds.isEmpty

theorem apply_keepChilds (l : Label) (s : State) : (l.apply s).keepChilds =
    if l = .keepClear then [] else s.keepChilds ++ l.hands s := by
  cases l with
  | edit n e =>
    exact (edit_global s n e fun _ _ _ => rfl).trans (List.append_nil _).symm
  | newRoot type =>
    exact (newRoot_global s type fun _ _ _ => rfl).trans (List.append_nil _).symm
  | newThread F id =>
    exact (newThread_global s F id fun _ _ _ => rfl).trans (List.append_nil _).symm
  | replace owner i n =>
    exact (replace_global s owner i n fun _ _ _ => rfl).trans (List.append_nil _).symm
  | moveToKeepChilds n => rfl
  | keepClear => rfl
  | _ => exact (List.append_nil _).symm

theorem cleared_step (l : Label) (s : State) (log : Log)
    (hc : cleared log + s.keepChilds.length ≤ (handed log).length) :
    cleared ((l, s) :: log) + (l.apply s).keepChilds.length ≤ (handed ((l, s) :: log)).length := by
  have hcount : cleared ((l, s) :: log) =
      cleared log + if (l == .keepClear && !s.keepChilds.isEmpty) = true then 1 else 0 :=
    List.countP_cons
  rw [hcount, handed_step, List.length_append, apply_keepChilds]
  by_cases hl : l = .keepClear
  · subst hl
    rw [if_pos rfl]
    cases hk : s.keepChilds with
    | nil =>
      rw [hk] at hc
      exact Nat.le_trans hc (Nat.le_add_right _ _)
    | cons c cs =>
      rw [hk, List.length_cons] at hc
      show cleared log + 1 + 0 ≤ (handed log).length + 0
      omega
  · rw [if_neg hl, if_neg (by simp [hl]), List.length_append]
    omega

/-! ## Runs -/

/-- The totals of a run so far. -/
structure Totals (log : Log) (s : State) : Prop where
  kin : Kin log s
  converted : conversions log + s.total s.debt ≤ 2 * requests log
  moved : (handed log).length + s.total s.level ≤ s.births * s.births
  queue : dealt log ++ s.pending = handed log
  cleared : Function.cleared log + s.keepChilds.length ≤ (handed log).length

theorem Totals.step {b : Nat} {l : Label} {s : State} {log : Log} (ht : Totals log s)
    (hg : Guard b l s) : Totals ((l, s) :: log) (l.apply s) where
  kin := ht.kin.step hg
  converted := by
    have hconv : conversions ((l, s) :: log) = conversions log + if l.converts then 1 else 0 :=
      List.countP_cons
    have hreq : requests ((l, s) :: log) = requests log + if l.requests then 1 else 0 :=
      List.countP_cons
    have hstep := debt_step ht.kin.inv hg
    have hle := ht.converted
    rw [hconv, hreq]
    omega
  moved := by
    have hstep := level_step ht.kin.inv hg
    have hle := ht.moved
    rw [handed_step, List.length_append]
    omega
  queue := account_handed ht.kin.inv hg ht.queue
  cleared := cleared_step l s log ht.cleared

theorem totals_of_trace {mainThread : Tid} {env : Env} {log : Log} {s : State}
    (h : Trace Label.apply (Guard 0) (start mainThread env) log s) : Totals log s := by
  refine h.keeps_log (I := Totals) (fun es l u hg ht => ht.step hg) ?_
  exact ⟨kin_of_trace (.nil _), Nat.le_refl 0, Nat.le_refl 0, rfl, Nat.le_refl 0⟩

/-- **A conversion answers a call.**  At any moment of a run there have been at most two conversions
    for each type that `MyCreateThread` has asked for: to the type, and back to LEAF.  So the objects
    that `getNewNode` leaves behind are at most two for each call. -/
theorem run_conversions (f : Nat) (mainThread : Tid) (env : Env) (input : List Action) :
    Throughout (fun log s => conversions log ≤ 2 * requests log ∧
        s.next ≤ (created log).length + 2 * requests log)
      (run f mainThread env input).2 := by
  refine (run_trace f mainThread env input).1.throughout ?_
  intro log s h
  have ht := totals_of_trace h
  have hle : conversions log ≤ 2 * requests log := Nat.le_trans (Nat.le_add_right _ _) ht.converted
  rw [← ht.kin.objects, ht.kin.births]
  exact ⟨hle, Nat.add_le_add_left hle _⟩

/-- **Moves come to an end.**  At any moment of a run with `m` threads so far, KEEP nodes have handed
    over at most `m * m` children, the same child counted each time: it gets an older father. -/
theorem run_moves (f : Nat) (mainThread : Tid) (env : Env) (input : List Action) :
    Throughout (fun log _ => (handed log).length ≤ (created log).length * (created log).length)
      (run f mainThread env input).2 := by
  refine (run_trace f mainThread env input).1.throughout ?_
  intro log s h
  have ht := totals_of_trace h
  rw [← ht.kin.births]
  exact Nat.le_trans (Nat.le_add_right _ _) ht.moved

end Msvl.Function
