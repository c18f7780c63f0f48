/-
  `keep_node_execute` of node.c over the states of a run.

  The children that the thread of a KEEP node creates in a state are to be handed over to
  `g_keep_childs`.  In function.cpp the vector of children is cleared afterwards, which deletes no
  child.  The port destroys the array, whose destructor destroys the children, and leaves NULL, and
  nobody creates the array `g_keep_childs`; the setter for the father gets its arguments the other way
  round.

  1. `keepNodeExecute` — the turn of the thread is any change of the memory (its wait for `is_init` is
     part of it); `derefFalse` — `*g_false`.
  2. `Handed` — what one state is to do; `HandsOver` — a run of states, in each of which it does.
  3. `Stopped` — the thread gets no turn.
  4. `handsOver_iff` — a run hands over if and only if the thread never gets a turn in it.
-/
import LibMSVL.Port.Node

namespace Msvl.Port

open Msvl.Fault
open Msvl.Function (Ptr Tid NodeType NodeLength)

/-! ## The execution -/

/-- `*g_false` -/
def derefFalse : M Bool := do
  match (← get).gFalse with
  | some b => pure b
  | none => throw .nullPointer

/-- `node_set_father(father, this)` -/
def nodeSetFather (father this : Option Addr) : M Unit :=
  match this with
  | some (.node p) => store p fun n => { n with father := father }
  | some (.slot _ _) => throw .outOfBounds
  | none => throw .nullPointer

/-- `node_is_exit(this) || *g_false` -/
def stops (this : Ptr) : M Bool := do
  let exited ← nodeIsExit this
  if exited then pure true else derefFalse

/-- `keep_node_execute` behind the turn: the arguments of the setter are as they are written. -/
def keepHandOver (f : Nat) (this : Ptr) : M Unit := do
  let n ← load this
  forM (n.childs.getD []) fun c => do
    let n ← load this
    nodeSetFather (some (.node c)) n.father
  -- `dyn_array_insert` refuses NULL
  forM (n.childs.getD []) fun c =>
    modify fun m => { m with keepChilds := m.keepChilds.map fun cs => cs ++ [c] }
  arrayClear (nodeDestroy f) n.childs
  store this fun n => { n with childs := none }

/-- `keep_node_execute` -/
def keepNodeExecute (turn : Mem → Mem) (f : Nat) (this : Ptr) : M Unit := do
  let stop ← stops this
  if stop then pure ()
  else
    modify turn
    keepHandOver f this

/-! ## What it is to do -/

/-- The thread gets no turn: it has exited, or the path is false. -/
def Stopped (m : Mem) (this : Ptr) : Prop :=
  ∃ n, m.heap this = some n ∧ (n.thread = 0 ∨ m.exited n.thread = true ∨ m.gFalse = some true)

/-- The memory `m` after the turn has been handed over in `m'`: the children of `this` in `m` stand at
    the end of `g_keep_childs` with the father of `this`, alive, and `this` has an empty array. -/
structure Handed (this : Ptr) (m m' : Mem) : Prop where
  appended : ∀ n, m.heap this = some n →
    m'.keepChilds.getD [] = m.keepChilds.getD [] ++ n.childs.getD []
  fathers : ∀ n, m.heap this = some n →
    ∀ c ∈ n.childs.getD [], ∃ k, m'.heap c = some k ∧ k.father = n.father
  array : ∃ n, m'.heap this = some n ∧ n.childs = some []

/-- A state of a run: what the other threads do until `this` is executed, and its turn, if it gets
    one. -/
structure Phase (this : Ptr) where
  before : Mem → Mem
  keeps : ∀ m, (before m).heap this = m.heap this
  turn : Mem → Mem

open Classical in
/-- **The run hands over**: in every state the execution returns and does what it is to do. -/
def HandsOver (this : Ptr) : List (Phase this) → Mem → Prop
  | [], _ => True
  | s :: states, m =>
    ∃ f m', keepNodeExecute s.turn f this (s.before m) = .ok ((), m') ∧
      Handed this (if Stopped (s.before m) this then s.before m else s.turn (s.before m)) m' ∧
      HandsOver this states m'

/-- In no state the thread gets a turn. -/
def NoTurn (this : Ptr) : List (Phase this) → Mem → Prop
  | [], _ => True
  | s :: states, m => Stopped (s.before m) this ∧ NoTurn this states (s.before m)

/-! ## One state -/

theorem stops_of_stopped {m : Mem} {this : Ptr} (h : Stopped m this) : stops this m = .ok (true, m) := by
  obtain ⟨n, hn, h⟩ := h
  rw [stops, bind_ok (nodeIsExit_ok hn)]
  by_cases hexit : (n.thread == 0 || m.exited n.thread) = true
  · rw [if_pos hexit]
    rfl
  · rw [if_neg hexit]
    have hfalse : m.gFalse = some true := by
      rcases h with h | h | h
      · simp [h] at hexit
      · simp [h] at hexit
      · exact h
    rw [derefFalse, bind_ok (get_run m), hfalse]
    rfl

theorem stopped_of_stops {m m' : Mem} {this : Ptr} (h : stops this m = .ok (true, m')) :
    Stopped m this := by
  cases hn : m.heap this with
  | none =>
    rw [stops, bind_error (show nodeIsExit this m = .error .noBlock from bind_error (load_none hn))] at h
    cases h
  | some n =>
    refine ⟨n, hn, ?_⟩
    rw [stops, bind_ok (nodeIsExit_ok hn)] at h
    by_cases hexit : (n.thread == 0 || m.exited n.thread) = true
    · rcases Bool.or_eq_true_iff.mp hexit with hzero | hexit
      · exact Or.inl (beq_iff_eq.mp hzero)
      · exact Or.inr (Or.inl hexit)
    · rw [if_neg hexit, derefFalse, bind_ok (get_run m)] at h
      cases hfalse : m.gFalse with
      | none =>
        rw [hfalse] at h
        cases h
      | some b =>
        rw [hfalse] at h
        cases h
        exact Or.inr (Or.inr rfl)

/-- Without a turn nothing changes. -/
theorem keepNodeExecute_stopped {m : Mem} {this : Ptr} (turn : Mem → Mem) (f : Nat)
    (h : Stopped m this) : keepNodeExecute turn f this m = .ok ((), m) := by
  rw [keepNodeExecute, bind_ok (stops_of_stopped h), if_pos rfl]
  rfl

/-- After a turn there is no array. -/
theorem keepNodeExecute_turn {m m' : Mem} {this : Ptr} {turn : Mem → Mem} {f : Nat}
    (h : ¬ Stopped m this) (hok : keepNodeExecute turn f this m = .ok ((), m')) :
    ∃ n, m'.heap this = some n ∧ n.childs = none := by
  obtain ⟨stop, m1, hstop, hok⟩ := ok_of_bind hok
  cases stop with
  | true =>
    exact absurd (stopped_of_stops hstop) h
  | false =>
    rw [if_neg Bool.false_ne_true, bind_ok (modify_run turn m1)] at hok
    obtain ⟨_, _, _, hok⟩ := ok_of_bind hok
    obtain ⟨_, _, _, hok⟩ := ok_of_bind hok
    obtain ⟨_, _, _, hok⟩ := ok_of_bind hok
    obtain ⟨_, m2, _, hok⟩ := ok_of_bind hok
    cases hn : m2.heap this with
    | none =>
      rw [store_none _ hn] at hok
      cases hok
    | some n =>
      rw [store_ok _ hn] at hok
      cases hok
      exact ⟨_, Mem.set_self m2 this _, rfl⟩

/-! ## The run -/

/-- **A run hands over** if and only if the thread gets no turn in it. -/
theorem handsOver_iff {this : Ptr} (states : List (Phase this)) {m : Mem}
    (h : ∃ n, m.heap this = some n ∧ n.childs = some []) :
    HandsOver this states m ↔ NoTurn this states m := by
  induction states generalizing m with
  | nil => exact Iff.rfl
  | cons s states ih =>
    have hbefore : ∃ n, (s.before m).heap this = some n ∧ n.childs = some [] := by
      rwa [s.keeps m]
    by_cases hstop : Stopped (s.before m) this
    · have hhanded : Handed this (s.before m) (s.before m) := by
        obtain ⟨n, hn, hchilds⟩ := hbefore
        refine ⟨fun k hk => ?_, fun k hk c hc => ?_, n, hn, hchilds⟩
        · rw [hn] at hk
          cases hk
          rw [hchilds, Option.getD_some, List.append_nil]
        · rw [hn] at hk
          cases hk
          rw [hchilds] at hc
          cases hc
      constructor
      · rintro ⟨f, m', hok, -, hrest⟩
        rw [keepNodeExecute_stopped s.turn f hstop] at hok
        cases hok
        exact ⟨hstop, (ih hbefore).mp hrest⟩
      · rintro ⟨-, hrest⟩
        refine ⟨0, s.before m, keepNodeExecute_stopped s.turn 0 hstop, ?_, (ih hbefore).mpr hrest⟩
        rwa [if_pos hstop]
    · refine ⟨?_, fun hnone => absurd hnone.1 hstop⟩
      rintro ⟨f, m', hok, hhanded, -⟩
      obtain ⟨n, hn, hchilds⟩ := keepNodeExecute_turn hstop hok
      obtain ⟨k, hk, harray⟩ := hhanded.array
      rw [hn] at hk
      cases hk
      rw [hchilds] at harray
      cases harray

/-- A KEEP node, node 2, below node 1, and a leaf 3 that its thread creates. -/
def keepPair (gFalse : Bool) : Mem where
  heap
    | 1 => some { thread := 11, father := none, childs := some [2], type := .and, newType := .and,
                  len := .more, isInit := true, hasEmpty := false, mutex := none, cond := none,
                  prjBlock := false, extQ := false }
    | 2 => some { thread := 12, father := some (.node 1), childs := some [], type := .keep,
                  newType := .keep, len := .none, isInit := true, hasEmpty := false, mutex := none,
                  cond := none, prjBlock := false, extQ := false }
    | _ => none
  next := 3
  threadToNode
    | 11 => some 1
    | 12 => some 2
    | _ => none
  keepChilds := some []
  isCopied := false
  threadRoot := some 1
  gFalse := some gFalse
  exited := fun _ => false
  log := []

/-- The turn in which thread 12 creates the leaf. -/
def createLeaf (m : Mem) : Mem :=
  let leaf : Node :=
    { thread := 13, father := some (.node 2), childs := some [], type := .leaf, newType := .leaf,
      len := .more, isInit := true, hasEmpty := false, mutex := none, cond := none,
      prjBlock := false, extQ := false }
  { m with
    heap := fun x => if x = 3 then some leaf
      else if x = 2 then (m.heap 2).map fun n => { n with childs := some [3] } else m.heap x
    threadToNode := fun x => if x = 13 then some 3 else m.threadToNode x }

def leafPhase : Phase 2 := { before := id, keeps := fun _ => rfl, turn := createLeaf }

theorem false_path_hands_over : HandsOver 2 [leafPhase, leafPhase] (keepPair true) :=
  (handsOver_iff [leafPhase, leafPhase] ⟨_, rfl, rfl⟩).mpr
    ⟨⟨_, rfl, Or.inr (Or.inr rfl)⟩, ⟨_, rfl, Or.inr (Or.inr rfl)⟩, trivial⟩

/-- One state with one child. -/
theorem leaf_not_handed_over : ¬ HandsOver 2 [leafPhase] (keepPair false) := by
  have hstop : ¬ Stopped (keepPair false) 2 := by
    rintro ⟨n, hn, h⟩
    cases hn
    simp [keepPair] at h
  rintro ⟨f, m', hok, hhanded, -⟩
  obtain ⟨n, hn, hchilds⟩ := keepNodeExecute_turn hstop hok
  obtain ⟨k, hk, harray⟩ := hhanded.array
  rw [hn] at hk
  cases hk
  rw [hchilds] at harray
  cases harray

end Msvl.Port
