/-
  Handing the turn over, inside one parallel statement.

  The manager and the workers run strictly one at a time although nothing but `turn` is shared
  and the manager reads it without a lock.

  1. What carries the proof is the mutex of each worker's node: the manager writes `turn = w` only
     while it holds the mutex of `w`, and `w` holds it from its test of `turn` until it blocks or
     leaves the loop.  So the test cannot be overtaken by the write (`Inv.wait`).
  2. `Inv` — the invariant: who holds a mutex (`mutexMgr`, `mutexWorker`), a worker out of its loop
     has the turn and the manager waits for it (`out`), `turn` differs from `manager` only while
     the manager waits (`given`), a blocked worker whose turn it is will be signalled (`wake`).
  3. One lemma for each part of `Inv` and one action, `inv_step`; `inv_of_reachable` for runs.
  4. `turn_handOff` — one thread at a time, and no lost wake-up.  Not every place outside a waiting
     loop counts: `running_before_signal` has a worker that runs while the manager is still to
     signal it.
-/
import LibMSVL.Turn.Defs

namespace Msvl.Turn

open Msvl.Trans

/-! ## Places -/

/-- Out of the waiting loop: the worker has the turn. -/
def WorkerPc.Out : WorkerPc → Prop
  | .unlock | .running | .lockPause | .passTurn => True
  | _ => False

/-- Between taking the mutex of its node and giving it up. -/
def WorkerPc.Holds : WorkerPc → Prop
  | .test | .wait | .unlock | .passTurn => True
  | _ => False

/-- The manager holds the mutex of `w`. -/
def ManagerPc.HasMutex (m : ManagerPc) (w : Tid) : Prop := m = .setTurn w ∨ m = .unlock w

/-- The manager waits for `w`, the mutex of `w` is given up. -/
def ManagerPc.Past (m : ManagerPc) (w : Tid) : Prop :=
  m = .signal w ∨ m = .spinTurn w ∨ m = .isExit w

/-- The manager has passed the turn to `w` and not got it back. -/
def ManagerPc.Given (m : ManagerPc) (w : Tid) : Prop := m = .unlock w ∨ m.Past w ∨ m = .regain w

/-- The worker the manager is dealing with. -/
def ManagerPc.target : ManagerPc → Option Tid
  | .spinIsInit w | .lock w | .setTurn w | .unlock w | .signal w | .spinTurn w | .isExit w
  | .regain w => some w
  | .absent | .gate | .running | .ended => none

/-! ## The invariant -/

/-- **The invariant of a statement after `MyWaitForObject` has passed the turn.** -/
structure Inv (s : State) : Prop where
  main : s.main = .join
  mutexMgr : ∀ w, s.mutex w = some .manager ↔ s.mgr.HasMutex w
  mutexWorker : ∀ w, s.mutex w = some .worker ↔ (s.worker w).Holds
  out : ∀ w, (s.worker w).Out → s.turn = w ∧ s.mgr.Past w
  given : s.turn = s.manager ∨ s.mgr.Given s.turn
  wait : ∀ w, s.worker w = .wait → s.turn ≠ w
  wake : ∀ w, s.worker w = .blocked → s.turn = w → s.mgr = .unlock w ∨ s.mgr = .signal w
  regain : ∀ w, s.mgr = .regain w → s.worker w = .exited
  /-- the manager is no worker -/
  apart : s.worker s.manager = .absent
  present : ∀ w, s.mgr.target = some w → s.worker w ≠ .absent

attribute [local grind =] ManagerPc.HasMutex ManagerPc.Past ManagerPc.Given ManagerPc.target
  WorkerPc.Out WorkerPc.Holds State.Fresh Function.update_apply
attribute [local simp] Action.Enabled Action.effect

section

variable {s : State} {a : Action} (h : Inv s) (he : a.Enabled s)

include h

/-- A worker that reads its own id in `turn` has been given the turn: the manager is past the
    `unlock`, since the worker holds the mutex, and the worker is alive. -/
theorem past_of_turn {w : Tid} (hpc : s.worker w = .test) (ht : s.turn = w) : s.mgr.Past w := by
  have hne : s.turn ≠ s.manager := by
    intro heq
    have hab := h.apart
    rw [← heq, ht, hpc] at hab
    cases hab
  have hg := h.given.resolve_left hne
  rw [ht] at hg
  rcases hg with hu | hp | hr
  · -- `unlock w`: the manager would hold the mutex that `w` holds
    have hm : s.mutex w = some .manager := (h.mutexMgr w).mpr (Or.inr hu)
    have hw : s.mutex w = some .worker := (h.mutexWorker w).mpr (by rw [hpc]; trivial)
    rw [hm] at hw
    cases hw
  · exact hp
  · have hx := h.regain w hr
    rw [hpc] at hx
    cases hx

include he

/-- Mutexes.  Nobody takes a mutex that is not free. -/
theorem mutex_step (w : Tid) :
    ((a.effect s).mutex w = some .manager ↔ (a.effect s).mgr.HasMutex w) ∧
    ((a.effect s).mutex w = some .worker ↔ ((a.effect s).worker w).Holds) := by
  have hm := h.main
  have hmm := h.mutexMgr w
  have hmw := h.mutexWorker w
  cases a <;> simp at he ⊢ <;> grind

theorem out_step (w : Tid) (ho : ((a.effect s).worker w).Out) :
    (a.effect s).turn = w ∧ (a.effect s).mgr.Past w := by
  have hm := h.main
  have hold := h.out
  have hap := h.apart
  cases a
  case testFalse v =>
    -- the one way out of the loop
    simp only [Action.Enabled] at he
    have hpast := past_of_turn h he.1 he.2
    by_cases hv : w = v
    · subst hv
      exact ⟨he.2, hpast⟩
    · simp [hv] at ho
      exact hold w ho
  all_goals (simp at he ho ⊢; grind)

/-- `turn` leaves the manager in `giveTurn` only; whoever has it passes it back. -/
theorem given_step (hj : (a.effect s).main = .join) :
    (a.effect s).turn = (a.effect s).manager ∨ (a.effect s).mgr.Given (a.effect s).turn := by
  have hm := h.main
  have hg := h.given
  cases a <;> simp at he hj ⊢ <;> grind

theorem wait_step (hj : (a.effect s).main = .join) (w : Tid) (hw : (a.effect s).worker w = .wait) :
    (a.effect s).turn ≠ w := by
  have hm := h.main
  have hold := h.wait
  have hap := h.apart
  cases a
  case giveTurn v =>
    -- `v` cannot stand between its test and `pthread_cond_wait`: the manager has the mutex
    simp at he hw ⊢
    intro hv
    subst hv
    have hm : s.mutex v = some .manager := (h.mutexMgr v).mpr (Or.inl he)
    have hwk : s.mutex v = some .worker := (h.mutexWorker v).mpr (by rw [hw]; trivial)
    rw [hm] at hwk
    cases hwk
  all_goals (simp at he hj hw ⊢ <;> grind)

theorem wake_step (hj : (a.effect s).main = .join) (w : Tid)
    (hw : (a.effect s).worker w = .blocked) (ht : (a.effect s).turn = w) :
    (a.effect s).mgr = .unlock w ∨ (a.effect s).mgr = .signal w := by
  have hm := h.main
  have hold := h.wake
  have hap := h.apart
  cases a
  case condWait v =>
    simp at he hw ht ⊢
    by_cases hv : w = v
    · -- `v` blocks after a test that failed, and still fails
      subst hv
      exact absurd ht (h.wait w he)
    · simp [hv] at hw
      exact hold w hw ht
  all_goals (simp at he hj hw ht ⊢ <;> grind)

theorem regain_step (w : Tid) (hr : (a.effect s).mgr = .regain w) :
    (a.effect s).worker w = .exited := by
  have hm := h.main
  have hold := h.regain
  cases a <;> simp at he hr ⊢ <;> grind

theorem apart_step (hj : (a.effect s).main = .join) :
    (a.effect s).worker (a.effect s).manager = .absent := by
  have hm := h.main
  have hap := h.apart
  cases a <;> simp at he hj ⊢ <;> grind

theorem target_step (w : Tid) (hw : (a.effect s).mgr.target = some w) :
    (a.effect s).worker w ≠ .absent := by
  have hm := h.main
  have hold := h.present
  cases a <;> simp at he hw ⊢ <;> grind

/-- **One step**, taken while the main thread waits for the manager. -/
theorem inv_step (hj : (a.effect s).main = .join) : Inv (a.effect s) where
  main := hj
  mutexMgr w := (mutex_step h he w).1
  mutexWorker w := (mutex_step h he w).2
  out := out_step h he
  given := given_step h he hj
  wait := wait_step h he hj
  wake := wake_step h he hj
  regain := regain_step h he
  apart := apart_step h he hj
  present := target_step h he

end

/-! ## Runs inside a statement -/

/-- `MyWaitForObject` has just executed `turn = manager`: the manager has not noticed yet, no
    worker is out of its waiting loop (those created so far are anywhere in `MyPauseThreadInit`). -/
structure Begun (s : State) : Prop where
  main : s.main = .join
  mgr : s.mgr = .gate
  turn : s.turn = s.manager
  inside : ∀ w, ¬ (s.worker w).Out
  mutexMgr : ∀ w, s.mutex w ≠ some .manager
  mutexWorker : ∀ w, s.mutex w = some .worker ↔ (s.worker w).Holds
  apart : s.worker s.manager = .absent

/-- The runs of one statement: until the main thread has joined the manager. -/
def handOff : System State Action where
  init := Begun
  step := fun s a t => Step s a t ∧ t.main = .join

theorem Begun.inv {s : State} (h : Begun s) : Inv s := by
  -- `turn` is the manager's id, and that is nobody's
  have hturn : ∀ w, s.worker w ≠ .absent → s.turn ≠ w := by
    intro w hw heq
    apply hw
    rw [← heq, h.turn]
    exact h.apart
  constructor
  · exact h.main
  · intro w
    constructor
    · intro hm
      exact absurd hm (h.mutexMgr w)
    · intro hm
      rcases hm with hm | hm <;> rw [h.mgr] at hm <;> cases hm
  · exact h.mutexWorker
  · intro w ho
    exact absurd ho (h.inside w)
  · exact Or.inl h.turn
  · intro w hw
    exact hturn w (by rw [hw]; decide)
  · intro w hw ht
    exact absurd ht (hturn w (by rw [hw]; decide))
  · intro w hr
    rw [h.mgr] at hr
    cases hr
  · exact h.apart
  · intro w hw
    rw [h.mgr] at hw
    cases hw

theorem inv_of_reachable {s : State} (h : Reachable handOff s) : Inv s := by
  refine h.invariant (fun s (h0 : Begun s) => h0.inv) ?_
  rintro s a t hinv - ⟨⟨he, rfl⟩, hj⟩
  exact inv_step hinv he hj

/-! ## One at a time, and no lost wake-up -/

inductive Party
  | manager
  | worker (w : Tid)
  deriving DecidableEq, Repr

/-- The party is outside every waiting loop.  The manager's are the initial one of `ManagerThread`,
    `while(!this->isInit)` and `while(turn != manager)`, a worker's is that of `MyPauseThreadInit`,
    which `MyPauseThread` has too. -/
def OutsideLoop (s : State) : Party → Prop
  | .manager => s.mgr = .running ∨ ∃ w, s.mgr = .lock w ∨ s.mgr = .setTurn w ∨ s.mgr = .unlock w ∨
      s.mgr = .signal w ∨ s.mgr = .regain w
  | .worker w => s.worker w = .lookup ∨ s.worker w = .setIsInit ∨ s.worker w = .lockInit ∨
      (s.worker w).Out

/-- The party is running.  Against `OutsideLoop` the manager's `pthread_cond_signal`, after it has
    given up the mutex, is left out, and of a new worker what comes before its loop; the wait for
    `isInit` is counted. -/
def Runs (s : State) : Party → Prop
  | .manager => s.mgr = .running ∨ ∃ w, s.mgr = .spinIsInit w ∨ s.mgr = .lock w ∨
      s.mgr = .setTurn w ∨ s.mgr = .unlock w ∨ s.mgr = .regain w
  | .worker w => (s.worker w).Out

theorem not_past_of_runs {s : State} (hr : Runs s .manager) (w : Tid) : ¬ s.mgr.Past w := by
  intro hp
  rcases hr with hm | ⟨v, hm | hm | hm | hm | hm⟩ <;> rw [hm] at hp <;>
    rcases hp with hp | hp | hp <;> cases hp

/-- **The turn hand-off.**  In every state of every run of a statement at most one party runs, and
    a worker that is blocked although it is its turn is about to be signalled. -/
theorem turn_handOff {s : State} (h : Reachable handOff s) :
    (∀ p q, Runs s p → Runs s q → p = q) ∧
    (∀ w, s.turn = w → s.worker w = .blocked → s.mgr = .unlock w ∨ s.mgr = .signal w) := by
  have hinv := inv_of_reachable h
  refine ⟨?_, fun w ht hb => hinv.wake w hb ht⟩
  intro p q hp hq
  cases p with
  | manager =>
    cases q with
    | manager => rfl
    | worker w => exact absurd (hinv.out w hq).2 (not_past_of_runs hp w)
  | worker v =>
    cases q with
    | manager => exact absurd (hinv.out v hp).2 (not_past_of_runs hq v)
    | worker w => rw [← (hinv.out v hp).1, ← (hinv.out w hq).1]

/-- A statement with manager 1 and a worker 2 that has blocked in `MyPauseThreadInit`. -/
def oneWorker : State where
  main := .join
  mgr := .gate
  manager := 1
  turn := 1
  worker := fun w => if w = 2 then .blocked else .absent
  registered := fun w => decide (w = 2)
  isInit := fun w => decide (w = 2)
  mutex := fun _ => none

theorem oneWorker_begun : Begun oneWorker where
  main := rfl
  mgr := rfl
  turn := rfl
  inside w := by
    by_cases hw : w = 2 <;> simp [oneWorker, hw, WorkerPc.Out]
  mutexMgr w := by simp [oneWorker]
  mutexWorker w := by
    by_cases hw : w = 2 <;> simp [oneWorker, hw, WorkerPc.Holds]
  apart := rfl

/-- The same statement, worker 2 about to lock its mutex for the first time. -/
def enteringWorker : State :=
  { oneWorker with worker := fun w => if w = 2 then .lockInit else .absent }

theorem enteringWorker_begun : Begun enteringWorker where
  main := rfl
  mgr := rfl
  turn := rfl
  inside w := by
    by_cases hw : w = 2 <;> simp [enteringWorker, hw, WorkerPc.Out]
  mutexMgr w := by simp [enteringWorker, oneWorker]
  mutexWorker w := by
    by_cases hw : w = 2 <;> simp [enteringWorker, oneWorker, hw, WorkerPc.Holds]
  apart := rfl

/-- Worker 2 has waited for the mutex while the manager wrote `turn = 2`, finds its turn without
    blocking and runs before the manager has called `pthread_cond_signal`. -/
theorem running_before_signal :
    ∃ s, Reachable handOff s ∧ s.mgr = .signal 2 ∧ s.worker 2 = .running ∧
      ¬ ∀ p q, OutsideLoop s p → OutsideLoop s q → p = q := by
  have h0 : Reachable handOff enteringWorker := .start enteringWorker_begun
  have h1 : Reachable handOff _ := h0.next (a := .leaveGate) trivial ⟨⟨by decide, rfl⟩, rfl⟩
  have h2 : Reachable handOff _ := h1.next (a := .excute 2) trivial ⟨⟨by decide, rfl⟩, rfl⟩
  have h3 : Reachable handOff _ := h2.next (a := .seenInit 2) trivial ⟨⟨by decide, rfl⟩, rfl⟩
  have h4 : Reachable handOff _ := h3.next (a := .mgrLock 2) trivial ⟨⟨by decide, rfl⟩, rfl⟩
  have h5 : Reachable handOff _ := h4.next (a := .giveTurn 2) trivial ⟨⟨by decide, rfl⟩, rfl⟩
  have h6 : Reachable handOff _ := h5.next (a := .mgrUnlock 2) trivial ⟨⟨by decide, rfl⟩, rfl⟩
  -- the mutex is free, the signal is still to come
  have h7 : Reachable handOff _ := h6.next (a := .lockInit 2) trivial ⟨⟨by decide, rfl⟩, rfl⟩
  have h8 : Reachable handOff _ := h7.next (a := .testFalse 2) trivial ⟨⟨by decide, rfl⟩, rfl⟩
  have h9 : Reachable handOff _ := h8.next (a := .leaveLoop 2) trivial ⟨⟨by decide, rfl⟩, rfl⟩
  refine ⟨_, h9, rfl, rfl, fun hone => ?_⟩
  -- both are outside their loops
  have hsame := hone .manager (.worker 2) (Or.inr ⟨2, Or.inr (Or.inr (Or.inr (Or.inl rfl)))⟩)
    (Or.inr (Or.inr (Or.inr trivial)))
  cases hsame

/-- `turn = 2` is written while worker 2 is blocked: the signal is still to come. -/
theorem turn_handOff_oneWorker :
    ∃ s, (s.turn = 2 ∧ s.worker 2 = .blocked) ∧
      (∀ p q, Runs s p → Runs s q → p = q) ∧
      (∀ w, s.turn = w → s.worker w = .blocked → s.mgr = .unlock w ∨ s.mgr = .signal w) := by
  have h0 : Reachable handOff oneWorker := .start oneWorker_begun
  have h1 : Reachable handOff _ := h0.next (a := .leaveGate) trivial ⟨⟨by decide, rfl⟩, rfl⟩
  have h2 : Reachable handOff _ := h1.next (a := .excute 2) trivial ⟨⟨by decide, rfl⟩, rfl⟩
  have h3 : Reachable handOff _ := h2.next (a := .seenInit 2) trivial ⟨⟨by decide, rfl⟩, rfl⟩
  have h4 : Reachable handOff _ := h3.next (a := .mgrLock 2) trivial ⟨⟨by decide, rfl⟩, rfl⟩
  have h5 : Reachable handOff _ := h4.next (a := .giveTurn 2) trivial ⟨⟨by decide, rfl⟩, rfl⟩
  exact ⟨_, ⟨rfl, rfl⟩, turn_handOff h5⟩

end Msvl.Turn
