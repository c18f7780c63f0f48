/-
  The turn protocol of function.cpp: main thread, manager and workers.

  One global `turn` says whose turn it is.  A worker is created by the main thread or by a running
  worker, enters through `MyPauseThreadInit` and waits on the condition variable of its node until
  `turn` is its id; it gives the turn back in `MyPauseThread` or by exiting.  The manager hands over
  in `LeafNode::excute` (`KeepNode::excute` and `AlwNode::excute` do it in the same words) and spins
  until the turn is back or the thread is gone.  The main thread starts a parallel statement in
  `Init`, and passes the first turn to the manager in `MyWaitForObject`, where it joins it.

  1. Program counters `MainPc`, `ManagerPc`, `WorkerPc`: one value for each place where another
     thread can come in between.
  2. `Action.Enabled` and `Action.effect`: an action is one atomic step of one thread — a read or a
     write of `turn`, a call of pthreads.  Waiting is POSIX: `pthread_cond_wait` gives the mutex up
     and blocks in one step, a signal reaches only a thread that is blocked, a blocked thread can
     wake up without one and has to take the mutex again.
  3. `protocol`, all runs from the program start; `handOff`, the runs inside one statement.
-/
import LibMSVL.Lib.System
import Mathlib.Logic.Function.Basic
import Mathlib.Tactic.Simps.Basic

namespace Msvl.Turn

open Msvl.Trans

/-- `pthread_t`; 0 is no thread. -/
abbrev Tid := Nat

/-! ## Where the threads stand -/

inductive MainPc
  /-- outside a parallel statement, `threadRoot == NULL` -/
  | idle
  /-- after `Init`, calling `MyCreateThread` -/
  | statement
  /-- in `MyWaitForObject`, before `turn = manager` -/
  | passTurn
  /-- in `pthread_join(manager, NULL)` -/
  | join
  deriving DecidableEq, Repr

inductive ManagerPc
  | absent
  /-- the initial loop of `ManagerThread` -/
  | gate
  /-- anywhere in `ManagerThread` outside a hand-over -/
  | running
  /-- `while(!this->isInit)` -/
  | spinIsInit (w : Tid)
  | lock (w : Tid)
  /-- mutex held, before `turn = this->thread` -/
  | setTurn (w : Tid)
  | unlock (w : Tid)
  | signal (w : Tid)
  /-- reading `turn` in `while(turn != manager)` -/
  | spinTurn (w : Tid)
  /-- in the body of that loop, before `isExit()` -/
  | isExit (w : Tid)
  /-- the thread is gone, before `turn = manager` -/
  | regain (w : Tid)
  | ended
  deriving DecidableEq, Repr

inductive WorkerPc
  | absent
  /-- `MyPauseThreadInit`: looking its node up -/
  | lookup
  | setIsInit
  | lockInit
  /-- mutex held, reading `turn` in `while(turn != tempID)` -/
  | test
  /-- mutex held, the test failed, before `pthread_cond_wait` -/
  | wait
  /-- in `pthread_cond_wait`, mutex given up -/
  | blocked
  /-- woken up, before taking the mutex again -/
  | woken
  /-- the loop is left, before `pthread_mutex_unlock` -/
  | unlock
  /-- in its own code -/
  | running
  /-- in `MyPauseThread`, before `pthread_mutex_lock` -/
  | lockPause
  /-- mutex held, before `turn = manager` -/
  | passTurn
  | exited
  deriving DecidableEq, Repr

inductive Owner
  | manager
  | worker
  deriving DecidableEq, Repr

/-- The globals, and for each thread id its place and the fields of its node. -/
structure State where
  main : MainPc
  mgr : ManagerPc
  manager : Tid
  turn : Tid
  worker : Tid → WorkerPc
  /-- the id is a key of `threadIDToNode` -/
  registered : Tid → Bool
  isInit : Tid → Bool
  mutex : Tid → Option Owner

namespace State

@[simps -fullyApplied]
def setWorker (s : State) (w : Tid) (pc : WorkerPc) : State :=
  { s with worker := Function.update s.worker w pc }

@[simps -fullyApplied]
def setMutex (s : State) (w : Tid) (o : Option Owner) : State :=
  { s with mutex := Function.update s.mutex w o }

/-- What `pthread_create` can return: not 0, and not the id of a thread that is not joined. -/
def Fresh (s : State) (w : Tid) : Prop := w ≠ 0 ∧ w ≠ s.manager ∧ s.worker w = .absent

instance (s : State) (w : Tid) : Decidable (s.Fresh w) :=
  inferInstanceAs (Decidable (_ ∧ _ ∧ _))

end State

/-! ## Steps -/

inductive Action
  -- main thread
  | init (m : Tid)
  | create (w : Tid)
  | waitForObject
  | mainPassTurn
  | joined
  -- the node of a created thread is put into the map by its creator
  | register (w : Tid)
  -- manager
  | leaveGate
  | excute (w : Tid)
  | seenInit (w : Tid)
  | mgrLock (w : Tid)
  | giveTurn (w : Tid)
  | mgrUnlock (w : Tid)
  | mgrSignal (w : Tid)
  | turnBack (w : Tid)
  | turnAway (w : Tid)
  | notExit (w : Tid)
  | isExit (w : Tid)
  | regain (w : Tid)
  | delete (w : Tid)
  | finish
  -- workers
  | found (w : Tid)
  | markInit (w : Tid)
  | lockInit (w : Tid)
  | testTrue (w : Tid)
  | testFalse (w : Tid)
  | condWait (w : Tid)
  | spurious (w : Tid)
  | relock (w : Tid)
  | leaveLoop (w : Tid)
  | spawn (c : Tid) (w : Tid)
  | pause (w : Tid)
  | lockPause (w : Tid)
  | passTurn (w : Tid)
  | exit (w : Tid)
  deriving DecidableEq, Repr

/-- When a thread can take the step. -/
def Action.Enabled (s : State) : Action → Prop
  | .init m => s.main = .idle ∧ s.Fresh m
  | .create w => s.main = .statement ∧ s.Fresh w
  | .waitForObject => s.main = .statement
  | .mainPassTurn => s.main = .passTurn
  | .joined => s.main = .join ∧ s.mgr = .ended
  | .register w => s.worker w ≠ .absent ∧ s.registered w = false
  | .leaveGate => s.mgr = .gate ∧ s.turn = s.manager
  -- `if (isExit() || *pFalse || len) return;` stays in `running`
  | .excute w => s.mgr = .running ∧ s.registered w = true ∧ s.worker w ≠ .absent ∧
      s.worker w ≠ .exited
  | .seenInit w => s.mgr = .spinIsInit w ∧ s.isInit w = true
  | .mgrLock w => s.mgr = .lock w ∧ s.mutex w = none
  | .giveTurn w => s.mgr = .setTurn w
  | .mgrUnlock w => s.mgr = .unlock w
  | .mgrSignal w => s.mgr = .signal w
  | .turnBack w => s.mgr = .spinTurn w ∧ s.turn = s.manager
  | .turnAway w => s.mgr = .spinTurn w ∧ s.turn ≠ s.manager
  | .notExit w => s.mgr = .isExit w ∧ s.worker w ≠ .exited
  | .isExit w => s.mgr = .isExit w ∧ s.worker w = .exited
  | .regain w => s.mgr = .regain w
  -- `~Node` of a finished thread: its id is free again after `pthread_join`
  | .delete w => s.mgr = .running ∧ s.worker w = .exited
  | .finish => s.mgr = .running
  | .found w => s.worker w = .lookup ∧ s.registered w = true
  | .markInit w => s.worker w = .setIsInit
  | .lockInit w => s.worker w = .lockInit ∧ s.mutex w = none
  | .testTrue w => s.worker w = .test ∧ s.turn ≠ w
  | .testFalse w => s.worker w = .test ∧ s.turn = w
  | .condWait w => s.worker w = .wait
  | .spurious w => s.worker w = .blocked
  | .relock w => s.worker w = .woken ∧ s.mutex w = none
  | .leaveLoop w => s.worker w = .unlock
  | .spawn c w => s.worker c = .running ∧ s.Fresh w
  | .pause w => s.worker w = .running
  | .lockPause w => s.worker w = .lockPause ∧ s.mutex w = none
  | .passTurn w => s.worker w = .passTurn
  | .exit w => s.worker w = .running

instance (s : State) (a : Action) : Decidable (a.Enabled s) := by
  cases a <;> dsimp only [Action.Enabled] <;> infer_instance

/-- What the step does. -/
def Action.effect (s : State) : Action → State
  | .init m => { s with main := .statement, manager := m, mgr := .gate }
  | .create w => s.setWorker w .lookup
  | .waitForObject => { s with main := .passTurn }
  | .mainPassTurn => { s with main := .join, turn := s.manager }
  | .joined => { s with main := .idle, manager := 0, mgr := .absent }
  | .register w => { s with registered := Function.update s.registered w true,
                            isInit := Function.update s.isInit w false }
  | .leaveGate => { s with mgr := .running }
  | .excute w => { s with mgr := .spinIsInit w }
  | .seenInit w => { s with mgr := .lock w }
  | .mgrLock w => { s.setMutex w (some .manager) with mgr := .setTurn w }
  | .giveTurn w => { s with mgr := .unlock w, turn := w }
  | .mgrUnlock w => { s.setMutex w none with mgr := .signal w }
  | .mgrSignal w =>
    { s.setWorker w (if s.worker w = .blocked then .woken else s.worker w) with mgr := .spinTurn w }
  | .turnBack _ => { s with mgr := .running }
  | .turnAway w => { s with mgr := .isExit w }
  | .notExit w => { s with mgr := .spinTurn w }
  | .isExit w => { s with mgr := .regain w }
  | .regain _ => { s with mgr := .running, turn := s.manager }
  | .delete w => { s.setWorker w .absent with registered := Function.update s.registered w false }
  | .finish => { s with mgr := .ended }
  | .found w => s.setWorker w .setIsInit
  | .markInit w => { s.setWorker w .lockInit with isInit := Function.update s.isInit w true }
  | .lockInit w => (s.setMutex w (some .worker)).setWorker w .test
  | .testTrue w => s.setWorker w .wait
  | .testFalse w => s.setWorker w .unlock
  | .condWait w => (s.setMutex w none).setWorker w .blocked
  | .spurious w => s.setWorker w .woken
  | .relock w => (s.setMutex w (some .worker)).setWorker w .test
  | .leaveLoop w => (s.setMutex w none).setWorker w .running
  | .spawn _ w => s.setWorker w .lookup
  | .pause w => s.setWorker w .lockPause
  | .lockPause w => (s.setMutex w (some .worker)).setWorker w .passTurn
  | .passTurn w => { s.setWorker w .test with turn := s.manager }
  | .exit w => s.setWorker w .exited

def Step (s : State) (a : Action) (t : State) : Prop := a.Enabled s ∧ t = a.effect s

/-- The program start: no thread but the main thread, `turn = 0`, `manager = 0`. -/
def start : State where
  main := .idle
  mgr := .absent
  manager := 0
  turn := 0
  worker := fun _ => .absent
  registered := fun _ => false
  isInit := fun _ => false
  mutex := fun _ => none

/-- All runs of the program: any number of parallel statements, one after the other. -/
def protocol : System State Action where
  init := fun s => s = start
  step := Step

end Msvl.Turn
