/-
  The turn protocol of the C port, msvl.c and node.c.

  The port has the same threads, the same `g_turn_id` and the same waiting loops as function.cpp,
  with one line more: `MyPauseThreadInit` executes `g_turn_id = g_manager_id` before its loop, as
  `MyPauseThread` does.  There the line passes the turn back; a thread that only starts has no turn
  to pass.

  1. `State` — the state of `Turn/Defs` and, for each worker, whether it stands before that line
     (its mutex taken, its place otherwise `test`, the head of the loop).  `Action` — the steps of
     function.cpp and the line itself, `initPass`.
  2. `manager_resumes_early` — a worker that runs creates another, which starts: manager and worker
     run at once.
  3. `NobodyOut` — the condition: `g_turn_id = g_manager_id` is executed in `MyPauseThreadInit` (or
     by the main thread in `MyWaitForObject`) only while no worker is out of its loop.
  4. `Inv` — the invariant over whole runs of the program, before and after `MyWaitForObject`: a
     worker out of its loop has the turn and the manager waits for it (`out`); before the first
     write of a statement `turn` may be stale, but is the id of no worker past its own (`stale`).
  5. `exclusion` — one at a time under the condition; `nobodyOut_needed` — and a step that breaks it
     can be continued to two at once.
-/
import LibMSVL.Turn.Handoff

namespace Msvl.Turn.Port

open Msvl.Trans

/-! ## The protocol -/

structure State where
  base : Turn.State
  /-- in `MyPauseThreadInit`, mutex held, before `g_turn_id = g_manager_id` -/
  entry : Tid → Bool

inductive Action
  /-- a step that function.cpp has too -/
  | common (a : Turn.Action)
  /-- `g_turn_id = g_manager_id` in `MyPauseThreadInit` -/
  | initPass (w : Tid)
  deriving DecidableEq, Repr

/-- The loop is entered after the write. -/
def Action.Enabled (s : State) : Action → Prop
  | .common (.testTrue w) => (Turn.Action.testTrue w).Enabled s.base ∧ s.entry w = false
  | .common (.testFalse w) => (Turn.Action.testFalse w).Enabled s.base ∧ s.entry w = false
  | .common a => a.Enabled s.base
  | .initPass w => s.entry w = true

instance (s : State) (a : Action) : Decidable (a.Enabled s) := by
  unfold Action.Enabled
  split <;> infer_instance

def Action.effect (s : State) : Action → State
  | .common (.lockInit w) =>
    { base := (Turn.Action.lockInit w).effect s.base, entry := Function.update s.entry w true }
  | .common a => { s with base := a.effect s.base }
  | .initPass w =>
    { base := { s.base with turn := s.base.manager }, entry := Function.update s.entry w false }

/-- The program start. -/
def start : State := { base := Turn.start, entry := fun _ => false }

/-- All runs of the program. -/
def protocol : System State Action where
  init := fun s => s = start
  step := fun s a t => a.Enabled s ∧ t = a.effect s

/-- One at a time, main thread apart. -/
def OneAtATime (s : State) : Prop := ∀ p q, Runs s.base p → Runs s.base q → p = q

/-- One step of a run. -/
theorem go {C : State → Action → Prop} {s : State} (h : ReachableBy protocol C s) (a : Action)
    (hc : C s a) (he : a.Enabled s) : ReachableBy protocol C (a.effect s) := h.next hc ⟨he, rfl⟩

/-- Manager 7 hands over to worker 2, which creates worker 3; worker 3 starts while 2 is running,
    and the manager leaves `while(g_turn_id != g_manager_id)`. -/
theorem manager_resumes_early :
    ∃ s, Reachable protocol s ∧ Runs s.base .manager ∧ Runs s.base (.worker 2) ∧ ¬ OneAtATime s := by
  have h0 : Reachable protocol start := .start rfl
  have h1 := go h0 (.common (.init 7)) trivial (by decide)
  have h2 := go h1 (.common (.create 2)) trivial (by decide)
  have h3 := go h2 (.common (.register 2)) trivial (by decide)
  have h4 := go h3 (.common .waitForObject) trivial (by decide)
  have h5 := go h4 (.common .mainPassTurn) trivial (by decide)
  have h6 := go h5 (.common .leaveGate) trivial (by decide)
  -- worker 2 enters and waits for its turn
  have h7 := go h6 (.common (.found 2)) trivial (by decide)
  have h8 := go h7 (.common (.markInit 2)) trivial (by decide)
  have h9 := go h8 (.common (.lockInit 2)) trivial (by decide)
  have h10 := go h9 (.initPass 2) trivial (by decide)
  have h11 := go h10 (.common (.testTrue 2)) trivial (by decide)
  have h12 := go h11 (.common (.condWait 2)) trivial (by decide)
  -- the manager gives it the turn
  have h13 := go h12 (.common (.excute 2)) trivial (by decide)
  have h14 := go h13 (.common (.seenInit 2)) trivial (by decide)
  have h15 := go h14 (.common (.mgrLock 2)) trivial (by decide)
  have h16 := go h15 (.common (.giveTurn 2)) trivial (by decide)
  have h17 := go h16 (.common (.mgrUnlock 2)) trivial (by decide)
  have h18 := go h17 (.common (.mgrSignal 2)) trivial (by decide)
  have h19 := go h18 (.common (.relock 2)) trivial (by decide)
  have h20 := go h19 (.common (.testFalse 2)) trivial (by decide)
  have h21 := go h20 (.common (.leaveLoop 2)) trivial (by decide)
  -- worker 3 starts while worker 2 runs
  have h22 := go h21 (.common (.spawn 2 3)) trivial (by decide)
  have h23 := go h22 (.common (.register 3)) trivial (by decide)
  have h24 := go h23 (.common (.found 3)) trivial (by decide)
  have h25 := go h24 (.common (.markInit 3)) trivial (by decide)
  have h26 := go h25 (.common (.lockInit 3)) trivial (by decide)
  have h27 := go h26 (.initPass 3) trivial (by decide)
  have h28 := go h27 (.common (.turnBack 2)) trivial (by decide)
  exact ⟨_, h28, Or.inl rfl, trivial, fun hone =>
    nomatch hone .manager (.worker 2) (Or.inl rfl) trivial⟩

/-! ## The condition and the invariant -/

/-- A write of `g_turn_id = g_manager_id` by a thread that has not got the turn. -/
def Action.Seizes : Action → Prop
  | .initPass _ | .common .mainPassTurn => True
  | _ => False

/-- The step seizes the turn only while no worker is out of its waiting loop. -/
def NobodyOut (s : State) (a : Action) : Prop := a.Seizes → ∀ w, ¬ (s.base.worker w).Out

/-- Before its write in `MyPauseThreadInit`, or gone. -/
def WorkerPc.Early : WorkerPc → Prop
  | .absent | .lookup | .setIsInit | .lockInit | .exited => True
  | _ => False

/-- **The invariant of a run.** -/
structure Inv (s : State) : Prop where
  mutexMgr : ∀ w, s.base.mutex w = some .manager ↔ s.base.mgr.HasMutex w
  mutexWorker : ∀ w, s.base.mutex w = some .worker ↔ (s.base.worker w).Holds
  out : ∀ w, (s.base.worker w).Out → s.base.turn = w ∧ s.base.mgr.Past w
  given : s.base.turn = s.base.manager ∨ s.base.mgr.Given s.base.turn ∨
    s.base.mgr = .absent ∨ s.base.mgr = .gate
  stale : s.base.mgr = .absent ∨ s.base.mgr = .gate →
    ∀ w, s.base.turn = w → WorkerPc.Early (s.base.worker w) ∨ s.entry w = true
  wait : ∀ w, s.base.worker w = .wait → s.base.turn ≠ w
  regain : ∀ w, s.base.mgr = .regain w → s.base.worker w = .exited
  apart : s.base.worker s.base.manager = .absent
  zero : s.base.worker 0 = .absent
  present : ∀ w, s.base.mgr.target = some w → s.base.worker w ≠ .absent
  entry : ∀ w, s.entry w = true → s.base.worker w = .test
  idle : s.base.main = .idle → s.base.mgr = .absent

theorem inv_start : Inv start := by
  constructor <;>
    simp [start, Turn.start, ManagerPc.HasMutex, ManagerPc.target, WorkerPc.Holds, WorkerPc.Out,
      WorkerPc.Early]

attribute [local grind =] ManagerPc.HasMutex ManagerPc.Past ManagerPc.Given ManagerPc.target
  WorkerPc.Out WorkerPc.Holds WorkerPc.Early State.Fresh Function.update_apply
attribute [local simp] Action.Enabled Action.effect Turn.Action.Enabled Turn.Action.effect

section

variable {s : State} {a : Action} (h : Inv s) (hc : NobodyOut s a) (he : a.Enabled s)

include h

/-- A worker that reads its own id in `g_turn_id` has been given the turn. -/
theorem past_of_turn {w : Tid} (hpc : s.base.worker w = .test) (hin : s.entry w = false)
    (ht : s.base.turn = w) : s.base.mgr.Past w := by
  have hne : s.base.turn ≠ s.base.manager := by
    intro heq
    have hab := h.apart
    rw [← heq, ht, hpc] at hab
    cases hab
  have hfresh : ¬ (s.base.mgr = .absent ∨ s.base.mgr = .gate) := by
    intro hg
    rcases h.stale hg w ht with he | he
    · rw [hpc] at he
      exact he
    · rw [hin] at he
      cases he
  have hg := (h.given.resolve_left hne).resolve_right hfresh
  rw [ht] at hg
  rcases hg with hu | hp | hr
  · -- `unlock w`: the manager would hold the mutex that `w` holds
    have hm : s.base.mutex w = some .manager := (h.mutexMgr w).mpr (Or.inr hu)
    have hw : s.base.mutex w = some .worker := (h.mutexWorker w).mpr (by rw [hpc]; trivial)
    rw [hm] at hw
    cases hw
  · exact hp
  · have hx := h.regain w hr
    rw [hpc] at hx
    cases hx

include he

theorem mutex_step (w : Tid) :
    ((a.effect s).base.mutex w = some .manager ↔ (a.effect s).base.mgr.HasMutex w) ∧
    ((a.effect s).base.mutex w = some .worker ↔ ((a.effect s).base.worker w).Holds) := by
  have hmm := h.mutexMgr w
  have hmw := h.mutexWorker w
  have hidle := h.idle
  cases a with
  | initPass v => exact ⟨hmm, hmw⟩
  | common a => cases a <;> simp at he ⊢ <;> grind

include hc

theorem out_step (w : Tid) (ho : ((a.effect s).base.worker w).Out) :
    (a.effect s).base.turn = w ∧ (a.effect s).base.mgr.Past w := by
  have hold := h.out
  have hap := h.apart
  have hidle := h.idle
  cases a with
  | initPass v => exact absurd ho (hc trivial w)
  | common a =>
    cases a
    case testFalse v =>
      -- the one way out of the loop
      obtain ⟨⟨hpc, ht⟩, hin⟩ := he
      have hpast := past_of_turn h hpc hin ht
      by_cases hv : w = v
      · subst hv
        exact ⟨ht, hpast⟩
      · simp [hv] at ho
        exact hold w ho
    case mainPassTurn => exact absurd ho (hc trivial w)
    all_goals (simp at he ho ⊢; grind)

omit hc in
theorem given_step :
    (a.effect s).base.turn = (a.effect s).base.manager ∨
      (a.effect s).base.mgr.Given (a.effect s).base.turn ∨
      (a.effect s).base.mgr = .absent ∨ (a.effect s).base.mgr = .gate := by
  have hg := h.given
  cases a with
  | initPass v => exact Or.inl rfl
  | common a => cases a <;> simp at he ⊢ <;> grind

omit hc in
theorem stale_step (hm : (a.effect s).base.mgr = .absent ∨ (a.effect s).base.mgr = .gate) (w : Tid)
    (ht : (a.effect s).base.turn = w) :
    WorkerPc.Early ((a.effect s).base.worker w) ∨ (a.effect s).entry w = true := by
  have hold := h.stale
  have hap := h.apart
  have hg := h.given
  have hent := h.entry
  have hidle := h.idle
  cases a with
  | initPass v =>
    simp at he hm ht ⊢
    grind
  | common a => cases a <;> simp at he hm ht ⊢ <;> grind

omit hc in
theorem wait_step (w : Tid) (hw : (a.effect s).base.worker w = .wait) :
    (a.effect s).base.turn ≠ w := by
  have hold := h.wait
  have hap := h.apart
  cases a with
  | initPass v =>
    simp at hw ⊢
    grind
  | common a =>
    cases a
    case giveTurn v =>
      -- `v` cannot stand between its test and `pthread_cond_wait`: the manager has the mutex
      simp at he hw ⊢
      intro hv
      subst hv
      have hm : s.base.mutex v = some .manager := (h.mutexMgr v).mpr (Or.inl he)
      have hwk : s.base.mutex v = some .worker := (h.mutexWorker v).mpr (by rw [hw]; trivial)
      rw [hm] at hwk
      cases hwk
    all_goals (simp at he hw ⊢; grind)

omit hc in
theorem regain_step (w : Tid) (hr : (a.effect s).base.mgr = .regain w) :
    (a.effect s).base.worker w = .exited := by
  have hold := h.regain
  cases a with
  | initPass v => exact hold w hr
  | common a => cases a <;> simp at he hr ⊢ <;> grind

omit hc in
theorem apart_step :
    (a.effect s).base.worker (a.effect s).base.manager = .absent ∧
      (a.effect s).base.worker 0 = .absent := by
  have hap := h.apart
  have hz := h.zero
  cases a with
  | initPass v => exact ⟨hap, hz⟩
  | common a => cases a <;> simp at he ⊢ <;> grind

omit hc in
theorem target_step (w : Tid) (hw : (a.effect s).base.mgr.target = some w) :
    (a.effect s).base.worker w ≠ .absent := by
  have hold := h.present
  cases a with
  | initPass v => exact hold w hw
  | common a => cases a <;> simp at he hw ⊢ <;> grind

omit hc in
theorem entry_step (w : Tid) (hw : (a.effect s).entry w = true) :
    (a.effect s).base.worker w = .test := by
  have hold := h.entry
  cases a with
  | initPass v =>
    simp at hw ⊢
    grind
  | common a => cases a <;> simp at he hw ⊢ <;> grind

omit hc in
theorem idle_step (hi : (a.effect s).base.main = .idle) : (a.effect s).base.mgr = .absent := by
  have hold := h.idle
  cases a with
  | initPass v => exact hold hi
  | common a => cases a <;> simp at he hi ⊢ <;> grind

/-- **One step** under the condition. -/
theorem inv_step : Inv (a.effect s) where
  mutexMgr w := (mutex_step h he w).1
  mutexWorker w := (mutex_step h he w).2
  out := out_step h hc he
  given := given_step h he
  stale := stale_step h he
  wait := wait_step h he
  regain := regain_step h he
  apart := (apart_step h he).1
  zero := (apart_step h he).2
  present := target_step h he
  entry := entry_step h he
  idle := idle_step h he

end

theorem inv_of_reachable {s : State} (h : ReachableBy protocol NobodyOut s) : Inv s := by
  refine h.invariant (fun s (h0 : s = start) => h0 ▸ inv_start) ?_
  rintro s a t hinv hc ⟨he, rfl⟩
  exact inv_step hinv hc he

/-! ## One at a time -/

theorem Inv.oneAtATime {s : State} (h : Inv s) : OneAtATime s := by
  intro p q hp hq
  cases p with
  | manager =>
    cases q with
    | manager => rfl
    | worker w => exact absurd (h.out w hq).2 (not_past_of_runs hp w)
  | worker v =>
    cases q with
    | manager => exact absurd (h.out v hp).2 (not_past_of_runs hq v)
    | worker w => rw [← (h.out v hp).1, ← (h.out w hq).1]

/-- **Exclusion in the port**: in every run in which no thread that has not got the turn writes
    `g_turn_id = g_manager_id` while a worker is out of its loop, at most one of the manager and
    the workers runs. -/
theorem exclusion {s : State} (h : ReachableBy protocol NobodyOut s) : OneAtATime s :=
  (inv_of_reachable h).oneAtATime

/-- Manager 7 before the first hand-over, worker 2 at the head of its loop. -/
theorem exclusion_first : ∃ s, Runs s.base .manager ∧ s.base.worker 2 = .test ∧ OneAtATime s := by
  have hout : ∀ w, ¬ (Turn.start.worker w).Out := fun w => id
  have h0 : ReachableBy protocol NobodyOut start := .start rfl
  have h1 := go h0 (.common (.init 7)) (fun _ => hout) (by decide)
  have h2 := go h1 (.common (.create 2)) nofun (by decide)
  have h3 := go h2 (.common (.register 2)) nofun (by decide)
  have h4 := go h3 (.common (.found 2)) nofun (by decide)
  have h5 := go h4 (.common (.markInit 2)) nofun (by decide)
  have h6 := go h5 (.common (.lockInit 2)) nofun (by decide)
  have hlone : ∀ w, ¬ (Function.update Turn.start.worker 2 WorkerPc.test w).Out := by
    intro w
    by_cases hw : w = 2 <;> simp [hw, Turn.start, WorkerPc.Out]
  have h7 := go h6 (.initPass 2) (fun _ w => by simpa [start] using hlone w) (by decide)
  have h8 := go h7 (.common .leaveGate) nofun (by decide)
  exact ⟨_, Or.inl rfl, rfl, exclusion h8⟩

/-! ## The condition is needed -/

/-- The manager finds its own id in `g_turn_id` while it waits for a worker that is running. -/
theorem resumes_of_turn {s : State} {w : Tid} (h : Reachable protocol s)
    (ht : s.base.turn = s.base.manager) (ho : (s.base.worker w).Out) (hp : s.base.mgr.Past w) :
    ∃ t, Reachable protocol t ∧ ¬ OneAtATime t := by
  have hspin : ∀ {s : State}, Reachable protocol s → s.base.turn = s.base.manager →
      (s.base.worker w).Out → s.base.mgr = .spinTurn w →
      ∃ t, Reachable protocol t ∧ ¬ OneAtATime t := by
    intro s h ht ho hm
    exact ⟨_, go h (.common (.turnBack w)) trivial ⟨hm, ht⟩, fun hone =>
      nomatch hone .manager (.worker w) (Or.inl rfl) ho⟩
  rcases hp with hm | hm | hm
  · -- the signal reaches nobody: the worker is not blocked
    have hnb : s.base.worker w ≠ .blocked := by
      intro hb
      rw [hb] at ho
      exact ho
    have hsame : (s.base.setWorker w (if s.base.worker w = .blocked then .woken
        else s.base.worker w)).worker w = s.base.worker w := by
      simp [hnb]
    refine hspin (go h (.common (.mgrSignal w)) trivial hm) ht ?_ rfl
    show ((s.base.setWorker w _).worker w).Out
    rw [hsame]
    exact ho
  · exact hspin h ht ho hm
  · have hne : s.base.worker w ≠ .exited := by
      intro hx
      rw [hx] at ho
      exact ho
    exact hspin (go h (.common (.notExit w)) trivial ⟨hm, hne⟩) ht ho rfl

/-- **The condition is exact**: the first step of a run that breaks it can be continued to a state
    in which manager and worker run at once. -/
theorem nobodyOut_needed {s : State} {a : Action} (h : ReachableBy protocol NobodyOut s)
    (he : a.Enabled s) (hn : ¬ NobodyOut s a) : ∃ t, Reachable protocol t ∧ ¬ OneAtATime t := by
  have hr : Reachable protocol s := h.mono (fun _ _ _ => trivial)
  simp only [NobodyOut, not_forall, not_not] at hn
  obtain ⟨hseize, w, ho⟩ := hn
  have hp := ((inv_of_reachable h).out w ho).2
  have hnext := go hr a trivial he
  cases a with
  | initPass v => exact resumes_of_turn hnext rfl ho hp
  | common a =>
    cases a
    case mainPassTurn => exact resumes_of_turn hnext rfl ho hp
    all_goals exact hseize.elim

end Msvl.Turn.Port
