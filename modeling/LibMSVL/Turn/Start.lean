/-
  The start of a parallel statement.

  `ManagerThread` begins with `while(turn != manager)`: it has to wait until the main thread says
  `turn = manager` in `MyWaitForObject`.  When the main thread has joined the manager it sets
  `manager = 0`, but `turn` keeps the id of the manager that is gone, and pthreads may give that id
  to the next thread.

  1. `Obeys` — the manager is past its gate only if the main thread is in `MyWaitForObject`.
  2. `reused_manager_starts` — the code does not obey: the second manager gets the id of the first.
  3. `NotLeftInTurn` — the condition: no thread that is created before `MyWaitForObject` gets the
     id that `turn` holds.  A worker counts too: it would run at once, and its `MyPauseThread` lets
     the manager go.
  4. `Quiet` — the invariant of the phases before `MyWaitForObject`; `Inv` takes over after it,
     and hands back to `Quiet` when the manager is joined.
  5. `manager_waits` — under the condition every run obeys; `leaves_gate_of_reused` — and a step that
     breaks the condition can be continued to a start too early.
-/
import LibMSVL.Turn.Handoff

namespace Msvl.Turn

open Msvl.Trans

/-- The manager has left its initial loop. -/
def ManagerPc.Left : ManagerPc → Prop
  | .absent | .gate => False
  | _ => True

/-- The main thread has called `MyWaitForObject` in this statement. -/
def MainPc.Waits : MainPc → Prop
  | .passTurn | .join => True
  | .idle | .statement => False

/-- **The gate.**  The manager starts only when told to. -/
def Obeys (s : State) : Prop := s.mgr.Left → s.main.Waits

/-- Two statements without workers; `pthread_create` returns 7 for both managers.  After `init 7`
    the second manager leaves its loop, the main thread still being between its calls. -/
theorem reused_manager_starts : ¬ ∀ s, Reachable protocol s → Obeys s := by
  intro hall
  have h0 : Reachable protocol start := .start rfl
  have h1 : Reachable protocol _ := h0.next (a := .init 7) trivial ⟨by decide, rfl⟩
  have h2 : Reachable protocol _ := h1.next (a := .waitForObject) trivial ⟨by decide, rfl⟩
  have h3 : Reachable protocol _ := h2.next (a := .mainPassTurn) trivial ⟨by decide, rfl⟩
  have h4 : Reachable protocol _ := h3.next (a := .leaveGate) trivial ⟨by decide, rfl⟩
  have h5 : Reachable protocol _ := h4.next (a := .finish) trivial ⟨by decide, rfl⟩
  have h6 : Reachable protocol _ := h5.next (a := .joined) trivial ⟨by decide, rfl⟩
  have h7 : Reachable protocol _ := h6.next (a := .init 7) trivial ⟨by decide, rfl⟩
  have h8 : Reachable protocol _ := h7.next (a := .leaveGate) trivial ⟨by decide, rfl⟩
  exact hall _ h8 trivial

/-! ## The condition and the invariant -/

/-- The step creates no thread of the main thread's under the id that `turn` holds. -/
def NotLeftInTurn (s : State) (a : Action) : Prop :=
  ∀ w, a = .init w ∨ a = .create w → w ≠ s.turn

/-- **Before `MyWaitForObject`**: `turn` is nobody's id, so nobody leaves its loop. -/
structure Quiet (s : State) : Prop where
  main : s.main ≠ .join
  mgr : s.mgr = .absent ∨ s.mgr = .gate ∧ s.turn ≠ s.manager
  gate : s.main = .idle ∨ s.mgr = .gate
  inside : ∀ w, ¬ (s.worker w).Out
  free : ∀ w, s.worker w ≠ .absent → s.turn ≠ w
  mutexMgr : ∀ w, s.mutex w ≠ some .manager
  mutexWorker : ∀ w, s.mutex w = some .worker ↔ (s.worker w).Holds
  apart : s.worker s.manager = .absent
  zero : s.worker 0 = .absent

theorem quiet_start : Quiet start := by
  constructor <;> simp [start, WorkerPc.Out, WorkerPc.Holds]

/-- `turn = manager` in `MyWaitForObject`: a statement has begun. -/
theorem Quiet.begun {s : State} (h : Quiet s) (hp : s.main = .passTurn) :
    Begun (Action.mainPassTurn.effect s) where
  main := rfl
  mgr := h.gate.resolve_left (by rw [hp]; decide)
  turn := rfl
  inside := h.inside
  mutexMgr := h.mutexMgr
  mutexWorker := h.mutexWorker
  apart := h.apart

/-- The manager is joined: `turn` keeps its id, which is nobody's now. -/
theorem Inv.quiet {s : State} (h : Inv s) (hz : s.worker 0 = .absent) (he : s.mgr = .ended) :
    Quiet (Action.joined.effect s) := by
  have hpast : ∀ w, ¬ s.mgr.Past w := by
    intro w hp
    rw [he] at hp
    rcases hp with hp | hp | hp <;> cases hp
  have hturn : s.turn = s.manager := by
    refine h.given.resolve_right ?_
    rintro (hg | hg | hg)
    · rw [he] at hg
      cases hg
    · exact hpast _ hg
    · rw [he] at hg
      cases hg
  constructor
  · exact fun hm => by cases hm
  · exact Or.inl rfl
  · exact Or.inl rfl
  · intro w ho
    exact hpast w (h.out w ho).2
  · intro w hw heq
    apply hw
    show s.worker w = .absent
    rw [← heq, show (Action.joined.effect s).turn = s.turn from rfl, hturn]
    exact h.apart
  · intro w hm
    rcases (h.mutexMgr w).mp hm with hm | hm <;> rw [he] at hm <;> cases hm
  · exact h.mutexWorker
  · exact hz
  · exact hz

section

attribute [local grind =] WorkerPc.Out WorkerPc.Holds State.Fresh Function.update_apply
attribute [local simp] Action.Enabled Action.effect NotLeftInTurn

/-- Before `MyWaitForObject` the only actions are those of the main thread and of workers on
    their way into the waiting loop. -/
theorem quiet_step {s : State} {a : Action} (h : Quiet s) (hc : NotLeftInTurn s a)
    (he : a.Enabled s) (hj : (a.effect s).main ≠ .join) : Quiet (a.effect s) := by
  obtain ⟨hmain, hmgr, hgate, hin, hfree, hmm, hmw, hap, hz⟩ := h
  cases a
  all_goals simp at hc he hj
  -- nobody is running
  case leaveLoop w | spawn w v | pause w | lockPause w | passTurn w | exit w =>
    exact absurd (hin w) (by grind)
  case excute w | seenInit w | mgrLock w | giveTurn w | mgrUnlock w | mgrSignal w | turnBack w
    | turnAway w | notExit w | isExit w | regain w | delete w | finish | leaveGate =>
    exact absurd hmgr (by grind)
  all_goals constructor <;> simp <;> grind

theorem zero_step {s : State} {a : Action} (hz : s.worker 0 = .absent) (he : a.Enabled s) :
    (a.effect s).worker 0 = .absent := by
  cases a <;> simp at he ⊢ <;> grind

/-- The two actions that begin and end the wait of the main thread. -/
theorem main_join_step {s : State} {a : Action} (he : a.Enabled s) :
    (s.main ≠ .join → (a.effect s).main = .join → a = .mainPassTurn) ∧
    (s.main = .join → (a.effect s).main ≠ .join → a = .joined ∧ s.mgr = .ended) := by
  cases a <;> simp at he ⊢ <;> grind

end

/-- What holds in every state of a run under the condition: the invariant of the phase. -/
def Phase (s : State) : Prop := s.worker 0 = .absent ∧ (Quiet s ∨ Inv s)

theorem phase_step {s : State} {a : Action} (h : Phase s) (hc : NotLeftInTurn s a)
    (he : a.Enabled s) : Phase (a.effect s) := by
  obtain ⟨hz, hq | hi⟩ := h
  · refine ⟨zero_step hz he, ?_⟩
    by_cases hj : (a.effect s).main = .join
    · have ha : a = .mainPassTurn := (main_join_step he).1 hq.main hj
      subst ha
      exact Or.inr (hq.begun he).inv
    · exact Or.inl (quiet_step hq hc he hj)
  · refine ⟨zero_step hz he, ?_⟩
    by_cases hj : (a.effect s).main = .join
    · exact Or.inr (inv_step hi he hj)
    · obtain ⟨ha, hended⟩ := (main_join_step he).2 hi.main hj
      subst ha
      exact Or.inl (hi.quiet hz hended)

theorem phase_of_reachable {s : State} (h : ReachableBy protocol NotLeftInTurn s) : Phase s := by
  refine h.invariant (fun s (h0 : s = start) => ⟨h0 ▸ rfl, Or.inl (h0 ▸ quiet_start)⟩) ?_
  rintro s a t hph hc ⟨he, rfl⟩
  exact phase_step hph hc he

/-! ## The gate -/

/-- **The manager waits**: in every run in which no thread created before `MyWaitForObject` gets
    the id left in `turn`, the manager of a statement leaves its loop only after the main thread has
    called `MyWaitForObject` for that statement. -/
theorem manager_waits {s : State} (h : ReachableBy protocol NotLeftInTurn s) : Obeys s := by
  intro hleft
  rcases (phase_of_reachable h).2 with hq | hi
  · rcases hq.mgr with ha | ⟨hg, -⟩
    · rw [ha] at hleft
      exact absurd hleft id
    · rw [hg] at hleft
      exact absurd hleft id
  · rw [hi.main]
    trivial

/-- The second statement, manager 9 after manager 7: the manager has left its gate, the main thread
    is joining it. -/
theorem manager_waits_second : ∃ s, s.manager = 9 ∧ s.mgr.Left ∧ Obeys s := by
  have h0 : ReachableBy protocol NotLeftInTurn start := .start rfl
  -- the first statement, without a worker
  have h1 : ReachableBy protocol NotLeftInTurn _ :=
    h0.next (a := .init 7) (by simp [NotLeftInTurn, start]) ⟨by decide, rfl⟩
  have h2 : ReachableBy protocol NotLeftInTurn _ :=
    h1.next (a := .waitForObject) (by simp [NotLeftInTurn]) ⟨by decide, rfl⟩
  have h3 : ReachableBy protocol NotLeftInTurn _ :=
    h2.next (a := .mainPassTurn) (by simp [NotLeftInTurn]) ⟨by decide, rfl⟩
  have h4 : ReachableBy protocol NotLeftInTurn _ :=
    h3.next (a := .leaveGate) (by simp [NotLeftInTurn]) ⟨by decide, rfl⟩
  have h5 : ReachableBy protocol NotLeftInTurn _ :=
    h4.next (a := .finish) (by simp [NotLeftInTurn]) ⟨by decide, rfl⟩
  have h6 : ReachableBy protocol NotLeftInTurn _ :=
    h5.next (a := .joined) (by simp [NotLeftInTurn]) ⟨by decide, rfl⟩
  -- 7 is left in `turn`, and is not the id of the next manager
  have h7 : ReachableBy protocol NotLeftInTurn _ :=
    h6.next (a := .init 9) (by simp [NotLeftInTurn, Action.effect]) ⟨by decide, rfl⟩
  have h8 : ReachableBy protocol NotLeftInTurn _ :=
    h7.next (a := .waitForObject) (by simp [NotLeftInTurn]) ⟨by decide, rfl⟩
  have h9 : ReachableBy protocol NotLeftInTurn _ :=
    h8.next (a := .mainPassTurn) (by simp [NotLeftInTurn]) ⟨by decide, rfl⟩
  have h10 : ReachableBy protocol NotLeftInTurn _ :=
    h9.next (a := .leaveGate) (by simp [NotLeftInTurn]) ⟨by decide, rfl⟩
  exact ⟨_, rfl, show ManagerPc.Left .running from trivial, manager_waits h10⟩

/-! ## The condition is needed -/

/-- A manager under the id left in `turn` finds its gate open. -/
theorem leavesGate_of_init {s : State} (h : Reachable protocol s)
    (he : (Action.init s.turn).Enabled s) : ∃ t, Reachable protocol t ∧ ¬ Obeys t := by
  have h1 : Reachable protocol _ := h.next (a := .init s.turn) trivial ⟨he, rfl⟩
  have h2 : Reachable protocol _ := h1.next (a := .leaveGate) trivial ⟨⟨rfl, rfl⟩, rfl⟩
  exact ⟨_, h2, fun hob => hob trivial⟩

/-- A worker that runs before `MyWaitForObject` opens the gate in its first `MyPauseThread`. -/
theorem leavesGate_of_running {s : State} {w : Tid} (h : Reachable protocol s)
    (hmain : s.main = .statement) (hgate : s.mgr = .gate) (hpc : s.worker w = .running)
    (hfree : s.mutex w = none) : ∃ t, Reachable protocol t ∧ ¬ Obeys t := by
  have h1 : Reachable protocol _ := h.next (a := .pause w) trivial ⟨hpc, rfl⟩
  have h2 : Reachable protocol _ := h1.next (a := .lockPause w) trivial
    ⟨by simp [Action.Enabled, Action.effect, hfree], rfl⟩
  have h3 : Reachable protocol _ := h2.next (a := .passTurn w) trivial
    ⟨by simp [Action.Enabled, Action.effect], rfl⟩
  have h4 : Reachable protocol _ := h3.next (a := .leaveGate) trivial
    ⟨by simp [Action.Enabled, Action.effect, hgate], rfl⟩
  refine ⟨_, h4, fun hob => ?_⟩
  have hw := hob (by simp [Action.effect, ManagerPc.Left])
  simp [Action.effect, hmain, MainPc.Waits] at hw

/-- A worker that finds its id in `turn` runs at once. -/
theorem leavesGate_of_lookup {s : State} (h : Reachable protocol s) (hmain : s.main = .statement)
    (hgate : s.mgr = .gate) (hpc : s.worker s.turn = .lookup) (hreg : s.registered s.turn = true)
    (hfree : s.mutex s.turn = none) : ∃ t, Reachable protocol t ∧ ¬ Obeys t := by
  have h1 : Reachable protocol _ := h.next (a := .found s.turn) trivial ⟨⟨hpc, hreg⟩, rfl⟩
  have h2 : Reachable protocol _ := h1.next (a := .markInit s.turn) trivial
    ⟨by simp [Action.Enabled, Action.effect], rfl⟩
  have h3 : Reachable protocol _ := h2.next (a := .lockInit s.turn) trivial
    ⟨by simp [Action.Enabled, Action.effect, hfree], rfl⟩
  have h4 : Reachable protocol _ := h3.next (a := .testFalse s.turn) trivial
    ⟨by simp [Action.Enabled, Action.effect], rfl⟩
  have h5 : Reachable protocol _ := h4.next (a := .leaveLoop s.turn) trivial
    ⟨by simp [Action.Enabled, Action.effect], rfl⟩
  exact leavesGate_of_running h5 (w := s.turn) (by simp [Action.effect, hmain])
    (by simp [Action.effect, hgate]) (by simp [Action.effect]) (by simp [Action.effect])

theorem leavesGate_of_create {s : State} (h : Reachable protocol s) (hq : Quiet s)
    (he : (Action.create s.turn).Enabled s) : ∃ t, Reachable protocol t ∧ ¬ Obeys t := by
  obtain ⟨hmain, -, -, habsent⟩ := id he
  have hgate : s.mgr = .gate := hq.gate.resolve_left (by rw [hmain]; decide)
  have hfree : s.mutex s.turn = none := by
    cases hm : s.mutex s.turn with
    | none => rfl
    | some o =>
      cases o with
      | manager => exact absurd hm (hq.mutexMgr _)
      | worker =>
        have hh := (hq.mutexWorker _).mp hm
        rw [habsent] at hh
        exact absurd hh id
  have h1 : Reachable protocol _ := h.next (a := .create s.turn) trivial ⟨he, rfl⟩
  by_cases hreg : s.registered s.turn = true
  · exact leavesGate_of_lookup h1 hmain hgate (by simp [Action.effect]) hreg hfree
  · have h2 : Reachable protocol _ := h1.next (a := .register s.turn) trivial
      ⟨by simp [Action.Enabled, Action.effect, hreg], rfl⟩
    exact leavesGate_of_lookup h2 hmain hgate (by simp [Action.effect]) (by simp [Action.effect]) hfree

/-- **The condition is exact**: the first step of a run that breaks it can be continued to a
    statement whose manager starts too early. -/
theorem notLeftInTurn_needed {s : State} {a : Action} (h : ReachableBy protocol NotLeftInTurn s)
    (he : a.Enabled s) (hn : ¬ NotLeftInTurn s a) : ∃ t, Reachable protocol t ∧ ¬ Obeys t := by
  have hr : Reachable protocol s := h.mono (fun _ _ _ => trivial)
  simp only [NotLeftInTurn, not_forall, not_not] at hn
  obtain ⟨w, ha, rfl⟩ := hn
  rcases ha with rfl | rfl
  · exact leavesGate_of_init hr he
  · rcases (phase_of_reachable h).2 with hq | hi
    · exact leavesGate_of_create hr hq he
    · have hmain : s.main = .statement := he.1
      rw [hi.main] at hmain
      cases hmain

end Msvl.Turn
