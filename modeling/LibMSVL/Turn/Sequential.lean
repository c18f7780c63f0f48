/-
  The threads as one sequential program.

  Manager and workers are threads, but a hand-over is meant as a call: the manager resumes a worker
  and goes on when the worker has given the turn back.  Here this is stated as a refinement over
  whole runs of the program, statement after statement, the main thread included.

  1. `Token`, `Event`, `coroutines` — the purpose: one token, which each event takes from one place
     to the next.  A call of `w` is `resume w`, `enter w`, any number of `spawn w`, then `pass w` or
     `exit w`, and `back w`.
  2. `token` — where the token is in a state of the protocol; `Action.event` — what a step shows.
     Waiting, locking and signalling shows nothing.
  3. `Alive` — the thread that the manager is about to resume has not finished: what `Phase` does not
     tell and the refinement needs.
  4. `refines_coroutines`, the refinement mapping; `run_coroutines`, for runs.
-/
import LibMSVL.Lib.Refine
import LibMSVL.Turn.Start

namespace Msvl.Turn

open Msvl.Trans

/-! ## One token -/

inductive Token
  | main
  | manager
  /-- given to `w`, which has not noticed -/
  | handed (w : Tid)
  | worker (w : Tid)
  /-- given back by `w`, or left by it, and the manager has not noticed -/
  | returned (w : Tid)
  deriving DecidableEq, Repr

inductive Event
  /-- a step of the main thread between statements and in its calls of `MyCreateThread` -/
  | main
  /-- `turn = manager` in `MyWaitForObject` -/
  | begin
  /-- a step of `ManagerThread` outside a hand-over -/
  | manager
  | resume (w : Tid)
  | enter (w : Tid)
  | spawn (w c : Tid)
  | pass (w : Tid)
  | exit (w : Tid)
  | back (w : Tid)
  /-- the main thread has joined the manager -/
  | joined
  deriving DecidableEq, Repr

/-- Who has the token before the event. -/
def Event.source : Event → Token
  | .main | .begin => .main
  | .manager | .resume _ | .joined => .manager
  | .enter w => .handed w
  | .spawn w _ | .pass w | .exit w => .worker w
  | .back w => .returned w

/-- And who has it afterwards. -/
def Event.target : Event → Token
  | .main | .joined => .main
  | .begin | .manager | .back _ => .manager
  | .resume w => .handed w
  | .enter w | .spawn w _ => .worker w
  | .pass w | .exit w => .returned w

/-- The program as it would be with calls in place of threads. -/
def coroutines : System Token Event where
  init := fun x => x = .main
  step := fun x e y => x = e.source ∧ y = e.target

/-- What has happened since the manager resumed the thread it waits for. -/
def Calling (es : List Event) : Token → Prop
  | .main | .manager => True
  | .handed w => ∃ before, es = before ++ [.resume w]
  | .worker w => ∃ before, ∃ cs : List Tid, es = before ++ .resume w :: .enter w :: cs.map (.spawn w)
  | .returned w => ∃ before last, ∃ cs : List Tid,
      es = before ++ .resume w :: .enter w :: (cs.map (.spawn w) ++ [last]) ∧
      (last = .pass w ∨ last = .exit w)

/-- A call is one thread's: it enters, creates threads, and passes the turn or exits. -/
theorem calling_of_path {es : List Event} {x : Token} (h : Path coroutines always es x) :
    Calling es x := by
  induction h with
  | start h0 =>
    cases h0
    trivial
  | @next x y e es _ _ hs ih =>
    obtain ⟨rfl, rfl⟩ := hs
    cases e with
    | main | begin | manager | back w | joined => trivial
    | resume w => exact ⟨es, rfl⟩
    | enter w =>
      obtain ⟨before, rfl⟩ := ih
      exact ⟨before, [], by simp⟩
    | spawn w c =>
      obtain ⟨before, cs, rfl⟩ := ih
      exact ⟨before, cs ++ [c], by simp⟩
    | pass w =>
      obtain ⟨before, cs, rfl⟩ := ih
      exact ⟨before, _, cs, by simp, Or.inl rfl⟩
    | exit w =>
      obtain ⟨before, cs, rfl⟩ := ih
      exact ⟨before, _, cs, by simp, Or.inr rfl⟩

/-! ## What the threads show -/

instance (pc : WorkerPc) : Decidable pc.Out := by
  cases pc <;> dsimp only [WorkerPc.Out] <;> infer_instance

/-- Where the token is while the manager waits for `w`. -/
def State.tokenOf (s : State) (w : Tid) : Token :=
  if s.worker w = .exited ∨ s.turn = s.manager then .returned w
  else if (s.worker w).Out then .worker w
  else .handed w

/-- Where the token is. -/
def State.token (s : State) : Token :=
  if s.main = .join then
    match s.mgr with
    | .unlock w | .signal w | .spinTurn w | .isExit w => s.tokenOf w
    | .regain w => .returned w
    | .absent | .gate | .running | .spinIsInit _ | .lock _ | .setTurn _ | .ended => .manager
  else .main

theorem token_of_past {s : State} {w : Tid} (hm : s.main = .join) (hp : s.mgr.Past w) :
    s.token = s.tokenOf w := by
  unfold State.token
  rw [if_pos hm]
  rcases hp with hp | hp | hp <;> rw [hp]

/-- The token stays while nobody passes it, and nobody leaves its loop, enters it or exits. -/
theorem token_congr {s t : State} (hmain : t.main = s.main) (hmgr : t.mgr = s.mgr)
    (hmanager : t.manager = s.manager) (hturn : t.turn = s.turn)
    (hworker : ∀ w, s.mgr.target = some w →
      (t.worker w = .exited ↔ s.worker w = .exited) ∧ ((t.worker w).Out ↔ (s.worker w).Out)) :
    t.token = s.token := by
  unfold State.token
  rw [hmain, hmgr]
  have htoken : ∀ w, s.mgr.target = some w → t.tokenOf w = s.tokenOf w := by
    intro w hw
    simp only [State.tokenOf, hmanager, hturn, hworker w hw]
  split
  · split
    all_goals first | rfl | (rename_i w hm; exact htoken w (by rw [hm]; rfl))
  · rfl

/-- What the step shows. -/
def Action.event : Action → Option Event
  | .init _ | .create _ | .waitForObject => some .main
  | .mainPassTurn => some .begin
  | .joined => some .joined
  | .leaveGate | .excute _ | .delete _ | .finish => some .manager
  | .giveTurn w => some (.resume w)
  | .turnBack w | .regain w => some (.back w)
  | .testFalse w => some (.enter w)
  | .spawn c w => some (.spawn c w)
  | .passTurn w => some (.pass w)
  | .exit w => some (.exit w)
  | _ => none

/-! ## The refinement -/

/-- The manager is about to resume a thread that has not finished. -/
def Alive (s : State) : Prop :=
  ∀ w, s.mgr = .spinIsInit w ∨ s.mgr = .lock w ∨ s.mgr = .setTurn w → s.worker w ≠ .exited

attribute [local grind =] ManagerPc.HasMutex ManagerPc.Past ManagerPc.Given ManagerPc.target
  WorkerPc.Out WorkerPc.Holds State.Fresh Function.update_apply
attribute [local simp] Action.Enabled Action.effect

/-- Only a thread out of its loop exits, and the manager is past the write of `turn` then. -/
theorem alive_step {s : State} {a : Action} (h : Inv s) (hal : Alive s) (he : a.Enabled s) :
    Alive (a.effect s) := by
  intro w hw
  have hold := hal w
  have hout := h.out w
  have hm := h.main
  cases a <;> simp at he hw ⊢ <;> grind

/-- Before `MyWaitForObject` the manager is at its gate. -/
theorem Quiet.alive {s : State} (h : Quiet s) : Alive s := by
  intro w hw
  rcases h.mgr with hm | ⟨hm, -⟩ <;> rcases hw with hw | hw | hw <;> rw [hm] at hw <;> cases hw

section Shows

attribute [local simp] Action.event Shows coroutines Event.source Event.target State.token
attribute [local grind =] State.tokenOf

/-- A step before `MyWaitForObject` is one of the main thread, or shows nothing. -/
theorem shows_of_quiet {s : State} {a : Action} (h : Quiet s) (he : a.Enabled s) :
    Shows coroutines s.token a.event (a.effect s).token := by
  obtain ⟨hmain, hmgr, hgate, hin, hfree, -, -, -, -⟩ := h
  cases a
  all_goals simp at he
  case leaveLoop w | spawn w v | pause w | lockPause w | passTurn w | exit w =>
    exact absurd (hin w) (by grind)
  case excute w | seenInit w | mgrLock w | giveTurn w | mgrUnlock w | mgrSignal w | turnBack w
    | turnAway w | notExit w | isExit w | regain w | delete w | finish | leaveGate =>
    exact absurd hmgr (by grind)
  all_goals (simp; grind)

/-- The four steps of a worker that show something: it is the one the manager waits for. -/
theorem shows_of_past {s t : State} {w : Tid} {e : Event} (hm : s.main = .join)
    (hp : s.mgr.Past w) (hmain : t.main = s.main) (hmgr : t.mgr = s.mgr)
    (hs : s.tokenOf w = e.source) (ht : t.tokenOf w = e.target) :
    Shows coroutines s.token (some e) t.token := by
  rw [token_of_past hm hp, token_of_past (hmain.trans hm) (hmgr ▸ hp)]
  exact ⟨hs, ht⟩

/-- A step of a statement takes the token from one place to the next, or leaves it. -/
theorem shows_of_inv {s : State} {a : Action} (h : Inv s) (hal : Alive s) (he : a.Enabled s) :
    Shows coroutines s.token a.event (a.effect s).token := by
  have hm := h.main
  have hout := h.out
  have hap := h.apart
  have hpresent := h.present
  cases a
  -- waiting, and the way to `MyPauseThread`
  case register w => exact token_congr (s := s) rfl rfl rfl rfl fun _ _ => ⟨Iff.rfl, Iff.rfl⟩
  case found w | markInit w | lockInit w | testTrue w | condWait w | spurious w
    | relock w | leaveLoop w | pause w | lockPause w =>
    refine token_congr (s := s) rfl rfl rfl rfl ?_
    simp at he ⊢
    grind
  case testFalse w =>
    have hp := past_of_turn h he.1 he.2
    have hne : w ≠ s.manager := by grind
    refine shows_of_past (w := w) hm hp rfl rfl ?_ ?_
    all_goals simp [State.tokenOf] at he ⊢; grind
  case spawn w c =>
    have hw := hout w (by rw [he.1]; trivial)
    refine shows_of_past (w := w) hm hw.2 rfl rfl ?_ ?_
    all_goals simp [State.tokenOf] at he ⊢; grind
  case passTurn w =>
    have hpc : s.worker w = .passTurn := he
    have hw := hout w (by rw [hpc]; trivial)
    refine shows_of_past (w := w) hm hw.2 rfl rfl ?_ ?_
    · simp [State.tokenOf]
      grind
    · simp [State.tokenOf]
  case exit w =>
    have hpc : s.worker w = .running := he
    have hw := hout w (by rw [hpc]; trivial)
    refine shows_of_past (w := w) hm hw.2 rfl rfl ?_ ?_
    · simp [State.tokenOf]
      grind
    · simp [State.tokenOf]
  case giveTurn w =>
    -- `w` waits: it has not finished, is in its loop, and is not the manager
    have hmgr : s.mgr = .setTurn w := he
    have hlive : s.worker w ≠ .exited := hal w (Or.inr (Or.inr hmgr))
    have hin : ¬ (s.worker w).Out := by
      intro ho
      have hp := (hout w ho).2
      rw [hmgr] at hp
      rcases hp with hp | hp | hp <;> cases hp
    have hne : w ≠ s.manager := by
      intro heq
      exact hpresent w (by rw [hmgr]; rfl) (heq ▸ hap)
    simp [hm, hmgr, State.tokenOf, hlive, hin, hne]
  all_goals simp [hm] at he ⊢
  all_goals grind

end Shows

/-- What a run under the condition keeps, the thread about to be resumed included. -/
def Live (s : State) : Prop := Phase s ∧ Alive s

/-- **The refinement mapping.** -/
theorem refines_coroutines : Refines protocol NotLeftInTurn coroutines Live State.token
    Action.event where
  init s h0 := by
    have heq : s = start := h0
    subst heq
    exact ⟨⟨⟨rfl, Or.inl quiet_start⟩, quiet_start.alive⟩, rfl⟩
  step := by
    rintro s a t ⟨hph, hal⟩ hc ⟨he, rfl⟩
    have hph' := phase_step hph hc he
    rcases hph.2 with hq | hi
    · refine ⟨⟨hph', ?_⟩, shows_of_quiet hq he⟩
      rcases hph'.2 with hq' | hi'
      · exact hq'.alive
      · have ha : a = .mainPassTurn := (main_join_step he).1 hq.main hi'.main
        subst ha
        exact hq.alive
    · exact ⟨⟨hph', alive_step hi hal he⟩, shows_of_inv hi hal he⟩

/-! ## Whole runs -/

/-- Who can be running: the main thread outside `pthread_join`, and the two parties of a hand-over. -/
inductive Thread
  | main
  | party (p : Party)
  deriving DecidableEq, Repr

/-- The thread is running its own code: what the manager does of a hand-over after its write of
    `turn`, and its write of `turn` for a thread that is gone, is the hand-over's. -/
def Thread.Runs (s : State) : Thread → Prop
  | .main => s.main ≠ .join
  | .party .manager =>
    s.mgr = .running ∨ ∃ w, s.mgr = .spinIsInit w ∨ s.mgr = .lock w ∨ s.mgr = .setTurn w
  | .party (.worker w) => (s.worker w).Out

/-- The place of the token that the thread needs to run. -/
def Thread.token : Thread → Token
  | .main => .main
  | .party .manager => .manager
  | .party (.worker w) => .worker w

/-- Who runs has the token. -/
theorem Phase.token_of_runs {s : State} (h : Phase s) {p : Thread} (hr : p.Runs s) :
    s.token = p.token := by
  obtain ⟨-, hq | hi⟩ := h
  · have htoken : s.token = .main := by
      unfold State.token
      rw [if_neg hq.main]
    cases p with
    | main => exact htoken
    | party p =>
      cases p with
      | manager =>
        rcases hq.mgr with hm | ⟨hm, -⟩ <;>
          (rcases hr with hr | ⟨w, hr | hr | hr⟩ <;> rw [hm] at hr <;> cases hr)
      | worker w => exact absurd hr (hq.inside w)
  · cases p with
    | main => exact absurd hi.main hr
    | party p =>
      cases p with
      | manager =>
        unfold State.token
        rw [if_pos hi.main]
        rcases hr with hr | ⟨w, hr | hr | hr⟩ <;> rw [hr] <;> rfl
      | worker w =>
        obtain ⟨hturn, hpast⟩ := hi.out w hr
        have ho : (s.worker w).Out := hr
        have hlive : s.worker w ≠ .exited := by
          intro hx
          rw [hx] at ho
          exact ho
        have hne : s.turn ≠ s.manager := by
          intro heq
          rw [← hturn, heq, hi.apart] at ho
          exact ho
        rw [token_of_past hi.main hpast, State.tokenOf, if_neg (by tauto), if_pos ho]
        rfl

/-- **One sequential program.**  In every run in which no thread created before `MyWaitForObject`
    gets the id left in `turn`, over any number of statements and for every interleaving, the calls,
    passes, exits and returns follow one another as in a program with one token: what happens between
    a hand-over and its return is one thread's.  Whoever runs, the main thread, the manager or a
    worker, has the token. -/
theorem run_coroutines {as : List Action} {s : State} (h : Path protocol NotLeftInTurn as s) :
    Path coroutines always (as.filterMap Action.event) s.token ∧
    Calling (as.filterMap Action.event) s.token ∧
    ∀ p : Thread, p.Runs s → s.token = p.token := by
  obtain ⟨hlive, hpath⟩ := refines_coroutines.path h
  exact ⟨hpath, calling_of_path hpath, fun p hr => hlive.1.token_of_runs hr⟩

/-- One more step. -/
theorem advance {as : List Action} {s : State} (h : Path protocol NotLeftInTurn as s) (a : Action)
    (hc : NotLeftInTurn s a) (he : a.Enabled s) :
    Path protocol NotLeftInTurn (as ++ [a]) (a.effect s) := h.next hc ⟨he, rfl⟩

/-- Manager 1 resumes worker 2, which finishes: 24 steps, and one call. -/
theorem run_coroutines_call :
    ∃ s, Path coroutines always [.main, .main, .main, .begin, .manager, .manager, .resume 2,
        .enter 2, .exit 2, .back 2] s.token ∧
      Calling [.main, .main, .main, .begin, .manager, .manager, .resume 2,
        .enter 2, .exit 2, .back 2] s.token ∧
      ∀ p : Thread, p.Runs s → s.token = p.token := by
  have h0 : Path protocol NotLeftInTurn [] start := .start rfl
  have h1 := advance h0 (.init 1) (by simp [NotLeftInTurn, start]) (by decide)
  have h2 := advance h1 (.create 2) (by simp [NotLeftInTurn, start, Action.effect]) (by decide)
  have h3 := advance h2 (.register 2) (by simp [NotLeftInTurn]) (by decide)
  have h4 := advance h3 .waitForObject (by simp [NotLeftInTurn]) (by decide)
  have h5 := advance h4 .mainPassTurn (by simp [NotLeftInTurn]) (by decide)
  have h6 := advance h5 .leaveGate (by simp [NotLeftInTurn]) (by decide)
  have h7 := advance h6 (.excute 2) (by simp [NotLeftInTurn]) (by decide)
  -- worker 2 enters, and blocks
  have h8 := advance h7 (.found 2) (by simp [NotLeftInTurn]) (by decide)
  have h9 := advance h8 (.markInit 2) (by simp [NotLeftInTurn]) (by decide)
  have h10 := advance h9 (.seenInit 2) (by simp [NotLeftInTurn]) (by decide)
  have h11 := advance h10 (.lockInit 2) (by simp [NotLeftInTurn]) (by decide)
  have h12 := advance h11 (.testTrue 2) (by simp [NotLeftInTurn]) (by decide)
  have h13 := advance h12 (.condWait 2) (by simp [NotLeftInTurn]) (by decide)
  -- the hand-over
  have h14 := advance h13 (.mgrLock 2) (by simp [NotLeftInTurn]) (by decide)
  have h15 := advance h14 (.giveTurn 2) (by simp [NotLeftInTurn]) (by decide)
  have h16 := advance h15 (.mgrUnlock 2) (by simp [NotLeftInTurn]) (by decide)
  have h17 := advance h16 (.mgrSignal 2) (by simp [NotLeftInTurn]) (by decide)
  have h18 := advance h17 (.relock 2) (by simp [NotLeftInTurn]) (by decide)
  have h19 := advance h18 (.testFalse 2) (by simp [NotLeftInTurn]) (by decide)
  have h20 := advance h19 (.leaveLoop 2) (by simp [NotLeftInTurn]) (by decide)
  have h21 := advance h20 (.exit 2) (by simp [NotLeftInTurn]) (by decide)
  -- the manager notices
  have h22 := advance h21 (.turnAway 2) (by simp [NotLeftInTurn]) (by decide)
  have h23 := advance h22 (.isExit 2) (by simp [NotLeftInTurn]) (by decide)
  have h24 := advance h23 (.regain 2) (by simp [NotLeftInTurn]) (by decide)
  exact ⟨_, run_coroutines h24⟩

end Msvl.Turn
