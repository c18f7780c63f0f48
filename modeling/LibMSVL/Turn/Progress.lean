/-
  A hand-over comes to its end.

  `Turn/Handoff` says that no wake-up is lost; here it is shown that the loops of a hand-over,
  `while(!this->isInit)`, `while(turn != manager)` and the worker's `while(turn != tempID)`, are left.
  The threads are only assumed to be scheduled: each of them that can take a step at every moment
  from some moment on takes one again.

  1. `Actor` — the manager, and each worker.  Creating threads is no step that helps, so that a worker
     which is never passed over does end its turn: it calls `MyPauseThread` or exits.
  2. `Known` — what the nodes of the threads tell: a thread the manager deals with is in the map, and
     if its `isInit` is not set it is about to set it.
  3. `State.rank` and `State.helpful` — how far the hand-over is from its end, and who has to act.
  4. `rank_step` — no step but a wake-up without a signal raises the rank.
  5. `handOff_ends` — over whole runs: while the main thread is in `pthread_join` the manager gets to
     run its own code again and again, or has finished.
-/
import LibMSVL.Lib.Fair
import LibMSVL.Turn.Start

namespace Msvl.Turn

open Msvl.Trans

/-! ## Who acts -/

inductive Actor
  | manager
  | worker (w : Tid)
  deriving DecidableEq, Repr

/-- The thread whose step it is.  The main thread, the creation of threads and the wake-ups without a
    signal are left out: nothing waits for them here. -/
def Action.actor : Action → Option Actor
  | .leaveGate | .excute _ | .seenInit _ | .mgrLock _ | .giveTurn _ | .mgrUnlock _ | .mgrSignal _
  | .turnBack _ | .turnAway _ | .notExit _ | .isExit _ | .regain _ | .delete _ | .finish =>
    some .manager
  | .found w | .markInit w | .lockInit w | .testTrue w | .testFalse w | .condWait w | .relock w
  | .leaveLoop w | .pause w | .lockPause w | .passTurn w | .exit w => some (.worker w)
  | .init _ | .create _ | .waitForObject | .mainPassTurn | .joined | .register _ | .spurious _
  | .spawn _ _ => none

/-! ## The nodes of the threads -/

structure Known (s : State) : Prop where
  absent : ∀ w, s.registered w = false → s.worker w = .absent ∨ s.worker w = .lookup
  marked : ∀ w, s.registered w = true → s.isInit w = false →
    s.worker w = .absent ∨ s.worker w = .lookup ∨ s.worker w = .setIsInit
  target : ∀ w, s.mgr.target = some w → s.registered w = true
  idle : s.mgr = .absent → s.main = .idle

theorem known_start : Known start := by
  constructor <;> simp [start, ManagerPc.target]

attribute [local grind =] ManagerPc.HasMutex ManagerPc.Past ManagerPc.Given ManagerPc.target
  WorkerPc.Out WorkerPc.Holds State.Fresh Function.update_apply
attribute [local simp] Action.Enabled Action.effect

section

variable {s : State} {a : Action} (h : Known s) (he : a.Enabled s)

include h he

theorem absent_step (w : Tid) (hw : (a.effect s).registered w = false) :
    (a.effect s).worker w = .absent ∨ (a.effect s).worker w = .lookup := by
  have habsent := h.absent w
  clear h
  cases a <;> simp at he hw ⊢ <;> grind

theorem marked_step (w : Tid) (hw : (a.effect s).registered w = true)
    (hinit : (a.effect s).isInit w = false) : (a.effect s).worker w = .absent ∨
      (a.effect s).worker w = .lookup ∨ (a.effect s).worker w = .setIsInit := by
  have habsent := h.absent w
  have hmarked := h.marked w
  clear h
  cases a <;> simp at he hw hinit ⊢ <;> grind

theorem registered_step (w : Tid) (hw : (a.effect s).mgr.target = some w) :
    (a.effect s).registered w = true := by
  have htarget := h.target w
  clear h
  cases a <;> simp at he hw ⊢ <;> grind

theorem known_step : Known (a.effect s) := by
  refine ⟨absent_step h he, marked_step h he, registered_step h he, ?_⟩
  have hidle := h.idle
  clear h
  cases a <;> simp at he ⊢ <;> grind

end

/-! ## The rank -/

/-- Steps that `w` may take before it blocks, the turn not being its own. -/
def WorkerPc.toBlock : WorkerPc → Nat
  | .lookup => 5
  | .setIsInit => 4
  | .lockInit | .woken => 3
  | .test => 2
  | .wait => 1
  | _ => 0

/-- Steps that `w` has to take before it passes the turn or exits, the turn being its own. -/
def WorkerPc.toPass : WorkerPc → Nat
  | .lookup => 8
  | .setIsInit => 7
  | .lockInit | .wait | .blocked | .woken => 6
  | .test => 5
  | .unlock => 4
  | .running => 3
  | .lockPause => 2
  | .passTurn => 1
  | .absent | .exited => 0

/-- `w` has the turn, or has not noticed yet that it has. -/
def State.InTurn (s : State) (w : Tid) : Prop := s.worker w ≠ .exited ∧ s.turn ≠ s.manager

instance (s : State) (w : Tid) : Decidable (s.InTurn w) := inferInstanceAs (Decidable (_ ∧ _))

/-- How far the manager is from running its own code. -/
def State.rank (s : State) : Nat :=
  match s.mgr with
  | .gate => 60
  | .spinIsInit w => 50 + (s.worker w).toBlock
  | .lock w => 40 + (s.worker w).toBlock
  | .setTurn w => 30 + (s.worker w).toBlock
  | .unlock w => 20 + if s.InTurn w then (s.worker w).toPass else 0
  | .signal w => 10 + if s.InTurn w then (s.worker w).toPass else 0
  | .spinTurn w =>
    if s.InTurn w then 3 + (s.worker w).toPass else if s.worker w = .exited then 3 else 1
  | .isExit w => if s.InTurn w then 3 + (s.worker w).toPass else 2
  | .regain _ => 1
  | .absent | .running | .ended => 0

/-- Who has to act. -/
def State.helpful (s : State) : Actor :=
  match s.mgr with
  | .spinIsInit w => if s.isInit w then .manager else .worker w
  | .lock w => if s.mutex w = none then .manager else .worker w
  | .spinTurn w | .isExit w => if s.InTurn w then .worker w else .manager
  | _ => .manager

/-! ## One step -/

section

variable {s : State} {a : Action} {w : Tid}

/-- Before the turn is given, every step of `w` brings it nearer to `pthread_cond_wait`. -/
theorem toBlock_step (he : a.Enabled s) (ha : a.actor = some (.worker w)) (hturn : s.turn ≠ w)
    (hin : ¬ (s.worker w).Out) :
    ((a.effect s).worker w).toBlock < (s.worker w).toBlock := by
  cases a
  all_goals simp [Action.actor] at he ha
  all_goals subst ha
  all_goals simp
  all_goals grind [WorkerPc.toBlock]

/-- After that, every step brings it nearer to `turn = manager`, or it has exited. -/
theorem toPass_step (h : Inv s) (he : a.Enabled s) (ha : a.actor = some (.worker w))
    (hturn : s.turn = w) (hin : (a.effect s).InTurn w) :
    ((a.effect s).worker w).toPass < (s.worker w).toPass := by
  have hwait := h.wait w
  cases a
  all_goals simp [Action.actor] at he ha
  all_goals subst ha
  all_goals simp [State.InTurn] at hin ⊢
  all_goals grind [WorkerPc.toPass]

/-- Once it has passed the turn or exited, nothing that `w` does changes that. -/
theorem inTurn_step (h : Inv s) (he : a.Enabled s) (ha : a.actor = some (.worker w))
    (hin : ¬ s.InTurn w) : ¬ (a.effect s).InTurn w := by
  have hout := h.out w
  have hap := h.apart
  cases a
  all_goals simp [Action.actor] at he ha
  all_goals subst ha
  all_goals simp [State.InTurn] at hin ⊢
  all_goals grind

/-- A worker leaves the manager alone, and the nodes of the others. -/
theorem worker_frame {v : Tid} (he : a.Enabled s) (ha : a.actor = some (.worker v)) :
    (a.effect s).mgr = s.mgr ∧ (a.effect s).manager = s.manager ∧
    ((a.effect s).turn = s.turn ∨ (s.worker v).Out) ∧
    ∀ x, x ≠ v → (a.effect s).worker x = s.worker x ∧ (a.effect s).isInit x = s.isInit x ∧
      (a.effect s).mutex x = s.mutex x := by
  cases a
  all_goals simp [Action.actor] at he ha
  all_goals subst ha
  all_goals simp
  all_goals grind

/-- A thread that takes a step is there, and if it is gone afterwards it has exited. -/
theorem worker_there (he : a.Enabled s) (ha : a.actor = some (.worker w)) :
    0 < (s.worker w).toPass ∧ s.worker w ≠ .exited ∧
    ((a.effect s).worker w = .exited → (s.worker w).Out) := by
  cases a
  all_goals simp [Action.actor] at he ha
  all_goals subst ha
  all_goals simp
  all_goals grind [WorkerPc.toPass]

/-- Rank and helpful thread are told by the manager's place and the thread it deals with. -/
theorem rank_congr {t : State} (hmgr : t.mgr = s.mgr) (hmanager : t.manager = s.manager)
    (hturn : t.turn = s.turn) (hworker : ∀ x, s.mgr.target = some x →
      t.worker x = s.worker x ∧ t.isInit x = s.isInit x ∧ t.mutex x = s.mutex x) :
    t.rank = s.rank ∧ t.helpful = s.helpful := by
  cases hm : s.mgr with
  | absent | gate | running | ended => simp only [State.rank, State.helpful, hmgr, hm, and_self]
  | spinIsInit x | lock x | setTurn x | unlock x | signal x | spinTurn x | isExit x | regain x =>
    obtain ⟨hw, hi, hmx⟩ := hworker x (by rw [hm]; rfl)
    have hin : t.InTurn x ↔ s.InTurn x := by simp only [State.InTurn, hw, hturn, hmanager]
    simp only [State.rank, State.helpful, hmgr, hm, hin, hw, hi, hmx, and_self]

/-- While the manager has the turn, the thread it is about to resume has not got it. -/
theorem before_turn (h : Inv s) (hw : s.mgr.target = some w)
    (hm : s.mgr = .spinIsInit w ∨ s.mgr = .lock w ∨ s.mgr = .setTurn w) :
    s.turn ≠ w ∧ ¬ (s.worker w).Out := by
  have hgiven := h.given
  have hap := h.apart
  have hpresent := h.present w hw
  have hout := h.out w
  constructor
  · grind
  · grind

/-- Who has the turn while the manager waits for `w`. -/
theorem turn_of_inTurn (h : Inv s) (hw : s.mgr.target = some w) (hin : s.InTurn w) : s.turn = w := by
  have hgiven := h.given.resolve_left hin.2
  grind

/-- A step of the thread that the manager deals with. -/
theorem rank_worker (h : Inv s) (he : a.Enabled s) (ha : a.actor = some (.worker w))
    (hw : s.mgr.target = some w) :
    (a.effect s).rank < s.rank ∨ (a.effect s).rank = s.rank ∧
      (a.effect s).helpful = s.helpful ∧ s.helpful ≠ .worker w := by
  obtain ⟨hmgr, -, -, -⟩ := worker_frame he ha
  obtain ⟨hpos, hlive, hexit⟩ := worker_there he ha
  have hblock := toBlock_step he ha
  have hstay := inTurn_step h he ha
  have hpass : s.InTurn w → (a.effect s).InTurn w →
      ((a.effect s).worker w).toPass < (s.worker w).toPass :=
    fun hin hin' => toPass_step h he ha (turn_of_inTurn h hw hin) hin'
  cases hm : s.mgr with
  | absent | gate | running | ended =>
    rw [hm] at hw
    cases hw
  | regain x =>
    rw [hm] at hw
    cases hw
    exact absurd (h.regain w hm) hlive
  | spinIsInit x | lock x | setTurn x =>
    -- on its way to `pthread_cond_wait`
    rw [hm] at hw
    cases hw
    obtain ⟨hturn, hin⟩ := before_turn h (by rw [hm]; rfl) (by simp [hm])
    refine Or.inl ?_
    have hlt := hblock hturn hin
    simp only [State.rank, hmgr, hm]
    omega
  | unlock x | signal x =>
    rw [hm] at hw
    cases hw
    by_cases hin : s.InTurn w
    · refine Or.inl ?_
      have hlt := hpass hin
      simp only [State.rank, hmgr, hm, if_pos hin]
      split
      · rename_i hin'
        have := hlt hin'
        omega
      · omega
    · refine Or.inr ⟨?_, ?_, ?_⟩
      · simp only [State.rank, hmgr, hm, if_neg hin, if_neg (hstay hin)]
      · simp only [State.helpful, hmgr, hm]
      · simp only [State.helpful, hm, ne_eq, reduceCtorEq, not_false_eq_true]
  | spinTurn x | isExit x =>
    rw [hm] at hw
    cases hw
    by_cases hin : s.InTurn w
    · refine Or.inl ?_
      have hlt := hpass hin
      simp only [State.rank, hmgr, hm, if_pos hin]
      split
      · rename_i hin'
        have := hlt hin'
        omega
      · first | omega | (split <;> omega)
    · have hout : ¬ (s.worker w).Out := by
        intro ho
        have hturn := (h.out w ho).1
        refine hin ⟨hlive, fun heq => ?_⟩
        rw [← hturn, heq, h.apart] at ho
        exact ho
      have hlive' : (a.effect s).worker w ≠ .exited := fun hx => hout (hexit hx)
      refine Or.inr ⟨?_, ?_, ?_⟩
      · simp only [State.rank, hmgr, hm, if_neg hin, if_neg (hstay hin), if_neg hlive, if_neg hlive']
      · simp only [State.helpful, hmgr, hm, if_neg hin, if_neg (hstay hin)]
      · simp only [State.helpful, hm, if_neg hin, ne_eq, reduceCtorEq, not_false_eq_true]

theorem toPass_le (pc : WorkerPc) : pc.toPass ≤ 8 := by
  cases pc <;> decide

/-- A step of the manager in a hand-over. -/
theorem rank_manager (h : Inv s) (he : a.Enabled s) (ha : a.actor = some .manager)
    (hw : s.mgr = .gate ∨ s.mgr.target = some w) :
    (a.effect s).mgr = .running ∨ (a.effect s).mgr.target = some w ∧
    ((a.effect s).rank < s.rank ∨ (a.effect s).rank = s.rank ∧
      (a.effect s).helpful = s.helpful ∧ s.helpful ≠ .manager) := by
  have hle := toPass_le (s.worker w)
  have hwake := h.wake w
  cases a
  all_goals simp [Action.actor] at he ha ⊢
  all_goals grind [State.rank, State.helpful, State.InTurn, WorkerPc.toPass]

/-- The thread that has to act is the manager, or the one it deals with. -/
theorem helpful_cases (s : State) :
    s.helpful = .manager ∨ ∃ x, s.mgr.target = some x ∧ s.helpful = .worker x := by
  unfold State.helpful
  cases s.mgr with
  | spinIsInit x | lock x | spinTurn x | isExit x => grind
  | _ => exact Or.inl rfl

/-- A step that leaves the manager and the thread it deals with alone. -/
theorem rank_other (hmgr : (a.effect s).mgr = s.mgr) (hmanager : (a.effect s).manager = s.manager)
    (hturn : (a.effect s).turn = s.turn)
    (hworker : ∀ x, s.mgr.target = some x → a.actor ≠ some (.worker x) ∧
      (a.effect s).worker x = s.worker x ∧ (a.effect s).isInit x = s.isInit x ∧
      (a.effect s).mutex x = s.mutex x)
    (hactor : a.actor ≠ some .manager) :
    (a.effect s).rank = s.rank ∧ (a.effect s).helpful = s.helpful ∧ a.actor ≠ some s.helpful := by
  obtain ⟨hrank, hhelp⟩ := rank_congr hmgr hmanager hturn fun x hx => (hworker x hx).2
  refine ⟨hrank, hhelp, ?_⟩
  rcases helpful_cases s with hm | ⟨x, hx, hh⟩
  · rwa [hm]
  · rw [hh]
    exact (hworker x hx).1

/-- **One step** of a hand-over: the manager runs, or the rank falls, or it stays and so does the one
    who has to act, who has not acted. -/
theorem rank_step (h : Inv s) (hk : Known s) (hw : s.mgr = .gate ∨ s.mgr.target = some w)
    (he : a.Enabled s) (hs : a ≠ .spurious w) :
    (a.effect s).mgr = .running ∨
    ((a.effect s).mgr = .gate ∨ (a.effect s).mgr.target = some w) ∧
      ((a.effect s).rank < s.rank ∨ (a.effect s).rank = s.rank ∧
        (a.effect s).helpful = s.helpful ∧ a.actor ≠ some s.helpful) := by
  have hmain := h.main
  have htarget : ∀ x, s.mgr.target = some x → x = w := by
    rcases hw with hg | hw
    · rw [hg]
      exact fun x hx => nomatch hx
    · rw [hw]
      exact fun x hx => (Option.some.inj hx).symm
  cases ha : a.actor with
  | none =>
    refine Or.inr ?_
    cases a
    case init | create | waitForObject | mainPassTurn | joined => simp at he; grind
    case register v =>
      refine ⟨hw, Or.inr (rank_other rfl rfl rfl ?_ nofun)⟩
      intro x hx
      have hne : x ≠ v := by
        rintro rfl
        rw [Action.Enabled, hk.target x hx] at he
        cases he.2
      exact ⟨nofun, rfl, by simp [hne], rfl⟩
    case spurious v =>
      refine ⟨hw, Or.inr (rank_other rfl rfl rfl ?_ nofun)⟩
      intro x hx
      have hne : x ≠ v := by
        rintro rfl
        exact hs (by rw [htarget x hx])
      exact ⟨nofun, by simp [hne], rfl, rfl⟩
    case spawn c v =>
      refine ⟨hw, Or.inr (rank_other rfl rfl rfl ?_ nofun)⟩
      intro x hx
      have hne : x ≠ v := by
        rintro rfl
        exact h.present x hx he.2.2.2
      exact ⟨nofun, by simp [hne], rfl, rfl⟩
    all_goals cases ha
  | some c =>
    cases c with
    | manager =>
      rcases rank_manager h he ha hw with hr | ⟨ht, hr⟩
      · exact Or.inl hr
      · refine Or.inr ⟨Or.inr ht, hr.imp_right fun hr => ⟨hr.1, hr.2.1, fun hc => ?_⟩⟩
        exact hr.2.2 (Option.some.inj hc).symm
    | worker v =>
      obtain ⟨hmgr, hmanager, hturn, hframe⟩ := worker_frame he ha
      refine Or.inr ⟨hmgr ▸ hw, ?_⟩
      by_cases hv : s.mgr.target = some v
      · refine (rank_worker h he ha hv).imp_right fun hr => ⟨hr.1, hr.2.1, fun hc => ?_⟩
        exact hr.2.2 (Option.some.inj hc).symm
      · have hturn' : (a.effect s).turn = s.turn := by
          refine hturn.resolve_right fun ho => hv ?_
          have hp := (h.out v ho).2
          grind
        rw [← ha]
        refine Or.inr (rank_other hmgr hmanager hturn' (fun x hx => ?_) (by rw [ha]; nofun))
        have hne : x ≠ v := fun heq => hv (heq ▸ hx)
        refine ⟨fun hc => ?_, hframe x hne⟩
        rw [ha] at hc
        cases hc
        exact hne rfl

/-- A mutex that nobody is inside of is free. -/
theorem mutex_free (h : Inv s) (hm : ¬ s.mgr.HasMutex w) (hw : ¬ (s.worker w).Holds) :
    s.mutex w = none := by
  cases hmx : s.mutex w with
  | none => rfl
  | some o =>
    cases o with
    | manager => exact absurd ((h.mutexMgr w).mp hmx) hm
    | worker => exact absurd ((h.mutexWorker w).mp hmx) hw

/-- A thread whose turn it is can act, once it has been signalled. -/
theorem inTurn_canAct (h : Inv s) (hk : Known s) (hw : s.mgr = .spinTurn w ∨ s.mgr = .isExit w)
    (hin : s.InTurn w) : ∃ a : Action, a.actor = some (.worker w) ∧ a.Enabled s := by
  have htarget : s.mgr.target = some w := by grind
  have hturn := turn_of_inTurn h htarget hin
  have hfree : ¬ (s.worker w).Holds → s.mutex w = none := mutex_free h (by grind)
  cases hpc : s.worker w with
  | absent => exact absurd hpc (h.present w htarget)
  | lookup => exact ⟨.found w, rfl, hpc, hk.target w htarget⟩
  | setIsInit => exact ⟨.markInit w, rfl, hpc⟩
  | lockInit => exact ⟨.lockInit w, rfl, hpc, hfree (by rw [hpc]; exact id)⟩
  | test => exact ⟨.testFalse w, rfl, hpc, hturn⟩
  | wait => exact absurd hturn (h.wait w hpc)
  | blocked =>
    have hsoon := h.wake w hpc hturn
    grind
  | woken => exact ⟨.relock w, rfl, hpc, hfree (by rw [hpc]; exact id)⟩
  | unlock => exact ⟨.leaveLoop w, rfl, hpc⟩
  | running => exact ⟨.pause w, rfl, hpc⟩
  | lockPause => exact ⟨.lockPause w, rfl, hpc, hfree (by rw [hpc]; exact id)⟩
  | passTurn => exact ⟨.passTurn w, rfl, hpc⟩
  | exited => exact absurd hpc hin.1

/-- The one who has to act can. -/
theorem helpful_canAct (h : Inv s) (hk : Known s) (hw : s.mgr = .gate ∨ s.mgr.target = some w) :
    ∃ a : Action, a.actor = some s.helpful ∧ a.Enabled s := by
  unfold State.helpful
  cases hm : s.mgr with
  | absent | running | ended =>
    rw [hm] at hw
    rcases hw with hw | hw <;> cases hw
  | gate =>
    have hturn : s.turn = s.manager := by
      have hgiven := h.given
      grind
    exact ⟨.leaveGate, rfl, hm, hturn⟩
  | spinIsInit x =>
    have htarget : s.mgr.target = some x := by rw [hm]; rfl
    cases hi : s.isInit x with
    | true => exact ⟨.seenInit x, by simp [hi, Action.actor], hm, hi⟩
    | false =>
      -- the thread has not come as far as `isInit = true` in `MyPauseThreadInit`
      rcases hk.marked x (hk.target x htarget) hi with hpc | hpc | hpc
      · exact absurd hpc (h.present x htarget)
      · exact ⟨.found x, by simp [hi, Action.actor], hpc, hk.target x htarget⟩
      · exact ⟨.markInit x, by simp [hi, Action.actor], hpc⟩
  | lock x =>
    have htarget : s.mgr.target = some x := by rw [hm]; rfl
    obtain ⟨hturn, hin⟩ := before_turn h htarget (by simp [hm])
    by_cases hmx : s.mutex x = none
    · exact ⟨.mgrLock x, by simp [hmx, Action.actor], hm, hmx⟩
    · -- the thread is inside its loop, and gives the mutex up when it blocks
      have hholds : (s.worker x).Holds := by
        by_contra hn
        exact hmx (mutex_free h (by rw [hm]; grind) hn)
      simp only [if_neg hmx]
      cases hpc : s.worker x with
      | test => exact ⟨.testTrue x, rfl, hpc, hturn⟩
      | wait => exact ⟨.condWait x, rfl, hpc⟩
      | _ => rw [hpc] at hin hholds; grind
  | setTurn x => exact ⟨.giveTurn x, rfl, hm⟩
  | unlock x => exact ⟨.mgrUnlock x, rfl, hm⟩
  | signal x => exact ⟨.mgrSignal x, rfl, hm⟩
  | regain x => exact ⟨.regain x, rfl, hm⟩
  | spinTurn x =>
    by_cases hin : s.InTurn x
    · simpa only [if_pos hin] using inTurn_canAct h hk (Or.inl hm) hin
    · simp only [if_neg hin]
      by_cases hturn : s.turn = s.manager
      · exact ⟨.turnBack x, rfl, hm, hturn⟩
      · exact ⟨.turnAway x, rfl, hm, hturn⟩
  | isExit x =>
    by_cases hin : s.InTurn x
    · simpa only [if_pos hin] using inTurn_canAct h hk (Or.inr hm) hin
    · simp only [if_neg hin]
      by_cases hpc : s.worker x = .exited
      · exact ⟨.isExit x, rfl, hm, hpc⟩
      · exact ⟨.notExit x, rfl, hm, hpc⟩

end

/-! ## Whole runs -/

/-- In a hand-over, or at the gate of a statement that has begun. -/
def Busy (w : Tid) (s : State) : Prop :=
  Inv s ∧ Known s ∧ (s.mgr = .gate ∨ s.mgr.target = some w)

/-- The step is the thread's. -/
def Actor.Takes (c : Actor) (a : Action) : Prop := a.actor = some c

/-- A hand-over lasts until the manager runs. -/
theorem busy_lasts {s t : State} {a : Action} {w : Tid} (h : Busy w s) (hstep : Step s a t) :
    t.mgr = .running ∨ Busy w t := by
  obtain ⟨hi, hk, hw⟩ := h
  obtain ⟨he, rfl⟩ := hstep
  have hjoin : (a.effect s).main = .join := by
    by_contra hj
    obtain ⟨-, hended⟩ := (main_join_step he).2 hi.main hj
    rw [hended] at hw
    rcases hw with hw | hw <;> cases hw
  have hbusy : (a.effect s).mgr = .gate ∨ (a.effect s).mgr.target = some w →
      (a.effect s).mgr = .running ∨ Busy w (a.effect s) :=
    fun hw' => Or.inr ⟨inv_step hi he hjoin, known_step hk he, hw'⟩
  by_cases hs : a = .spurious w
  · subst hs
    exact hbusy hw
  · rcases rank_step hi hk hw he hs with hr | ⟨hw', -⟩
    · exact Or.inl hr
    · exact hbusy hw'

theorem busy_step {s t : State} {a : Action} {w : Tid} (h : Busy w s) (hs : a ≠ .spurious w)
    (hstep : Step s a t) : t.mgr = .running ∨ Busy w t ∧
      (t.rank < s.rank ∨ t.rank = s.rank ∧ t.helpful = s.helpful ∧ ¬ s.helpful.Takes a) := by
  rcases busy_lasts h hstep with hr | hb
  · exact Or.inl hr
  · obtain ⟨hi, hk, hw⟩ := h
    obtain ⟨he, rfl⟩ := hstep
    exact (rank_step hi hk hw he hs).imp_right fun hr => ⟨hb, hr.2⟩

/-- No step of the manager or of a worker creates a thread of the main thread's. -/
theorem busy_canAct {s : State} {w : Tid} (h : Busy w s) :
    CanAct protocol NotLeftInTurn Actor.Takes s.helpful s := by
  obtain ⟨hi, hk, hw⟩ := h
  obtain ⟨a, ha, he⟩ := helpful_canAct hi hk hw
  refine ⟨a, ha, ?_, _, he, rfl⟩
  intro v hv
  rcases hv with rfl | rfl <;> cases ha

theorem known_of_reachable {s : State} (h : ReachableBy protocol NotLeftInTurn s) : Known s := by
  refine h.invariant (fun s (h0 : s = start) => h0 ▸ known_start) ?_
  rintro s a t hk - ⟨he, rfl⟩
  exact known_step hk he

/-- While the main thread waits the manager runs, has finished, or is busy. -/
theorem busy_of_join {s : State} (h : ReachableBy protocol NotLeftInTurn s) (hj : s.main = .join) :
    s.mgr = .running ∨ s.mgr = .ended ∨ ∃ w, Busy w s := by
  have hk := known_of_reachable h
  have hi : Inv s := (phase_of_reachable h).2.resolve_left fun hq => hq.main hj
  cases hm : s.mgr with
  | absent =>
    have hidle := hk.idle hm
    rw [hj] at hidle
    cases hidle
  | running => exact Or.inl rfl
  | ended => exact Or.inr (Or.inl rfl)
  | gate => exact Or.inr (Or.inr ⟨0, hi, hk, Or.inl hm⟩)
  | spinIsInit w | lock w | setTurn w | unlock w | signal w | spinTurn w | isExit w | regain w =>
    exact Or.inr (Or.inr ⟨w, hi, hk, Or.inr (by rw [hm]; rfl)⟩)

/-- **Every hand-over ends.**  In every run in which no thread created before `MyWaitForObject` gets
    the id left in `turn`, which is fair to the manager and to each worker, and in which each thread
    wakes up without a signal finitely often: whenever the main thread is in `pthread_join` the
    manager runs its own code at some later moment, or has finished.  None of the loops of a
    hand-over is left only by chance, and no thread waits for a signal for ever. -/
theorem handOff_ends (b : Behaviour protocol NotLeftInTurn) (h0 : b.state 0 = start)
    (hfair : b.Fair Actor.Takes)
    (hspurious : ∀ w, ∃ k, ∀ j, k ≤ j → b.act j ≠ some (.spurious w))
    (i : Nat) (hi : (b.state i).main = .join) :
    ∃ j, i ≤ j ∧ ((b.state j).mgr = .running ∨ (b.state j).mgr = .ended) := by
  rcases busy_of_join (b.reachable h0 i) hi with hr | he | ⟨w, hw⟩
  · exact ⟨i, Nat.le_refl i, Or.inl hr⟩
  · exact ⟨i, Nat.le_refl i, Or.inr he⟩
  · obtain ⟨k, hk⟩ := hspurious w
    have hlast := b.lasts (Q := fun s => s.mgr = .running) (fun s a t h _ hs => busy_lasts h hs) hw k
    rcases hlast with ⟨j, hj, hr⟩ | hw'
    · exact ⟨j, hj, Or.inl hr⟩
    · -- from here on `w` wakes up on a signal only
      obtain ⟨j, hj, hr⟩ := b.leads (P := Busy w) (Q := fun s => s.mgr = .running) hfair State.rank
        State.helpful (fun a => a ≠ .spurious w) (fun s h => busy_canAct h)
        (fun s a t h _ hs hstep => busy_step h hs hstep) (i := i + k)
        (fun j hj a ha hs => hk j (by omega) (hs ▸ ha)) hw'
      exact ⟨j, by omega, Or.inl hr⟩

/-- One after the other, each step can be taken. -/
def Allowed : State → List Action → Prop
  | _, [] => True
  | s, a :: as => (NotLeftInTurn s a ∧ a.Enabled s) ∧ Allowed (a.effect s) as

theorem Allowed.steps {s : State} {as : List Action} (h : Allowed s as) :
    Steps protocol NotLeftInTurn s as (as.foldl Action.effect s) := by
  induction as generalizing s with
  | nil => exact .nil s
  | cons a as ih => exact .cons h.1.1 ⟨h.1.2, rfl⟩ (ih h.2)

/-- The thread that the main thread creates. -/
def Action.created : Action → Option Tid
  | .init w | .create w => some w
  | _ => none

instance (s : State) (a : Action) : Decidable (NotLeftInTurn s a) :=
  decidable_of_iff (∀ w ∈ a.created, w ≠ s.turn) <| by
    unfold NotLeftInTurn
    cases a <;> simp [Action.created]

instance instDecidableAllowed (s : State) (as : List Action) : Decidable (Allowed s as) :=
  match as with
  | [] => isTrue trivial
  | a :: as =>
    have := instDecidableAllowed (a.effect s) as
    inferInstanceAs (Decidable (_ ∧ _))

/-- Where no thread is left nobody can act. -/
theorem nobody_acts {s : State} (hm : s.mgr = .absent) (hw : ∀ w, s.worker w = .absent) (c : Actor) :
    ¬ CanAct protocol NotLeftInTurn Actor.Takes c s := by
  rintro ⟨a, ha, -, t, he, -⟩
  unfold Actor.Takes at ha
  cases a <;> simp [hm, hw, Action.actor] at he ha

/-- A statement with one worker begins. -/
def beginScript : List Action :=
  [.init 1, .create 2, .register 2, .waitForObject, .mainPassTurn]

/-- The worker gets the turn and finishes, and so does the statement. -/
def handOffScript : List Action :=
  [.leaveGate, .excute 2, .found 2, .markInit 2, .seenInit 2, .lockInit 2, .testTrue 2, .condWait 2,
    .mgrLock 2, .giveTurn 2, .mgrUnlock 2, .mgrSignal 2, .relock 2, .testFalse 2, .leaveLoop 2,
    .exit 2, .turnAway 2, .isExit 2, .regain 2, .delete 2, .finish, .joined]

/-- `beginScript`, `handOffScript`, and then nothing. -/
theorem handOff_ends_script : ∃ b : Behaviour protocol NotLeftInTurn,
    (b.state 5).main = .join ∧ (b.state 5).mgr = .gate ∧
    ∃ j, 5 ≤ j ∧ ((b.state j).mgr = .running ∨ (b.state j).mgr = .ended) := by
  have hbegin : Allowed start beginScript := by decide
  have hhandOff : Allowed (beginScript.foldl Action.effect start) handOffScript := by decide
  obtain ⟨b', h0', hfair', hlater'⟩ := hhandOff.steps.before Actor.Takes
    (Behaviour.still protocol NotLeftInTurn _) rfl
  obtain ⟨b, h0, hfair, hlater⟩ := hbegin.steps.before Actor.Takes b' h0'
  have h5 : b.state 5 = beginScript.foldl Action.effect start := by
    rw [← h0']
    exact (hlater 0).1
  have hstill := hfair (hfair' (still_fair (nobody_acts rfl fun w => by
    by_cases hw : w = 2 <;> simp [beginScript, start, Action.effect, hw])))
  refine ⟨b, by rw [h5]; rfl, by rw [h5]; rfl, ?_⟩
  refine handOff_ends b h0 hstill (fun w => ⟨27, fun j hj => ?_⟩) 5 (by rw [h5]; rfl)
  have hact : b.act (5 + (22 + (j - 27))) = none :=
    (hlater (22 + (j - 27))).2.trans (hlater' (j - 27)).2
  rw [show 5 + (22 + (j - 27)) = j by omega] at hact
  rw [hact]
  exact (Option.some_ne_none _).symm

end Msvl.Turn
