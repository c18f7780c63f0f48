/-
  From one parallel statement to the next.

  1. `account_handed` — `keepChilds` is a queue: what KEEP nodes hand over is attached or deleted in
     the same order, each element once, whatever is handed over meanwhile.
  2. `NoneWaited` — when the root is deleted nothing waits in keepChilds: a state ends only with
     keepChilds empty, and between two states nobody writes it.
  3. `run_statements_end` — so a statement whose conversions and moves meet `Pairing` leaves no thread
     behind: with the root the last one is joined, and the next statement begins with an empty map.
-/
import LibMSVL.Function.Threads
import LibMSVL.Function.Orphan

namespace Msvl.Function

open Msvl.Run

/-! ## The queue keepChilds -/

/-- What KEEP nodes have handed over, the first one first. -/
def handed (log : Log) : List Ptr := log.reverse.flatMap fun x =>
  match x.1 with
  | .moveToKeepChilds n => x.2.childs n
  | _ => []

/-- What `excuteKeepChilds` has dealt with, the first one first. -/
def dealt (log : Log) : List Ptr := log.reverse.filterMap fun x =>
  match x.1 with
  | .attach c _ | .drop c => some c
  | _ => none

theorem handed_cons (l : Label) (s : State) (log : Log) : handed ((l, s) :: log) =
    handed log ++ match l with
      | .moveToKeepChilds n => s.childs n
      | _ => [] := by
  unfold handed
  rw [List.reverse_cons, List.flatMap_append, List.flatMap_singleton]

theorem dealt_cons (l : Label) (s : State) (log : Log) : dealt ((l, s) :: log) =
    dealt log ++ match l with
      | .attach c _ | .drop c => [c]
      | _ => [] := by
  unfold dealt
  rw [List.reverse_cons, List.filterMap_append]
  cases l <;> rfl

/-- The head of the queue is dealt with. -/
theorem State.pending_eq_cons {s : State} {c : Ptr} (hc : s.keepChilds[s.keepPos]? = some c) :
    s.pending = c :: s.keepChilds.drop (s.keepPos + 1) := by
  obtain ⟨hlt, hget⟩ := List.getElem?_eq_some_iff.mp hc
  rw [State.pending, List.drop_eq_getElem_cons hlt, hget]

/-- What is handed over is dealt with or waits, in this order. -/
theorem account_handed {b : Nat} {l : Label} {s : State} {log : Log} (h : Inv s)
    (hg : Guard b l s) (ha : dealt log ++ s.pending = handed log) :
    dealt ((l, s) :: log) ++ (l.apply s).pending = handed ((l, s) :: log) := by
  rw [dealt_cons, handed_cons, ← ha]
  have hsame : ∀ t : State, t.keepChilds = s.keepChilds → t.keepPos = s.keepPos →
      dealt log ++ [] ++ t.pending = dealt log ++ s.pending ++ [] := by
    intro t hkeep hpos
    rw [List.append_nil, List.append_nil, State.pending, hkeep, hpos]
    rfl
  have hnext : ∀ c, s.keepChilds[s.keepPos]? = some c →
      dealt log ++ [c] ++ s.keepChilds.drop (s.keepPos + 1) = dealt log ++ s.pending ++ [] := by
    intro c hc
    rw [List.append_nil, State.pending_eq_cons hc, List.append_assoc, List.singleton_append]
  cases l with
  | edit n e =>
    exact hsame _ (edit_global s n e fun _ _ _ => rfl) (edit_global s n e fun _ _ _ => rfl)
  | newRoot type =>
    exact hsame _ (newRoot_global s type fun _ _ _ => rfl) (newRoot_global s type fun _ _ _ => rfl)
  | newThread F id =>
    exact hsame _ (newThread_global s F id fun _ _ _ => rfl)
      (newThread_global s F id fun _ _ _ => rfl)
  | replace owner i n =>
    exact hsame _ (replace_global s owner i n fun _ _ _ => rfl)
      (replace_global s owner i n fun _ _ _ => rfl)
  | moveToKeepChilds n =>
    show dealt log ++ [] ++ (s.keepChilds ++ s.childs n).drop s.keepPos = _
    rw [List.drop_append_of_le_length h.pos, List.append_nil, List.append_assoc]
    rfl
  | attach c F => exact hnext c hg.1
  | drop c => exact hnext c hg.1
  | keepClear =>
    rw [hg.1]
    rfl
  | _ => exact hsame _ rfl rfl

/-- **keepChilds is a queue.**  In every run, what has been handed over is what `excuteKeepChilds` has
    dealt with, followed by what waits: every child once, and in the order in which they came.  When a
    state ends all have been dealt with. -/
theorem run_handed (f : Nat) (mainThread : Tid) (env : Env) (input : List Action) :
    Throughout (fun log s => handed log = dealt log ++ s.pending)
      (run f mainThread env input).2 ∧
    ∀ newer s older, (run f mainThread env input).2.log = newer ++ (.stateEnd, s) :: older →
      handed older = dealt older := by
  have hqueue : Throughout (fun log s => handed log = dealt log ++ s.pending)
      (run f mainThread env input).2 := by
    refine (run_trace f mainThread env input).1.throughout ?_
    intro log s hlog
    refine (hlog.keeps_log (I := fun es u => Inv u ∧ dealt es ++ u.pending = handed es) ?_ ?_).2.symm
    · exact fun es l u hg hu => ⟨hg.inv hu.1, account_handed hu.1 hg hu.2⟩
    · exact ⟨inv_start mainThread env, rfl⟩
  refine ⟨hqueue, ?_⟩
  intro newer s older heq
  have hmem : (Label.stateEnd, s) ∈ (run f mainThread env input).2.log := by
    rw [heq]
    simp
  have hkeep : s.keepChilds = [] := ((run_inv f mainThread env input).2 _ s hmem).2.2
  rw [hqueue.2 _ _ _ _ heq, State.pending, hkeep, List.drop_nil, List.append_nil]

/-! ## The end of a statement -/

/-- Every label but the deletion of the root. -/
def Label.InStatement : Label → Prop
  | .destroyRoot _ => False
  | _ => True

theorem Label.Keeping.inStatement {l : Label} (h : l.Keeping) : l.InStatement := by
  cases l with
  | destroyRoot r => exact h.elim
  | _ => trivial

theorem takes_inStatement {α : Type} {m : M α} (h : Takes Label.Inside m) :
    Takes Label.InStatement m := .mono (fun _ hl => hl.keeping.inStatement) h

theorem Label.Draining.inStatement {l : Label} (h : l.Draining) : l.InStatement := by
  cases l with
  | destroyRoot r => exact h.elim
  | _ => trivial

theorem inStatement_drain (f : Nat) : Takes Label.InStatement (drain f) :=
  .mono (fun _ hl => hl.inStatement) (takes_drain f)

theorem inStatement_deferredPrj (f : Nat) : Takes Label.InStatement (deferredPrj f) :=
  .mono (fun _ hl => hl.inStatement) (takes_deferredPrj f)

/-- Whenever the root has been deleted, nothing waited. -/
def NoneWaited (log : Log) : Prop := ∀ r s, (.destroyRoot r, s) ∈ log → s.keepChilds = []

/-- From `P` to `Q`, with `NoneWaited` all the time. -/
abbrev Lasts {α : Type} (P : State → Prop) (m : M α) (Q : State → Prop) : Prop :=
  Triple (fun w => NoneWaited w.log ∧ P w.st) m (fun _ w => NoneWaited w.log ∧ Q w.st)
    fun _ w => NoneWaited w.log

theorem lasts_inStatement {α : Type} {m : M α} (h : Takes Label.InStatement m) (P : State → Prop) :
    Lasts P m fun _ => True := by
  refine Triple.imp (P := fun w => NoneWaited w.log) (T := fun _ w => NoneWaited w.log) ?_
    (fun w hw => hw.1) fun _ w hw => ⟨hw, trivial⟩
  refine h.triple ?_ fun _ _ _ _ hP => hP
  intro l s log i hl hP r u hmem
  rcases List.mem_cons.mp hmem with heq | hmem
  · cases heq
    exact hl.elim
  · exact hP r u hmem

/-- Steps of `~Node` leave keepChilds alone. -/
theorem lasts_walk {α : Type} {m : M α} (h : Takes Label.Walk m) :
    Lasts (fun s => s.keepChilds = []) m fun s => s.keepChilds = [] := by
  refine Triple.weaken (S := fun _ w => NoneWaited w.log ∧ w.st.keepChilds = []) ?_
    fun _ w hw => hw.1
  refine h.triple ?_ fun _ _ _ _ hP => hP
  intro l s log i hl hP
  refine ⟨?_, ?_⟩
  · intro r u hmem
    rcases List.mem_cons.mp hmem with heq | hmem
    · cases heq
      exact hl.elim
    · exact hP.1 r u hmem
  · cases l with
    | edit n e => exact (edit_global s n e fun _ _ _ => rfl).trans hP.2
    | destroy => exact hP.2
    | _ => exact hl.elim

theorem lasts_sort (f : Nat) (root : Ptr) :
    Lasts (fun _ => True) (sort f root) fun s => s.keepChilds = [] := by
  induction f with
  | zero => exact Triple.stop fun w hw => hw.1
  | succ f ih =>
    refine Triple.bind (lasts_inStatement (inStatement_deferredPrj f) fun _ => True) fun _ => ?_
    refine Triple.bind (lasts_inStatement (inStatement_drain f) fun _ => True) fun again => ?_
    split
    · exact ih
    · refine Triple.bind (lasts_inStatement (takes_inStatement ?_) fun _ => True) fun _ => ?_
      · exact .mono (fun _ h => h.inside) (takes_isCorrectAndExit f root)
      · refine Triple.get fun s => ?_
        split
        · next hempty =>
          refine Triple.act fun w hw => ⟨?_, ?_⟩
          · intro r u hmem
            rcases List.mem_cons.mp hmem with heq | hmem
            · cases heq
            · exact hw.1.1 r u hmem
          · rw [← hw.2] at hempty
            exact List.isEmpty_iff.mp hempty
        · refine Triple.imp (P := fun w => NoneWaited w.log ∧ True) ?_ (fun w hw => hw.1)
            fun _ _ h => h
          refine Triple.bind (lasts_inStatement ?_ fun _ => True) fun _ => ih
          exact .mono (fun _ h => h.inStatement) (takes_excuteKeepChilds f)

theorem lasts_states (f : Nat) (root : Ptr) :
    Lasts (fun s => s.keepChilds = []) (states f root) fun s => s.keepChilds = [] := by
  induction f with
  | zero => exact Triple.stop fun w hw => hw.1
  | succ f ih =>
    refine Triple.peek fun s => ?_
    split
    · exact Triple.pure fun w hw => hw
    · refine Triple.bind (lasts_inStatement ?_ fun s => s.keepChilds = []) fun _ => ?_
      · exact takes_inStatement (takes_excute f root)
      · refine Triple.bind (lasts_inStatement ?_ fun _ => True) fun _ => ?_
        · exact .act (l := Label.changedNode none) trivial
        · refine Triple.bind (lasts_inStatement ?_ fun _ => True) fun _ => ?_
          · exact .act (l := Label.prjNode none) trivial
          · exact Triple.bind (lasts_sort f root) fun _ => ih

theorem lasts_managerThread (f : Nat) :
    Lasts (fun s => s.keepChilds = []) (managerThread f) fun s => s.keepChilds = [] := by
  refine Triple.peek fun s => ?_
  split
  · exact Triple.pure fun w hw => hw
  · next root _ =>
    refine Triple.bind (lasts_states f root) fun _ => ?_
    refine Triple.bind (lasts_walk (takes_deleteChilds f root)) fun _ => ?_
    refine Triple.bind (lasts_walk (takes_release root)) fun _ => ?_
    refine Triple.act fun w hw => ⟨?_, hw.2⟩
    intro r u hmem
    rcases List.mem_cons.mp hmem with heq | hmem
    · cases heq
      exact hw.2
    · exact hw.1 r u hmem

/-- Library calls leave keepChilds alone. -/
theorem lasts_runThread {b : Nat} {self : Tid} (f : Nat) {s : State} (h : Inv s)
    (hc : Caller b s self) (hact : s.active = []) :
    Triple (fun w => w.st = s ∧ NoneWaited w.log ∧ w.st.keepChilds = []) (runThread f self)
      (fun _ w => NoneWaited w.log ∧ w.st.keepChilds = []) fun _ w => NoneWaited w.log := by
  have hboth := (does_runThread f s h hc).both (takes_runThread f self s)
  refine Triple.imp (P := fun w => w.st = s ∧ (NoneWaited w.log ∧ w.st.keepChilds = []) ∧
    w.st.active = []) (T := fun _ w => (NoneWaited w.log ∧ w.st.keepChilds = []) ∧ w.st.active = [])
    ?_ (fun w hw => ⟨hw.1, hw.2, hw.1 ▸ hact⟩) fun _ w hw => hw.1
  refine Triple.weaken
    (S := fun _ w => (NoneWaited w.log ∧ w.st.keepChilds = []) ∧ w.st.active = []) ?_
    fun _ w hw => hw.1.1
  refine Triple.imp (hboth.triple (P := fun w => (NoneWaited w.log ∧ w.st.keepChilds = []) ∧
    w.st.active = []) ?_ fun _ _ _ _ hP => hP) (fun w hw => hw) fun _ w hw => hw.1
  rintro l u log i ⟨hg, hl⟩ ⟨⟨hlog, hkeep⟩, hactive⟩
  have hlog' : NoneWaited ((l, u) :: log) := by
    intro r v hmem
    rcases List.mem_cons.mp hmem with heq | hmem
    · cases heq
      exact hl.elim
    · exact hlog r v hmem
  cases l with
  | edit n e =>
    exact ⟨⟨hlog', (edit_global u n e fun _ _ _ => rfl).trans hkeep⟩,
      (edit_global u n e fun _ _ _ => rfl).trans hactive⟩
  | newRoot type =>
    exact ⟨⟨hlog', (newRoot_global u type fun _ _ _ => rfl).trans hkeep⟩,
      (newRoot_global u type fun _ _ _ => rfl).trans hactive⟩
  | newThread F id =>
    exact ⟨⟨hlog', (newThread_global u F id fun _ _ _ => rfl).trans hkeep⟩,
      (newThread_global u F id fun _ _ _ => rfl).trans hactive⟩
  | moveToKeepChilds n =>
    -- nobody is being executed
    have hmem := hg.2.2.2.2
    rw [hactive] at hmem
    exact absurd hmem List.not_mem_nil
  | moveToFather n F => exact ⟨⟨hlog', hkeep⟩, hactive⟩
  | push e => exact ⟨⟨hlog', hkeep⟩, hactive⟩
  | prjNode n => exact ⟨⟨hlog', hkeep⟩, hactive⟩
  | exit id => exact ⟨⟨hlog', hkeep⟩, hactive⟩
  | _ => exact hl.elim

theorem lasts_statements (f : Nat) : ∀ s : State, Inv s → s.active = [] →
    Triple (fun w => w.st = s ∧ NoneWaited w.log ∧ w.st.keepChilds = []) (statements f)
      (fun _ w => NoneWaited w.log) fun _ w => NoneWaited w.log := by
  induction f with
  | zero => exact fun s _ _ => Triple.stop fun w hw => hw.2.1
  | succ f ih =>
    intro s h hact
    refine Triple.get fun s' => ?_
    refine Triple.imp (P := fun w => w.st = s ∧ NoneWaited w.log ∧ w.st.keepChilds = [] ∧ s' = s)
      (T := fun _ w => NoneWaited w.log) ?_ (fun w hw => ?_) fun _ _ hw => hw
    · refine Triple.bind (T := fun _ w => NoneWaited w.log ∧ w.st.keepChilds = [] ∧ Inv w.st ∧
        w.st.active = []) ?_ fun _ => ?_
      · rintro w ⟨hw, hlog, hkeep, rfl⟩
        have hc : Caller 0 s' s'.mainThread := Or.inl ⟨rfl, rfl⟩
        have hrun := (lasts_runThread f h hc hact).spec (does_runThread f s' h hc) w ⟨hw, hlog, hkeep⟩
        rcases hr : (runThread f s'.mainThread w).1 with e | a
        · rw [hr] at hrun
          exact hrun
        · rw [hr] at hrun
          obtain ⟨⟨hlog', hkeep'⟩, hback, hreach⟩ := hrun
          exact ⟨hlog', hkeep', (h.reach hreach).1, Eq.trans hback hact⟩
      · refine Triple.bind (T := fun _ w => NoneWaited w.log ∧ w.st.keepChilds = [] ∧ Inv w.st ∧
          w.st.active = []) ?_ fun _ => ?_
        · rintro w ⟨hlog, hkeep, hinv, hactive⟩
          have hlasts : Triple (fun v => v.st = w.st ∧ NoneWaited v.log ∧ v.st.keepChilds = [])
              (managerThread f) (fun _ v => NoneWaited v.log ∧ v.st.keepChilds = [])
              fun _ v => NoneWaited v.log :=
            (lasts_managerThread f).imp (fun v hv => hv.2) fun _ _ hv => hv
          have hrun := hlasts.spec (does_managerThread f hinv hactive) w ⟨rfl, hlog, hkeep⟩
          rcases hr : (managerThread f w).1 with e | a
          · rw [hr] at hrun
            exact hrun
          · rw [hr] at hrun
            obtain ⟨⟨hlog', hkeep'⟩, hback, hreach⟩ := hrun
            exact ⟨hlog', hkeep', (hinv.reach hreach).1, Eq.trans hback hactive⟩
        · rintro w ⟨hlog, hkeep, hinv, hactive⟩
          exact ih w.st hinv hactive w ⟨rfl, hlog, hkeep⟩
    · obtain ⟨⟨hs, hlog, hkeep⟩, hs'⟩ := hw
      exact ⟨hs, hlog, hkeep, hs'.symm.trans hs⟩

/-- When the root is deleted nothing waits in keepChilds. -/
theorem run_noneWaited (f : Nat) (mainThread : Tid) (env : Env) (input : List Action) :
    NoneWaited (run f mainThread env input).2.log := by
  have hrun := lasts_statements f (start mainThread env) (inv_start mainThread env) rfl
    ⟨start mainThread env, input, []⟩
    ⟨rfl, fun r s hmem => absurd hmem List.not_mem_nil, rfl⟩
  unfold run
  split at hrun
  · exact hrun
  · exact hrun

/-- **A statement leaves nobody behind**, in every run whose conversions to LEAF and whose moves meet
    `Pairing`.  When its root is deleted every other thread made so far, in this statement or before,
    has been joined; after that the map is empty, and the next statement begins like the first. -/
theorem run_statements_end (f : Nat) (mainThread : Tid) (env : Env)
    (input : List Action) (hpair : EveryStep Pairing (run f mainThread env input).2) :
    ∀ newer r s older,
      (run f mainThread env input).2.log = newer ++ (.destroyRoot r, s) :: older →
      (∀ p ∈ created older, p ∈ joined older ∨ p = (s.birth r, s.thread r)) ∧
      (∀ t, ((Label.destroyRoot r).apply s).threadIDToNode t = none) ∧
      ((Label.destroyRoot r).apply s).threadRoot = none ∧
      ((Label.destroyRoot r).apply s).keepChilds = [] := by
  intro newer r s older heq
  have hmem : (Label.destroyRoot r, s) ∈ (run f mainThread env input).2.log := by
    rw [heq]
    simp
  obtain ⟨h, hroot, hchilds, -⟩ := (run_inv f mainThread env input).2 _ s hmem
  have hkeep := run_noneWaited f mainThread env input r s hmem
  have honly : ∀ n, s.Reg n → n = r := by
    intro n hn
    have hleft := (run_accounted f mainThread env input hpair).2.2 _ s hmem r rfl n hn
    refine hleft.resolve_right ?_
    rintro ⟨c, hc, -⟩
    rw [State.pending, hkeep, List.drop_nil] at hc
    exact List.not_mem_nil hc
  refine ⟨?_, ?_, rfl, hkeep⟩
  · intro p hp
    have hT := (run_threads f mainThread env input).2 newer _ s older heq
    refine ((hT.account p).mp hp).imp_right ?_
    rintro ⟨n, hn, hk, hi⟩
    rw [← honly n hn, hk, hi]
  · intro t
    show Function.update s.threadIDToNode (s.thread r) none t = none
    rw [Function.update_apply]
    split
    · rfl
    · next hne =>
      by_contra hsome
      obtain ⟨n, hn⟩ := Option.ne_none_iff_exists'.mp hsome
      have hthread := (h.map t n hn).2
      have hreg : s.Reg n := by
        show s.threadIDToNode (s.thread n) = some n
        rw [hthread]
        exact hn
      rw [honly n hreg] at hthread
      exact hne hthread.symm

/-- Thread 2 is the only child of an AND; it is EMPTY in its first state, and ends. -/
def oneStateScript : List Action :=
  [.call (.myCreateThread true .and 2), .pause, .call (.setNodeLength .empty), .exit]

/-- It is joined before its father. -/
theorem run_statements_end_one : ∃ newer r s older,
    (run 10 1 plain oneStateScript).2.log = newer ++ (.destroyRoot r, s) :: older ∧
    ∀ p ∈ created older, p ∈ joined older ∨ p = (s.birth r, s.thread r) := by
  have hlast : (run 10 1 plain oneStateScript).2.log.head?.map Prod.fst =
      some (.destroyRoot 0) := by
    decide +kernel
  obtain ⟨⟨l, s⟩, hhead, rfl⟩ := Option.map_eq_some_iff.mp hlast
  obtain ⟨older, heq⟩ := List.head?_eq_some_iff.mp hhead
  exact ⟨[], 0, s, older, heq,
    (run_statements_end 10 1 plain oneStateScript (by decide +kernel) [] 0 s older heq).1⟩

end Msvl.Function
