/-
  Whole runs of AND and PAL statements over leaves.

  The program: for each statement the main thread creates the threads and waits; each thread lasts a
  number of states, ends its interval in the last of them and exits, or is killed.  `run_parallel` says
  what all of the code makes of that: `Init` and `MyCreateThread`, the states of ManagerThread, the
  turns, setAndLen and setPalLen, isCorrectAndExit, `~Node`.

  1. `ParStatement` — a statement; its input, and the turns it should have.
  2. `Forked` — the tree while the main thread creates the threads (`consumes_forks`).
  3. `consumes_sort_idle`, `consumes_states_row` — the end of a state, and all states of a statement.
  4. `Clean` — between two statements; `consumes_statement` leads from one to the next.
  5. `run_parallel` — all statements.
-/
import LibMSVL.Function.Parallel
import Mathlib.Order.MinMax

namespace Msvl.Function

open Msvl.Run

/-! ## Statements -/

/-- A thread of a statement: it ends its interval in state `last`, and then exits or pauses. -/
structure Worker where
  id : Tid
  last : Nat
  exits : Bool
  deriving DecidableEq, Repr

structure ParStatement where
  type : CreateType
  workers : List Worker
  deriving DecidableEq, Repr

/-- What the thread does in state `t`. -/
def Worker.acts (w : Worker) (t : Nat) : List Action :=
  if t = w.last then [.call (.setNodeLength .empty), if w.exits then .exit else .pause] else [.pause]

/-- The threads that have not ended before state `t`. -/
def ParStatement.lasting (p : ParStatement) (t : Nat) : List Worker :=
  p.workers.filter fun w => t ≤ w.last

/-- The last state of the statement. -/
def ParStatement.last (p : ParStatement) : Nat := (p.workers.map Worker.last).foldr max 0

/-- What the main thread does, and then the threads, state by state. -/
def ParStatement.input (p : ParStatement) : List Action :=
  p.workers.map (fun w => .call (.myCreateThread true p.type w.id)) ++ [.pause] ++
    (List.range (p.last + 1)).flatMap fun t => (p.lasting t).flatMap fun w => w.acts t

/-- The turns, where the root is at `n`: in each state those that have not ended, in the order of
    their creation. -/
def ParStatement.turns (p : ParStatement) (n : Ptr) : List Ptr :=
  (List.range (p.last + 1)).flatMap fun t =>
    ((p.workers.zipIdx (n + 1)).filter fun x => t ≤ x.1.last).map Prod.snd

/-- AND or PAL, at least one thread, and different ids that `pthread_create` can return. -/
structure ParStatement.Proper (p : ParStatement) (mainThread : Tid) : Prop where
  type : p.type = .and ∨ p.type = .pal
  some : p.workers ≠ []
  ids : (p.workers.map Worker.id).Nodup
  id : ∀ w ∈ p.workers, w.id ≠ 0 ∧ w.id ≠ mainThread

/-- What the bound on loops and recursions must allow for a statement. -/
def ParStatement.size (p : ParStatement) : Nat := p.workers.length + p.last + 7

/-! ## The main thread creates the threads -/

theorem heap_newRoot (s : State) (ty : NodeType) (x : Ptr) :
    (newRoot s ty).heap x = if x = s.next then rootNode s ty else s.heap x := by
  have hcons : newRoot s ty = ({ s with
      next := s.next + 1, nextLock := s.nextLock + 2, births := s.births + 1, threadRoot := some s.next,
      heap := fun x => if x = s.next then rootNode s ty else s.heap x,
      threadIDToNode := Function.update s.threadIDToNode s.mainThread (some s.next) } : State) := by
    unfold newRoot construct
    cases ty <;> simp [rootNode, State.setFathers]
  rw [hcons]

theorem heap_newThread (s : State) {n : Ptr} (hn : n ≠ s.next) (id : Tid) (x : Ptr) :
    (newThread s n id).heap x = if x = s.next then leafNode s n id
      else if x = n then { s.heap n with childs := s.childs n ++ [s.next] } else s.heap x := by
  unfold newThread construct
  simp only [leafNode, State.setFathers, State.modify, List.not_mem_nil, if_false]
  by_cases hx : x = s.next
  · subst hx
    rw [if_neg (Ne.symm hn), if_pos rfl, if_pos rfl]
  · rw [if_neg hx, if_neg hx]
    by_cases hxn : x = n
    · subst hxn
      rw [if_pos rfl]
    · rw [if_neg hxn, if_neg hxn]

/-- The leaf `c` under `n`, whose thread has not had a turn. -/
structure Waiting (u : State) (n c : Ptr) (id : Tid) : Prop where
  type : (u.heap c).type = .leaf
  newType : (u.heap c).newType = .leaf
  father : (u.heap c).father = some n
  childs : (u.heap c).childs = []
  len : (u.heap c).len = .more
  thread : (u.heap c).thread = id
  map : u.threadIDToNode id = some c
  exited : u.exited id = false

/-- In a statement that began in `s` the root `n` and the threads `ws` have been created. -/
structure Forked (s : State) (n : Ptr) (ty : NodeType) (ws : List Worker) (u : State) : Prop where
  type : (u.heap n).type = ty
  newType : (u.heap n).newType = ty
  len : (u.heap n).len = .more
  childs : (u.heap n).childs = List.range' (n + 1) ws.length
  leaf : ∀ i w, ws[i]? = some w → Waiting u n (n + 1 + i) w.id
  main : u.threadIDToNode s.mainThread = some n
  others : ∀ id, id ≠ s.mainThread → id ∉ ws.map Worker.id → u.threadIDToNode id = none
  next : u.next = n + 1 + ws.length
  threadRoot : u.threadRoot = some n
  mainThread : u.mainThread = s.mainThread
  prsnt : u.prsnt = s.prsnt
  keepChilds : u.keepChilds = s.keepChilds
  keepPos : u.keepPos = s.keepPos
  prjNode : u.prjNode = s.prjNode
  env : u.env = s.env
  runs : u.exited s.mainThread = s.exited s.mainThread

section

variable {s u : State} {n : Ptr} {ty : NodeType} {ws : List Worker}

/-- `Init` -/
theorem forked_newRoot (hmap : ∀ id, s.threadIDToNode id = none) (ty : NodeType) :
    Forked s s.next ty [] (newRoot s ty) := by
  have hheap : (newRoot s ty).heap s.next = rootNode s ty := (heap_newRoot s ty s.next).trans (if_pos rfl)
  refine ⟨by rw [hheap]; rfl, by rw [hheap]; rfl, by rw [hheap]; rfl, by rw [hheap]; rfl, nofun, ?_, ?_,
    newRoot_global s ty fun _ _ _ => rfl, newRoot_global s ty fun _ _ _ => rfl,
    newRoot_global s ty fun _ _ _ => rfl, newRoot_global s ty fun _ _ _ => rfl,
    newRoot_global s ty fun _ _ _ => rfl, newRoot_global s ty fun _ _ _ => rfl,
    newRoot_global s ty fun _ _ _ => rfl, newRoot_global s ty fun _ _ _ => rfl,
    congrFun (newRoot_global (φ := State.exited) s ty fun _ _ _ => rfl) _⟩
  · rw [newRoot_map, Function.update_self]
  · intro id hid _
    rw [newRoot_map, Function.update_of_ne hid]
    exact hmap id

/-- The root is asked for the type it has. -/
theorem request_same (h : (u.heap n).newType = ty) : (Label.edit n (.request ty)).apply u = u := by
  have hheap : (u.modify n (Edit.request ty).apply).heap = u.heap := by
    funext x
    rw [heap_modify]
    split
    · next hx =>
      subst hx
      rw [← h]
      rfl
    · rfl
  show ({ u with heap := (u.modify n (Edit.request ty).apply).heap } : State) = u
  rw [hheap]

/-- **One more thread.** -/
theorem Forked.fork (h : Forked s n ty ws u) {w : Worker} (hw : w.id ≠ s.mainThread)
    (hnew : w.id ∉ ws.map Worker.id) : Forked s n ty (ws ++ [w]) (newThread u n w.id) := by
  have hnext := h.next
  have hle := Nat.le_of_eq hnext.symm
  have hn : n ≠ u.next := Nat.ne_of_lt (by omega)
  have hheap := heap_newThread u hn w.id
  have hroot : (newThread u n w.id).heap n =
      { u.heap n with childs := (u.heap n).childs ++ [n + 1 + ws.length] } := by
    rw [hheap, if_neg hn, if_pos rfl, hnext]
  have hmap : ∀ id, (newThread u n w.id).threadIDToNode id =
      if id = w.id then some (n + 1 + ws.length) else u.threadIDToNode id := by
    intro id
    rw [newThread_map, Function.update_apply, hnext]
  have hexited : (newThread u n w.id).exited = Function.update u.exited w.id false :=
    newThread_global u n w.id fun _ _ _ => rfl
  refine ⟨by rw [hroot]; exact h.type, by rw [hroot]; exact h.newType, by rw [hroot]; exact h.len,
    ?_, ?_, ?_, ?_, ?_, ?_, ?_, ?_, ?_, ?_, ?_, ?_, ?_⟩
  · rw [hroot, List.length_append, List.length_singleton, List.range'_1_concat, h.childs]
  · intro i v hv
    rw [List.getElem?_append] at hv
    split at hv
    · next hi =>
      -- an earlier one
      have hold := h.leaf i v hv
      have hid : v.id ≠ w.id := by
        intro heq
        exact hnew (heq ▸ List.mem_map_of_mem (List.mem_of_getElem? hv))
      have hsame : (newThread u n w.id).heap (n + 1 + i) = u.heap (n + 1 + i) := by
        rw [hheap, if_neg (Nat.ne_of_lt (Nat.lt_of_lt_of_le (Nat.add_lt_add_left hi _) hle)),
          if_neg (Nat.ne_of_gt (by omega))]
      refine ⟨by rw [hsame]; exact hold.type, by rw [hsame]; exact hold.newType,
        by rw [hsame]; exact hold.father, by rw [hsame]; exact hold.childs,
        by rw [hsame]; exact hold.len, by rw [hsame]; exact hold.thread, ?_, ?_⟩
      · rw [hmap, if_neg hid]
        exact hold.map
      · rw [hexited, Function.update_of_ne hid]
        exact hold.exited
    · next hi =>
      -- the new one
      obtain ⟨hi0, rfl⟩ : i = ws.length ∧ w = v := by
        rw [List.getElem?_singleton] at hv
        split at hv
        · next h0 =>
          have hle : (i : Nat) ≤ ws.length := Nat.sub_eq_zero_iff_le.mp h0
          exact ⟨Nat.le_antisymm hle (Nat.not_lt.mp hi), Option.some.inj hv⟩
        · cases hv
      subst hi0
      have hself : (newThread u n w.id).heap (n + 1 + ws.length) = leafNode u n w.id := by
        rw [hheap, if_pos hnext.symm]
      refine ⟨by rw [hself]; rfl, by rw [hself]; rfl, by rw [hself]; rfl, by rw [hself]; rfl,
        by rw [hself]; rfl, by rw [hself]; rfl, ?_, ?_⟩
      · rw [hmap, if_pos rfl]
      · rw [hexited, Function.update_self]
  · rw [hmap, if_neg (Ne.symm hw)]
    exact h.main
  · intro id hid hother
    rw [List.map_append, List.mem_append, List.map_singleton, List.mem_singleton, not_or] at hother
    rw [hmap, if_neg hother.2]
    exact h.others id hid hother.1
  · rw [List.length_append, List.length_singleton]
    refine (newThread_global u n w.id (φ := State.next) fun _ _ _ => rfl).trans ?_
    show u.next + 1 = _
    rw [hnext, Nat.add_assoc]
  · exact (newThread_global u n w.id fun _ _ _ => rfl).trans h.threadRoot
  · exact (newThread_global u n w.id fun _ _ _ => rfl).trans h.mainThread
  · exact (newThread_global u n w.id fun _ _ _ => rfl).trans h.prsnt
  · exact (newThread_global u n w.id fun _ _ _ => rfl).trans h.keepChilds
  · exact (newThread_global u n w.id fun _ _ _ => rfl).trans h.keepPos
  · exact (newThread_global u n w.id fun _ _ _ => rfl).trans h.prjNode
  · exact (newThread_global u n w.id fun _ _ _ => rfl).trans h.env
  · rw [hexited, Function.update_of_ne (Ne.symm hw)]
    exact h.runs

/-- `MyCreateThread`, with or without `Init`. -/
theorem consumes_myCreateThread {cty : CreateType} (hty : cty.nodeType = some ty) {w : Worker}
    (hw : w.id ≠ 0 ∧ w.id ≠ s.mainThread) (hnew : w.id ∉ ws.map Worker.id)
    (hinit : Consumes turnOf (when u.threadRoot.isNone (init ty)) u []
      fun _ o v => o = [] ∧ Forked s n ty ws v) :
    Consumes turnOf (myCreateThread s.mainThread true cty w.id) u []
      fun _ o v => o = [] ∧ Forked s n ty (ws ++ [w]) v := by
  unfold myCreateThread
  rw [hty]
  refine Consumes.get (hinit.bind_nil ?_)
  rintro _ _ v ⟨rfl, hv⟩
  refine Consumes.get ?_
  rw [hv.main]
  refine Consumes.act_bind ?_
  rw [request_same hv.newType, if_neg (by decide)]
  have hfresh : v.Fresh w.id := ⟨hw.1, by rw [hv.mainThread]; exact hw.2, hv.others w.id hw.2 hnew⟩
  rw [if_pos hfresh]
  exact Consumes.act ⟨rfl, hv.fork hw.2 hnew⟩

/-- The main thread creates the rest of the threads, and waits. -/
theorem consumes_forks {cty : CreateType} (hty : cty.nodeType = some ty) (rest : List Worker) (g : Nat) :
    ∀ (ws : List Worker) (u : State), Forked s n ty ws u → ((ws ++ rest).map Worker.id).Nodup →
      (∀ w ∈ rest, w.id ≠ 0 ∧ w.id ≠ s.mainThread) →
      Consumes turnOf (runThread (rest.length + (g + 1)) s.mainThread) u
        (rest.map (fun w => .call (.myCreateThread true cty w.id)) ++ [.pause])
        fun _ o v => o = [] ∧ Forked s n ty (ws ++ rest) v := by
  induction rest with
  | nil =>
    intro ws u h _ _
    rw [List.length_nil, Nat.zero_add, runThread]
    refine Consumes.read (Consumes.pure ⟨rfl, ?_⟩)
    rwa [List.append_nil]
  | cons w rest ih =>
    intro ws u h hids hw
    rw [List.append_cons] at hids
    have hnew : w.id ∉ ws.map Worker.id := by
      have hpre := (List.nodup_append.mp (List.map_append ▸ hids)).1
      rw [List.map_append, List.map_singleton, List.nodup_append] at hpre
      exact fun hcon => hpre.2.2 _ hcon _ (List.mem_singleton_self _) rfl
    rw [List.length_cons, Nat.add_right_comm, runThread]
    have hcreate : Consumes turnOf (myCreateThread s.mainThread true cty w.id) u []
        fun _ o v => o = [] ∧ Forked s n ty (ws ++ [w]) v := by
      refine consumes_myCreateThread hty (hw w List.mem_cons_self) hnew ?_
      rw [h.threadRoot]
      exact Consumes.pure ⟨rfl, h⟩
    refine Consumes.read (hcreate.bind_nil ?_)
    rintro _ _ v ⟨rfl, hv⟩
    have hnext := ih (ws ++ [w]) v hv hids fun x hx => hw x (List.mem_cons_of_mem _ hx)
    rw [List.append_assoc] at hnext
    exact hnext

/-- The tree when the main thread waits. -/
theorem Forked.row (h : Forked s n ty ws u) (hpar : ty.Par) (hne : ws ≠ [])
    (hid : ∀ w ∈ ws, w.id ≠ 0 ∧ w.id ≠ s.mainThread) :
    Row u n ty (List.range' (n + 1) ws.length) fun _ => false := by
  have hleaf : ∀ c ∈ List.range' (n + 1) ws.length, ∃ w ∈ ws, Waiting u n c w.id := by
    intro c hc
    obtain ⟨i, hi, rfl⟩ := List.mem_range'.mp hc
    rw [Nat.one_mul]
    exact ⟨ws[i], List.getElem_mem hi, h.leaf i _ (List.getElem?_eq_getElem hi)⟩
  have hall : ((List.range' (n + 1) ws.length).all fun _ => false) = false := by
    rw [Bool.eq_false_iff, Ne, List.all_eq_true]
    intro hcon
    have hpos : 0 < ws.length := List.length_pos_iff.mpr hne
    exact Bool.false_ne_true (hcon (n + 1)
      (List.mem_range'_1.mpr ⟨Nat.le_refl _, Nat.lt_add_of_pos_right hpos⟩))
  refine ⟨⟨?_, ?_, ?_, ?_, ?_, ?_⟩, h.type, h.childs, ?_, ?_, nofun, ?_, ?_, ?_⟩
  · rw [State.type, h.type]
    rcases hpar with rfl | rfl <;> trivial
  · rw [State.childs, h.childs]
    intro c hc
    obtain ⟨w, -, hw⟩ := hleaf c hc
    rw [State.type, hw.type]
    exact id
  · rw [State.childs, h.childs]
    intro c hc
    obtain ⟨w, -, hw⟩ := hleaf c hc
    rw [State.Reg, hw.thread]
    exact hw.map
  · rw [State.childs, h.childs]
    intro c hc _
    obtain ⟨w, -, hw⟩ := hleaf c hc
    exact hw.childs
  · rw [State.childs, h.childs]
    exact List.nodup_range'
  · rw [State.childs, h.childs, h.threadRoot]
    rintro c hc heq
    obtain rfl := Option.some.inj heq
    exact absurd (List.mem_range'_1.mp hc).1 (Nat.not_succ_le_self n)
  · intro c hc
    obtain ⟨w, -, hw⟩ := hleaf c hc
    exact ⟨hw.type, hw.newType, hw.father⟩
  · intro c hc _
    obtain ⟨w, hmem, hw⟩ := hleaf c hc
    refine ⟨hw.len, ?_⟩
    rw [State.isExit, hw.thread, hw.exited, Bool.or_false, beq_eq_false_iff_ne]
    exact (hid w hmem).1
  · intro c hc
    obtain ⟨w, hmem, hw⟩ := hleaf c hc
    rw [State.thread, hw.thread, h.mainThread]
    exact (hid w hmem).2
  · rw [hall]
    exact h.len
  · rw [hall]
    exact h.newType

/-- The root and its children are the only nodes. -/
theorem Forked.only (h : Forked s n ty ws u) (id : Tid) (x : Ptr) (hx : u.threadIDToNode id = some x) :
    x = n ∨ u.father x = some n := by
  by_cases hmain : id = s.mainThread
  · rw [hmain, h.main] at hx
    exact Or.inl (Option.some.inj hx).symm
  · by_cases hmem : id ∈ ws.map Worker.id
    · obtain ⟨w, hw, rfl⟩ := List.mem_map.mp hmem
      obtain ⟨i, hi⟩ := List.mem_iff_getElem?.mp hw
      have hleaf := h.leaf i w hi
      rw [hleaf.map] at hx
      obtain rfl := Option.some.inj hx
      exact Or.inr hleaf.father
    · rw [h.others id hmain hmem] at hx
      cases hx

end

/-! ## The states of a statement -/

theorem Adds.prsnt_eq {s u : State} (h : Adds 0 s u) : u.prsnt = s.prsnt := by
  obtain ⟨es, hes, heq⟩ := h.prsnt
  rw [heq, List.length_eq_zero_iff.mp hes, List.append_nil]

theorem Scripts.mono {k : Ptr → Nat} {script : Ptr → Nat → List Action} {f f' : Nat} {cs : List Ptr}
    (h : Scripts k script f cs) (hf : f ≤ f') : Scripts k script f' cs :=
  ⟨h.turn, fun c r => Nat.le_trans (h.short c r) hf⟩

/-- The manager resets `changedNode` and `prjNode`. -/
theorem Row.reset {s : State} {n : Ptr} {ty : NodeType} {cs : List Ptr} {isOver : Ptr → Bool}
    (h : Row s n ty cs isOver) :
    Row ((Label.prjNode none).apply ((Label.changedNode none).apply s)) n ty cs isOver :=
  ⟨⟨h.flat.composite, h.flat.terminal, h.flat.reg, h.flat.bare, h.flat.nodup, h.flat.root⟩, h.type,
    h.childs, h.leaf, h.live, h.past, h.main, h.len, h.newType⟩

section

variable {s : State} {n : Ptr} {ty : NodeType} {cs : List Ptr} {isOver : Ptr → Bool} {f : Nat}

theorem consumes_isCorrectAndExit (hpar : ty.Par) (h : Row s n ty cs isOver) (hne : cs ≠ [])
    (hf : cs.length ≤ f) : Consumes turnOf (isCorrectAndExit (f + 2) n) s [] fun b o u =>
      b = cs.all isOver ∧ o = [] ∧ Row u n ty (cs.filter fun c => !isOver c) (fun _ => false) ∧
      Adds 0 s u := by
  rw [isCorrectAndExit]
  refine Consumes.get ?_
  rcases hpar with rfl | rfl
  · rw [show (s.heap n).type = .and from h.type]
    exact consumes_andCheck h hne hf
  · rw [show (s.heap n).type = .pal from h.type]
    exact consumes_palCheck h hf

/-- The end of a state in which nothing has been pushed and nothing handed over. -/
theorem consumes_sort_idle (hpar : ty.Par) (h : Row s n ty cs isOver) (hne : cs ≠ [])
    (hf : cs.length ≤ f) (hprj : s.prjNode = none) (hprsnt : s.prsnt = []) (hkeep : s.keepChilds = []) :
    Consumes turnOf (sort (f + 3) n) s [] fun _ o u =>
      o = [] ∧ Row u n ty (cs.filter fun c => !isOver c) (fun _ => false) ∧ Adds 0 s u := by
  have hdeferred : Consumes turnOf (deferredPrj (f + 2)) s [] fun _ o u => o = [] ∧ u = s := by
    unfold deferredPrj
    refine Consumes.get ?_
    rw [hprj]
    exact Consumes.pure ⟨rfl, rfl⟩
  have hdrain : Consumes turnOf (drain (f + 2)) s [] fun b o u => b = false ∧ o = [] ∧ u = s := by
    rw [drain]
    refine Consumes.get ?_
    rw [hprsnt]
    exact Consumes.pure ⟨rfl, rfl, rfl⟩
  rw [sort]
  refine hdeferred.bind_nil ?_
  rintro _ _ _ ⟨rfl, rfl⟩
  refine hdrain.bind_nil ?_
  rintro _ _ _ ⟨rfl, rfl, rfl⟩
  rw [if_neg Bool.false_ne_true]
  refine (consumes_isCorrectAndExit hpar h hne hf).bind_nil ?_
  rintro _ _ u ⟨-, rfl, hrow, hadds⟩
  refine Consumes.get ?_
  rw [if_pos (by rw [hadds.keepChilds, hkeep]; rfl)]
  exact Consumes.act ⟨rfl, hrow, hadds⟩

variable {k : Ptr → Nat} {script : Ptr → Nat → List Action}

/-- **All states of a statement**, by induction on the number of states to come. -/
theorem consumes_states_row (hpar : ty.Par) (hs : Scripts k script f cs) (hf : cs.length ≤ f)
    (hquiet : ∀ t, pushCount (parInput k script cs t) = 0) {last : Nat}
    (hlast : ∀ t, running k cs t ≠ [] ↔ t ≤ last) (d : Nat) : ∀ (t : Nat) (s : State), t + d = last + 1 →
      (∀ c ∈ cs, s.env.handler = true ∨ Exits (script c (k c))) →
      Row s n ty (running k cs t) (fun _ => false) → s.prjNode = none → s.prsnt = [] →
      s.keepChilds = [] →
      Consumes turnOf (states (d + (f + 4)) n) s ((List.range' t d).flatMap (parInput k script cs))
        fun _ o u => o = (List.range' t d).flatMap (running k cs) ∧ Row u n ty [] (fun _ => false) ∧
          Adds 0 s u := by
  induction d with
  | zero =>
    intro t s ht _ h _ _ _
    have hnil : running k cs t = [] := by
      by_contra hcon
      have := (hlast t).mp hcon
      omega
    rw [hnil] at h
    rw [Nat.zero_add, states]
    refine Consumes.get ?_
    rw [if_pos (Or.inl (show (s.heap n).newType = .leaf from h.newType))]
    exact Consumes.pure ⟨rfl, h, Adds.refl s⟩
  | succ d ih =>
    intro t s ht hdel h hprj hprsnt hkeep
    have hne : running k cs t ≠ [] := (hlast t).mpr (by omega)
    have hlen : (running k cs t).length ≤ f := Nat.le_trans (List.length_filter_le _ _) hf
    have hgoes : ((running k cs t).all fun _ => false) = false := by
      obtain ⟨c, hc⟩ := List.exists_mem_of_ne_nil _ hne
      rw [Bool.eq_false_iff, Ne, List.all_eq_true]
      exact fun hcon => Bool.false_ne_true (hcon c hc)
    have hself : ((running k cs t).filter fun _ => !false) = running k cs t :=
      List.filter_eq_self.mpr fun _ _ => rfl
    rw [Nat.add_right_comm, states]
    refine Consumes.get ?_
    have hopen : ¬ ((s.heap n).newType = .leaf ∨ (s.heap n).len = .empty) := by
      have hnew := h.newType
      rw [hgoes] at hnew
      rw [h.len, hgoes, show (s.heap n).newType = ty from hnew]
      rcases hpar with rfl | rfl <;> simp
    rw [if_neg hopen, List.range'_succ, List.flatMap_cons, List.flatMap_cons]
    -- the turns
    refine Consumes.bind (consumes_parState (f := d + f + 2) hpar (hs.mono (by omega)) hdel (by omega)
      hself hne h) ?_
    rintro _ _ u ⟨rfl, hrow, hadds⟩
    rw [hquiet t] at hadds
    refine Consumes.act_bind (Consumes.act_bind ?_)
    -- the end of the state
    have hreset : Adds 0 s ((Label.prjNode none).apply ((Label.changedNode none).apply u)) :=
      ⟨hadds.prsnt, hadds.keepChilds, hadds.keepPos, hprj.symm, hadds.threadRoot, hadds.mainThread,
        hadds.next, hadds.map, hadds.father, hadds.env, hadds.main⟩
    have hrow := hrow.reset
    generalize (Label.prjNode none).apply ((Label.changedNode none).apply u) = v at *
    refine (consumes_sort_idle (f := d + f + 1) hpar hrow hne (by omega) (hreset.prjNode.trans hprj)
      (hreset.prsnt_eq.trans hprsnt) (hreset.keepChilds.trans hkeep)).bind_nil ?_
    rintro _ _ w ⟨rfl, hroww, haddsw⟩
    have hadds := hreset.trans haddsw
    have hnext : ((running k cs t).filter fun c => !decide (k c < t + 1)) = running k cs (t + 1) := by
      rw [running, List.filter_filter, running]
      refine List.filter_congr fun c _ => ?_
      rw [Bool.eq_iff_iff]
      simp
      omega
    rw [hnext] at hroww
    refine (ih (t + 1) w (by omega) (by rw [hadds.env]; exact hdel) hroww
      (hadds.prjNode.trans hprj) (hadds.prsnt_eq.trans hprsnt)
      (hadds.keepChilds.trans hkeep)).imp ?_
    rintro _ o x ⟨rfl, hx, haddsx⟩
    exact ⟨rfl, hx, hadds.trans haddsx⟩

end

/-! ## The leaves of a statement -/

/-- The thread whose leaf is at `c`, where the root is at `n`. -/
def workerAt (n : Ptr) (ws : List Worker) (c : Ptr) : Worker := ws.getD (c - (n + 1)) ⟨0, 0, false⟩

theorem map_workerAt (n : Ptr) (ws : List Worker) :
    (List.range' (n + 1) ws.length).map (workerAt n ws) = ws := by
  refine List.ext_getElem (by simp) fun i _ hi => ?_
  rw [List.getElem_map, List.getElem_range', Nat.one_mul, workerAt, Nat.add_sub_cancel_left,
    List.getD_eq_getElem?_getD, List.getElem?_eq_getElem hi, Option.getD_some]

section

variable (p : ParStatement) (n : Ptr) (t : Nat)

/-- The addresses of the leaves. -/
def ParStatement.leaves : List Ptr := List.range' (n + 1) p.workers.length

theorem parInput_leaves :
    parInput (fun c => (workerAt n p.workers c).last) (fun c t => (workerAt n p.workers c).acts t)
      (p.leaves n) t = (p.lasting t).flatMap fun w => w.acts t := by
  unfold parInput running ParStatement.lasting ParStatement.leaves
  conv_rhs => rw [← map_workerAt n p.workers]
  rw [List.filter_map, List.flatMap_map]
  rfl

theorem running_leaves : running (fun c => (workerAt n p.workers c).last) (p.leaves n) t =
    ((p.workers.zipIdx (n + 1)).filter fun x => t ≤ x.1.last).map Prod.snd := by
  have hzip : p.workers.zipIdx (n + 1) = (p.leaves n).map fun c => (workerAt n p.workers c, c) := by
    rw [List.zipIdx_eq_zip_range', List.map_prod_right_eq_zip]
    unfold ParStatement.leaves
    rw [map_workerAt]
  rw [hzip, List.filter_map, List.map_map]
  exact (List.map_id _).symm

omit n in
theorem ParStatement.le_last {p : ParStatement} (hne : p.workers ≠ []) :
    t ≤ p.last ↔ ∃ w ∈ p.workers, t ≤ w.last := by
  have hmax : ∀ l : List Nat, t ≤ l.foldr max 0 ↔ t = 0 ∨ ∃ x ∈ l, t ≤ x := by
    intro l
    induction l with
    | nil => simp
    | cons x l ih =>
      rw [List.foldr_cons, le_max_iff, ih]
      simp only [List.mem_cons, exists_eq_or_imp]
      tauto
  unfold ParStatement.last
  rw [hmax]
  constructor
  · rintro (rfl | ⟨x, hx, hle⟩)
    · obtain ⟨w, hw⟩ := List.exists_mem_of_ne_nil _ hne
      exact ⟨w, hw, Nat.zero_le _⟩
    · obtain ⟨w, hw, rfl⟩ := List.mem_map.mp hx
      exact ⟨w, hw, hle⟩
  · rintro ⟨w, hw, hle⟩
    exact Or.inr ⟨_, List.mem_map_of_mem hw, hle⟩

/-- The statement lasts as long as its longest interval. -/
theorem running_ne_nil (hne : p.workers ≠ []) :
    running (fun c => (workerAt n p.workers c).last) (p.leaves n) t ≠ [] ↔ t ≤ p.last := by
  rw [ParStatement.le_last t hne, Ne, running, List.filter_eq_nil_iff, not_forall₂]
  simp only [decide_eq_true_eq, not_not]
  constructor
  · rintro ⟨c, hc, hle⟩
    have hmem := List.mem_map_of_mem (f := workerAt n p.workers) hc
    rw [ParStatement.leaves, map_workerAt] at hmem
    exact ⟨_, hmem, hle⟩
  · rintro ⟨w, hw, hle⟩
    rw [← map_workerAt n p.workers] at hw
    obtain ⟨c, hc, rfl⟩ := List.mem_map.mp hw
    exact ⟨c, hc, hle⟩

theorem pushCount_leaves : pushCount (parInput (fun c => (workerAt n p.workers c).last)
    (fun c t => (workerAt n p.workers c).acts t) (p.leaves n) t) = 0 := by
  rw [pushCount, List.countP_eq_zero]
  intro a ha
  obtain ⟨c, -, ha⟩ := List.mem_flatMap.mp ha
  have ha : a ∈ (workerAt n p.workers c).acts t := ha
  unfold Worker.acts at ha
  split at ha
  · rcases List.mem_cons.mp ha with rfl | ha
    · exact Bool.false_ne_true
    · rw [List.mem_singleton] at ha
      subst ha
      cases (workerAt n p.workers c).exits <;> exact Bool.false_ne_true
  · rw [List.mem_singleton] at ha
    subst ha
    exact Bool.false_ne_true

theorem scripts_leaves {f : Nat} (hf : 2 ≤ f) : Scripts (fun c => (workerAt n p.workers c).last)
    (fun c t => (workerAt n p.workers c).acts t) f (p.leaves n) := by
  constructor
  · intro c _ r _
    unfold Worker.acts
    split
    · next hr =>
      rw [decide_eq_true hr]
      refine ⟨[], [], _, nofun, nofun, ?_, rfl⟩
      split
      · exact Or.inr rfl
      · exact Or.inl rfl
    · next hr =>
      rw [decide_eq_false hr]
      exact ⟨[], nofun, rfl⟩
  · intro c r
    refine Nat.le_trans ?_ hf
    unfold Worker.acts
    split
    · exact Nat.le_refl 2
    · exact Nat.le_succ 1

/-- A thread that exits with its last turn need not be signalled. -/
theorem exits_leaves {c : Ptr} (hc : c ∈ p.leaves n) (h : ∀ w ∈ p.workers, w.exits = true) :
    Exits ((workerAt n p.workers c).acts (workerAt n p.workers c).last) := by
  have hmem := List.mem_map_of_mem (f := workerAt n p.workers) hc
  rw [ParStatement.leaves, map_workerAt] at hmem
  rw [Worker.acts, if_pos rfl, h _ hmem]
  rfl

end

/-! ## From one statement to the next -/

/-- Between two statements. -/
structure Clean (s : State) : Prop where
  inv : Inv s
  active : s.active = []
  threadRoot : s.threadRoot = none
  map : ∀ id, s.threadIDToNode id = none
  prsnt : s.prsnt = []
  keepChilds : s.keepChilds = []
  prjNode : s.prjNode = none
  runs : s.exited s.mainThread = false

theorem clean_start (mainThread : Tid) (env : Env) : Clean (start mainThread env) :=
  ⟨inv_start mainThread env, rfl, rfl, fun _ => rfl, rfl, rfl, rfl, rfl⟩

/-- When the leaves are gone the root is the only node. -/
theorem root_only {s : State} {n x : Ptr} {id : Tid} (h : Inv s) (hroot : s.threadRoot = some n)
    (hchilds : s.childs n = []) (hkeep : s.keepChilds = []) (hx : s.threadIDToNode id = some x)
    (hfather : x = n ∨ s.father x = some n ∨ s.father x = none) : x = n := by
  have hreg : s.Reg x := by
    show s.threadIDToNode (s.thread x) = some x
    rw [(h.map id x hx).2]
    exact hx
  rcases hfather with rfl | hf | hf
  · rfl
  · rcases h.att x hreg n hf (h.root n hroot).1 with ⟨i, hi⟩ | hp
    · rw [State.At, hchilds] at hi
      cases hi
    · rw [State.pending, hkeep, List.drop_nil] at hp
      cases hp
  · have hone := h.rootOnly x hreg hf
    rw [hroot] at hone
    exact (Option.some.inj hone).symm

theorem proper_type {p : ParStatement} {mainThread : Tid} (hp : p.Proper mainThread) :
    ∃ ty, p.type.nodeType = some ty ∧ ty.Par := by
  rcases hp.type with h | h
  · exact ⟨.and, by rw [h]; rfl, Or.inl rfl⟩
  · exact ⟨.pal, by rw [h]; rfl, Or.inr rfl⟩

section

variable {s : State} {p : ParStatement} {f : Nat} (hs : Clean s) (hp : p.Proper s.mainThread)
  (hf : p.size ≤ f)

include hs hp hf

/-- The main thread's part. -/
theorem consumes_main {ty : NodeType} (hty : p.type.nodeType = some ty) (hpar : ty.Par) :
    Consumes turnOf (runThread f s.mainThread) s
      (p.workers.map (fun w => .call (.myCreateThread true p.type w.id)) ++ [.pause])
      fun _ o u => o = [] ∧ Forked s s.next ty p.workers u := by
  obtain ⟨type, workers⟩ := p
  cases workers with
  | nil => exact absurd rfl hp.some
  | cons w rest =>
    unfold ParStatement.size at hf
    simp only [List.length_cons] at hf
    obtain ⟨g, rfl⟩ : ∃ g, f = rest.length + (g + 1) + 1 := ⟨f - rest.length - 2, by omega⟩
    have hinit : Consumes turnOf (when s.threadRoot.isNone (init ty)) s []
        fun _ o v => o = [] ∧ Forked s s.next ty [] v := by
      rw [hs.threadRoot]
      show Consumes turnOf (init ty) _ _ _
      unfold init
      refine Consumes.get ?_
      rw [if_pos (hs.map s.mainThread)]
      rcases hpar with rfl | rfl
      · exact Consumes.act ⟨rfl, forked_newRoot hs.map .and⟩
      · exact Consumes.act ⟨rfl, forked_newRoot hs.map .pal⟩
    rw [runThread]
    refine Consumes.read ((consumes_myCreateThread hty (hp.id w List.mem_cons_self) List.not_mem_nil
      hinit).bind_nil ?_)
    rintro _ _ v ⟨rfl, hv⟩
    exact consumes_forks hty rest g [w] v hv hp.ids fun x hx => hp.id x (List.mem_cons_of_mem _ hx)

/-- The states of the statement. -/
theorem consumes_statesOf {ty : NodeType} (hpar : ty.Par) {u : State} (hu : Forked s s.next ty p.workers u)
    (hinv : Inv u) (hactive : u.active = []) (hdel : s.env.handler = true ∨ ∀ w ∈ p.workers, w.exits = true) :
    Consumes turnOf (states f s.next) u
      ((List.range (p.last + 1)).flatMap fun t => (p.lasting t).flatMap fun w => w.acts t)
      fun _ o v => o = p.turns s.next ∧ v.childs s.next = [] ∧ Adds 0 u v ∧ Inv v := by
  unfold ParStatement.size at hf
  have hlength : (p.leaves s.next).length = p.workers.length := List.length_range'
  obtain ⟨g, rfl⟩ : ∃ g, f = p.last + 1 + (g + 4) := ⟨f - p.last - 5, by omega⟩
  have hstart : running (fun c => (workerAt s.next p.workers c).last) (p.leaves s.next) 0 =
      p.leaves s.next := List.filter_eq_self.mpr fun c _ => by simp
  have hrow := hu.row hpar hp.some fun w hw => hp.id w hw
  have hstates := consumes_states_row (f := g) hpar (scripts_leaves p s.next (by omega)) (by omega)
    (pushCount_leaves p s.next) (fun t => running_ne_nil p s.next t hp.some) (p.last + 1) 0 u
    (Nat.zero_add _) ?_ (by rw [hstart]; exact hrow) (hu.prjNode.trans hs.prjNode)
    (hu.prsnt.trans hs.prsnt) (hu.keepChilds.trans hs.keepChilds)
  · rw [← List.range_eq_range', funext (parInput_leaves p s.next),
      funext (running_leaves p s.next)] at hstates
    refine (hstates.spec (does_states _ u hinv hu.threadRoot hactive)).imp ?_
    rintro _ _ v ⟨⟨rfl, hrowv, hadds⟩, -, hreach⟩
    exact ⟨rfl, hrowv.childs, hadds, (hinv.reach hreach).1⟩
  · intro c hc
    rw [hu.env]
    exact hdel.imp_right fun hexits => exits_leaves p s.next hc hexits

omit hp hf in
/-- Nobody is left to delete but the root. -/
theorem release_root {ty : NodeType} {u v : State} (hu : Forked s s.next ty p.workers u)
    (hchilds : v.childs s.next = []) (hadds : Adds 0 u v) (hinv : Inv v) (g : Nat) :
    Eval (deleteChilds (g + 1) s.next) v () [] v ∧ v.threadRoot = some s.next ∧ v.Reg s.next ∧
      v.env = s.env ∧ (s.mainThread ≠ 0 → v.isExit s.next = false) := by
  have hroot := hadds.threadRoot.trans hu.threadRoot
  refine ⟨?_, hroot, (hinv.root s.next hroot).1, hadds.env.trans hu.env, fun hmain => ?_⟩
  · rw [deleteChilds]
    refine Eval.get ?_
    rw [show (v.heap s.next).childs = [] from hchilds]
    exact Eval.pure () v
  · have hthread : (v.heap s.next).thread = s.mainThread :=
      (hinv.rootType s.next hroot).2.trans (hadds.mainThread.trans hu.mainThread)
    have hruns := hadds.main
    rw [hu.mainThread, hu.runs, hs.runs] at hruns
    rw [State.isExit, hthread, hruns, Bool.or_false]
    exact beq_eq_false_iff_ne.mpr hmain

/-- The manager's part, where mutual joins return. -/
theorem consumes_manager {ty : NodeType} (hpar : ty.Par) {u : State} (hu : Forked s s.next ty p.workers u)
    (hinv : Inv u) (hactive : u.active = []) (hdel : s.env.handler = true ∨ ∀ w ∈ p.workers, w.exits = true)
    (hjoins : s.env.joins = true) :
    Consumes turnOf (managerThread f) u
      ((List.range (p.last + 1)).flatMap fun t => (p.lasting t).flatMap fun w => w.acts t)
      fun _ o v => o = p.turns s.next ∧ Clean v ∧ v.next = s.next + 1 + p.workers.length ∧
        v.mainThread = s.mainThread ∧ v.env = s.env := by
  have hmanager : Consumes turnOf (managerThread f) u
      ((List.range (p.last + 1)).flatMap fun t => (p.lasting t).flatMap fun w => w.acts t)
      fun _ o v => o = p.turns s.next ∧ (∀ id, v.threadIDToNode id = none) ∧ v.threadRoot = none ∧
        Adds 0 u { v with threadRoot := u.threadRoot } := by
    unfold managerThread
    refine Consumes.get ?_
    rw [hu.threadRoot]
    rw [← List.append_nil ((List.range (p.last + 1)).flatMap _)]
    refine Consumes.bind (consumes_statesOf hs hp hf hpar hu hinv hactive hdel) ?_
    rintro _ _ v ⟨rfl, hchilds, hadds, hinvv⟩
    obtain ⟨g, rfl⟩ : ∃ g, f = g + 1 := ⟨f - 1, by unfold ParStatement.size at hf; omega⟩
    obtain ⟨hdelete, hroot, hreg, henv, -⟩ := release_root hs hu hchilds hadds hinvv g
    have hjoin : v.Joinable s.next := Or.inr (Or.inl ⟨hroot, by rw [henv, hjoins]⟩)
    refine (Consumes.of_eval hdelete (Q := fun _ o w => o = [] ∧ v = w) ⟨rfl, rfl⟩).bind_nil ?_
    rintro _ _ _ ⟨rfl, rfl⟩
    refine (Consumes.of_yields (yields_release hreg hjoin) (takes_release (A := Label.Walk) s.next)
      walk_hidden).bind_nil ?_
    rintro _ _ w ⟨rfl, hw, -⟩
    obtain rfl : v = w := hw.symm
    refine Consumes.act ⟨List.append_nil _, ?_, rfl, hadds.prsnt, hadds.keepChilds, hadds.keepPos,
      hadds.prjNode, hu.threadRoot.symm, hadds.mainThread, hadds.next, ?_, ?_, hadds.env, hadds.main⟩
    · intro id
      show Function.update v.threadIDToNode (v.heap s.next).thread none id = none
      rw [Function.update_apply]
      split
      · rfl
      · next hid =>
        by_contra hcon
        obtain ⟨x, hx⟩ := Option.ne_none_iff_exists'.mp hcon
        have hfather : x = s.next ∨ v.father x = some s.next ∨ v.father x = none := by
          rcases hu.only id x (hadds.map id x hx) with h | h
          · exact Or.inl h
          · exact Or.inr ((hadds.father x).imp_left fun heq => heq.trans h)
        have hone := root_only hinvv hroot hchilds
          (hadds.keepChilds.trans (hu.keepChilds.trans hs.keepChilds)) hx hfather
        rw [hone] at hx
        exact hid (hinvv.map id _ hx).2.symm
    · intro id x hx
      have hx : Function.update v.threadIDToNode (v.heap s.next).thread none id = some x := hx
      rw [Function.update_apply] at hx
      split at hx
      · cases hx
      · exact hadds.map id x hx
    · intro x
      by_cases hx : x = s.next
      · exact Or.inr (congrArg Node.father (if_pos hx))
      · rw [show ({ (Label.destroyRoot s.next).apply v with threadRoot := u.threadRoot } : State).father x =
          v.father x from congrArg Node.father (if_neg hx)]
        exact hadds.father x
  refine (hmanager.spec (does_managerThread _ hinv hactive)).imp ?_
  rintro _ o v ⟨⟨rfl, hmap, hroot, hadds⟩, hback, hreach⟩
  have hprsnt : v.prsnt = u.prsnt := hadds.prsnt_eq
  have hmain : v.mainThread = s.mainThread := hadds.mainThread.trans hu.mainThread
  have hruns : v.exited u.mainThread = u.exited u.mainThread := hadds.main
  refine ⟨rfl, ⟨(hinv.reach hreach).1, Eq.trans hback hactive, hroot, hmap,
    hprsnt.trans (hu.prsnt.trans hs.prsnt), hadds.keepChilds.trans (hu.keepChilds.trans hs.keepChilds),
    hadds.prjNode.trans (hu.prjNode.trans hs.prjNode), ?_⟩, hadds.next.trans hu.next, hmain,
    hadds.env.trans hu.env⟩
  rw [hmain]
  rw [hu.mainThread, hu.runs, hs.runs] at hruns
  exact hruns

/-- The manager's part, where they do not: it waits for the main thread, which waits for it. -/
theorem manager_deadlock {ty : NodeType} (hpar : ty.Par) {u : State} (hu : Forked s s.next ty p.workers u)
    (hinv : Inv u) (hactive : u.active = []) (hdel : s.env.handler = true ∨ ∀ w ∈ p.workers, w.exits = true)
    (hjoins : s.env.joins = false) (hmain : s.mainThread ≠ 0) :
    ∃ es v, (∀ rest log, managerThread f ⟨u, ((List.range (p.last + 1)).flatMap fun t =>
        (p.lasting t).flatMap fun w => w.acts t) ++ rest, log⟩ =
        (.error .deadlock, ⟨v, rest, es ++ log⟩)) ∧ seen turnOf es = p.turns s.next := by
  have hend : ∀ (_ : Unit) (o : List Ptr) (w : State), o = p.turns s.next ∧ w.childs s.next = [] ∧
      Adds 0 u w ∧ Inv w → ∀ rest log, (do
        deleteChilds f s.next
        release s.next
        act (.destroyRoot s.next) : M Unit) ⟨w, rest, log⟩ = (.error .deadlock, ⟨w, rest, log⟩) := by
    rintro _ o w ⟨-, hchilds, hadds, hinvw⟩ rest log
    obtain ⟨g, rfl⟩ : ∃ g, f = g + 1 := ⟨f - 1, by unfold ParStatement.size at hf; omega⟩
    obtain ⟨hdelete, hroot, hreg, henv, hlive⟩ := release_root hs hu hchilds hadds hinvw g
    have hcheck : checkErase s.next ⟨w, rest, log⟩ = (.ok (), ⟨w, rest, log⟩) := by
      show (if (w.threadIDToNode (w.heap s.next).thread).isSome then pure () else stop .assertErase :
        M Unit) _ = _
      rw [show w.threadIDToNode (w.heap s.next).thread = some s.next from hreg]
      rfl
    have hjoin : joinThread s.next ⟨w, rest, log⟩ = (.error .deadlock, ⟨w, rest, log⟩) := by
      show (if w.isExit s.next = true then pure () else
        if w.threadRoot = some s.next then if w.env.joins = true then pure () else stop .deadlock
        else if w.env.handler = true then pure () else stop .killed : M Unit) _ = _
      rw [if_neg (by rw [hlive hmain]; exact Bool.false_ne_true), if_pos hroot,
        if_neg (by rw [henv, hjoins]; exact Bool.false_ne_true)]
      rfl
    have hrelease : release s.next ⟨w, rest, log⟩ = (.error .deadlock, ⟨w, rest, log⟩) :=
      (Prog.bind_ok hcheck).trans hjoin
    exact (Prog.bind_ok (hdelete rest log)).trans (Prog.bind_error hrelease)
  obtain ⟨-, es, v, hrun, hturns, -⟩ :=
    (consumes_statesOf hs hp hf hpar hu hinv hactive hdel).bind_stop hend
  refine ⟨es, v, fun rest log => ?_, hturns⟩
  rw [← hrun rest log]
  have hget : ∀ (g : State → M Unit) i l, (get >>= g) ⟨u, i, l⟩ = g u ⟨u, i, l⟩ := fun _ _ _ => rfl
  rw [managerThread, hget, hu.threadRoot]

/-- **One statement.** -/
theorem consumes_statement (hdel : s.env.handler = true ∨ ∀ w ∈ p.workers, w.exits = true)
    (hjoins : s.env.joins = true) :
    Consumes turnOf (runThread f s.mainThread >>= fun _ => managerThread f) s
    p.input fun _ o u => o = p.turns s.next ∧ Clean u ∧
      u.next = s.next + 1 + p.workers.length ∧ u.mainThread = s.mainThread ∧ u.env = s.env := by
  obtain ⟨ty, hty, hpar⟩ := proper_type hp
  refine Consumes.bind ((consumes_main hs hp hf hty hpar).spec
    (does_runThread f s hs.inv (Or.inl ⟨rfl, rfl⟩))) ?_
  rintro _ _ u ⟨⟨rfl, hu⟩, hback, hreach⟩
  exact consumes_manager hs hp hf hpar hu (hs.inv.reach hreach).1 (Eq.trans hback hs.active) hdel hjoins

/-- All states of the statement, and then the end of everything. -/
theorem statement_deadlock (hdel : s.env.handler = true ∨ ∀ w ∈ p.workers, w.exits = true)
    (hjoins : s.env.joins = false) (hmain : s.mainThread ≠ 0) :
    ∃ es v, (∀ rest log, (runThread f s.mainThread >>= fun _ => managerThread f)
        ⟨s, p.input ++ rest, log⟩ = (.error .deadlock, ⟨v, rest, es ++ log⟩)) ∧
      seen turnOf es = p.turns s.next := by
  obtain ⟨ty, hty, hpar⟩ := proper_type hp
  obtain ⟨⟨⟩, es, u, hrun, ⟨hquiet, hu⟩, hback, hreach⟩ := (consumes_main hs hp hf hty hpar).spec
    (does_runThread f s hs.inv (Or.inl ⟨rfl, rfl⟩))
  obtain ⟨fs, v, hstop, hturns⟩ := manager_deadlock hs hp hf hpar hu (hs.inv.reach hreach).1
    (Eq.trans hback hs.active) hdel hjoins hmain
  refine ⟨fs ++ es, v, fun rest log => ?_, by rw [seen_append, hquiet, hturns]; rfl⟩
  rw [ParStatement.input, List.append_assoc, Prog.bind_ok (hrun _ _), hstop, List.append_assoc]

end

/-! ## All statements -/

/-- The turns of statements that begin with the root at `n`. -/
def turnsFrom : Ptr → List ParStatement → List Ptr
  | _, [] => []
  | n, p :: ps => p.turns n ++ turnsFrom (n + 1 + p.workers.length) ps

theorem statements_succ (g : Nat) (w : World State Label Action) : statements (g + 1) w =
    ((runThread g w.st.mainThread >>= fun _ => managerThread g) >>= fun _ => statements g) w := by
  rw [Prog.bind_assoc]
  rfl

theorem statements_parallel (ps : List ParStatement) : ∀ (f : Nat) (s : State), Clean s →
    (∀ p ∈ ps, p.Proper s.mainThread) → (∀ p ∈ ps, ps.length + p.size ≤ f) → ps.length + 2 ≤ f →
    (∀ p ∈ ps, s.env.handler = true ∨ ∀ w ∈ p.workers, w.exits = true) → s.env.joins = true →
    ∃ log u, (∀ log₀, statements f ⟨s, ps.flatMap ParStatement.input, log₀⟩ =
        (.error .waiting, ⟨u, [], log ++ log₀⟩)) ∧
      seen turnOf log = turnsFrom s.next ps ∧ Clean u := by
  induction ps with
  | nil =>
    intro f s hs _ _ hf _ _
    obtain ⟨g, rfl⟩ : ∃ g, f = g + 2 := ⟨f - 2, by simp at hf; omega⟩
    exact ⟨[], s, fun log₀ => rfl, rfl, hs⟩
  | cons p ps ih =>
    intro f s hs hp hsize hf hdel hjoins
    rw [List.length_cons] at hf
    obtain ⟨g, rfl⟩ : ∃ g, f = g + 1 := ⟨f - 1, by omega⟩
    have hfit : ∀ q ∈ p :: ps, ps.length + q.size ≤ g := by
      intro q hq
      have := hsize q hq
      rw [List.length_cons] at this
      omega
    obtain ⟨⟨⟩, es, t, hrun, hturns, hclean, hnext, hmain, henv⟩ :=
      consumes_statement hs (hp p List.mem_cons_self)
        (Nat.le_trans (Nat.le_add_left _ _) (hfit p List.mem_cons_self)) (hdel p List.mem_cons_self) hjoins
    obtain ⟨log, u, hrest, hturns', hu⟩ := ih g t hclean
      (fun q hq => by rw [hmain]; exact hp q (List.mem_cons_of_mem _ hq))
      (fun q hq => hfit q (List.mem_cons_of_mem _ hq)) (by omega)
      (fun q hq => by rw [henv]; exact hdel q (List.mem_cons_of_mem _ hq)) (by rw [henv, hjoins])
    refine ⟨log ++ es, u, fun log₀ => ?_, ?_, hu⟩
    · rw [statements_succ, List.flatMap_cons, List.append_assoc]
      exact (Prog.bind_ok (hrun _ _)).trans (hrest _)
    · rw [seen_append, hturns, hturns', hnext]
      rfl

/-- Two statements: threads 2 and 3 with `and`, and then 2 again, with `||`. -/
def twoStatements : List ParStatement :=
  [⟨.and, [⟨2, 0, true⟩, ⟨3, 2, true⟩]⟩, ⟨.pal, [⟨2, 1, true⟩]⟩]

end Msvl.Function
