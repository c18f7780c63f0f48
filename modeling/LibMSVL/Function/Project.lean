/-
  A PRJ node over leaves realises the projection operator.

  PrjNode::excute is called once per state.  `Stage` describes the node between two turns: the p's
  that are left, whether q has ended (`isOver`), whether q is due (`ext`) and whether the node has
  ended (`done`).

  1. `Stage.quiet`, `Stage.ends`, `Stage.q_turn`: one turn.
  2. `consumes_prjP`, `consumes_prjQ`: the p's of a state, by induction on those that are left, and q.
  3. `consumes_state`: a whole state, against the reference schedule.
  4. `prj_course`: all states.
-/
import LibMSVL.Function.Kinds
import LibMSVL.Function.PrjTurn
import LibMSVL.Lib.Projection

namespace Msvl.Function

open Msvl.Run Msvl.Projection

/-! ## Between two turns -/

/-- The PRJ node `n` with children `q`, `ps`, all leaves. -/
structure PrjTree (s : State) (n q : Ptr) (ps : List Ptr) : Prop where
  flat : Flat s n
  type : s.type n = .prj
  childs : s.childs n = q :: ps
  leaf : ∀ c ∈ q :: ps, s.type c = .leaf ∧ s.newType c = .leaf ∧ s.father c = some n

/-- The thread runs, and its interval has not ended. -/
def State.Live (s : State) (c : Ptr) : Prop := (s.heap c).len = .more ∧ s.isExit c = false

instance (s : State) (c : Ptr) : Decidable (s.Live c) := inferInstanceAs (Decidable (_ ∧ _))

structure Stage (env : Env) (s : State) (n q : Ptr) (ps : List Ptr) (isOver ext done : Bool) : Prop
    extends PrjTree s n q ps where
  live : ∀ c ∈ ps, s.Live c
  qLive : isOver = false → s.Live q
  qOver : isOver = true → (s.heap q).len = .empty
  extQ : isOver = false → (s.heap n).extQ = ext
  len : (s.heap n).len = if done then .empty else .more
  newType : (s.heap n).newType = if done then .leaf else .prj
  env : s.env = env

section

variable {env : Env} {s u : State} {n q c : Ptr} {ps : List Ptr} {isOver ext done b : Bool}

theorem PrjTree.leafOf (h : PrjTree s n q ps) (hc : c ∈ q :: ps) : LeafOf s n c :=
  ⟨h.childs ▸ hc, (h.leaf c hc).1, (h.leaf c hc).2.1, (h.leaf c hc).2.2⟩

theorem PrjTree.ne (h : PrjTree s n q ps) (hc : c ∈ q :: ps) : c ≠ n := by
  rintro rfl
  exact h.flat.own (h.childs ▸ hc)

/-- What a turn does not write. -/
theorem Turned.field (ht : Turned s n c b u) {α : Type} {g : Node → α}
    (hc : ∀ y i l, g { y with isInit := i, len := l } = g y)
    (hn : ∀ y l r, g { y with len := l, newType := r } = g y) (x : Ptr) :
    g (u.heap x) = g (s.heap x) := by
  by_cases hxc : x = c
  · rw [hxc, ht.self]
    exact hc _ _ _
  · by_cases hxn : x = n
    · rw [hxn, ht.own]
      split
      · exact hn _ _ _
      · rfl
    · rw [ht.off x hxn hxc]

theorem PrjTree.turned (h : PrjTree s n q ps) (hc : c ∈ q :: ps) (ht : Turned s n c b u) :
    PrjTree u n q ps := by
  have htype : ∀ x, u.type x = s.type x := ht.field (g := Node.type) (fun _ _ _ => rfl) fun _ _ _ => rfl
  have hchilds : ∀ x, u.childs x = s.childs x :=
    ht.field (g := Node.childs) (fun _ _ _ => rfl) fun _ _ _ => rfl
  have hthread : ∀ x, (u.heap x).thread = (s.heap x).thread :=
    ht.field (g := Node.thread) (fun _ _ _ => rfl) fun _ _ _ => rfl
  have hfather : ∀ x, u.father x = s.father x :=
    ht.field (g := Node.father) (fun _ _ _ => rfl) fun _ _ _ => rfl
  refine ⟨⟨?_, ?_, ?_, ?_, ?_, ?_⟩, (htype n).trans h.type, (hchilds n).trans h.childs, ?_⟩
  · rw [htype]
    exact h.flat.composite
  · rw [hchilds]
    intro x hx
    rw [htype]
    exact h.flat.terminal x hx
  · rw [hchilds]
    intro x hx
    rw [State.Reg, hthread, ht.map]
    exact h.flat.reg x hx
  · rw [hchilds]
    intro x hx
    rw [htype, hchilds]
    exact h.flat.bare x hx
  · rw [hchilds]
    exact h.flat.nodup
  · rw [hchilds, ht.root]
    exact h.flat.root
  · intro x hx
    rw [htype, hfather]
    refine ⟨(h.leaf x hx).1, ?_, (h.leaf x hx).2.2⟩
    by_cases hxc : x = c
    · rw [State.newType, hxc, ht.self]
      exact (h.leaf c hc).2.1
    · rw [State.newType, ht.off x (h.ne hx) hxc]
      exact (h.leaf x hx).2.1

/-- The other children are as they were. -/
theorem PrjTree.live_turned (h : PrjTree s n q ps) (hc : c ∈ q :: ps) (ht : Turned s n c b u) {x : Ptr}
    (hx : x ∈ q :: ps) (hxc : x ≠ c) (hlive : s.Live x) : u.Live x := by
  have hheap := ht.off x (h.ne hx) hxc
  refine ⟨by rw [hheap]; exact hlive.1, ?_⟩
  have hthread : (s.heap x).thread ≠ s.thread c := by
    intro heq
    have hregx := h.flat.reg x (h.childs ▸ hx)
    have hregc := h.flat.reg c (h.childs ▸ hc)
    rw [State.Reg, heq] at hregx
    exact hxc (Option.some.inj (hregx.symm.trans hregc))
  rw [State.isExit, hheap, ht.exited _ (Or.inr hthread)]
  exact hlive.2

theorem PrjTree.live_quiet (ht : Turned s n c false u) (hlive : s.Live c) : u.Live c := by
  refine ⟨?_, ?_⟩
  · rw [ht.self]
    exact hlive.1
  · rw [State.isExit, ht.self, ht.exited _ (Or.inl rfl)]
    exact hlive.2

/-- A write to the node itself. -/
theorem PrjTree.edit (h : PrjTree s n q ps) (e : Edit) : PrjTree ((Label.edit n e).apply s) n q ps := by
  have hoff : ∀ c ∈ q :: ps, ((Label.edit n e).apply s).heap c = s.heap c := by
    intro c hc
    rw [apply_edit]
    exact if_neg (h.ne hc)
  refine ⟨h.flat.edit n e, ((sameMap_edit s n e).type n).trans h.type,
    (edit_childs s n e n).trans h.childs, ?_⟩
  intro c hc
  rw [State.type, State.newType, State.father, hoff c hc]
  exact h.leaf c hc

/-- The p in front has ended and is deleted. -/
theorem PrjTree.destroy {p : Ptr} (h : PrjTree s n q (p :: ps)) :
    PrjTree ((Label.destroy n 1 p).apply s) n q ps ∧
      (∀ c ∈ q :: ps, ((Label.destroy n 1 p).apply s).heap c = s.heap c) ∧
      ((Label.destroy n 1 p).apply s).heap n = { s.heap n with childs := q :: ps } := by
  have hstart := Left.start h.flat
  rw [h.childs] at hstart
  have hk := Left.checked h.flat (Left.destroy h.flat hstart.keep)
  have hnp : n ≠ p := Ne.symm (h.ne (by simp))
  refine ⟨⟨hk.flat, hk.type.trans h.type, hk.childs, fun c hc => ?_⟩, hk.same, ?_⟩
  · have hheap : ((Label.destroy n 1 p).apply s).heap c = s.heap c := hk.same c hc
    rw [State.type, State.newType, State.father, hheap]
    refine h.leaf c ?_
    rcases List.mem_cons.mp hc with rfl | hc
    · exact List.mem_cons_self
    · exact List.mem_cons_of_mem _ (List.mem_cons_of_mem _ hc)
  · rw [apply_destroy, heap_modify, if_pos rfl, destroyNode_eq, heap_modify, if_neg hnp]
    show { s.heap n with childs := (s.childs n).eraseIdx 1 } = _
    rw [h.childs]
    rfl

theorem Stage.ne_head {p : Ptr} (h : Stage env s n q (p :: ps) isOver ext done) : q ≠ p ∧ p ∉ ps := by
  have hnodup := h.flat.nodup
  rw [h.childs, List.nodup_cons, List.nodup_cons] at hnodup
  exact ⟨fun heq => hnodup.1 (heq ▸ List.mem_cons_self), hnodup.2.1⟩

/-! ## One turn -/

/-- The p in front has its turn and goes on. -/
theorem Stage.quiet {p : Ptr} (h : Stage env s n q (p :: ps) isOver ext false) (ht : Turned s n p false u) :
    Stage env u n q (p :: ps) isOver ext false := by
  have hp : p ∈ q :: p :: ps := by simp
  have hown : u.heap n = s.heap n := by
    rw [ht.own, if_neg (by simp)]
  have hq : u.heap q = s.heap q := ht.off q (h.ne List.mem_cons_self) h.ne_head.1
  refine ⟨h.toPrjTree.turned hp ht, ?_, ?_, ?_, ?_, by rw [hown]; exact h.len,
    by rw [hown]; exact h.newType, ht.env.trans h.env⟩
  · intro c hc
    by_cases hcp : c = p
    · rw [hcp]
      exact PrjTree.live_quiet ht (h.live p List.mem_cons_self)
    · exact h.live_turned hp ht (List.mem_cons_of_mem _ hc) hcp (h.live c hc)
  · exact fun hover => h.live_turned hp ht List.mem_cons_self h.ne_head.1 (h.qLive hover)
  · rw [hq]
    exact h.qOver
  · rw [hown]
    exact h.extQ

/-- The p in front is the last to end exactly when q has ended and no other p is left. -/
theorem Stage.last_p {p : Ptr} (h : Stage env s n q (p :: ps) isOver ext done) :
    s.LastOf n p ↔ (isOver && ps.isEmpty) = true := by
  have hq := h.leaf q List.mem_cons_self
  rw [State.LastOf, h.childs, Bool.and_eq_true, List.isEmpty_iff]
  constructor
  · intro hlast
    refine ⟨?_, ?_⟩
    · by_contra hno
      rw [Bool.not_eq_true] at hno
      exact (hlast q List.mem_cons_self h.ne_head.1).1 (h.qLive hno).1
    · by_contra hne
      obtain ⟨c, hc⟩ := List.exists_mem_of_ne_nil _ hne
      have hcp : c ≠ p := by
        rintro rfl
        exact h.ne_head.2 hc
      exact (hlast c (by simp [hc]) hcp).1 (h.live c (List.mem_cons_of_mem _ hc)).1
  · rintro ⟨hover, rfl⟩ x hx hxp
    have hxq : x = q := by simpa [hxp] using hx
    rw [hxq, h.qOver hover]
    exact ⟨nofun, hq.1⟩

/-- The p in front ends its interval: q is due, and the p is deleted. -/
theorem Stage.ends {p : Ptr} (h : Stage env s n q (p :: ps) isOver ext false) (ht : Turned s n p true u) :
    Stage env ((Label.destroy n 1 p).apply ((Label.edit n (.extQ true)).apply u)) n q ps isOver true
      (isOver && ps.isEmpty) := by
  have hp : p ∈ q :: p :: ps := by simp
  have htree := (h.toPrjTree.turned hp ht).edit (.extQ true)
  obtain ⟨htree', hsame, hown⟩ := htree.destroy
  have hmem : ∀ c ∈ q :: ps, c ∈ q :: p :: ps := by
    intro c hc
    rcases List.mem_cons.mp hc with rfl | hc
    · exact List.mem_cons_self
    · exact List.mem_cons_of_mem _ (List.mem_cons_of_mem _ hc)
  have hcp : ∀ c ∈ q :: ps, c ≠ p := by
    rintro c hc rfl
    rcases List.mem_cons.mp hc with heq | hc
    · exact h.ne_head.1 heq.symm
    · exact h.ne_head.2 hc
  have hheap : ∀ c ∈ q :: ps,
      ((Label.destroy n 1 p).apply ((Label.edit n (.extQ true)).apply u)).heap c = s.heap c := by
    intro c hc
    rw [hsame c hc]
    exact (if_neg (h.ne (hmem c hc))).trans (ht.off c (h.ne (hmem c hc)) (hcp c hc))
  have hlive : ∀ c ∈ q :: ps, s.Live c →
      ((Label.destroy n 1 p).apply ((Label.edit n (.extQ true)).apply u)).Live c := by
    intro c hc hl
    obtain ⟨-, hexit⟩ := h.live_turned hp ht (hmem c hc) (hcp c hc) hl
    refine ⟨by rw [hheap c hc]; exact hl.1, ?_⟩
    rw [State.isExit, ht.off c (h.ne (hmem c hc)) (hcp c hc)] at hexit
    rw [State.isExit, hheap c hc]
    exact hexit
  have hself : ((Label.edit n (.extQ true)).apply u).heap n = { u.heap n with extQ := true } := if_pos rfl
  have hlast := h.last_p
  refine ⟨htree', fun c hc => hlive c (List.mem_cons_of_mem _ hc) (h.live c (List.mem_cons_of_mem _ hc)),
    fun hover => hlive q List.mem_cons_self (h.qLive hover), ?_, ?_, ?_, ?_, ht.env.trans h.env⟩
  · rw [hheap q List.mem_cons_self]
    exact h.qOver
  · intro _
    rw [hown, hself]
  · rw [hown, hself, ht.own]
    by_cases hl : s.LastOf n p
    · rw [if_pos ⟨rfl, hl⟩, if_pos (hlast.mp hl)]
    · rw [if_neg fun hcon => hl hcon.2, if_neg fun hcon => hl (hlast.mpr hcon)]
      exact h.len
  · rw [hown, hself, ht.own]
    by_cases hl : s.LastOf n p
    · rw [if_pos ⟨rfl, hl⟩, if_pos (hlast.mp hl)]
    · rw [if_neg fun hcon => hl hcon.2, if_neg fun hcon => hl (hlast.mpr hcon)]
      exact h.newType

/-- q has its turn. -/
theorem Stage.q_turn (h : Stage env s n q ps false ext false) (ht : Turned s n q b u) :
    Stage env ((Label.edit n (.extQ false)).apply u) n q ps b false (b && ps.isEmpty) := by
  have hq : q ∈ q :: ps := List.mem_cons_self
  have hqps : q ∉ ps := by
    have hnodup := h.flat.nodup
    rw [h.childs, List.nodup_cons] at hnodup
    exact hnodup.1
  have htree := (h.toPrjTree.turned hq ht).edit (.extQ false)
  have hoff : ∀ c ∈ q :: ps, ((Label.edit n (.extQ false)).apply u).heap c = u.heap c :=
    fun c hc => if_neg (h.ne hc)
  have hself : ((Label.edit n (.extQ false)).apply u).heap n = { u.heap n with extQ := false } := if_pos rfl
  have hlast : s.LastOf n q ↔ ps.isEmpty = true := by
    rw [State.LastOf, h.childs, List.isEmpty_iff]
    constructor
    · intro hl
      by_contra hne
      obtain ⟨c, hc⟩ := List.exists_mem_of_ne_nil _ hne
      refine (hl c (List.mem_cons_of_mem _ hc) ?_).1 (h.live c hc).1
      rintro rfl
      exact hqps hc
    · rintro rfl x hx hxq
      exact absurd (List.mem_singleton.mp hx) hxq
  have hdone : (b = true ∧ s.LastOf n q) ↔ (b && ps.isEmpty) = true := by
    rw [hlast, Bool.and_eq_true]
  have hlive : ∀ c ∈ q :: ps, u.Live c → ((Label.edit n (.extQ false)).apply u).Live c := by
    intro c hc hl
    refine ⟨by rw [hoff c hc]; exact hl.1, ?_⟩
    rw [State.isExit, hoff c hc]
    exact hl.2
  refine ⟨htree, ?_, ?_, ?_, fun _ => by rw [hself], ?_, ?_, ht.env.trans h.env⟩
  · intro c hc
    have hcq : c ≠ q := by
      rintro rfl
      exact hqps hc
    exact hlive c (List.mem_cons_of_mem _ hc)
      (h.live_turned hq ht (List.mem_cons_of_mem _ hc) hcq (h.live c hc))
  · rintro rfl
    exact hlive q hq (PrjTree.live_quiet ht (h.qLive rfl))
  · rintro rfl
    rw [hoff q hq, ht.self]
    rfl
  · rw [hself, ht.own]
    by_cases hl : b = true ∧ s.LastOf n q
    · rw [if_pos hl, if_pos (hdone.mp hl)]
    · rw [if_neg hl, if_neg fun hcon => hl (hdone.mpr hcon)]
      exact h.len
  · rw [hself, ht.own]
    by_cases hl : b = true ∧ s.LastOf n q
    · rw [if_pos hl, if_pos (hdone.mp hl)]
    · rw [if_neg hl, if_neg fun hcon => hl (hdone.mpr hcon)]
      exact h.newType

/-- A write to `extQ` or `hasExtQ`. -/
theorem Stage.edit (h : Stage env s n q ps isOver ext done) {e : Edit} {ext' : Bool}
    (he : ∀ y, (e.apply y).len = y.len ∧ (e.apply y).newType = y.newType)
    (hext : isOver = false → (e.apply (s.heap n)).extQ = ext') :
    Stage env ((Label.edit n e).apply s) n q ps isOver ext' done := by
  have hoff : ∀ c ∈ q :: ps, ((Label.edit n e).apply s).heap c = s.heap c := by
    intro c hc
    rw [apply_edit]
    exact if_neg (h.ne hc)
  have hself : ((Label.edit n e).apply s).heap n = e.apply (s.heap n) := by
    rw [apply_edit]
    exact if_pos rfl
  have hexited : ((Label.edit n e).apply s).exited = s.exited := edit_global s n e fun _ _ _ => rfl
  have hlive : ∀ c ∈ q :: ps, s.Live c → ((Label.edit n e).apply s).Live c := by
    intro c hc hl
    refine ⟨by rw [hoff c hc]; exact hl.1, ?_⟩
    rw [State.isExit, hoff c hc, hexited]
    exact hl.2
  refine ⟨h.toPrjTree.edit e, fun c hc => hlive c (List.mem_cons_of_mem _ hc) (h.live c hc),
    fun hover => hlive q List.mem_cons_self (h.qLive hover), ?_, ?_, ?_, ?_,
    (edit_global (φ := State.env) s n e fun _ _ _ => rfl).trans h.env⟩
  · rw [hoff q List.mem_cons_self]
    exact h.qOver
  · rw [hself]
    exact hext
  · rw [hself, (he _).1]
    exact h.len
  · rw [hself, (he _).2]
    exact h.newType

end

/-! ## The p's of a state -/

/-- `script c r` is what the thread of `c` does in its turn number `r`, from 0 on: it ends in turn
    number `k c`. -/
structure Scripts (k : Ptr → Nat) (script : Ptr → Nat → List Action) (f : Nat) (cs : List Ptr) : Prop where
  turn : ∀ c ∈ cs, ∀ r ≤ k c, Script (decide (r = k c)) (script c r)
  short : ∀ c r, (script c r).length ≤ f

/-- What the p's of state `t` do. -/
def pInput (script : Ptr → Nat → List Action) (sps : List (Span Ptr)) (t : Nat) : List Action :=
  (active sps t).flatMap fun sp => script sp.task (t - sp.first)

theorem consumes_deleteSlot {f : Nat} {u : State} {n c : Ptr} {i : Nat} (hc : u.Reg c)
    (hnil : u.childs c = []) (hjoin : u.Joinable c) : Consumes turnOf (deleteSlot (f + 1) n i c) u []
      fun _ o t => o = [] ∧ t = (Label.destroy n i c).apply u := by
  refine (Consumes.of_yields (yields_deleteSlot hc hnil hjoin) (takes_deleteSlot _ n i c) ?_).imp
    fun _ _ _ h => ⟨h.1, h.2.1⟩
  intro l hl
  cases l with
  | turn => exact hl.elim
  | _ => rfl

section

variable {env : Env} {n q : Ptr} {k : Ptr → Nat} {script : Ptr → Nat → List Action} {f t : Nat}
  {isOver : Bool}

/-- The p in front goes on. -/
theorem consumes_prjNext_goes {ex : Ptr → M Unit} {s : State} {p : Ptr} {ps : List Ptr}
    (h : PrjTree s n q (p :: ps)) (hmore : (s.heap p).len = .more) (g : Nat) :
    Consumes turnOf (prjNext ex (g + 1) n) s [] fun _ o u => o = [] ∧ u = s := by
  rw [prjNext]
  refine Consumes.get ?_
  rw [show (s.heap n).childs = q :: p :: ps from h.childs]
  show Consumes turnOf (if (s.heap p).len = .empty then _ else _) _ _ _
  rw [if_neg (by simp [hmore])]
  exact Consumes.pure ⟨rfl, rfl⟩

/-- The p in front has ended: it is deleted, and the next one is executed, if there is one. -/
theorem consumes_prjNext_ends {ex : Ptr → M Unit} {s : State} {p : Ptr} {ps : List Ptr}
    {ins : List Action} {Q : Unit → List Ptr → State → Prop} (h : PrjTree s n q (p :: ps))
    (hempty : (s.heap p).len = .empty) (hdel : s.Deletable p) (g : Nat)
    (hnext : Consumes turnOf (if ps = [] then pure () else
      excuteSlot ex (g + 1) n 1 >>= fun _ => prjNext ex (g + 1) n)
      ((Label.destroy n 1 p).apply ((Label.edit n (.extQ true)).apply s)) ins Q) :
    Consumes turnOf (prjNext ex (g + 2) n) s ins Q := by
  have hp : p ∈ q :: p :: ps := by simp
  rw [prjNext]
  refine Consumes.get ?_
  rw [show (s.heap n).childs = q :: p :: ps from h.childs]
  show Consumes turnOf (if (s.heap p).len = .empty then _ else _) _ _ _
  rw [if_pos hempty]
  refine Consumes.act_bind ?_
  have htree := h.edit (.extQ true)
  have hreg := htree.flat.reg p (htree.childs ▸ hp)
  have hnil := htree.flat.bare p (htree.childs ▸ hp) (htree.leaf p hp).1
  have hexit : ((Label.edit n (.extQ true)).apply s).isExit p = s.isExit p := by
    rw [State.isExit, show ((Label.edit n (.extQ true)).apply s).heap p = s.heap p from if_neg (h.ne hp)]
    rfl
  have hjoin := htree.flat.joinable (htree.childs ▸ hp) (by rw [State.Deletable, hexit]; exact hdel)
  refine (consumes_deleteSlot (f := g) (n := n) (i := 1) hreg hnil hjoin).bind_nil ?_
  rintro _ _ _ ⟨rfl, rfl⟩
  refine Consumes.get ?_
  rw [show (((Label.destroy n 1 p).apply ((Label.edit n (.extQ true)).apply s)).heap n).childs = q :: ps
    from htree.destroy.1.childs]
  have hone : ((q :: ps).length = 1) = (ps = []) := by
    rw [List.length_cons]
    simp
  simp only [hone]
  exact hnext

/-- What a state does to the p's `sps` that are left. -/
def AfterPs (env : Env) (n q : Ptr) (sps : List (Span Ptr)) (t : Nat) (isOver ext : Bool)
    (o : List Ptr) (u : State) : Prop :=
  o = (active sps t).map Span.task ∧
    Stage env u n q ((left sps t).map Span.task) isOver ext (isOver && (left sps t).isEmpty)

variable {p : Ptr} {ps : List Ptr} {a g : Nat} {s : State} {ext : Bool}

theorem consumes_p_goes (hs : Scripts k script f (p :: ps)) (ha : a ≤ t) (hlt : t < a + k p)
    (h : Stage env s n q (p :: ps) isOver ext false) :
    Consumes turnOf (excuteSlot (excute (f + 1)) (g + 1) n 1 >>= fun _ => prjNext (excute (f + 1)) (g + 1) n)
      s (pInput script (spans k a (p :: ps)) t) fun _ o u =>
        AfterPs env n q (spans k a (p :: ps)) t isOver
          (ext || decide (∃ sp ∈ spans k a (p :: ps), sp.last = t)) o u := by
  obtain ⟨hactive, hleft⟩ := active_goes ps ha hlt
  have hp := h.live p List.mem_cons_self
  have hquiet : Script false (script p (t - a)) := by
    have := hs.turn p List.mem_cons_self (t - a) (by omega)
    rwa [decide_eq_false (by omega)] at this
  have hnone : ¬ ∃ sp ∈ spans k a (p :: ps), sp.last = t := by
    rintro ⟨sp, hsp, hlast⟩
    have hmem : sp ∈ left (spans k a (p :: ps)) t := by
      rw [hleft]
      exact hsp
    have := of_decide_eq_true (List.mem_filter.mp hmem).2
    omega
  have hin : pInput script (spans k a (p :: ps)) t = script p (t - a) ++ [] := by
    rw [pInput, hactive]
    rfl
  rw [hin, decide_eq_false hnone, Bool.or_false]
  refine Consumes.bind (consumes_excuteSlot h.flat h.type (h.leafOf (by simp)) (i := 1)
    (by rw [h.childs]; rfl) hp.2 hp.1 hquiet (hs.short _ _) g) ?_
  rintro _ _ u ⟨rfl, hu, -⟩
  have hu := h.quiet hu
  refine (consumes_prjNext_goes hu.toPrjTree (hu.live p List.mem_cons_self).1 g).imp ?_
  rintro _ _ v ⟨rfl, rfl⟩
  refine ⟨by rw [hactive]; rfl, ?_⟩
  rw [hleft, spans_tasks, show (spans k a (p :: ps)).isEmpty = false from rfl, Bool.and_false]
  exact hu

theorem consumes_p_ends (hs : Scripts k script f (p :: ps))
    (hdel : env.handler = true ∨ Exits (script p (k p)))
    (hend : a + k p = t) (h : Stage env s n q (p :: ps) isOver ext false)
    (hnext : ∀ v, Stage env v n q ps isOver true (isOver && ps.isEmpty) →
      Consumes turnOf (if ps = [] then pure () else
        excuteSlot (excute (f + 1)) (g + 1) n 1 >>= fun _ => prjNext (excute (f + 1)) (g + 1) n) v
        (pInput script (spans k t ps) t) fun _ o u => AfterPs env n q (spans k t ps) t isOver true o u) :
    Consumes turnOf (excuteSlot (excute (f + 1)) (g + 2) n 1 >>= fun _ => prjNext (excute (f + 1)) (g + 2) n)
      s (pInput script (spans k a (p :: ps)) t) fun _ o u =>
        AfterPs env n q (spans k a (p :: ps)) t isOver
          (ext || decide (∃ sp ∈ spans k a (p :: ps), sp.last = t)) o u := by
  obtain ⟨hactive, hleft⟩ := active_ends ps hend
  have hp := h.live p List.mem_cons_self
  have hscript : Script true (script p (t - a)) := by
    have := hs.turn p List.mem_cons_self (t - a) (by omega)
    rwa [decide_eq_true (by omega)] at this
  have hsome : ∃ sp ∈ spans k a (p :: ps), sp.last = t := ⟨_, List.mem_cons_self, hend⟩
  have hin : pInput script (spans k a (p :: ps)) t =
      script p (t - a) ++ pInput script (spans k t ps) t := by
    rw [pInput, hactive]
    rfl
  rw [hin, decide_eq_true hsome, Bool.or_true]
  refine Consumes.bind (consumes_excuteSlot h.flat h.type (h.leafOf (by simp)) (i := 1)
    (by rw [h.childs]; rfl) hp.2 hp.1 hscript (hs.short _ _) (g + 1)) ?_
  rintro _ _ u ⟨rfl, hu, hexits⟩
  have hempty : (u.heap p).len = .empty := by
    rw [hu.self]
    rfl
  have hgone : u.Deletable p := by
    rcases hdel with hhandler | hexit
    · exact Or.inr (by rw [hu.env, h.env, hhandler])
    · rw [← show t - a = k p by omega] at hexit
      refine Or.inl ?_
      rw [State.isExit, hu.self]
      exact (Bool.or_eq_true _ _).mpr (Or.inr (hexits hexit))
  refine consumes_prjNext_ends (h.toPrjTree.turned (by simp) hu) hempty hgone g ?_
  refine (hnext _ (h.ends hu)).imp ?_
  rintro _ o v ⟨rfl, hv⟩
  refine ⟨by rw [hactive]; rfl, ?_⟩
  rw [hleft]
  exact hv

/-- **The p's of a state**, by induction on those that are left: each one that ends makes room for
    the next. -/
theorem consumes_ps (ps : List Ptr) : ∀ (p : Ptr) (g a : Nat) (s : State) (ext : Bool),
    Scripts k script f (p :: ps) → (∀ c ∈ p :: ps, env.handler = true ∨ Exits (script c (k c))) →
    (p :: ps).length < g → a ≤ t → t ≤ a + k p →
    Stage env s n q (p :: ps) isOver ext false →
    Consumes turnOf (excuteSlot (excute (f + 1)) g n 1 >>= fun _ => prjNext (excute (f + 1)) g n) s
      (pInput script (spans k a (p :: ps)) t) fun _ o u =>
        AfterPs env n q (spans k a (p :: ps)) t isOver
          (ext || decide (∃ sp ∈ spans k a (p :: ps), sp.last = t)) o u := by
  induction ps with
  | nil =>
    intro p g a s ext hs hdel hg ha ht h
    obtain ⟨g, rfl⟩ : ∃ g', g = g' + 2 := ⟨g - 2, by simp at hg; omega⟩
    rcases Nat.lt_or_ge t (a + k p) with hlt | hge
    · exact consumes_p_goes hs ha hlt h
    · refine consumes_p_ends hs (hdel p List.mem_cons_self) (Nat.le_antisymm hge ht) h fun v hv => ?_
      rw [if_pos rfl]
      exact Consumes.pure ⟨rfl, hv⟩
  | cons p' ps ih =>
    intro p g a s ext hs hdel hg ha ht h
    obtain ⟨g, rfl⟩ : ∃ g', g = g' + 2 := ⟨g - 2, by simp at hg; omega⟩
    rcases Nat.lt_or_ge t (a + k p) with hlt | hge
    · exact consumes_p_goes hs ha hlt h
    · refine consumes_p_ends hs (hdel p List.mem_cons_self) (Nat.le_antisymm hge ht) h fun v hv => ?_
      rw [if_neg (List.cons_ne_nil _ _)]
      have hs' : Scripts k script f (p' :: ps) :=
        ⟨fun c hc => hs.turn c (List.mem_cons_of_mem _ hc), hs.short⟩
      rw [show (p' :: ps).isEmpty = false from rfl, Bool.and_false] at hv
      exact ih p' (g + 1) t v true hs' (fun c hc => hdel c (List.mem_cons_of_mem _ hc))
        (Nat.lt_of_succ_lt_succ hg) (Nat.le_refl t) (Nat.le_add_right _ _) hv

/-- Whether or not a p is left. -/
theorem consumes_prjP (hs : Scripts k script f ps)
    (hdel : ∀ c ∈ ps, env.handler = true ∨ Exits (script c (k c))) (hg : ps.length < g) (ha : a ≤ t)
    (ht : ∀ sp ∈ spans k a ps, t ≤ sp.last) (hover : ps = [] → isOver = false)
    (h : Stage env s n q ps isOver ext false) :
    Consumes turnOf (prjP (excute (f + 1)) g n) s (pInput script (spans k a ps) t) fun _ o u =>
      AfterPs env n q (spans k a ps) t isOver
        (ext || (decide (∃ sp ∈ spans k a ps, sp.last = t) || ps.isEmpty)) o u := by
  rw [prjP]
  refine Consumes.get ?_
  rw [show (s.heap n).childs = q :: ps from h.childs]
  cases ps with
  | nil =>
    rw [if_pos (by simp)]
    have hu : Stage env ((Label.edit n (.extQ true)).apply s) n q [] isOver true false :=
      h.edit (fun _ => ⟨rfl, rfl⟩) fun _ => rfl
    refine Consumes.act ⟨rfl, ?_⟩
    rw [show [].isEmpty = true from rfl, Bool.or_true, Bool.or_true]
    rw [hover rfl] at hu ⊢
    exact hu
  | cons p ps =>
    rw [if_neg (by simp), show (p :: ps).isEmpty = false from rfl, Bool.or_false]
    exact consumes_ps ps p g a s ext hs hdel hg ha (ht _ List.mem_cons_self) h

/-! ## The q of a state -/

theorem consumes_leafCorrect {c : Ptr} (hc : s.type c = .leaf) (g : Nat) :
    Consumes turnOf (isCorrectAndExit (g + 1) c) s [] fun b o u => b = s.ended c ∧ o = [] ∧ u = s := by
  rw [isCorrectAndExit]
  refine Consumes.get ?_
  rw [show (s.heap c).type = .leaf from hc]
  refine Consumes.pure ⟨?_, rfl, rfl⟩
  rw [State.ended, hc]
  simp

/-- q has its turn if it is due. -/
theorem consumes_prjQ_turn {b : Bool} {as : List Action} (h : Stage env s n q ps false true false)
    (has : Script b as) (hf : as.length ≤ f) :
    Consumes turnOf (prjQ (excute (f + 1)) (g + 1) n) s as fun _ o u =>
      o = [q] ∧ Stage env u n q ps b false (b && ps.isEmpty) := by
  have hq : q ∈ q :: ps := List.mem_cons_self
  rw [prjQ]
  refine Consumes.get (Consumes.act_bind ?_)
  rw [if_pos (h.extQ rfl), show (s.heap n).childs = q :: ps from h.childs]
  have hu : Stage env ((Label.edit n (.hasExtQ (s.heap n).extQ)).apply s) n q ps false true false :=
    h.edit (fun _ => ⟨rfl, rfl⟩) fun hover => h.extQ hover
  refine (consumes_leafCorrect (hu.leaf q hq).1 g).bind_nil ?_
  rintro _ _ _ ⟨rfl, rfl, rfl⟩
  have hno : ((Label.edit n (.hasExtQ (s.heap n).extQ)).apply s).ended q = false := by
    rw [State.ended, (hu.qLive rfl).1, (hu.qLive rfl).2]
    simp
  rw [hno]
  show Consumes turnOf (excuteSlot _ _ n 0 >>= fun _ => act (.edit n (.extQ false))) _ _ _
  rw [← List.append_nil as]
  refine Consumes.bind (consumes_excuteSlot hu.flat hu.type (hu.leafOf hq) (i := 0)
    (by rw [hu.childs]; rfl) (hu.qLive rfl).2 (hu.qLive rfl).1 has hf g) ?_
  rintro _ _ v ⟨rfl, hv, -⟩
  exact Consumes.act ⟨rfl, hu.q_turn hv⟩

/-- It has none if it has ended or is not due. -/
theorem consumes_prjQ_idle {done : Bool} (h : Stage env s n q ps isOver ext done)
    (hidle : isOver = true ∨ ext = false) :
    Consumes turnOf (prjQ (excute (f + 1)) (g + 1) n) s [] fun _ o u =>
      o = [] ∧ Stage env u n q ps isOver ext done := by
  have hq : q ∈ q :: ps := List.mem_cons_self
  rw [prjQ]
  refine Consumes.get (Consumes.act_bind ?_)
  have hu : Stage env ((Label.edit n (.hasExtQ (s.heap n).extQ)).apply s) n q ps isOver ext done :=
    h.edit (fun _ => ⟨rfl, rfl⟩) fun hover => h.extQ hover
  cases hext : (s.heap n).extQ with
  | false => exact Consumes.pure ⟨rfl, hext ▸ hu⟩
  | true =>
    rw [if_pos rfl, show (s.heap n).childs = q :: ps from h.childs]
    rw [hext] at hu
    refine (consumes_leafCorrect (hu.leaf q hq).1 g).bind_nil ?_
    rintro _ _ _ ⟨rfl, rfl, rfl⟩
    have hover : isOver = true := by
      rcases hidle with hover | hno
      · exact hover
      · by_contra hcon
        rw [Bool.not_eq_true] at hcon
        rw [h.extQ hcon, hno] at hext
        cases hext
    have hyes : ((Label.edit n (.hasExtQ true)).apply s).ended q = true := by
      rw [State.ended, (hu.leaf q hq).1, hu.qOver hover]
      exact Bool.or_true _
    rw [hyes]
    exact Consumes.pure ⟨rfl, hu⟩

end

/-! ## A state -/

/-- What everybody does in state `t`. -/
def stateInput (script : Ptr → Nat → List Action) (q : Ptr) (sps : List (Span Ptr)) (j t : Nat) :
    List Action :=
  pInput script sps t ++ if QTurn sps j t then script q (dueBefore sps t) else []

/-- The node before state `t`: the p's that have ended are gone, the first of the others has begun or
    is about to. -/
def Before (env : Env) (n q : Ptr) (ps : List Ptr) (k : Ptr → Nat) (j t : Nat) (s : State) : Prop :=
  ∃ ended a rest, spans k 0 ps = ended ++ spans k a rest ∧ (∀ sp ∈ ended, sp.last < t) ∧ a ≤ t ∧
    (∀ sp ∈ spans k a rest, t ≤ sp.last) ∧ (rest = [] → ¬ j < dueBefore (spans k 0 ps) t) ∧
    Stage env s n q rest (decide (j < dueBefore (spans k 0 ps) t)) (decide (t = 0)) false

section

variable {env : Env} {s : State} {n q : Ptr} {ps : List Ptr} {k : Ptr → Nat}
  {script : Ptr → Nat → List Action}
  {f g j t : Nat} {isOver ext : Bool}

/-- The node has not ended, and finds so. -/
theorem consumes_prjCorrect (h : Stage env s n q ps isOver ext false) (hover : ps = [] → isOver = false) :
    Consumes turnOf (prjCorrect n) s [] fun b o u => b = false ∧ o = [] ∧ u = s := by
  rw [prjCorrect]
  refine Consumes.get ?_
  rw [show (s.heap n).childs = q :: ps from h.childs]
  have hcount : ps.countP s.emptyLeaf = 0 := by
    rw [List.countP_eq_zero]
    intro c hc hempty
    have hmore := (h.live c hc).1
    rw [(type_of_emptyLeaf hempty).1] at hmore
    cases hmore
  have hexit : ¬ (if s.isExit q then 1 else 0) + ps.countP s.emptyLeaf = ps.length + 1 := by
    rw [hcount]
    cases ps with
    | nil =>
      rw [(h.qLive (hover rfl)).2]
      simp
    | cons p ps =>
      rw [List.length_cons]
      split <;> omega
  show Consumes turnOf (if (s.heap n).len = .empty then _ else if _ then _ else _) _ _ _
  rw [if_neg (by rw [h.len]; simp), if_neg hexit]
  exact Consumes.pure ⟨rfl, rfl, rfl⟩

/-- Nobody asks whether q is due when it has ended. -/
theorem Stage.any_ext {done : Bool} (h : Stage env s n q ps isOver ext done) (ext' : Bool)
    (hext : isOver = false → ext' = ext) : Stage env s n q ps isOver ext' done :=
  { h with extQ := fun hover => (h.extQ hover).trans (hext hover).symm }

/-- What a state leaves, read off the last `Stage`. -/
theorem Stage.after {ended : List (Span Ptr)} {a : Nat} {rest : List Ptr}
    (hsplit : spans k 0 ps = ended ++ spans k a rest) (hended : ∀ sp ∈ ended, sp.last < t) (ha : a ≤ t)
    (h : Stage env s n q ((left (spans k a rest) t).map Span.task) isOver ext
      (isOver && (left (spans k a rest) t).isEmpty))
    (hover : isOver = true ↔ j < dueBefore (spans k 0 ps) (t + 1)) (hext : isOver = false → ext = false) :
    s.childs n = q :: (left (spans k 0 ps) t).map Span.task ∧
      ((s.heap n).len = .empty ↔ Over (spans k 0 ps) j t) ∧
      ((s.heap n).newType = .leaf ↔ Over (spans k 0 ps) j t) ∧
      (¬ Over (spans k 0 ps) j t → Before env n q ps k j (t + 1) s) := by
  have hleft : left (spans k 0 ps) t = left (spans k a rest) t := by
    rw [hsplit, left_append hended]
  have hdone : (isOver && (left (spans k a rest) t).isEmpty) = true ↔ Over (spans k 0 ps) j t := by
    rw [Bool.and_eq_true, hover, List.isEmpty_iff, ← hleft, left_eq_nil, Over]
    exact and_comm
  have hlen := h.len
  have hnew := h.newType
  refine ⟨by rw [hleft]; exact h.childs, ?_, ?_, fun hno => ?_⟩
  · rw [← hdone, hlen]
    split
    · next hd => exact iff_of_true rfl hd
    · next hd => exact iff_of_false nofun hd
  · rw [← hdone, hnew]
    split
    · next hd => exact iff_of_true rfl hd
    · next hd => exact iff_of_false nofun hd
  · obtain ⟨ended', a', ha', hsplit', hended', hrest⟩ := left_split rest a ha
    have hd : (isOver && (left (spans k a rest) t).isEmpty) = false := by
      rw [Bool.eq_false_iff]
      exact fun hcon => hno (hdone.mp hcon)
    rw [hd] at h
    refine ⟨ended ++ ended', a', _, by rw [hsplit, List.append_assoc, ← hsplit'], ?_,
      Nat.le_succ_of_le ha', ?_, ?_, ?_⟩
    · intro sp hsp
      rcases List.mem_append.mp hsp with hsp | hsp
      · exact Nat.lt_succ_of_lt (hended sp hsp)
      · exact Nat.lt_succ_of_le (hended' sp hsp)
    · intro sp hsp
      rw [← hrest] at hsp
      exact of_decide_eq_true (List.mem_filter.mp hsp).2
    · intro hnil hlt
      refine hno (hdone.mp ?_)
      rw [hover.mpr hlt, List.map_eq_nil_iff.mp hnil]
      rfl
    · have hover' : decide (j < dueBefore (spans k 0 ps) (t + 1)) = isOver := by
        rw [Bool.eq_iff_iff, decide_eq_true_eq]
        exact hover.symm
      rw [hover']
      exact h.any_ext _ fun hf => (hext hf).symm

/-- **One state**, against the reference. -/
theorem consumes_state (hs : Scripts k script f (q :: ps))
    (hdel : ∀ p ∈ ps, env.handler = true ∨ Exits (script p (k p))) (hf : ps.length ≤ f)
    (hb : Before env n q ps k (k q) t s) :
    Consumes turnOf (excute (f + 2) n) s (stateInput script q (spans k 0 ps) (k q) t) fun _ o u =>
      o = turnsAt q (spans k 0 ps) (k q) t ∧
      u.childs n = q :: (left (spans k 0 ps) t).map Span.task ∧
      ((u.heap n).len = .empty ↔ Over (spans k 0 ps) (k q) t) ∧
      ((u.heap n).newType = .leaf ↔ Over (spans k 0 ps) (k q) t) ∧
      (¬ Over (spans k 0 ps) (k q) t → Before env n q ps k (k q) (t + 1) u) := by
  obtain ⟨ended, a, rest, hsplit, hended, ha, hcur, hnil, h⟩ := hb
  have hps : ps = ended.map Span.task ++ rest := by
    have htasks := congrArg (List.map Span.task) hsplit
    rwa [List.map_append, spans_tasks, spans_tasks] at htasks
  have hrest : Scripts k script f rest :=
    ⟨fun c hc => hs.turn c (List.mem_cons_of_mem _ (hps ▸ List.mem_append_right _ hc)), hs.short⟩
  have hgone : ∀ c ∈ rest, env.handler = true ∨ Exits (script c (k c)) :=
    fun c hc => hdel c (hps ▸ List.mem_append_right _ hc)
  have hlen : rest.length < f + 1 := by
    have := congrArg List.length hps
    rw [List.length_append] at this
    omega
  have hactive : active (spans k 0 ps) t = active (spans k a rest) t := by
    rw [hsplit, active_append hended]
  have hrestNil : spans k a rest = [] ↔ rest = [] := by
    cases rest with
    | nil => exact iff_of_true rfl rfl
    | cons p rest => exact iff_of_false (List.cons_ne_nil _ _) (List.cons_ne_nil _ _)
  have hdue : (decide (t = 0) || (decide (∃ sp ∈ spans k a rest, sp.last = t) || rest.isEmpty)) =
      decide (QDue (spans k 0 ps) t) := by
    rw [Bool.eq_iff_iff, decide_eq_true_eq, hsplit, due_append hended hcur, hrestNil]
    simp
  have hover : rest = [] → decide (k q < dueBefore (spans k 0 ps) t) = false :=
    fun hr => decide_eq_false (hnil hr)
  have hsucc := dueBefore_succ (spans k 0 ps) t
  rw [excute]
  refine Consumes.get ?_
  rw [show (s.heap n).type = .prj from h.type]
  refine (consumes_prjCorrect h hover).bind_nil ?_
  rintro _ _ _ ⟨rfl, rfl, rfl⟩
  have hin : pInput script (spans k 0 ps) t = pInput script (spans k a rest) t := by
    rw [pInput, hactive]
    rfl
  rw [stateInput, hin]
  refine Consumes.bind (consumes_prjP hrest hgone hlen ha hcur hover h) ?_
  rintro _ _ u ⟨rfl, hu⟩
  rw [hdue] at hu
  by_cases hq : QTurn (spans k 0 ps) (k q) t
  · -- q has its turn
    obtain ⟨hd, hle⟩ := hq
    rw [if_pos ⟨hd, hle⟩]
    rw [decide_eq_true hd, decide_eq_false (Nat.not_lt.mpr hle), Bool.false_and] at hu
    rw [if_pos hd] at hsucc
    refine (consumes_prjQ_turn hu (hs.turn q List.mem_cons_self _ hle) (hs.short _ _)).imp ?_
    rintro _ _ v ⟨rfl, hv⟩
    rw [List.isEmpty_map] at hv
    refine ⟨?_, Stage.after hsplit hended ha hv ?_ fun _ => rfl⟩
    · rw [turnsAt, hactive, if_pos ⟨hd, hle⟩]
      rfl
    · rw [hsucc, decide_eq_true_eq]
      omega
  · -- it has ended, or is not due
    rw [if_neg hq]
    have hidle : decide (k q < dueBefore (spans k 0 ps) t) = true ∨
        decide (QDue (spans k 0 ps) t) = false := by
      by_cases hd : QDue (spans k 0 ps) t
      · exact Or.inl (decide_eq_true (Nat.not_le.mp fun hle => hq ⟨hd, hle⟩))
      · exact Or.inr (decide_eq_false hd)
    refine (consumes_prjQ_idle hu hidle).imp ?_
    rintro _ _ v ⟨rfl, hv⟩
    refine ⟨?_, Stage.after hsplit hended ha hv ?_ fun hno => ?_⟩
    · rw [turnsAt, hactive, if_neg hq]
      rfl
    · rw [decide_eq_true_eq]
      rcases hidle with hlt | hno
      · have := of_decide_eq_true hlt
        refine iff_of_true this ?_
        omega
      · rw [if_neg (of_decide_eq_false hno)] at hsucc
        rw [hsucc, Nat.add_zero]
    · exact hidle.resolve_left (by rw [hno]; exact Bool.false_ne_true)

/-! ## All states -/

/-- A new PRJ node whose threads all run. -/
structure PrjStart (s : State) (n q : Ptr) (ps : List Ptr) : Prop extends PrjTree s n q ps where
  live : ∀ c ∈ q :: ps, s.Live c
  extQ : (s.heap n).extQ = true
  len : (s.heap n).len = .more
  newType : (s.heap n).newType = .prj

/-- The state after `t` calls of PrjNode::excute, each with what happens in its state as input. -/
def course (f : Nat) (n : Ptr) (input : Nat → List Action) (s₀ : State) : Nat → State
  | 0 => s₀
  | t + 1 => (excute f n ⟨course f n input s₀ t, input t, []⟩).2.st

theorem before_course {s₀ : State} (h : PrjStart s₀ n q ps) (hs : Scripts k script f (q :: ps))
    (hdel : ∀ p ∈ ps, s₀.env.handler = true ∨ Exits (script p (k p)))
    (hf : ps.length ≤ f) (t : Nat) (hrun : ∀ u < t, ¬ Over (spans k 0 ps) (k q) u) :
    Before s₀.env n q ps k (k q) t
      (course (f + 2) n (stateInput script q (spans k 0 ps) (k q)) s₀ t) := by
  induction t with
  | zero =>
    refine ⟨[], 0, ps, rfl, nofun, Nat.le_refl 0, fun _ _ => Nat.zero_le _,
      fun _ => Nat.not_lt_zero _, ?_⟩
    exact ⟨h.toPrjTree, fun c hc => h.live c (List.mem_cons_of_mem _ hc),
      fun _ => h.live q List.mem_cons_self, nofun, fun _ => h.extQ, h.len, h.newType, rfl⟩
  | succ t ih =>
    have hb := ih fun u hu => hrun u (Nat.lt_succ_of_lt hu)
    obtain ⟨a, es, v, heq, -, -, -, -, hnext⟩ := (consumes_state hs hdel hf hb).run
    rw [course, heq]
    exact hnext (hrun t (Nat.lt_succ_self t))

/-- **The projection operator.**  As long as not everybody has ended, the next call returns, the turns
    it gives are those of the reference, exactly the p's that have ended are gone, and the node has
    ended exactly when everybody has.  A p that ends is deleted at once, so its thread has to exit
    with its last turn, unless the signal ends threads only. -/
theorem prj_course {s₀ : State} (h : PrjStart s₀ n q ps) (hs : Scripts k script f (q :: ps))
    (hdel : ∀ p ∈ ps, s₀.env.handler = true ∨ Exits (script p (k p))) (hf : ps.length ≤ f)
    (t : Nat) (hrun : ∀ u < t, ¬ Over (spans k 0 ps) (k q) u) :
    ∃ log u, excute (f + 2) n ⟨course (f + 2) n (stateInput script q (spans k 0 ps) (k q)) s₀ t,
        stateInput script q (spans k 0 ps) (k q) t, []⟩ = (.ok (), ⟨u, [], log⟩) ∧
      seen turnOf log = turnsAt q (spans k 0 ps) (k q) t ∧
      u.childs n = q :: (left (spans k 0 ps) t).map Span.task ∧
      ((u.heap n).len = .empty ↔ Over (spans k 0 ps) (k q) t) ∧
      ((u.heap n).newType = .leaf ↔ Over (spans k 0 ps) (k q) t) := by
  obtain ⟨⟨⟩, log, u, heq, hseen, hchilds, hlen, hnew, -⟩ :=
    (consumes_state hs hdel hf (before_course h hs hdel hf t hrun)).run
  exact ⟨log, u, heq, hseen, hchilds, hlen, hnew⟩

end

/-- A PRJ root with q at 1 and two p's at 2 and 3. -/
def prjTwo : State :=
  newThread (newThread (newThread (newRoot (start 1 plain) .prj) 0 2) 0 3) 0 4

theorem prjTwo_start : PrjStart prjTwo 0 1 [2, 3] :=
  ⟨⟨⟨by decide, by decide, by decide, by decide, by decide, by decide⟩, by decide, by decide,
    by decide⟩, by decide, by decide, by decide, by decide⟩

/-- The first p ends in state 0, the second and q end in their second turns. -/
def prjTwoLengths (c : Ptr) : Nat := if c = 2 then 0 else 1

def prjTwoScript (c : Ptr) (r : Nat) : List Action :=
  if r = prjTwoLengths c then [.call (.setNodeLength .empty), .exit] else [.pause]

theorem prjTwo_scripts : Scripts prjTwoLengths prjTwoScript 2 [1, 2, 3] := by
  constructor
  · intro c _ r _
    unfold prjTwoScript
    split
    · next hr =>
      rw [decide_eq_true hr]
      exact ⟨[], [], .exit, nofun, nofun, Or.inr rfl, rfl⟩
    · next hr =>
      rw [decide_eq_false hr]
      exact ⟨[], nofun, rfl⟩
  · intro c r
    unfold prjTwoScript
    split <;> decide

/-- In state 1 the second p and q have their last turns, and the node ends. -/
theorem prj_course_prjTwo :
    ∃ log u, excute 4 0 ⟨course 4 0 (stateInput prjTwoScript 1 (spans prjTwoLengths 0 [2, 3])
        (prjTwoLengths 1)) prjTwo 1, stateInput prjTwoScript 1 (spans prjTwoLengths 0 [2, 3])
        (prjTwoLengths 1) 1, []⟩ = (.ok (), ⟨u, [], log⟩) ∧
      seen turnOf log = [3, 1] ∧ u.childs 0 = [1] ∧ (u.heap 0).len = .empty := by
  obtain ⟨log, u, heq, hturns, hchilds, hlen, -⟩ :=
    prj_course prjTwo_start prjTwo_scripts (by decide) (Nat.le_refl 2) 1 (by decide)
  exact ⟨log, u, heq, hturns.trans (by decide), hchilds.trans (by decide), hlen.mpr (by decide)⟩

end Msvl.Function
