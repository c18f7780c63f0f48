/-
  AND and PAL nodes over leaves.

  AndNode::excute and PalNode::excute are called once per state.  Both first delete the leaves that
  have ended and then execute the others, one after the other; both end when the last leaf does.  So
  over leaves they do the same: `p and q`, too, goes on when p has ended and q has not (the check in
  AndNode::isCorrectAndExit that would end the program then is commented out).

  1. `consumes_quiet`, `consumes_ending` — a turn in which the interval does not end, and one in which
     it does, under any father.
  2. `consumes_setNodeLength_par`, `consumes_leafTurn` — the same under an AND or a PAL node.
  3. `Row` — the node between two turns.
  4. `consumes_andCheck`, `consumes_palCheck`, `consumes_rest` — the deletion of the leaves that have
     ended, and the loop over the others; `consumes_parState` — both, one state.
  5. `par_course` — all states.

  `Adds` says what of the globals has changed meanwhile.
-/
import LibMSVL.Function.Kinds
import LibMSVL.Function.Project

namespace Msvl.Function

open Msvl.Run

/-! ## A turn, under any father -/

/-- What `$$Push` adds. -/
def pushCount (as : List Action) : Nat :=
  as.countP fun a => match a with
    | .call (.push _ _ _) => true
    | _ => false

theorem pushCount_append (as bs : List Action) : pushCount (as ++ bs) = pushCount as + pushCount bs :=
  List.countP_append

theorem pushCount_of_pushes {as : List Action} (h : Pushes as) : pushCount as = as.length := by
  rw [pushCount, List.countP_eq_length]
  intro a ha
  obtain ⟨left, right, priority, rfl⟩ := h a ha
  rfl

/-- `m` elements have been pushed, no node is new, and nothing else has happened to what the manager
    looks at. -/
structure Adds (m : Nat) (s u : State) : Prop where
  prsnt : ∃ es, es.length = m ∧ u.prsnt = s.prsnt ++ es
  keepChilds : u.keepChilds = s.keepChilds
  keepPos : u.keepPos = s.keepPos
  prjNode : u.prjNode = s.prjNode
  threadRoot : u.threadRoot = s.threadRoot
  mainThread : u.mainThread = s.mainThread
  next : u.next = s.next
  map : ∀ id x, u.threadIDToNode id = some x → s.threadIDToNode id = some x
  father : ∀ x, u.father x = s.father x ∨ u.father x = none
  env : u.env = s.env
  main : u.exited s.mainThread = s.exited s.mainThread

theorem Adds.refl (s : State) : Adds 0 s s :=
  ⟨⟨[], rfl, (List.append_nil _).symm⟩, rfl, rfl, rfl, rfl, rfl, rfl, fun _ _ h => h,
    fun _ => Or.inl rfl, rfl, rfl⟩

theorem Adds.trans {m m' : Nat} {s t u : State} (h : Adds m s t) (h' : Adds m' t u) :
    Adds (m + m') s u := by
  obtain ⟨es, hes, hs⟩ := h.prsnt
  obtain ⟨fs, hfs, ht⟩ := h'.prsnt
  refine ⟨⟨es ++ fs, by rw [List.length_append, hes, hfs], by rw [ht, hs, List.append_assoc]⟩,
    h'.keepChilds.trans h.keepChilds, h'.keepPos.trans h.keepPos, h'.prjNode.trans h.prjNode,
    h'.threadRoot.trans h.threadRoot, h'.mainThread.trans h.mainThread, h'.next.trans h.next,
    fun id x hx => h.map id x (h'.map id x hx), fun x => ?_, h'.env.trans h.env, ?_⟩
  · rcases h'.father x with hx | hx
    · rw [hx]
      exact h.father x
    · exact Or.inr hx
  · have hmain := h'.main
    rw [h.mainThread] at hmain
    exact hmain.trans h.main

theorem adds_edit (s : State) (n : Ptr) (e : Edit) : Adds 0 s ((Label.edit n e).apply s) := by
  refine ⟨⟨[], rfl, ?_⟩, ?_, ?_, ?_, ?_, ?_, ?_, fun id x hx => ?_, fun x => Or.inl ?_, ?_, ?_⟩
  · rw [List.append_nil]
    exact edit_global s n e fun _ _ _ => rfl
  case refine_8 => rwa [(sameMap_edit s n e).map] at hx
  case refine_9 => exact edit_field (g := Node.father) (fun _ => by cases e <;> rfl) x
  case refine_11 => exact congrFun (edit_global (φ := State.exited) s n e fun _ _ _ => rfl) _
  all_goals exact edit_global s n e fun _ _ _ => rfl

section

variable {self : Tid} {s : State} {as : List Action} {f : Nat}

/-- The elements are added at the back. -/
theorem consumes_pushing {pushes rest : List Action} (hp : Pushes pushes) (g : Nat)
    {Q : Unit → List Ptr → State → Prop} : ∀ s : State,
    (∀ es, es.length = pushes.length →
      Consumes turnOf (runThread g self) { s with prsnt := s.prsnt ++ es } rest Q) →
    Consumes turnOf (runThread (pushes.length + g) self) s (pushes ++ rest) Q := by
  induction pushes with
  | nil =>
    intro s h
    rw [List.length_nil, Nat.zero_add]
    have hnil := h [] rfl
    rwa [List.append_nil] at hnil
  | cons a pushes ih =>
    intro s h
    obtain ⟨left, right, priority, rfl⟩ := hp a List.mem_cons_self
    rw [List.length_cons, Nat.add_right_comm, runThread]
    refine Consumes.read (Consumes.act_bind ?_)
    refine ih (fun b hb => hp b (List.mem_cons_of_mem _ hb)) _ fun es hes => ?_
    have hnext := h (⟨left, words right, priority, self⟩ :: es) (by simp [hes])
    rw [List.append_cons] at hnext
    exact hnext

/-- The thread pushes, and pauses. -/
theorem consumes_quiet (has : QuietTurn as) (hf : as.length ≤ f) :
    Consumes turnOf (runThread f self) s as fun _ o u => o = [] ∧ Adds (pushCount as) s u ∧
      u.heap = s.heap ∧ u.threadIDToNode = s.threadIDToNode ∧ u.exited = s.exited := by
  obtain ⟨pushes, hp, rfl⟩ := has
  rw [List.length_append, List.length_singleton] at hf
  obtain ⟨g, rfl⟩ : ∃ g, f = pushes.length + (g + 1) := ⟨f - pushes.length - 1, by omega⟩
  refine consumes_pushing hp (g + 1) _ fun es hes => ?_
  rw [runThread]
  refine Consumes.read (Consumes.pure ⟨rfl, ⟨⟨es, ?_, rfl⟩, rfl, rfl, rfl, rfl, rfl, rfl, fun _ _ h => h,
    fun _ => Or.inl rfl, rfl, rfl⟩, rfl, rfl, rfl⟩)
  rw [pushCount_append, pushCount_of_pushes hp]
  exact hes

/-- The thread pushes, ends its interval, pushes, and pauses or exits. -/
theorem consumes_ending {E : State → Prop}
    (hset : ∀ g p, Consumes turnOf (setNodeLength (g + 1) self .empty) { s with prsnt := p } []
      fun _ o u => o = [] ∧ E u ∧ Adds 0 { s with prsnt := p } u) (hself : self ≠ s.mainThread)
    (has : EndTurn as) (hf : as.length ≤ f) :
    Consumes turnOf (runThread f self) s as fun _ o u => o = [] ∧ Adds (pushCount as) s u ∧
      (∃ v, E v ∧ u.heap = v.heap ∧ u.threadIDToNode = v.threadIDToNode ∧
        ∀ id, id ≠ self → u.exited id = v.exited id) ∧ (Exits as → u.exited self = true) := by
  obtain ⟨pushes, pushes', last, hp, hp', hlast, rfl⟩ := has
  simp only [List.length_append, List.length_cons, List.length_nil] at hf
  obtain ⟨g, rfl⟩ : ∃ g, f = pushes.length + (pushes'.length + (g + 1) + 1) :=
    ⟨f - pushes.length - pushes'.length - 2, by omega⟩
  refine consumes_pushing hp _ _ fun es hes => ?_
  rw [runThread]
  refine Consumes.read (Consumes.bind_nil (hset (pushes'.length + g) _) ?_)
  rintro _ _ v ⟨rfl, hv, hadds⟩
  refine consumes_pushing hp' (g + 1) _ fun es' hes' => ?_
  rw [runThread]
  have hcount : pushCount (pushes ++ .call (.setNodeLength .empty) :: (pushes' ++ [last])) =
      pushes.length + (0 + pushes'.length) := by
    rw [pushCount_append, pushCount_of_pushes hp, ← List.singleton_append, pushCount_append, pushCount_append,
      pushCount_of_pushes hp']
    rcases hlast with rfl | rfl <;> rfl
  have hfirst : Adds pushes.length s { s with prsnt := s.prsnt ++ es } :=
    ⟨⟨es, hes, rfl⟩, rfl, rfl, rfl, rfl, rfl, rfl, fun _ _ h => h, fun _ => Or.inl rfl, rfl, rfl⟩
  have hlater : ∀ e, e v.mainThread = v.exited v.mainThread →
      Adds pushes'.length v { v with prsnt := v.prsnt ++ es', exited := e } :=
    fun e he => ⟨⟨es', hes', rfl⟩, rfl, rfl, rfl, rfl, rfl, rfl, fun _ _ h => h,
      fun _ => Or.inl rfl, rfl, he⟩
  have hends : (pushes ++ Action.call (.setNodeLength .empty) :: (pushes' ++ [last])).getLast? =
      some last := by
    rw [← List.cons_append, ← List.append_assoc, List.getLast?_concat]
  rw [hcount]
  rcases hlast with rfl | rfl
  · refine Consumes.read (Consumes.pure ⟨rfl, hfirst.trans (hadds.trans (hlater v.exited rfl)),
      ⟨v, hv, rfl, rfl, fun _ _ => rfl⟩, fun hexits => ?_⟩)
    cases hends.symm.trans hexits
  · refine Consumes.read (Consumes.act ⟨rfl, hfirst.trans (hadds.trans (hlater _ ?_)),
      ⟨v, hv, rfl, rfl, fun id hid => Function.update_of_ne hid _ _⟩,
      fun _ => Function.update_self _ _ _⟩)
    refine Function.update_of_ne ?_ _ _
    rw [hadds.mainThread]
    exact Ne.symm hself

end

/-! ## The end of an interval under an AND or a PAL node -/

/-- AND or PAL. -/
def NodeType.Par (ty : NodeType) : Prop := ty = .and ∨ ty = .pal

/-- The node when its leaf has ended its interval, and may have been the last. -/
def Node.finish (x : Node) (hasEmpty isLast : Bool) : Node :=
  { x with
    hasEmpty := hasEmpty
    len := if isLast then .empty else x.len
    newType := if isLast then .leaf else x.newType }

/-- The state after the leaf `c` under `n` has ended its interval. -/
structure ParEnded (s : State) (n c : Ptr) (u : State) : Prop where
  off : ∀ x, x ≠ n → x ≠ c → u.heap x = s.heap x
  self : u.heap c = { s.heap c with len := .empty }
  own : ∃ b, u.heap n = (s.heap n).finish b (decide (s.LastOf n c))
  map : u.threadIDToNode = s.threadIDToNode
  exited : u.exited = s.exited

/-- `node->setNodeLength(EMPTY); node->setNewNodeType(LEAF); changedNode = node;` -/
theorem heap_over (s : State) (n : Ptr) :
    ((Label.edit n (.leaf true)).apply ((Label.edit n (.len .empty)).apply s)).heap n =
      { s.heap n with len := .empty, newType := .leaf } ∧
    ∀ x, x ≠ n →
      ((Label.edit n (.leaf true)).apply ((Label.edit n (.len .empty)).apply s)).heap x = s.heap x := by
  have hmid : ((Label.edit n (.len .empty)).apply s).heap n = { s.heap n with len := .empty } :=
    if_pos rfl
  refine ⟨(if_pos rfl).trans ?_, fun x hx => (if_neg hx).trans (if_neg hx)⟩
  rw [hmid]
  rfl

section

variable {s : State} {n c : Ptr} (h : Flat s n) (hc : LeafOf s n c)
  (hnone : ∀ x ∈ s.childs n, (s.heap x).len ≠ .none)

include hc hnone

/-- What setAndLen and setPalLen count after `c` has become EMPTY. -/
theorem counts_ended :
    ((s.childs n).countP fun x => (((Label.edit c (.len .empty)).apply s).heap x).len == .none) = 0 ∧
    0 < (s.childs n).countP ((Label.edit c (.len .empty)).apply s).emptyLeaf ∧
    ((s.childs n).countP ((Label.edit c (.len .empty)).apply s).emptyLeaf = (s.childs n).length ↔
      s.LastOf n c) := by
  have hself : ((Label.edit c (.len .empty)).apply s).heap c = { s.heap c with len := .empty } :=
    if_pos rfl
  have hoff : ∀ x, x ≠ c → ((Label.edit c (.len .empty)).apply s).heap x = s.heap x :=
    fun x hx => if_neg hx
  have hleaf : (s.heap c).type = .leaf := hc.type
  have hempty : ((Label.edit c (.len .empty)).apply s).emptyLeaf c = true := by
    unfold State.emptyLeaf
    rw [hself, hleaf]
    rfl
  refine ⟨?_, ?_, ?_⟩
  · rw [List.countP_eq_zero]
    intro x hx
    by_cases hxc : x = c
    · rw [hxc, hself]
      simp
    · rw [hoff x hxc]
      simpa using hnone x hx
  · rw [List.countP_pos_iff]
    exact ⟨c, hc.mem, hempty⟩
  · rw [List.countP_eq_length]
    refine forall₂_congr fun x hx => ?_
    by_cases hxc : x = c
    · subst hxc
      simp [hempty]
    · have hlen := hnone x hx
      unfold State.emptyLeaf
      rw [hoff x hxc]
      cases hl : (s.heap x).len <;> simp_all [State.type]

include h

theorem consumes_setNodeLength_par (htype : (s.type n).Par) (g : Nat) :
    Consumes turnOf (setNodeLength (g + 1) (s.thread c) .empty) s []
      fun _ o u => o = [] ∧ ParEnded s n c u ∧ Adds 0 s u := by
  have hnc : n ≠ c := by
    rintro rfl
    exact h.own hc.mem
  obtain ⟨hzero, hpos, hlast⟩ := counts_ended hc hnone
  rw [setNodeLength]
  refine Consumes.get ?_
  rw [show s.threadIDToNode (s.thread c) = some c from h.reg c hc.mem]
  refine Consumes.act_bind ?_
  rw [show (s.heap c).father = some n from hc.father]
  dsimp only
  -- the state in which the children are counted
  have hself : ((Label.edit c (.len .empty)).apply s).heap c = { s.heap c with len := .empty } :=
    if_pos rfl
  have hoff : ∀ x, x ≠ c → ((Label.edit c (.len .empty)).apply s).heap x = s.heap x :=
    fun x hx => if_neg hx
  have hchilds : (((Label.edit c (.len .empty)).apply s).heap n).childs = s.childs n :=
    edit_childs s c _ n
  have hmap : ((Label.edit c (.len .empty)).apply s).threadIDToNode = s.threadIDToNode := rfl
  have hexited : ((Label.edit c (.len .empty)).apply s).exited = s.exited := rfl
  have hown : ((Label.edit c (.len .empty)).apply s).heap n = s.heap n := hoff n hnc
  have hlength : (s.childs n).length ≠ 0 := by
    rw [Ne, List.length_eq_zero_iff]
    exact List.ne_nil_of_mem hc.mem
  rcases htype with hand | hpal
  · rw [show (s.heap n).type = .and from hand]
    show Consumes turnOf (setAndLen (g + 1) (some n)) _ _ _
    rw [setAndLen]
    refine Consumes.get ?_
    dsimp only
    rw [hown, if_neg (by simp [show (s.heap n).type = .and from hand]), hzero,
      show (s.heap n).childs = s.childs n from rfl, decide_eq_true hpos]
    refine Consumes.act_bind (Consumes.get ?_)
    -- the flag is set before the lengths are compared
    have hflag : ((Label.edit n .hasEmpty).apply ((Label.edit c (.len .empty)).apply s)).heap n =
        { s.heap n with hasEmpty := true } := (if_pos rfl).trans (by rw [hown]; rfl)
    have hrest : ∀ x, x ≠ n →
        ((Label.edit n .hasEmpty).apply ((Label.edit c (.len .empty)).apply s)).heap x =
          ((Label.edit c (.len .empty)).apply s).heap x := fun x hx => if_neg hx
    rw [hflag, if_neg (by simp [Ne.symm hlength]), if_pos rfl, Nat.add_zero]
    split
    · next hall =>
      have hl := hlast.mp hall
      obtain ⟨hn, hother⟩ := heap_over
        ((Label.edit n .hasEmpty).apply ((Label.edit c (.len .empty)).apply s)) n
      refine Consumes.act_bind (Consumes.act ⟨rfl, ⟨?_, ?_, ⟨true, ?_⟩, rfl, rfl⟩, ?_⟩)
      · exact fun x hxn hxc => (hother x hxn).trans ((hrest x hxn).trans (hoff x hxc))
      · exact (hother c (Ne.symm hnc)).trans ((hrest c (Ne.symm hnc)).trans hself)
      · rw [hn, hflag, decide_eq_true hl]
        rfl
      · exact (((adds_edit s c _).trans (adds_edit _ n _)).trans (adds_edit _ n _)).trans (adds_edit _ n _)
    · next hall =>
      have hl : ¬ s.LastOf n c := fun hcon => hall (hlast.mpr hcon)
      refine Consumes.pure ⟨rfl, ⟨?_, (hrest c (Ne.symm hnc)).trans hself, ⟨true, ?_⟩, rfl, rfl⟩,
        (adds_edit s c _).trans (adds_edit _ n _)⟩
      · exact fun x hxn hxc => (hrest x hxn).trans (hoff x hxc)
      · rw [decide_eq_false hl, hflag]
        rfl
  · rw [show (s.heap n).type = .pal from hpal]
    show Consumes turnOf (setPalLen n) _ _ _
    rw [setPalLen]
    refine Consumes.get ?_
    dsimp only
    rw [hchilds, hzero, if_neg (Ne.symm hlength), Nat.add_zero]
    split
    · next hall =>
      have hl := hlast.mp hall
      obtain ⟨hn, hother⟩ := heap_over ((Label.edit c (.len .empty)).apply s) n
      refine Consumes.act_bind
        (Consumes.act ⟨rfl, ⟨?_, ?_, ⟨(s.heap n).hasEmpty, ?_⟩, rfl, rfl⟩, ?_⟩)
      · exact fun x hxn hxc => (hother x hxn).trans (hoff x hxc)
      · exact (hother c (Ne.symm hnc)).trans hself
      · rw [hn, hown, decide_eq_true hl]
        rfl
      · exact ((adds_edit s c _).trans (adds_edit _ n _)).trans (adds_edit _ n _)
    · next hall =>
      have hl : ¬ s.LastOf n c := fun hcon => hall (hlast.mpr hcon)
      refine Consumes.pure ⟨rfl, ⟨fun x _ hxc => hoff x hxc, hself, ⟨(s.heap n).hasEmpty, ?_⟩, rfl,
        rfl⟩, adds_edit s c _⟩
      rw [decide_eq_false hl, hown]
      rfl

end

/-! ## The turn of a leaf -/

/-- The state after the leaf `c` under `n` has had its turn, and in it has ended (`isOver`) or not. -/
structure ParTurned (s : State) (n c : Ptr) (isOver : Bool) (u : State) : Prop where
  off : ∀ x, x ≠ n → x ≠ c → u.heap x = s.heap x
  self : u.heap c = { s.heap c with isInit := true, len := if isOver then .empty else (s.heap c).len }
  own : ∃ b, u.heap n = (s.heap n).finish b (isOver && decide (s.LastOf n c))
  map : u.threadIDToNode = s.threadIDToNode
  exited : ∀ id, isOver = false ∨ id ≠ s.thread c → u.exited id = s.exited id

section

variable {s : State} {n c : Ptr} {as : List Action} {f : Nat} {isOver : Bool} (h : Flat s n)
  (hpar : (s.type n).Par) (hc : LeafOf s n c) (hnone : ∀ x ∈ s.childs n, (s.heap x).len ≠ .none)
  (hmain : s.thread c ≠ s.mainThread)

include h hpar hc hnone hmain

theorem consumes_parTurn (has : Script isOver as) (hf : as.length ≤ f) :
    Consumes turnOf (turn f c) s as fun _ o u => o = [c] ∧ ParTurned s n c isOver u ∧
      Adds (pushCount as) s u ∧ (Exits as → u.exited (s.thread c) = true) := by
  have hnc : n ≠ c := by
    rintro rfl
    exact h.own hc.mem
  rw [turn]
  refine Consumes.act_bind (Consumes.act_bind (Consumes.get ?_))
  show Consumes turnOf (runThread f (((Label.edit c .isInit).apply s).heap c).thread)
    ((Label.edit c .isInit).apply s) as fun _ o u => [c] ++ ([] ++ o) = [c] ∧
      ParTurned s n c isOver u ∧ Adds (pushCount as) s u ∧ (Exits as → u.exited (s.thread c) = true)
  -- the thread initialises itself first
  have hflat := h.edit c .isInit
  have hself : ((Label.edit c .isInit).apply s).heap c = { s.heap c with isInit := true } := if_pos rfl
  have hoff : ∀ x, x ≠ c → ((Label.edit c .isInit).apply s).heap x = s.heap x := fun x hx => if_neg hx
  have hmap : ((Label.edit c .isInit).apply s).threadIDToNode = s.threadIDToNode := rfl
  have hexited : ((Label.edit c .isInit).apply s).exited = s.exited := rfl
  have hmainv : ((Label.edit c .isInit).apply s).mainThread = s.mainThread := rfl
  have hstart : ∀ {u}, Adds (pushCount as) ((Label.edit c .isInit).apply s) u → Adds (pushCount as) s u := by
    intro u hu
    have htrans := (adds_edit s c .isInit).trans hu
    rwa [Nat.zero_add] at htrans
  have hchilds : ((Label.edit c .isInit).apply s).childs n = s.childs n := edit_childs s c _ n
  have hlast : ((Label.edit c .isInit).apply s).LastOf n c ↔ s.LastOf n c := by
    unfold State.LastOf
    rw [hchilds]
    refine forall₂_congr fun x _ => forall_congr' fun hx => ?_
    rw [State.type, hoff x hx]
  generalize (Label.edit c .isInit).apply s = v at *
  have hown : v.heap n = s.heap n := hoff n hnc
  have hthread : (v.heap c).thread = s.thread c := by
    rw [hself]
  rw [hthread]
  cases isOver with
  | false =>
    refine (consumes_quiet has hf).imp ?_
    rintro _ _ u ⟨rfl, hadds, hheap, hu, hue⟩
    refine ⟨rfl, ⟨?_, by rw [hheap, hself]; rfl, ⟨(s.heap n).hasEmpty, ?_⟩, hu.trans hmap,
      fun _ _ => by rw [hue, hexited]⟩, hstart hadds, fun hexits => ?_⟩
    · exact fun x _ hxc => by rw [hheap, hoff x hxc]
    · rw [hheap, hown]
      rfl
    · obtain ⟨pushes, -, rfl⟩ := has
      rw [Exits, List.getLast?_concat] at hexits
      cases hexits
  | true =>
    refine (consumes_ending (E := ParEnded v n c) (fun g p => ?_) (by rw [hmainv]; exact hmain) has
      hf).imp ?_
    · have hflat' : Flat { v with prsnt := p } n :=
        ⟨hflat.composite, hflat.terminal, hflat.reg, hflat.bare, hflat.nodup, hflat.root⟩
      have hleaf : LeafOf { v with prsnt := p } n c :=
        ⟨show c ∈ v.childs n from hchilds ▸ hc.mem, show (v.heap c).type = .leaf from hself ▸ hc.type,
          show (v.heap c).newType = .leaf from hself ▸ hc.newType,
          show (v.heap c).father = some n from hself ▸ hc.father⟩
      have hnone' : ∀ x ∈ v.childs n, (v.heap x).len ≠ .none := by
        intro x hx
        by_cases hxc : x = c
        · rw [hxc, hself]
          exact hnone c hc.mem
        · rw [hoff x hxc]
          exact hnone x (hchilds ▸ hx)
      have hset := consumes_setNodeLength_par hflat' hleaf hnone'
        (show (v.heap n).type.Par from hown ▸ hpar) g
      rw [show State.thread { v with prsnt := p } c = s.thread c from hthread] at hset
      refine hset.imp ?_
      rintro _ _ u ⟨rfl, hu, hadds⟩
      exact ⟨rfl, ⟨hu.off, hu.self, hu.own, hu.map, hu.exited⟩, hadds⟩
    · rintro _ _ u ⟨rfl, hadds, ⟨w, hw, hheap, hmapu, hexitu⟩, hexits⟩
      obtain ⟨b, hb⟩ := hw.own
      refine ⟨rfl, ⟨?_, ?_, ⟨b, ?_⟩, ?_, ?_⟩, hstart hadds, hexits⟩
      · intro x hxn hxc
        rw [hheap, hw.off x hxn hxc, hoff x hxc]
      · rw [hheap, hw.self, hself]
        rfl
      · rw [hheap, hb, hown, Bool.true_and, decide_eq_decide.mpr hlast]
      · rw [hmapu, hw.map, hmap]
      · intro id hid
        rw [hexitu id (hid.resolve_left (by simp)), hw.exited, hexited]

/-- Executing a leaf that has not ended. -/
theorem consumes_parLeaf (hlive : s.Live c) (has : Script isOver as) (hf : as.length ≤ f) :
    Consumes turnOf (excute (f + 1) c) s as fun _ o u => o = [c] ∧ ParTurned s n c isOver u ∧
      Adds (pushCount as) s u ∧ (Exits as → u.exited (s.thread c) = true) := by
  rw [excute]
  refine Consumes.get ?_
  rw [show (s.heap c).type = .leaf from hc.type]
  refine Consumes.get ?_
  have hno : ¬ (s.isExit c || (s.heap c).len != .more) = true := by
    rw [hlive.2, hlive.1]
    simp
  rw [if_neg hno]
  exact consumes_parTurn h hpar hc hnone hmain has hf

end

/-- The children of `n` stay where they are in a turn of one of them. -/
theorem ParTurned.childs {s u : State} {n c : Ptr} {b : Bool} (ht : ParTurned s n c b u) :
    u.childs n = s.childs n := by
  by_cases hnc : n = c
  · subst hnc
    rw [State.childs, ht.self]
  · obtain ⟨e, he⟩ := ht.own
    rw [State.childs, he]
    rfl

/-- `ex` gives a leaf under `n` its turn. -/
def GivesTurn (f : Nat) (n : Ptr) (ex : Ptr → M Unit) : Prop :=
  ∀ (s : State) (c : Ptr) (as : List Action) (isOver : Bool), Flat s n → (s.type n).Par →
    LeafOf s n c → (∀ x ∈ s.childs n, (s.heap x).len ≠ .none) → s.thread c ≠ s.mainThread →
    s.Live c → Script isOver as → as.length ≤ f →
    Consumes turnOf (ex c) s as fun _ o u => o = [c] ∧ ParTurned s n c isOver u ∧
      Adds (pushCount as) s u ∧ (Exits as → u.exited (s.thread c) = true)

theorem givesTurn_excute (f : Nat) (n : Ptr) : GivesTurn f n (excute (f + 1)) :=
  fun _ _ _ _ => consumes_parLeaf

/-- No vector grows here, so the iterator of PalNode::excute stays valid. -/
theorem GivesTurn.throughIterator {f : Nat} {n : Ptr} {ex : Ptr → M Unit} (hex : GivesTurn f n ex) :
    GivesTurn f n (throughIterator ex n) := by
  intro s c as isOver h hpar hc hnone hmain hlive has hf
  rw [Function.throughIterator]
  refine Consumes.get ?_
  nth_rewrite 1 [← List.append_nil as]
  refine Consumes.bind (hex s c as isOver h hpar hc hnone hmain hlive has hf) ?_
  rintro _ _ u ⟨rfl, hu, hadds, hexits⟩
  refine Consumes.get ?_
  have hsame : (u.heap n).childs.length = (s.heap n).childs.length := congrArg List.length hu.childs
  rw [if_neg fun hcon => Nat.lt_irrefl _ (hsame ▸ hcon.1)]
  exact Consumes.pure ⟨rfl, hu, hadds, hexits⟩

section

variable {s : State} {n c : Ptr} {as : List Action} {f : Nat} {isOver : Bool} (h : Flat s n)
  (hpar : (s.type n).Par) (hc : LeafOf s n c) (hnone : ∀ x ∈ s.childs n, (s.heap x).len ≠ .none)
  (hmain : s.thread c ≠ s.mainThread) {ex : Ptr → M Unit} (hex : GivesTurn f n ex)

include h hpar hc hnone hmain hex

/-- Executing the slot of a leaf that has not ended. -/
theorem consumes_parSlot {i : Nat} (hi : (s.childs n)[i]? = some c) (hlive : s.Live c)
    (has : Script isOver as) (hf : as.length ≤ f) (g : Nat) :
    Consumes turnOf (excuteSlot ex (g + 1) n i) s as fun _ o u => o = [c] ∧ ParTurned s n c isOver u ∧
      Adds (pushCount as) s u ∧ (Exits as → u.exited (s.thread c) = true) := by
  have hflat : Flat { s with active := c :: s.active } n :=
    ⟨h.composite, h.terminal, h.reg, h.bare, h.nodup, h.root⟩
  have hc' : LeafOf { s with active := c :: s.active } n c := ⟨hc.mem, hc.type, hc.newType, hc.father⟩
  have hturn := hex _ c as isOver hflat hpar hc' hnone hmain hlive has hf
  rw [excuteSlot]
  refine Consumes.get ?_
  rw [show (s.heap n).childs[i]? = some c from hi]
  refine Consumes.act_bind ?_
  nth_rewrite 1 [← List.append_nil as]
  refine Consumes.bind hturn ?_
  rintro _ _ u ⟨rfl, hu, ha, hexits⟩
  refine Consumes.get ?_
  have hclosed : ¬ u.Open c := by
    intro hopen
    refine hopen ?_
    rw [hu.self]
    exact hc.type.trans hc.newType.symm
  rw [if_neg hclosed]
  exact Consumes.act ⟨rfl, ⟨hu.off, hu.self, hu.own, hu.map, hu.exited⟩, ⟨ha.prsnt, ha.keepChilds,
    ha.keepPos, ha.prjNode, ha.threadRoot, ha.mainThread, ha.next, ha.map, ha.father, ha.env, ha.main⟩,
    hexits⟩

end

/-! ## Between two turns -/

/-- The node `n`, an AND or a PAL node, over the leaves `cs`, of which those with `isOver` have
    ended. -/
structure Row (s : State) (n : Ptr) (ty : NodeType) (cs : List Ptr) (isOver : Ptr → Bool) : Prop where
  flat : Flat s n
  type : s.type n = ty
  childs : s.childs n = cs
  leaf : ∀ c ∈ cs, s.type c = .leaf ∧ s.newType c = .leaf ∧ s.father c = some n
  live : ∀ c ∈ cs, isOver c = false → s.Live c
  past : ∀ c ∈ cs, isOver c = true → (s.heap c).len = .empty ∧ s.Deletable c
  main : ∀ c ∈ cs, s.thread c ≠ s.mainThread
  len : (s.heap n).len = if cs.all isOver then .empty else .more
  newType : s.newType n = if cs.all isOver then .leaf else ty

section

variable {s u : State} {n c : Ptr} {ty : NodeType} {cs : List Ptr} {isOver isOver' : Ptr → Bool} {b : Bool}

theorem Row.congr (h : Row s n ty cs isOver) (heq : ∀ c ∈ cs, isOver' c = isOver c) :
    Row s n ty cs isOver' := by
  have hall : cs.all isOver' = cs.all isOver := by
    rw [Bool.eq_iff_iff, List.all_eq_true, List.all_eq_true]
    exact forall₂_congr fun c hc => by rw [heq c hc]
  refine ⟨h.flat, h.type, h.childs, h.leaf, ?_, ?_, h.main, hall ▸ h.len, hall ▸ h.newType⟩
  · exact fun c hc ho => h.live c hc ((heq c hc).symm.trans ho)
  · exact fun c hc ho => h.past c hc ((heq c hc).symm.trans ho)

theorem Row.leafOf (h : Row s n ty cs isOver) (hc : c ∈ cs) : LeafOf s n c :=
  ⟨h.childs ▸ hc, (h.leaf c hc).1, (h.leaf c hc).2.1, (h.leaf c hc).2.2⟩

theorem Row.ne (h : Row s n ty cs isOver) (hc : c ∈ cs) : c ≠ n := by
  rintro rfl
  exact h.flat.own (h.childs ▸ hc)

/-- No leaf is NONE. -/
theorem Row.not_none (h : Row s n ty cs isOver) : ∀ x ∈ s.childs n, (s.heap x).len ≠ .none := by
  rw [h.childs]
  intro x hx hno
  cases ho : isOver x with
  | false =>
    rw [(h.live x hx ho).1] at hno
    cases hno
  | true =>
    rw [(h.past x hx ho).1] at hno
    cases hno

/-- `c` is the last to end when the others have ended. -/
theorem Row.lastOf (h : Row s n ty cs isOver) (hc : c ∈ cs) :
    s.LastOf n c ↔ cs.all (Function.update isOver c true) = true := by
  rw [State.LastOf, h.childs, List.all_eq_true]
  refine forall₂_congr fun x hx => ?_
  by_cases hxc : x = c
  · subst hxc
    simp
  · rw [Function.update_of_ne hxc]
    cases ho : isOver x with
    | false => simp [hxc, (h.live x hx ho).1]
    | true => simp [hxc, (h.past x hx ho).1, (h.leaf x hx).1]

/-- What a turn does not write. -/
theorem ParTurned.field (ht : ParTurned s n c b u) {α : Type} {g : Node → α}
    (hc : ∀ y i l, g { y with isInit := i, len := l } = g y) (hn : ∀ y e l, g (Node.finish y e l) = g y)
    (x : Ptr) : g (u.heap x) = g (s.heap x) := by
  by_cases hxc : x = c
  · rw [hxc, ht.self]
    exact hc _ _ _
  · by_cases hxn : x = n
    · obtain ⟨e, he⟩ := ht.own
      rw [hxn, he]
      exact hn _ _ _
    · rw [ht.off x hxn hxc]

theorem Flat.parTurned (h : Flat s n) (ht : ParTurned s n c b u) (hroot : u.threadRoot = s.threadRoot) :
    Flat u n := by
  have htype : ∀ x, u.type x = s.type x := ht.field (g := Node.type) (fun _ _ _ => rfl) fun _ _ _ => rfl
  have hchilds : ∀ x, u.childs x = s.childs x :=
    ht.field (g := Node.childs) (fun _ _ _ => rfl) fun _ _ _ => rfl
  have hthread : ∀ x, (u.heap x).thread = (s.heap x).thread :=
    ht.field (g := Node.thread) (fun _ _ _ => rfl) fun _ _ _ => rfl
  refine ⟨by rw [htype]; exact h.composite, ?_, ?_, ?_, by rw [hchilds]; exact h.nodup,
    by rw [hchilds, hroot]; exact h.root⟩
  · rw [hchilds]
    intro x hx
    rw [htype]
    exact h.terminal x hx
  · rw [hchilds]
    intro x hx
    rw [State.Reg, hthread, ht.map]
    exact h.reg x hx
  · rw [hchilds]
    intro x hx
    rw [htype, hchilds]
    exact h.bare x hx

/-- A thread that has had no turn is as it was. -/
theorem Row.same_turned (h : Row s n ty cs isOver) (hc : c ∈ cs) (ht : ParTurned s n c b u) {x : Ptr}
    (hx : x ∈ cs) (hxc : x ≠ c) : u.heap x = s.heap x ∧ u.isExit x = s.isExit x := by
  have hheap := ht.off x (h.ne hx) hxc
  refine ⟨hheap, ?_⟩
  have hthread : (s.heap x).thread ≠ s.thread c := by
    intro heq
    have hregx := h.flat.reg x (h.childs ▸ hx)
    have hregc := h.flat.reg c (h.childs ▸ hc)
    rw [State.Reg, heq] at hregx
    exact hxc (Option.some.inj (hregx.symm.trans hregc))
  rw [State.isExit, hheap, ht.exited _ (Or.inr hthread)]
  rfl

/-- **One turn.**  A leaf that ends in it can be deleted. -/
theorem Row.turned (h : Row s n ty cs isOver) (hc : c ∈ cs) (ho : isOver c = false)
    (ht : ParTurned s n c b u) {m : Nat} (hadds : Adds m s u) (hdel : b = true → u.Deletable c) :
    Row u n ty cs (Function.update isOver c b) := by
  have hbefore : cs.all isOver = false := by
    rw [Bool.eq_false_iff, Ne, List.all_eq_true]
    intro hall
    rw [hall c hc] at ho
    cases ho
  have hall : cs.all (Function.update isOver c b) = (b && decide (s.LastOf n c)) := by
    cases b with
    | false =>
      rw [Bool.false_and, Bool.eq_false_iff, Ne, List.all_eq_true]
      intro hall
      have hcon := hall c hc
      rw [Function.update_self] at hcon
      cases hcon
    | true =>
      rw [Bool.true_and, Bool.eq_iff_iff, decide_eq_true_eq]
      exact (h.lastOf hc).symm
  have hlen := h.len
  have hnew := h.newType
  rw [hbefore] at hlen hnew
  obtain ⟨e, hown⟩ := ht.own
  have htype : ∀ x, u.type x = s.type x := ht.field (g := Node.type) (fun _ _ _ => rfl) fun _ _ _ => rfl
  have hchilds : ∀ x, u.childs x = s.childs x :=
    ht.field (g := Node.childs) (fun _ _ _ => rfl) fun _ _ _ => rfl
  have hfather : ∀ x, u.father x = s.father x :=
    ht.field (g := Node.father) (fun _ _ _ => rfl) fun _ _ _ => rfl
  refine ⟨h.flat.parTurned ht hadds.threadRoot, (htype n).trans h.type, (hchilds n).trans h.childs,
    ?_, ?_, ?_, ?_, ?_, ?_⟩
  · intro x hx
    rw [htype, hfather]
    refine ⟨(h.leaf x hx).1, ?_, (h.leaf x hx).2.2⟩
    by_cases hxc : x = c
    · rw [State.newType, hxc, ht.self]
      exact (h.leaf c hc).2.1
    · rw [State.newType, ht.off x (h.ne hx) hxc]
      exact (h.leaf x hx).2.1
  · intro x hx hxo
    by_cases hxc : x = c
    · -- it goes on
      subst hxc
      rw [Function.update_self] at hxo
      subst hxo
      obtain ⟨hmore, hexit⟩ := h.live x hx ho
      refine ⟨by rw [ht.self]; exact hmore, ?_⟩
      rw [State.isExit, ht.self, ht.exited _ (Or.inl rfl)]
      exact hexit
    · rw [Function.update_of_ne hxc] at hxo
      obtain ⟨hheap, hexit⟩ := h.same_turned hc ht hx hxc
      rw [State.Live, hheap, hexit]
      exact h.live x hx hxo
  · intro x hx hxo
    by_cases hxc : x = c
    · subst hxc
      rw [Function.update_self] at hxo
      refine ⟨?_, hdel hxo⟩
      rw [ht.self, hxo]
      rfl
    · rw [Function.update_of_ne hxc] at hxo
      obtain ⟨hheap, hexit⟩ := h.same_turned hc ht hx hxc
      rw [State.Deletable, hheap, hexit, hadds.env]
      exact h.past x hx hxo
  · intro x hx
    rw [State.thread, ht.field (g := Node.thread) (fun _ _ _ => rfl) (fun _ _ _ => rfl) x,
      hadds.mainThread]
    exact h.main x hx
  · rw [hown, hall]
    show (if (b && decide (s.LastOf n c)) = true then NodeLength.empty else (s.heap n).len) = _
    rw [hlen]
    rfl
  · rw [State.newType, hown, hall]
    show (if (b && decide (s.LastOf n c)) = true then NodeType.leaf else (s.heap n).newType) = _
    rw [show (s.heap n).newType = ty from hnew]

/-! ## The check -/

/-- A write to the flag or the length of `n`, or the deletion of a leaf, leaves all types asked for. -/
theorem newType_walk (h : Reaches Label.apply (fun l _ => l.Walk) s u) (x : Ptr) :
    u.newType x = s.newType x := by
  obtain ⟨es, htr⟩ := h
  refine htr.rel (I := fun _ => True) (R := fun (v w : State) => w.newType x = v.newType x)
    (fun _ _ _ h => h) (fun _ => rfl) (fun _ _ _ hvw hwz => Eq.trans hwz hvw) ?_ trivial
  intro l v hl _
  cases l with
  | edit y e =>
    cases e with
    | len | hasEmpty => exact edit_field (g := Node.newType) (fun _ => rfl) x
    | _ => exact hl.elim
  | destroy owner i y =>
    exact (destroy_field v owner i y x (g := Node.newType) fun _ _ => rfl).trans
      (destroyNode_field v y x (g := Node.newType) fun _ _ _ _ _ => rfl)
  | _ => exact hl.elim

theorem adds_walk (h : Reaches Label.apply (fun l _ => l.Walk) s u) : Adds 0 s u := by
  obtain ⟨es, htr⟩ := h
  refine htr.rel (I := fun _ => True) (R := Adds 0) (fun _ _ _ h => h) Adds.refl
    (fun _ _ _ hvw hwz => hvw.trans hwz) ?_ trivial
  intro l v hl _
  cases l with
  | edit y e => exact adds_edit v y e
  | destroy owner i y =>
    refine ⟨⟨[], rfl, (List.append_nil _).symm⟩, rfl, rfl, rfl, rfl, rfl, rfl, fun id x hx => ?_,
      fun x => ?_, rfl, rfl⟩
    · have hx : Function.update v.threadIDToNode (v.heap y).thread none id = some x := hx
      rw [Function.update_apply] at hx
      split at hx
      · cases hx
      · exact hx
    · rw [destroy_father]
      split
      · exact Or.inr rfl
      · exact Or.inl rfl
  | _ => exact hl.elim

theorem walk_hidden (l : Label) (h : l.Walk) : turnOf l = none := by
  cases l with
  | turn n => exact h.elim
  | _ => rfl

/-- What the check asks about a leaf. -/
theorem Row.asked (h : Row s n ty cs isOver) (hc : c ∈ cs) :
    s.emptyLeaf c = isOver c ∧ (s.ended c && s.type c == .leaf) = isOver c := by
  have hleaf : s.type c = .leaf := (h.leaf c hc).1
  have htype : (s.heap c).type = .leaf := hleaf
  cases ho : isOver c with
  | false =>
    obtain ⟨hmore, hexit⟩ := h.live c hc ho
    unfold State.emptyLeaf State.ended
    rw [hleaf, hmore, hexit]
    exact ⟨rfl, rfl⟩
  | true =>
    have hlen := (h.past c hc ho).1
    unfold State.emptyLeaf State.ended
    rw [hleaf, htype, hlen]
    simp

/-- Nobody is left when all have ended. -/
theorem all_kept (cs : List Ptr) (isOver : Ptr → Bool) :
    ((cs.filter fun c => !isOver c).all fun _ => false) = cs.all isOver := by
  rw [Bool.eq_iff_iff, List.all_eq_true, List.all_eq_true]
  constructor
  · intro hno c hc
    by_contra ho
    rw [Bool.not_eq_true] at ho
    exact Bool.false_ne_true (hno c (List.mem_filter.mpr ⟨hc, by rw [ho]; rfl⟩))
  · intro hall c hc
    obtain ⟨hc, ho⟩ := List.mem_filter.mp hc
    rw [hall c hc] at ho
    exact ho

/-- What the check leaves. -/
theorem Row.of_checked (h : Row s n ty cs isOver) (hk : Checked s n (cs.filter fun c => !isOver c) u)
    (hlen : (u.heap n).len = if cs.all isOver then .empty else .more)
    (hnew : u.newType n = s.newType n) (hmain : u.mainThread = s.mainThread) :
    Row u n ty (cs.filter fun c => !isOver c) fun _ => false := by
  have hmem : ∀ c ∈ cs.filter fun c => !isOver c, c ∈ cs ∧ isOver c = false := by
    intro c hc
    obtain ⟨hc, ho⟩ := List.mem_filter.mp hc
    exact ⟨hc, by simpa using ho⟩
  refine ⟨hk.flat, hk.type.trans h.type, hk.childs, ?_, ?_, nofun, ?_, by rw [all_kept]; exact hlen,
    by rw [all_kept]; exact hnew.trans h.newType⟩
  · intro c hc
    rw [State.type, State.newType, State.father, hk.same c hc]
    exact h.leaf c (hmem c hc).1
  · intro c hc _
    obtain ⟨hmore, hexit⟩ := h.live c (hmem c hc).1 (hmem c hc).2
    refine ⟨by rw [hk.same c hc]; exact hmore, ?_⟩
    rw [State.isExit, hk.same c hc, hk.exited]
    exact hexit
  · intro c hc
    rw [State.thread, hk.same c hc, hmain]
    exact h.main c (hmem c hc).1

section

variable {f : Nat} (h : Row s n ty cs isOver) (hne : cs ≠ []) (hf : cs.length ≤ f)

include h

/-- What the check counts. -/
theorem Row.counts : (cs.countP fun c => (s.heap c).len == .none) = 0 ∧
    (cs.countP s.emptyLeaf = cs.length ↔ cs.all isOver = true) := by
  constructor
  · rw [List.countP_eq_zero]
    intro c hc
    have hno := h.not_none c (h.childs ▸ hc)
    simpa using hno
  · rw [List.countP_eq_length, List.all_eq_true]
    exact forall₂_congr fun c hc => by rw [(h.asked hc).1]

/-- What the check deletes has ended. -/
theorem Row.deletable (hc : c ∈ s.childs n) (ho : isOver c = true) : s.Deletable c :=
  (h.past c (h.childs ▸ hc) ho).2

include hne hf

/-- The leaves that have ended are deleted; the node has ended when all have. -/
theorem consumes_andCheck : Consumes turnOf (andCorrect (isCorrectAndExit (f + 1)) (f + 1) n) s []
    fun b o u => b = cs.all isOver ∧ o = [] ∧
      Row u n ty (cs.filter fun c => !isOver c) (fun _ => false) ∧ Adds 0 s u := by
  obtain ⟨hzero, hcount⟩ := h.counts
  have hstart := Left.start h.flat
  rw [h.childs] at hstart
  rw [andCorrect]
  refine Consumes.get ?_
  refine (Consumes.of_yields (yields_andScan_flat h.flat
    (fun c hc he => h.deletable hc ((h.asked (h.childs ▸ hc)).1.symm.trans he)) f cs (f + 1) [] s 0 0
    (by omega) hstart)
    (takes_andScan (takes_isCorrectAndExit (f + 1)) (f + 1) n 0 0 0) walk_hidden).bind_nil ?_
  rintro ⟨e, k⟩ _ t ⟨rfl, ⟨hr, hl, hflag⟩, hreach⟩
  rw [Nat.zero_add, Nat.zero_add, Prod.mk.injEq] at hr
  obtain ⟨rfl, rfl⟩ := hr
  have hkept : (cs.filter fun c => !s.emptyLeaf c) = cs.filter fun c => !isOver c :=
    List.filter_congr fun c hc => by rw [(h.asked hc).1]
  rw [List.nil_append, hkept] at hl
  have hk := Left.checked h.flat hl
  rw [List.append_nil] at hk
  have hadds := adds_walk hreach
  have hmain := hadds.mainThread
  have hnew := newType_walk hreach n
  have hedit : ∀ l, ((Label.edit n (.len l)).apply t).newType n = s.newType n :=
    fun l => (edit_field (g := Node.newType) (fun _ => rfl) n).trans hnew
  refine Consumes.get ?_
  rw [hzero, Nat.add_zero, show (s.heap n).childs = cs from h.childs]
  split
  · next hno =>
    -- nobody has ended yet
    have hnot : cs.all isOver = false := by
      rw [hflag, Bool.or_eq_false_iff] at hno
      rw [Bool.eq_false_iff]
      intro hall
      obtain ⟨c, hc⟩ := List.exists_mem_of_ne_nil cs hne
      have hany := List.any_eq_false.mp hno.2 c hc
      exact hany ((h.asked hc).1.trans (List.all_eq_true.mp hall c hc))
    rw [if_neg fun hcon => hne (List.length_eq_zero_iff.mp hcon.symm)]
    refine Consumes.act_bind (Consumes.pure ⟨hnot.symm, rfl, ?_, hadds.trans (adds_edit t n _)⟩)
    refine h.of_checked (hk.edit .more) ?_ (hedit _) hmain
    rw [hnot]
    exact congrArg Node.len (if_pos rfl)
  · split
    · next hall =>
      refine Consumes.act_bind (Consumes.pure ⟨(hcount.mp hall).symm, rfl, ?_,
        hadds.trans (adds_edit t n _)⟩)
      refine h.of_checked (hk.edit .empty) ?_ (hedit _) hmain
      rw [hcount.mp hall]
      exact congrArg Node.len (if_pos rfl)
    · next hall =>
      have hnot : cs.all isOver = false := Bool.eq_false_iff.mpr fun hcon => hall (hcount.mpr hcon)
      exact Consumes.pure ⟨hnot.symm, rfl, h.of_checked hk (hl.len.trans h.len) hnew hmain, hadds⟩

omit hne

theorem consumes_palCheck : Consumes turnOf (palCorrect (isCorrectAndExit (f + 1)) (f + 1) n) s []
    fun b o u => b = cs.all isOver ∧ o = [] ∧
      Row u n ty (cs.filter fun c => !isOver c) (fun _ => false) ∧ Adds 0 s u := by
  obtain ⟨-, hcount⟩ := h.counts
  have hstart := Left.start h.flat
  rw [h.childs] at hstart
  rw [palCorrect]
  refine Consumes.get ?_
  refine (Consumes.of_yields (yields_palScan_flat h.flat
    (fun c hc he => h.deletable hc ((h.asked (h.childs ▸ hc)).2.symm.trans he)) f cs (f + 1) [] s 0
    (by omega) hstart)
    (takes_palScan (takes_isCorrectAndExit (f + 1)) (f + 1) n 0 0) walk_hidden).bind_nil ?_
  rintro e _ t ⟨rfl, ⟨hr, hl⟩, hreach⟩
  rw [Nat.zero_add] at hr
  subst hr
  have hkept : (cs.filter fun c => !(s.ended c && s.type c == .leaf)) = cs.filter fun c => !isOver c :=
    List.filter_congr fun c hc => by rw [(h.asked hc).2]
  rw [List.nil_append, hkept] at hl
  have hk := Left.checked h.flat hl
  rw [List.append_nil] at hk
  have hlen := hl.len.trans h.len
  have hadds := adds_walk hreach
  have hrow := h.of_checked hk hlen (newType_walk hreach n) hadds.mainThread
  refine Consumes.get ?_
  rw [show (s.heap n).childs = cs from h.childs]
  cases hall : cs.all isOver with
  | true =>
    rw [hlen, hall, if_pos rfl, if_pos rfl]
    exact Consumes.pure ⟨rfl, rfl, hrow, hadds⟩
  | false =>
    rw [hlen, hall, if_neg Bool.false_ne_true, if_neg (by decide),
      if_neg fun hcon => Bool.false_ne_true (hall.symm.trans (hcount.mp hcon))]
    exact Consumes.pure ⟨rfl, rfl, hrow, hadds⟩

end

/-! ## A state -/

variable {k : Ptr → Nat} {script : Ptr → Nat → List Action} {f t : Nat}

/-- In state `t` the leaves in `done` have had their turns. -/
def overIn (k : Ptr → Nat) (t : Nat) (done : List Ptr) (c : Ptr) : Bool :=
  decide (k c = t) && decide (c ∈ done)

/-- **The loop over the children**, by induction on those that are to come. -/
theorem consumes_rest {ex : Ptr → M Unit} (hex : GivesTurn f n ex) (hpar : ty.Par) (rest : List Ptr) :
    ∀ (done : List Ptr) (g : Nat) (s : State),
    rest.length < g → Scripts k script f rest →
    (∀ c ∈ rest, s.env.handler = true ∨ Exits (script c (k c))) → (∀ c ∈ rest, t ≤ k c) →
    Row s n ty (done ++ rest) (overIn k t done) →
    Consumes turnOf (excuteChilds ex g n done.length) s
      (rest.flatMap fun c => script c t) fun _ o u => o = rest ∧
        Row u n ty (done ++ rest) (overIn k t (done ++ rest)) ∧
        Adds (pushCount (rest.flatMap fun c => script c t)) s u := by
  induction rest with
  | nil =>
    intro done g s hg _ _ _ h
    obtain ⟨g, rfl⟩ := Nat.exists_eq_succ_of_ne_zero (Nat.ne_of_gt hg)
    rw [excuteChilds]
    refine Consumes.get ?_
    rw [show (s.heap n).childs = done ++ [] from h.childs, if_neg (by simp)]
    refine Consumes.pure ⟨rfl, ?_, Adds.refl s⟩
    rwa [List.append_nil] at h ⊢
  | cons c rest ih =>
    intro done g s hg hs hdel hk h
    obtain ⟨g, rfl⟩ : ∃ g', g = g' + 2 := ⟨g - 2, by simp at hg; omega⟩
    have hc : c ∈ done ++ c :: rest := by simp
    have hnodup := h.flat.nodup
    rw [h.childs, List.nodup_middle, List.nodup_cons, List.mem_append, not_or] at hnodup
    have ho : overIn k t done c = false := by
      simp [overIn, hnodup.1.1]
    have hscript : Script (decide (k c = t)) (script c t) := by
      have hr := hs.turn c List.mem_cons_self t (hk c List.mem_cons_self)
      rwa [decide_eq_decide.mpr (eq_comm (a := t))] at hr
    rw [excuteChilds]
    refine Consumes.get ?_
    rw [show (s.heap n).childs = done ++ c :: rest from h.childs, if_pos (by simp)]
    refine Consumes.bind (consumes_parSlot h.flat (h.type ▸ hpar) (h.leafOf hc) h.not_none (h.main c hc)
      hex (by rw [h.childs]; simp) (h.live c hc ho) hscript (hs.short _ _) g) ?_
    rintro _ _ u ⟨rfl, hu, hadds, hexits⟩
    have hgone : decide (k c = t) = true → u.Deletable c := by
      intro hend
      obtain rfl := of_decide_eq_true hend
      rcases hdel c List.mem_cons_self with hhandler | hexit
      · exact Or.inr (by rw [hadds.env, hhandler])
      · refine Or.inl ?_
        rw [State.isExit, hu.self]
        exact (Bool.or_eq_true _ _).mpr (Or.inr (hexits hexit))
    have hrow : Row u n ty ((done ++ [c]) ++ rest) (overIn k t (done ++ [c])) := by
      rw [List.append_assoc]
      refine (h.turned hc ho hu hadds hgone).congr fun x hx => ?_
      by_cases hxc : x = c
      · subst hxc
        simp [overIn]
      · rw [Function.update_of_ne hxc]
        simp [overIn, hxc]
    have hnext := ih (done ++ [c]) (g + 1) u (by simp at hg; omega)
      ⟨fun x hx => hs.turn x (List.mem_cons_of_mem _ hx), hs.short⟩
      (fun x hx => by rw [hadds.env]; exact hdel x (List.mem_cons_of_mem _ hx))
      (fun x hx => hk x (List.mem_cons_of_mem _ hx)) hrow
    rw [List.length_append, List.append_assoc] at hnext
    refine hnext.imp ?_
    rintro _ o v ⟨rfl, hv, hadds'⟩
    refine ⟨rfl, hv, ?_⟩
    rw [List.flatMap_cons, pushCount_append]
    exact hadds.trans hadds'

/-- The leaves that have a turn in state `t`. -/
def running (k : Ptr → Nat) (cs : List Ptr) (t : Nat) : List Ptr := cs.filter fun c => t ≤ k c

/-- What everybody does in state `t`. -/
def parInput (k : Ptr → Nat) (script : Ptr → Nat → List Action) (cs : List Ptr) (t : Nat) : List Action :=
  (running k cs t).flatMap fun c => script c t

/-- **One state**: in `cs'` there may be leaves that have ended in the state before. -/
theorem consumes_parState {cs' : List Ptr} (hpar : ty.Par) (hs : Scripts k script f cs)
    (hdel : ∀ c ∈ cs, s.env.handler = true ∨ Exits (script c (k c)))
    (hf : cs'.length ≤ f) (hkept : (cs'.filter fun c => !isOver c) = running k cs t)
    (hrun : running k cs t ≠ []) (h : Row s n ty cs' isOver) :
    Consumes turnOf (excute (f + 2) n) s (parInput k script cs t) fun _ o u =>
      o = running k cs t ∧ Row u n ty (running k cs t) (fun c => decide (k c < t + 1)) ∧
      Adds (pushCount (parInput k script cs t)) s u := by
  have hne : cs' ≠ [] := by
    rintro rfl
    exact hrun hkept.symm
  have hnot : cs'.all isOver = false := by
    rw [Bool.eq_false_iff, Ne, List.all_eq_true]
    intro hall
    refine hrun (hkept.symm.trans (List.filter_eq_nil_iff.mpr fun c hc => ?_))
    rw [hall c hc]
    exact Bool.false_ne_true
  have hrest : Scripts k script f (running k cs t) :=
    ⟨fun c hc => hs.turn c (List.mem_filter.mp hc).1, hs.short⟩
  have hle : ∀ c ∈ running k cs t, t ≤ k c := by
    intro c hc
    simpa using (List.mem_filter.mp hc).2
  have hshort : (running k cs t).length < f + 1 := by
    rw [← hkept]
    exact Nat.lt_succ_of_le (Nat.le_trans (List.length_filter_le _ _) hf)
  -- the loop, and what it leaves for the next state
  have hloop : ∀ ex, GivesTurn f n ex → ∀ u, Row u n ty (running k cs t) (fun _ => false) →
      Adds 0 s u → Consumes turnOf (excuteChilds ex (f + 1) n 0) u (parInput k script cs t)
        fun _ o v => o = running k cs t ∧ Row v n ty (running k cs t) (fun c => decide (k c < t + 1)) ∧
          Adds (pushCount (parInput k script cs t)) s v := by
    intro ex hex u hu hadds
    have hdel' : ∀ c ∈ running k cs t, u.env.handler = true ∨ Exits (script c (k c)) := by
      rw [hadds.env]
      exact fun c hc => hdel c (List.mem_filter.mp hc).1
    have hu' : Row u n ty ([] ++ running k cs t) (overIn k t []) :=
      hu.congr fun c _ => by simp [overIn]
    refine (consumes_rest hex hpar (running k cs t) [] (f + 1) u hshort hrest hdel' hle hu').imp ?_
    rintro _ o v ⟨rfl, hv, hadds'⟩
    have htotal := hadds.trans hadds'
    rw [Nat.zero_add] at htotal
    refine ⟨rfl, hv.congr fun c hc => ?_, htotal⟩
    rw [List.nil_append] at hc
    have := hle c hc
    rw [List.nil_append, overIn, decide_eq_true hc, Bool.and_true, decide_eq_decide]
    omega
  rw [excute]
  refine Consumes.get ?_
  rcases hpar with rfl | rfl
  · rw [show (s.heap n).type = .and from h.type]
    refine (consumes_andCheck h hne hf).bind_nil ?_
    rintro _ _ u ⟨rfl, rfl, hu, hadds⟩
    rw [hnot, hkept] at *
    exact hloop _ (givesTurn_excute f n) u hu hadds
  · rw [show (s.heap n).type = .pal from h.type]
    refine (consumes_palCheck h hf).bind_nil ?_
    rintro _ _ u ⟨rfl, rfl, hu, hadds⟩
    rw [hnot, hkept] at *
    exact hloop _ (givesTurn_excute f n).throughIterator u hu hadds

/-! ## All states -/

theorem kept_before : ((cs.filter fun c => t ≤ k c + 1).filter fun c => !decide (k c < t)) =
    running k cs t := by
  rw [List.filter_filter, running]
  refine List.filter_congr fun c _ => ?_
  rw [Bool.eq_iff_iff]
  simp
  omega

theorem short_before (hf : cs.length ≤ f) : (cs.filter fun c => t ≤ k c + 1).length ≤ f :=
  Nat.le_trans (List.length_filter_le _ _) hf

/-- A new AND or PAL node whose threads all run. -/
def ParStart (s : State) (n : Ptr) (ty : NodeType) (cs : List Ptr) : Prop :=
  ty.Par ∧ cs ≠ [] ∧ Row s n ty cs fun _ => false

/-- Before state `t` the leaves that have ended in the state before are still there. -/
theorem row_course {s₀ : State} (h : ParStart s₀ n ty cs) (hs : Scripts k script f cs)
    (hdel : ∀ c ∈ cs, s₀.env.handler = true ∨ Exits (script c (k c)))
    (hf : cs.length ≤ f) (t : Nat) (hrun : ∀ u < t, running k cs u ≠ []) :
    Row (course (f + 2) n (parInput k script cs) s₀ t) n ty (cs.filter fun c => t ≤ k c + 1)
      (fun c => decide (k c < t)) ∧
    (course (f + 2) n (parInput k script cs) s₀ t).env = s₀.env := by
  obtain ⟨hpar, -, hrow⟩ := h
  induction t with
  | zero =>
    have hall : (cs.filter fun c => 0 ≤ k c + 1) = cs := List.filter_eq_self.mpr fun c _ => by simp
    rw [hall]
    exact ⟨hrow.congr fun c _ => by simp, rfl⟩
  | succ t ih =>
    obtain ⟨hb, henv⟩ := ih fun u hu => hrun u (Nat.lt_succ_of_lt hu)
    obtain ⟨⟨⟩, es, v, heq, -, hnext, hadds⟩ :=
      (consumes_parState hpar hs (by rw [henv]; exact hdel) (short_before hf) kept_before
        (hrun t (Nat.lt_succ_self t)) hb).run
    have hsame : (cs.filter fun c => t + 1 ≤ k c + 1) = running k cs t :=
      List.filter_congr fun c _ => by simp
    rw [course, heq, hsame]
    exact ⟨hnext, hadds.env.trans henv⟩

/-- **`and` and `||`.**  As long as some leaf has not ended, the next call returns, every leaf that has
    not ended has one turn in it, in the order of the children, the others are gone, and the node has
    ended exactly when the last leaf has.  An AND node does not mind if its leaves end in different
    states.  A leaf that has ended is deleted in the next call, so its thread has to exit with its
    last turn, unless the signal ends threads only. -/
theorem par_course {s₀ : State} (h : ParStart s₀ n ty cs) (hs : Scripts k script f cs)
    (hdel : ∀ c ∈ cs, s₀.env.handler = true ∨ Exits (script c (k c))) (hf : cs.length ≤ f)
    (t : Nat) (hrun : ∃ c ∈ cs, t ≤ k c) :
    ∃ log u, excute (f + 2) n ⟨course (f + 2) n (parInput k script cs) s₀ t,
        parInput k script cs t, []⟩ = (.ok (), ⟨u, [], log⟩) ∧
      seen turnOf log = running k cs t ∧
      u.childs n = running k cs t ∧
      ((u.heap n).len = .empty ↔ ∀ c ∈ cs, k c ≤ t) ∧
      ((u.heap n).newType = .leaf ↔ ∀ c ∈ cs, k c ≤ t) := by
  have hsome : ∀ u ≤ t, running k cs u ≠ [] := by
    intro u hu
    obtain ⟨c, hc, hle⟩ := hrun
    exact List.ne_nil_of_mem (List.mem_filter.mpr ⟨hc, by simp; omega⟩)
  obtain ⟨hb, henv⟩ := row_course h hs hdel hf t fun u hu => hsome u (Nat.le_of_lt hu)
  obtain ⟨⟨⟩, log, u, heq, hseen, hrow, -⟩ := (consumes_parState h.1 hs (by rw [henv]; exact hdel)
    (short_before hf) kept_before (hsome t (Nat.le_refl t)) hb).run
  have hall : (running k cs t).all (fun c => decide (k c < t + 1)) = true ↔ ∀ c ∈ cs, k c ≤ t := by
    rw [List.all_eq_true]
    constructor
    · intro hcon c hc
      by_contra hlt
      have hmem : c ∈ running k cs t := List.mem_filter.mpr ⟨hc, by simp; omega⟩
      have := hcon c hmem
      rw [decide_eq_true_eq] at this
      omega
    · intro hcon c hc
      have := hcon c (List.mem_filter.mp hc).1
      rw [decide_eq_true_eq]
      omega
  have hlen := hrow.len
  have hnew : (u.heap n).newType = _ := hrow.newType
  refine ⟨log, u, heq, hseen, hrow.childs, ?_, ?_⟩
  · rw [hlen, ← hall]
    split
    · next hd => exact iff_of_true rfl hd
    · next hd => exact iff_of_false nofun hd
  · rw [hnew, ← hall]
    split
    · next hd => exact iff_of_true rfl hd
    · next hd =>
      refine iff_of_false ?_ hd
      rcases h.1 with rfl | rfl <;> nofun

end

/-- An AND root with leaves 1 and 2. -/
def andPair : State := newThread (newThread (newRoot (start 1 plain) .and) 0 2) 0 3

theorem andPair_start : ParStart andPair 0 .and [1, 2] :=
  ⟨Or.inl rfl, by decide, ⟨⟨by decide, by decide, by decide, by decide, by decide, by decide⟩, by decide,
    by decide, by decide, by decide, by decide, by decide, by decide, by decide⟩⟩

/-- Leaf 1 ends in state 0, leaf 2 in state 2. -/
def andPairLengths (c : Ptr) : Nat := if c = 1 then 0 else 2

def andPairScript (c : Ptr) (r : Nat) : List Action :=
  if r = andPairLengths c then [.call (.setNodeLength .empty), .exit] else [.pause]

theorem andPair_scripts : Scripts andPairLengths andPairScript 2 [1, 2] := by
  constructor
  · intro c _ r _
    unfold andPairScript
    split
    · next hr =>
      rw [decide_eq_true hr]
      exact ⟨[], [], .exit, nofun, nofun, Or.inr rfl, rfl⟩
    · next hr =>
      rw [decide_eq_false hr]
      exact ⟨[], nofun, rfl⟩
  · intro c r
    unfold andPairScript
    split <;> decide

/-- In state 1 leaf 1 is gone, and the AND node goes on with leaf 2. -/
theorem par_course_andPair :
    ∃ log u, excute 4 0 ⟨course 4 0 (parInput andPairLengths andPairScript [1, 2]) andPair 1,
        parInput andPairLengths andPairScript [1, 2] 1, []⟩ = (.ok (), ⟨u, [], log⟩) ∧
      seen turnOf log = [2] ∧ u.childs 0 = [2] ∧ (u.heap 0).len ≠ .empty := by
  obtain ⟨log, u, heq, hturns, hchilds, hlen, -⟩ :=
    par_course andPair_start andPair_scripts (by decide) (Nat.le_refl 2) 1 (by decide)
  exact ⟨log, u, heq, hturns.trans (by decide), hchilds.trans (by decide),
    fun hcon => absurd (hlen.mp hcon) (by decide)⟩

end Msvl.Function
