/-
  The turn of a leaf under a PRJ node.

  In a turn a thread may push elements and may end its interval, with `setNodeLength(EMPTY)`.  Then
  its leaf is EMPTY, and `setPrjLen` ends the PRJ node, too, when the leaf was the last child that
  had not ended.  `Turned` says so; nothing else is written that anyone reads here.
-/
import LibMSVL.Function.Check
import LibMSVL.Lib.Consume

namespace Msvl.Function

open Msvl.Run

/-- The turns are what is to be seen. -/
def turnOf : Label → Option Ptr
  | .turn n => some n
  | _ => none

/-! ## Scripts -/

def Pushes (as : List Action) : Prop := ∀ a ∈ as, ∃ left right priority, a = .call (.push left right priority)

/-- A turn in which the interval does not end. -/
def QuietTurn (as : List Action) : Prop := ∃ pushes, Pushes pushes ∧ as = pushes ++ [.pause]

/-- The thread terminates with the turn. -/
def Exits (as : List Action) : Prop := as.getLast? = some .exit

instance (as : List Action) : Decidable (Exits as) := inferInstanceAs (Decidable (_ = _))

/-- The turn in which the interval ends; the thread may exit with it. -/
def EndTurn (as : List Action) : Prop :=
  ∃ pushes pushes' last, Pushes pushes ∧ Pushes pushes' ∧ (last = .pause ∨ last = .exit) ∧
    as = pushes ++ .call (.setNodeLength .empty) :: (pushes' ++ [last])

/-- Elements that are pushed change `$$prsnt` only. -/
theorem consumes_pushes {self : Tid} {pushes rest : List Action} (hp : Pushes pushes) (g : Nat)
    {Q : Unit → List Ptr → State → Prop} : ∀ s : State,
    (∀ p, Consumes turnOf (runThread g self) { s with prsnt := p } rest Q) →
    Consumes turnOf (runThread (pushes.length + g) self) s (pushes ++ rest) Q := by
  induction pushes with
  | nil =>
    intro s h
    rw [List.length_nil, Nat.zero_add]
    exact h s.prsnt
  | cons a pushes ih =>
    intro s h
    obtain ⟨left, right, priority, rfl⟩ := hp a List.mem_cons_self
    rw [List.length_cons, Nat.add_right_comm, runThread]
    refine Consumes.read (Consumes.act_bind ?_)
    exact ih (fun b hb => hp b (List.mem_cons_of_mem _ hb)) _ fun p => h p

/-! ## setNodeLength -/

/-- All children of `n` but `c` have ended. -/
def State.LastOf (s : State) (n c : Ptr) : Prop :=
  ∀ x ∈ s.childs n, x ≠ c → (s.heap x).len ≠ .more ∧ s.type x = .leaf

instance (s : State) (n c : Ptr) : Decidable (s.LastOf n c) :=
  inferInstanceAs (Decidable (∀ x ∈ s.childs n, x ≠ c → _ ∧ _))

/-- The state after the leaf `c` under `n` has ended its interval. -/
structure Ended (s : State) (n c : Ptr) (u : State) : Prop where
  off : ∀ x, x ≠ n → x ≠ c → u.heap x = s.heap x
  self : u.heap c = { s.heap c with len := .empty }
  own : u.heap n = if s.LastOf n c then { s.heap n with len := .empty, newType := .leaf } else s.heap n
  map : u.threadIDToNode = s.threadIDToNode
  exited : u.exited = s.exited
  root : u.threadRoot = s.threadRoot
  env : u.env = s.env

theorem consumes_setNodeLength {s : State} {n c : Ptr} (h : Flat s n) (htype : s.type n = .prj)
    (hc : c ∈ s.childs n) (hleaf : s.type c = .leaf) (hfather : s.father c = some n) (f : Nat) :
    Consumes turnOf (setNodeLength f (s.thread c) .empty) s [] fun _ o u => o = [] ∧ Ended s n c u := by
  have hnc : n ≠ c := by
    rintro rfl
    exact h.own hc
  rw [setNodeLength]
  refine Consumes.get ?_
  rw [show s.threadIDToNode (s.thread c) = some c from h.reg c hc]
  refine Consumes.act_bind ?_
  rw [show (s.heap c).father = some n from hfather]
  dsimp only
  rw [show (s.heap n).type = .prj from htype]
  -- the state in which setPrjLen looks
  have hself : ((Label.edit c (.len .empty)).apply s).heap c = { s.heap c with len := .empty } := if_pos rfl
  have hoff : ∀ x, x ≠ c → ((Label.edit c (.len .empty)).apply s).heap x = s.heap x := fun x hx => if_neg hx
  have hchilds : (((Label.edit c (.len .empty)).apply s).heap n).childs = s.childs n := edit_childs s c _ n
  have hcount : ((s.childs n).countP fun x =>
      (((Label.edit c (.len .empty)).apply s).heap x).len != .more &&
        (((Label.edit c (.len .empty)).apply s).heap x).type == .leaf) = (s.childs n).length ↔
      s.LastOf n c := by
    rw [List.countP_eq_length]
    refine forall₂_congr fun x _ => ?_
    by_cases hx : x = c
    · subst hx
      rw [hself]
      simp [show (s.heap x).type = .leaf from hleaf]
    · rw [hoff x hx]
      simp [hx, State.type]
  rw [setPrjLen]
  refine Consumes.get ?_
  dsimp only
  rw [hchilds]
  split
  · next hall =>
    have hlast := hcount.mp hall
    refine Consumes.act_bind (Consumes.act ⟨rfl, ?_, ?_, ?_, rfl, rfl, rfl, rfl⟩)
    · intro x hxn hxc
      exact (if_neg hxn).trans ((if_neg hxn).trans (hoff x hxc))
    · exact (if_neg (Ne.symm hnc)).trans ((if_neg (Ne.symm hnc)).trans hself)
    · rw [if_pos hlast]
      refine (if_pos rfl).trans ?_
      have hmid : ((Label.edit n (.len .empty)).apply ((Label.edit c (.len .empty)).apply s)).heap n =
          { s.heap n with len := .empty } := (if_pos rfl).trans (by rw [hoff n hnc]; rfl)
      rw [hmid]
      rfl
  · next hall =>
    have hlast : ¬ s.LastOf n c := fun hcon => hall (hcount.mpr hcon)
    have hended : Ended s n c ((Label.edit c (.len .empty)).apply s) :=
      ⟨fun x _ hxc => hoff x hxc, hself, (hoff n hnc).trans (if_neg hlast).symm, rfl, rfl, rfl, rfl⟩
    split
    · exact Consumes.pure ⟨rfl, hended⟩
    · generalize (if c ∈ s.childs n then (s.childs n).idxOf c + 1 == (s.childs n).length
        else _) = atEnd
      split
      · exact Consumes.pure ⟨rfl, hended⟩
      · split
        · exact Consumes.act ⟨rfl, hended.off, hended.self, hended.own, rfl, rfl, rfl, rfl⟩
        · exact Consumes.pure ⟨rfl, hended⟩

/-! ## The turn -/

/-- The state after the leaf `c` under `n` has had its turn, and in it has ended (`isOver`) or not. -/
structure Turned (s : State) (n c : Ptr) (isOver : Bool) (u : State) : Prop where
  off : ∀ x, x ≠ n → x ≠ c → u.heap x = s.heap x
  self : u.heap c = { s.heap c with isInit := true, len := if isOver then .empty else (s.heap c).len }
  own : u.heap n = if isOver = true ∧ s.LastOf n c then { s.heap n with len := .empty, newType := .leaf }
    else s.heap n
  map : u.threadIDToNode = s.threadIDToNode
  exited : ∀ id, isOver = false ∨ id ≠ s.thread c → u.exited id = s.exited id
  root : u.threadRoot = s.threadRoot
  env : u.env = s.env

/-- The script of a turn. -/
def Script (isOver : Bool) (as : List Action) : Prop := if isOver then EndTurn as else QuietTurn as

/-- What a child of a PRJ node is here: a leaf, and nothing else is asked for. -/
structure LeafOf (s : State) (n c : Ptr) : Prop where
  mem : c ∈ s.childs n
  type : s.type c = .leaf
  newType : s.newType c = .leaf
  father : s.father c = some n

section

variable {s : State} {n c : Ptr} {as : List Action} {f : Nat} (h : Flat s n) (hprj : s.type n = .prj)
  (hc : LeafOf s n c)

include h hprj hc

theorem consumes_turn {isOver : Bool} (has : Script isOver as) (hf : as.length ≤ f) :
    Consumes turnOf (turn f c) s as fun _ o u =>
      o = [c] ∧ Turned s n c isOver u ∧ (Exits as → u.exited (s.thread c) = true) := by
  have hnc : n ≠ c := by
    rintro rfl
    exact h.own hc.mem
  rw [turn]
  refine Consumes.act_bind (Consumes.act_bind (Consumes.get ?_))
  show Consumes turnOf (runThread f (((Label.edit c .isInit).apply s).heap c).thread)
    ((Label.edit c .isInit).apply s) as fun _ o u => [c] ++ ([] ++ o) = [c] ∧
      Turned s n c isOver u ∧ (Exits as → u.exited (s.thread c) = true)
  -- the thread initialises itself first
  have hflat := h.edit c .isInit
  have hself : ((Label.edit c .isInit).apply s).heap c = { s.heap c with isInit := true } := if_pos rfl
  have hoff : ∀ x, x ≠ c → ((Label.edit c .isInit).apply s).heap x = s.heap x := fun x hx => if_neg hx
  have hmap : ((Label.edit c .isInit).apply s).threadIDToNode = s.threadIDToNode := rfl
  have hexited : ((Label.edit c .isInit).apply s).exited = s.exited := rfl
  have hroot : ((Label.edit c .isInit).apply s).threadRoot = s.threadRoot := rfl
  have henv : ((Label.edit c .isInit).apply s).env = s.env := rfl
  have hmem : c ∈ ((Label.edit c .isInit).apply s).childs n := by
    rw [edit_childs]
    exact hc.mem
  have hlastOf : ((Label.edit c .isInit).apply s).LastOf n c ↔ s.LastOf n c := by
    unfold State.LastOf
    rw [edit_childs]
    refine forall₂_congr fun x _ => forall_congr' fun hx => ?_
    rw [State.type, hoff x hx]
  generalize (Label.edit c .isInit).apply s = v at *
  have hthread : (v.heap c).thread = s.thread c := by
    rw [hself]
  rw [hthread]
  cases isOver with
  | false =>
    obtain ⟨pushes, hp, rfl⟩ := has
    rw [List.length_append, List.length_singleton] at hf
    obtain ⟨g, rfl⟩ : ∃ g, f = pushes.length + (g + 1) := ⟨f - pushes.length - 1, by omega⟩
    refine consumes_pushes hp (g + 1) _ fun p => ?_
    rw [runThread]
    refine Consumes.read (Consumes.pure ⟨rfl, ⟨?_, hself, ?_, hmap, fun _ _ => by rw [← hexited],
      hroot, henv⟩, fun hexits => ?_⟩)
    · exact fun x _ hxc => hoff x hxc
    · exact (hoff n hnc).trans (if_neg (by simp)).symm
    · rw [Exits, List.getLast?_concat] at hexits
      cases hexits
  | true =>
    obtain ⟨pushes, pushes', last, hp, hp', hends, rfl⟩ := has
    simp only [List.length_append, List.length_cons, List.length_nil] at hf
    obtain ⟨g, rfl⟩ : ∃ g, f = pushes.length + (pushes'.length + (g + 1) + 1) :=
      ⟨f - pushes.length - pushes'.length - 2, by omega⟩
    refine consumes_pushes hp _ _ fun p => ?_
    rw [runThread]
    refine Consumes.read ?_
    -- the end of the interval
    have hflat' : Flat { v with prsnt := p } n :=
      ⟨hflat.composite, hflat.terminal, hflat.reg, hflat.bare, hflat.nodup, hflat.root⟩
    have hend := consumes_setNodeLength hflat' (show (v.heap n).type = .prj from hoff n hnc ▸ hprj) hmem
      (show (v.heap c).type = .leaf from hself ▸ hc.type)
      (show (v.heap c).father = some n from hself ▸ hc.father) (pushes'.length + (g + 1))
    rw [show State.thread { v with prsnt := p } c = s.thread c from hthread] at hend
    refine Consumes.bind_nil hend ?_
    rintro _ _ u ⟨rfl, hu⟩
    -- what the end leaves, as seen from the start of the turn
    have hturned : ∀ p' e, (∀ id, id ≠ s.thread c → e id = s.exited id) →
        Turned s n c true { u with prsnt := p', exited := e } := by
      intro p' e he
      refine ⟨fun x hxn hxc => (hu.off x hxn hxc).trans (hoff x hxc), ?_, ?_, hu.map.trans hmap, ?_,
        hu.root.trans hroot, hu.env.trans henv⟩
      · refine hu.self.trans ?_
        show { v.heap c with len := .empty } = _
        rw [hself]
        rfl
      · refine hu.own.trans ?_
        show (if v.LastOf n c then { v.heap n with len := .empty, newType := .leaf } else v.heap n) = _
        rw [hoff n hnc]
        refine if_congr ?_ rfl rfl
        rw [hlastOf]
        simp
      · intro id hid
        exact he id (hid.resolve_left (by simp))
    have hexited' : u.exited = s.exited := hu.exited.trans hexited
    have hlast : ∀ last, (pushes ++ Action.call (.setNodeLength .empty) :: (pushes' ++ [last])).getLast? =
        some last := by
      intro last
      rw [← List.cons_append, ← List.append_assoc, List.getLast?_concat]
    refine consumes_pushes hp' (g + 1) _ fun p' => ?_
    rw [runThread]
    rcases hends with rfl | rfl
    · refine Consumes.read (Consumes.pure ⟨rfl, ?_, fun hexits => ?_⟩)
      · exact hturned p' u.exited fun id _ => by rw [hexited']
      · cases (hlast _).symm.trans hexits
    · refine Consumes.read (Consumes.act ⟨rfl, ?_, fun _ => Function.update_self _ _ _⟩)
      refine hturned p' (Function.update u.exited (s.thread c) true) fun id hid => ?_
      rw [Function.update_of_ne hid, hexited']

/-- Executing the slot of a leaf that is not done. -/
theorem consumes_excuteSlot {isOver : Bool} {i : Nat} (hi : (s.childs n)[i]? = some c)
    (hexit : s.isExit c = false) (hmore : (s.heap c).len = .more) (has : Script isOver as)
    (hf : as.length ≤ f) (g : Nat) :
    Consumes turnOf (excuteSlot (excute (f + 1)) (g + 1) n i) s as
      fun _ o u => o = [c] ∧ Turned s n c isOver u ∧ (Exits as → u.exited (s.thread c) = true) := by
  have hflat : Flat { s with active := c :: s.active } n :=
    ⟨h.composite, h.terminal, h.reg, h.bare, h.nodup, h.root⟩
  have hc' : LeafOf { s with active := c :: s.active } n c := ⟨hc.mem, hc.type, hc.newType, hc.father⟩
  have hturn := consumes_turn hflat hprj hc' has hf
  rw [excuteSlot]
  refine Consumes.get ?_
  rw [show (s.heap n).childs[i]? = some c from hi]
  refine Consumes.act_bind ?_
  nth_rewrite 1 [← List.append_nil as]
  have hleafEx : Consumes turnOf (excute (f + 1) c) { s with active := c :: s.active } as
      fun _ o u => o = [c] ∧ Turned s n c isOver u ∧ (Exits as → u.exited (s.thread c) = true) := by
    rw [excute]
    refine Consumes.get ?_
    dsimp only
    rw [show (s.heap c).type = .leaf from hc.type]
    refine Consumes.get ?_
    have hno : ¬ (s.isExit c || (s.heap c).len != .more) = true := by
      rw [hexit, hmore]
      simp
    show Consumes turnOf (if (s.isExit c || (s.heap c).len != .more) = true then _ else _) _ _ _
    rw [if_neg hno]
    refine hturn.imp ?_
    rintro _ _ u ⟨rfl, hu, hexits⟩
    exact ⟨rfl, ⟨hu.off, hu.self, hu.own, hu.map, hu.exited, hu.root, hu.env⟩, hexits⟩
  refine Consumes.bind hleafEx ?_
  rintro _ _ u ⟨rfl, hu, hexits⟩
  refine Consumes.get ?_
  have hclosed : ¬ u.Open c := by
    intro hopen
    refine hopen ?_
    rw [hu.self]
    exact hc.type.trans hc.newType.symm
  rw [if_neg hclosed]
  exact Consumes.act ⟨rfl, ⟨hu.off, hu.self, hu.own, hu.map, hu.exited, hu.root, hu.env⟩, hexits⟩

end

end Msvl.Function
