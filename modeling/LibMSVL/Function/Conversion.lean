/-
  Requests for a change of type, until they are carried out.

  Who asks for a change is either on the stack of `excute`, so that its caller looks at the types
  when it returns, or it is the root, or it should be in changedNode.  `Attended` says so for every
  registered node.  The steps that break it are those that give changedNode up while its node still
  waits, and those that mark a node without recording it (`Careful`); there are no others.
-/
import LibMSVL.Function.Search

namespace Msvl.Function

open Msvl.Run

/-- `n` waits for its conversion, and no call that is running is going to carry it out. -/
def State.Waits (s : State) (n : Ptr) : Prop :=
  s.Reg n ∧ s.Open n ∧ s.threadRoot ≠ some n ∧ n ∉ s.active

instance (s : State) (n : Ptr) : Decidable (s.Waits n) :=
  inferInstanceAs (Decidable (_ ∧ _ ∧ _ ∧ _))

/-- What waits is in changedNode. -/
def State.Attended (s : State) : Prop := ∀ n, s.Waits n → s.changedNode = some n

/-- changedNode is not given up while its node waits; what is marked without being recorded does
    not have to be. -/
def Careful : Label → State → Prop
  | .edit n (.leaf true), s => ∀ m ∈ s.changedNode, m ≠ n → ¬ s.Waits m
  | .edit n (.leaf false), s => n ∈ s.active ∨ s.threadRoot = some n ∨ ¬ s.Reg n ∨
      s.changedNode = some n
  | .changedNode _, s => ∀ m ∈ s.changedNode, ¬ s.Waits m
  | .stateEnd, s => ∀ m ∈ s.changedNode, ¬ s.Waits m
  | _, _ => True

instance (l : Label) (s : State) : Decidable (Careful l s) := by
  apply @Label.casesOn (fun l => Decidable (Careful l s)) l
  case edit =>
    intro n e
    apply @Edit.casesOn (fun e => Decidable (Careful (.edit n e) s)) e
    case leaf =>
      intro b
      apply @Bool.casesOn (fun b => Decidable (Careful (.edit n (.leaf b)) s)) b <;> unfold Careful <;>
        infer_instance
    all_goals intros; unfold Careful; infer_instance
  all_goals intros; unfold Careful; infer_instance

/-! ## One step -/

/-- A step after which fewer nodes wait. -/
theorem State.Attended.mono {s t : State} (h : s.Attended) (hw : ∀ n, t.Waits n → s.Waits n)
    (hc : t.changedNode = s.changedNode) : t.Attended := by
  intro n hn
  rw [hc]
  exact h n (hw n hn)

theorem SameObjects.waits {s t : State} (h : SameObjects s t) (hact : t.active = s.active)
    (n : Ptr) : t.Waits n ↔ s.Waits n := by
  have htype : (t.heap n).type = (s.heap n).type := h.type n
  have hnew : (t.heap n).newType = (s.heap n).newType := h.newType n
  unfold State.Waits State.Open
  rw [h.reg, htype, hnew, h.root, hact]

theorem Unlinked.waits {s t : State} {n : Ptr} (hu : Unlinked s t n) (h : Inv s)
    (hact : t.active = s.active) (x : Ptr) (hx : t.Waits x) : s.Waits x := by
  obtain ⟨hreg, hopen, hroot, hno⟩ := hx
  obtain ⟨hreg, hxn⟩ := (hu.reg_iff h x).mp hreg
  have htype : (t.heap x).type = (s.heap x).type := hu.type x
  have hnew : (t.heap x).newType = (s.heap x).newType := hu.newType x
  rw [hact] at hno
  refine ⟨hreg, ?_, fun hr => hroot ((hu.root_iff x).mpr ⟨hr, hxn⟩), hno⟩
  unfold State.Open at hopen ⊢
  rwa [htype, hnew] at hopen

/-- A new node asks for nothing. -/
theorem Spawned.waits {s t : State} {id : Tid} {k : NodeType} (hb : Spawned s t id k)
    (hact : t.active = s.active)
    (hroot : t.threadRoot = s.threadRoot ∨ s.threadRoot = none) (x : Ptr) (hx : t.Waits x) :
    s.Waits x := by
  obtain ⟨hreg, hopen, hr, hno⟩ := hx
  have htype : (t.heap x).type = if x = s.next then k else s.type x := hb.type x
  have hnew : (t.heap x).newType = if x = s.next then k else s.newType x := hb.newType x
  unfold State.Open at hopen
  rw [htype, hnew] at hopen
  split at hopen
  · exact absurd rfl hopen
  · next hxp =>
    rw [hact] at hno
    refine ⟨((hb.reg x).mp hreg).resolve_left hxp, hopen, ?_, hno⟩
    rcases hroot with hroot | hroot
    · rw [← hroot]
      exact hr
    · rw [hroot]
      exact fun hcon => by cases hcon

theorem replace_waits {s : State} {owner n : Ptr} {i : Nat} (hs : Slot s owner i n) (x : Ptr)
    (hx : ((Label.replace owner i n).apply s).Waits x) : s.Waits x := by
  obtain ⟨hreg, hopen, hr, hno⟩ := hx
  have htype : (((Label.replace owner i n).apply s).heap x).type =
      if x = s.next then s.newType n else s.type x :=
    replace_field s owner i n x (g := Node.type) (fun _ _ => rfl) (fun _ _ => rfl)
      (fun _ _ => rfl) fun _ _ _ => rfl
  have hnew : (((Label.replace owner i n).apply s).heap x).newType =
      if x = s.next then s.newType n else s.newType x :=
    replace_field s owner i n x (g := Node.newType) (fun _ _ => rfl) (fun _ _ => rfl)
      (fun _ _ => rfl) fun _ _ _ => rfl
  unfold State.Open at hopen
  rw [htype, hnew] at hopen
  split at hopen
  · exact absurd rfl hopen
  · next hxp =>
    rw [replace_reg hs] at hreg
    rw [show ((Label.replace owner i n).apply s).active = s.active from
      replace_global s owner i n fun _ _ _ => rfl] at hno
    rw [show ((Label.replace owner i n).apply s).threadRoot = s.threadRoot from
      replace_global s owner i n fun _ _ _ => rfl] at hr
    exact ⟨(hreg.resolve_left hxp).1, hopen, hr, hno⟩

/-- A write to `n` lets nobody wait but `n`, and `n` only if it changes what is asked for. -/
theorem edit_waits {s : State} {n : Ptr} {e : Edit} {x : Ptr}
    (hx : ((Label.edit n e).apply s).Waits x) :
    s.Waits x ∨ x = n ∧ (e.apply (s.heap n)).newType ≠ s.newType n ∧ s.Reg n ∧
      s.threadRoot ≠ some n ∧ n ∉ s.active := by
  obtain ⟨hreg, hopen, hr, hno⟩ := hx
  have hsame := sameMap_edit s n e
  have htype : (((Label.edit n e).apply s).heap x).type = (s.heap x).type := hsame.type x
  have hnew : (((Label.edit n e).apply s).heap x).newType =
      if x = n then (e.apply (s.heap x)).newType else s.newType x := edit_newType s n e x
  rw [hsame.reg] at hreg
  rw [hsame.root] at hr
  rw [show ((Label.edit n e).apply s).active = s.active from
    edit_global s n e fun _ _ _ => rfl] at hno
  unfold State.Open at hopen
  rw [htype, hnew] at hopen
  by_cases hxn : x = n
  · subst hxn
    rw [if_pos rfl] at hopen
    by_cases heq : (e.apply (s.heap x)).newType = s.newType x
    · rw [heq] at hopen
      exact Or.inl ⟨hreg, hopen, hr, hno⟩
    · exact Or.inr ⟨rfl, heq, hreg, hr, hno⟩
  · rw [if_neg hxn] at hopen
    exact Or.inl ⟨hreg, hopen, hr, hno⟩

theorem attended_edit {b : Nat} {s : State} {n : Ptr} {e : Edit} (hg : Guard b (.edit n e) s)
    (hc : Careful (.edit n e) s) (ha : s.Attended) : ((Label.edit n e).apply s).Attended := by
  intro x hx
  rw [apply_edit]
  show (if e = .leaf true then some n else s.changedNode) = some x
  rcases edit_waits hx with hw | ⟨rfl, hnew, hreg, hr, hno⟩
  · have hx' := ha x hw
    split
    · next he =>
      subst he
      by_cases hxn : x = n
      · rw [hxn]
      · exact absurd hw (hc x hx' hxn)
    · exact hx'
  · -- the node asks now
    cases e with
    | leaf record =>
      cases record with
      | true => exact if_pos rfl
      | false =>
        rcases hc with hact | hroot | hgone | hch
        · exact absurd hact hno
        · exact absurd hroot hr
        · exact absurd hreg hgone
        · exact hch
    | request type =>
      rcases hg.2.2 with hact | hroot
      · exact absurd hact hno
      · exact absurd hroot hr
    | _ => exact absurd rfl hnew

/-- **A careful step leaves nobody unattended.** -/
theorem Guard.attended {b : Nat} {l : Label} {s : State} (h : Inv s) (hg : Guard b l s)
    (hc : Careful l s) (ha : s.Attended) : (l.apply s).Attended := by
  cases l with
  | edit n e => exact attended_edit hg hc ha
  | newRoot type =>
    exact ha.mono ((spawned_newRoot type hg.2.2.1).waits
      (newRoot_global s type fun _ _ _ => rfl) (Or.inr hg.2.1))
      (newRoot_global s type fun _ _ _ => rfl)
  | newThread F id =>
    exact ha.mono ((spawned_newThread F hg.2.1.2.2).waits
      (newThread_global s F id fun _ _ _ => rfl)
      (Or.inl (newThread_global s F id fun _ _ _ => rfl)))
      (newThread_global s F id fun _ _ _ => rfl)
  | replace owner i n =>
    exact ha.mono (replace_waits hg.1) (replace_global s owner i n fun _ _ _ => rfl)
  | destroy owner i n => exact ha.mono ((unlinked_destroy h hg.1 hg.2.1).waits h rfl) rfl
  | destroyRoot r => exact ha.mono ((unlinked_destroyRoot h hg.1 hg.2.1).waits h rfl) rfl
  | moveToKeepChilds n =>
    exact ha.mono (fun x => ((sameObjects_moveToKeepChilds s n).waits rfl x).mp) rfl
  | moveToFather n F =>
    exact ha.mono (fun x => ((sameObjects_moveToFather s n F).waits rfl x).mp) rfl
  | attach c F => exact ha.mono (fun x => ((sameObjects_attach s c F).waits rfl x).mp) rfl
  | drop c => exact ha.mono ((unlinked_drop h hg.1 hg.2.1).waits h rfl) rfl
  | keepClear => exact ha
  | push e => exact ha
  | pop => exact ha
  | changedNode o =>
    intro n hn
    exact absurd hn (hc n (ha n hn))
  | prjNode o => exact ha
  | exit id => exact ha
  | enter n =>
    refine ha.mono (fun x hx => ⟨hx.1, hx.2.1, hx.2.2.1, ?_⟩) rfl
    exact fun hact => hx.2.2.2 (List.mem_cons_of_mem n hact)
  | leave n =>
    refine ha.mono (fun x hx => ⟨hx.1, hx.2.1, hx.2.2.1, ?_⟩) rfl
    obtain ⟨hhead, hsettled⟩ := hg
    intro hact
    obtain ⟨as, has⟩ := List.head?_eq_some_iff.mp hhead
    rw [has] at hact
    rcases List.mem_cons.mp hact with rfl | hact
    · -- the caller of `n` has just seen to it
      rcases hsettled with hno | hno | hroot
      · exact hno hx.2.1
      · exact hno hx.1
      · exact hx.2.2.1 hroot
    · refine hx.2.2.2 ?_
      show x ∈ s.active.tail
      rw [has]
      exact hact
  | turn n => exact ha
  | updateNode n => exact ha
  | deferred n => exact ha
  | refuse c => exact ha
  | free e => exact ha
  | stateEnd => exact ha

/-! ## Runs -/

/-- At the end of a state every node of the tree but the root has the type asked for. -/
def Converted : Label → State → Prop
  | .stateEnd, s => ∀ n, s.InTree n → s.threadRoot ≠ some n → (s.heap n).newType = (s.heap n).type
  | _, _ => True

/-- **No conversion request is lost within a state**, in every run whose steps are careful. -/
theorem run_converted (f : Nat) (mainThread : Tid) (env : Env) (input : List Action)
    (hcare : EveryStep Careful (run f mainThread env input).2) :
    EveryStep Converted (run f mainThread env input).2 := by
  have hstart : (start mainThread env).Attended := by
    rintro n ⟨hreg, -⟩
    cases hreg
  obtain ⟨-, hlog⟩ := (run_trace f mainThread env input).1.keeps_of
    (I := fun s => Inv s ∧ s.Attended) (C := Careful)
    (fun l s hg hc hs => ⟨hg.inv hs.1, hg.attended hs.1 hc hs.2⟩)
    ⟨inv_start mainThread env, hstart⟩ hcare
  intro l s hmem
  obtain ⟨⟨h, ha⟩, hg⟩ := hlog l s hmem
  have hc := hcare l s hmem
  cases l with
  | stateEnd =>
    intro n hn hroot
    by_contra hopen
    have hw : s.Waits n := by
      refine ⟨h.inTree_reg hn, Ne.symm hopen, hroot, ?_⟩
      rw [hg.1]
      exact List.not_mem_nil
    exact hc n (ha n hw) hw
  | _ => trivial

/-- A statement with one thread below a thread, which ends in the second state. -/
def endingScript : List Action :=
  [.call (.myCreateThread true .and 2), .pause,
   .call (.myCreateThread true .and 3), .pause, .pause,
   .call (.setNodeLength .empty), .pause, .pause, .pause]

/-- Conversions are asked for by `MyCreateThread` and by `setAndLen`. -/
theorem run_converted_ending : EveryStep Converted (run 10 1 plain endingScript).2 :=
  run_converted 10 1 plain endingScript (by decide +kernel)

/-- A projection whose only thread pauses after `$$Push` and ends when it is executed again. -/
def projectionScript : List Action :=
  [.call (.myCreateThread true .and 2), .pause,
   .call (.myCreateThread true .prj 3), .pause,
   .call (.push [] [] 0), .pause,
   .call (.setNodeLength .empty), .pause]

/-- `setPrjLen` marks the PRJ node and does not record it, so the state ends without its
    conversion. -/
theorem projection_not_converted :
    ¬ EveryStep Converted (run 10 1 plain projectionScript).2 := by
  intro hall
  -- the children of the root are enough
  have hchilds : EveryStep (fun l s => l = .stateEnd → ∀ r ∈ s.threadRoot, ∀ c ∈ s.childs r,
      s.threadRoot ≠ some c → (s.heap c).newType = (s.heap c).type)
      (run 10 1 plain projectionScript).2 := by
    rintro l s hmem rfl r hr c hc hne
    exact hall _ s hmem c (State.InTree.child ⟨[], .root hr⟩ hc) hne
  exact absurd hchilds (by decide +kernel)

end Msvl.Function
