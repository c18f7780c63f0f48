/-
  `UpdateNode` of msvl.c beside `updateNode`.

  Both replace the node in its slot by a node of the type it asks for, execute that, and go on as long
  as a further type is asked for.  updateNode compares `type` and `newType` of the node that stands in
  the slot.  UpdateNode compares the type of that node with the `new_type` of the node it was called
  with, which is what the first conversion has made of it: it ends after one round.

  1. `updateSlotPort`, `updateNodePort` — the loop of msvl.c around the conversions and executions of
     function.cpp.
  2. `Retired` — a node that has been replaced; `Guard.retired` — it asks for the same type ever after.
  3. `does_firstRound` — after the first execution the node in the slot has the type the old node asks
     for.
  4. `Sparing` — the steps of an update, which leave the other children of the father in their slots.
  5. `updatePort_iff` — both runs are the same if and only if the node that the first conversion makes
     asks for no further type when it has been executed.
-/
import LibMSVL.Function.Kinds
import LibMSVL.Function.Manager

namespace Msvl.Function

open Msvl.Run

/-! ## The loop of msvl.c -/

/-- The loop of `UpdateNode(node)`. -/
def updateSlotPort (ex : Ptr → M Unit) (node : Ptr) : Nat → Ptr → Nat → M Unit
  | 0, _, _ => stop .fuel
  | f + 1, owner, i => do
    let s ← get
    match (s.heap owner).childs[i]? with
    | none => stop .outOfRange
    | some temp => do
      act (.enter temp)
      ex temp
      let s ← get
      if (s.heap temp).type ≠ (s.heap node).newType then do
        replaceSlot owner i temp
        act (.leave temp)
        updateSlotPort ex node f owner i
      else act (.leave temp)

/-- `UpdateNode` -/
def updateNodePort (f : Nat) (node : Ptr) : M Unit := do
  act (.updateNode node)
  let s ← get
  if ¬ s.Open node ∨ s.threadRoot = some node then pure ()
  else
    match (s.heap node).father with
    | none => stop .nullPointer
    | some father =>
      match (s.heap father).childs.findIdx? (· == node) with
      | none => stop .outOfRange
      | some i => do
        replaceSlot father i node
        updateSlotPort (excute f) node f father i

/-! ## The first round -/

/-- The node in the slot is executed. -/
def enterSlot (ex : Ptr → M Unit) (owner : Ptr) (i : Nat) : M Ptr := do
  let s ← get
  match (s.heap owner).childs[i]? with
  | none => stop .outOfRange
  | some child => do
    act (.enter child)
    ex child
    pure child

/-- The first conversion, where there is one: its slot. -/
def convertFirst (node : Ptr) : M (Option (Ptr × Nat)) := do
  act (.updateNode node)
  let s ← get
  if ¬ s.Open node ∨ s.threadRoot = some node then pure none
  else
    match (s.heap node).father with
    | none => stop .nullPointer
    | some father =>
      match (s.heap father).childs.findIdx? (· == node) with
      | none => stop .outOfRange
      | some i => do
        replaceSlot father i node
        pure (some (father, i))

/-- The first conversion and the first execution: the node executed, and its slot. -/
def firstRound (f : Nat) (node : Ptr) : M (Option (Ptr × Nat × Ptr)) := do
  let o ← convertFirst node
  match f, o with
  | _, none => pure none
  | 0, some _ => stop .fuel
  | _ + 1, some (father, i) => do
    let child ← enterSlot (excute f) father i
    pure (some (father, i, child))

/-- **One conversion is enough**: the node that `node` is converted to asks for no further type when
    its first execution returns. -/
def AsksOnce (f : Nat) (node : Ptr) (w : World State Label Action) : Prop :=
  ∀ father i child w', firstRound f node w = (.ok (some (father, i, child)), w') → ¬ w'.st.Open child

/-- The end of a round: another conversion, or not. -/
def slotEnd (again : Prop) [Decidable again] (owner : Ptr) (i : Nat) (child : Ptr) (loop : M Unit) :
    M Unit :=
  if again then do
    replaceSlot owner i child
    act (.leave child)
    loop
  else act (.leave child)

theorem excuteSlot_succ (ex : Ptr → M Unit) (f : Nat) (owner : Ptr) (i : Nat) :
    excuteSlot ex (f + 1) owner i = (enterSlot ex owner i >>= fun child => get >>= fun s =>
      slotEnd (s.Open child) owner i child (excuteSlot ex f owner i)) := by
  rw [excuteSlot, enterSlot, Prog.bind_assoc]
  congr 1
  funext s
  cases (s.heap owner).childs[i]? with
  | none => rfl
  | some child =>
    simp only [Prog.bind_assoc]
    rfl

theorem updateSlotPort_succ (ex : Ptr → M Unit) (node : Ptr) (f : Nat) (owner : Ptr) (i : Nat) :
    updateSlotPort ex node (f + 1) owner i = (enterSlot ex owner i >>= fun child => get >>= fun s =>
      slotEnd ((s.heap child).type ≠ (s.heap node).newType) owner i child
        (updateSlotPort ex node f owner i)) := by
  rw [updateSlotPort, enterSlot, Prog.bind_assoc]
  congr 1
  funext s
  cases (s.heap owner).childs[i]? with
  | none => rfl
  | some child =>
    simp only [Prog.bind_assoc]
    rfl

/-- Both functions go on with a loop over the slot of the first conversion. -/
theorem convertFirst_bind (node : Ptr) (loop : Ptr → Nat → M Unit) :
    (convertFirst node >>= fun o => match o with
      | none => pure ()
      | some (father, i) => loop father i) = (do
    act (.updateNode node)
    let s ← get
    if ¬ s.Open node ∨ s.threadRoot = some node then pure ()
    else
      match (s.heap node).father with
      | none => stop .nullPointer
      | some father =>
        match (s.heap father).childs.findIdx? (· == node) with
        | none => stop .outOfRange
        | some i => do
          replaceSlot father i node
          loop father i) := by
  rw [convertFirst, Prog.bind_assoc]
  congr 1
  funext _
  rw [Prog.bind_assoc]
  congr 1
  funext s
  split
  · rfl
  · cases (s.heap node).father with
    | none => rfl
    | some father =>
      cases hi : (s.heap father).childs.findIdx? (· == node) with
      | none =>
        simp only [hi]
        rfl
      | some i =>
        simp only [hi, Prog.bind_assoc]
        rfl

/-! ## The node that has been replaced -/

/-- An object out of the map that asks for `k`; one that executed children has ended. -/
structure State.Retired (s : State) (x : Ptr) (k : NodeType) : Prop where
  lt : x < s.next
  gone : ¬ s.Reg x
  asks : s.newType x = k
  ended : (s.type x).Composite → k = .leaf

/-- Nobody asks for another type of such an object. -/
theorem State.Retired.newType {b : Nat} {l : Label} {s : State} {x : Ptr} {k : NodeType} (h : Inv s)
    (hg : Guard b l s) (hx : s.Retired x k) : (l.apply s).newType x = k := by
  have hne : x ≠ s.next := Nat.ne_of_lt hx.lt
  cases l with
  | edit n e =>
    rw [edit_newType]
    split
    · next heq =>
      subst heq
      cases e with
      | request type => exact absurd hg.1 hx.gone
      | leaf record => exact (hx.ended hg.2.1).symm
      | _ => exact hx.asks
    · exact hx.asks
  | newRoot type => exact (((spawned_newRoot type hg.2.2.1).newType x).trans (if_neg hne)).trans hx.asks
  | newThread F id => exact (((spawned_newThread F hg.2.1.2.2).newType x).trans (if_neg hne)).trans hx.asks
  | replace owner i n =>
    have hfield := replace_field s owner i n x (g := Node.newType) (fun _ _ => rfl) (fun _ _ => rfl)
      (fun _ _ => rfl) fun _ _ _ => rfl
    exact (hfield.trans (if_neg hne)).trans hx.asks
  | destroy owner i n => exact ((unlinked_destroy h hg.1 hg.2.1).newType x).trans hx.asks
  | destroyRoot r => exact ((unlinked_destroyRoot h hg.1 hg.2.1).newType x).trans hx.asks
  | moveToKeepChilds n => exact ((sameObjects_moveToKeepChilds s n).newType x).trans hx.asks
  | moveToFather n F => exact ((sameObjects_moveToFather s n F).newType x).trans hx.asks
  | attach c F => exact ((sameObjects_attach s c F).newType x).trans hx.asks
  | drop c => exact ((unlinked_drop h hg.1 hg.2.1).newType x).trans hx.asks
  | _ => exact hx.asks

theorem Guard.retired {b : Nat} {l : Label} {s : State} {x : Ptr} {k : NodeType} (h : Inv s)
    (hg : Guard b l s) (hx : s.Retired x k) : (l.apply s).Retired x k := by
  have hf := hg.frame h
  refine ⟨Nat.lt_of_lt_of_le hx.lt hf.next, (hf.gone x hx.lt hx.gone).1, hx.newType h hg, ?_⟩
  rw [hf.type x hx.lt]
  exact hx.ended

/-- Whatever is done, a retired node stays so. -/
theorem Does.retired {α : Type} {b : Nat} {m : M α} {s : State} {Q : α → State → Prop} {x : Ptr}
    {k : NodeType} (h : Inv s) (hx : s.Retired x k) (hm : Does b m s Q) :
    Does b m s fun a t => Q a t ∧ t.Retired x k := by
  refine Spec.imp (Spec.weaken (fun _ _ hg => hg) hm) ?_
  rintro a t - ⟨hq, es, hes⟩
  refine ⟨hq, ?_⟩
  have hstep : ∀ l u, Guard b l u → Inv u ∧ u.Retired x k →
      Inv (l.apply u) ∧ (l.apply u).Retired x k :=
    fun l u hg hu => ⟨hg.inv hu.1, hg.retired hu.1 hu.2⟩
  exact (hes.keeps hstep ⟨h, hx⟩).1.2

/-- The node replaced is retired, and the new one is of the type it asks for. -/
theorem Slot.retired {s : State} (h : Inv s) {owner n : Ptr} {i : Nat} (hs : Slot s owner i n)
    (hopen : s.Open n) : ((Label.replace owner i n).apply s).Retired n (s.newType n) := by
  obtain ⟨-, hn, -, -⟩ := hs.lt h
  have hfield := replace_field s owner i n n (g := Node.newType) (fun _ _ => rfl) (fun _ _ => rfl)
    (fun _ _ => rfl) fun _ _ _ => rfl
  have hf := frame_replace (b := s.birth owner) h hs (Nat.le_refl _)
  refine ⟨Nat.lt_of_lt_of_le hn hf.next, ?_, hfield.trans (if_neg (Nat.ne_of_lt hn)), fun hc => ?_⟩
  · rw [replace_reg hs]
    rintro (heq | ⟨-, hne⟩)
    · exact Nat.ne_of_lt hn heq
    · exact hne rfl
  · rw [hf.type n hn] at hc
    rcases h.newType n hs.reg (hs.not_root h) hc with heq | hleaf
    · exact absurd heq.symm hopen
    · exact hleaf

/-! ## The test after the first round -/

theorem does_convertFirst {b : Nat} (hb : b ≤ 1) {node : Ptr} {s : State} (h : Inv s)
    (hn : node < s.next) : Does b (convertFirst node) s fun o t => ∀ father i,
      o = some (father, i) → Slot s father i node ∧ s.Open node ∧
        t = (Label.replace father i node).apply s := by
  rw [convertFirst]
  refine Does.step h hn fun _ _ => ?_
  show Does b _ s _
  refine Spec.get ?_
  split
  · refine Spec.pure ?_
    rintro father i ⟨⟩
  · next hgo =>
    obtain ⟨hopen, -⟩ := not_or.mp hgo
    split
    · exact Spec.stop ⟨by decide, by decide⟩
    · next father hfather =>
      split
      · exact Spec.stop ⟨by decide, by decide⟩
      · next i hi =>
        have hs := h.found hn hfather hi
        obtain ⟨ho, -, -, -⟩ := hs.lt h
        have hbo := Nat.le_trans hb (h.birth father ho).1
        refine Does.call h hbo (does_replaceSlot h hs (not_not.mp hopen) (Nat.le_refl _)) ?_
        rintro _ t ht hf rfl
        refine Spec.pure ?_
        rintro _ _ ⟨⟩
        exact ⟨hs, not_not.mp hopen, rfl⟩

theorem does_enterSlot {b : Nat} (f : Nat) {owner child node : Ptr} {i : Nat} {s : State} (h : Inv s)
    (hroot : s.threadRoot ≠ none) (hs : Slot s owner i child) (hb : b ≤ s.birth child)
    (hx : s.Retired node (s.type child)) :
    Does b (enterSlot (excute f) owner i) s fun c t => t.type c = t.newType node := by
  obtain ⟨-, hc, -, -⟩ := hs.lt h
  rw [enterSlot]
  refine Spec.get ?_
  split
  · exact Spec.stop ⟨by decide, by decide⟩
  · next c hat =>
    have hcc : c = child := Option.some.inj (hat.symm.trans hs.at_)
    subst hcc
    refine Does.step h trivial fun hu hfu => ?_
    have hready : Ready ((Label.enter c).apply s) c :=
      ⟨hc, Or.inl hs.reg, hroot, fun _ => List.mem_cons_self⟩
    have hxu : ((Label.enter c).apply s).Retired node (s.type c) := ⟨hx.lt, hx.gone, hx.asks, hx.ended⟩
    refine Does.call hu hb (Does.retired hu hxu (does_excute f c _ hu hready)) ?_
    rintro _ t ht hf ⟨-, hxt⟩
    refine Spec.pure ?_
    rw [hxt.asks]
    exact hf.type c hc

/-- After the conversion: the new node is of the type that the old one asks for, and is executed. -/
theorem does_enterReplaced {b : Nat} (f : Nat) {father node : Ptr} {i : Nat} {s : State} (h : Inv s)
    (hroot : s.threadRoot ≠ none) (hs : Slot s father i node) (hopen : s.Open node)
    (hb : b ≤ s.birth father + 1) :
    Does b (enterSlot (excute f) father i) ((Label.replace father i node).apply s)
      fun c t => t.type c = t.newType node := by
  have hg : Guard 0 (.replace father i node) s := ⟨hs, hopen, Nat.zero_le _⟩
  have ht := hg.inv h
  have hat : ((Label.replace father i node).apply s).At father i s.next := by
    rw [replace_at h hs, if_pos rfl]
    exact Or.inl ⟨rfl, rfl⟩
  have hs' := hs.replaced h s.next hat
  have htype : ((Label.replace father i node).apply s).type s.next = s.newType node :=
    (replace_field s father i node s.next (g := Node.type) (fun _ _ => rfl) (fun _ _ => rfl)
      (fun _ _ => rfl) fun _ _ _ => rfl).trans (if_pos rfl)
  have hx := hs.retired h hopen
  rw [← htype] at hx
  have hroot' : ((Label.replace father i node).apply s).threadRoot ≠ none := by
    rw [show ((Label.replace father i node).apply s).threadRoot = s.threadRoot from
      replace_global s father i node fun _ _ _ => rfl]
    exact hroot
  have hbirth := (hg.frame h).birth father (hs.lt h).1
  refine does_enterSlot f ht hroot' hs' (Nat.le_trans hb ?_) hx
  have := (hs'.lt ht).2.2.2
  omega

/-- **After the first execution** the node in the slot has the type that the old node asks for. -/
theorem does_firstRound {b : Nat} (hb : b ≤ 1) (f : Nat) {node : Ptr} {s : State} (h : Inv s)
    (hn : node < s.next) (hroot : s.threadRoot ≠ none) :
    Does b (firstRound f node) s fun o t => ∀ father i child,
      o = some (father, i, child) → t.type child = t.newType node := by
  rw [firstRound]
  refine Does.call h (Nat.le_refl b) (does_convertFirst hb h hn) ?_
  intro o t ht hf ho
  match f, o with
  | _, none =>
    refine Spec.pure ?_
    rintro father i child ⟨⟩
  | 0, some _ => exact Spec.stop ⟨by decide, by decide⟩
  | f + 1, some (father, i) =>
    obtain ⟨hs, hopen, rfl⟩ := ho father i rfl
    have hbo : b ≤ s.birth father + 1 := Nat.le_trans hb (Nat.le_add_left _ _)
    refine Does.call ht (Nat.le_refl b) (does_enterReplaced (f + 1) h hroot hs hopen hbo) ?_
    intro c u _ _ hcu
    refine Spec.pure ?_
    rintro _ _ _ ⟨⟩
    exact hcu

/-! ## The other slots -/

/-- The steps of an update of `node`, a child of `F`: its conversion, and what is done while a child
    of `F` is executed.  `b` is the birth of `F`. -/
def Sparing (b : Nat) (F node : Ptr) (l : Label) (s : State) : Prop :=
  Guard (b + 1) l s ∨ ∃ i, l = .replace F i node ∧ Slot s F i node ∧ s.Open node

/-- Child `j` of `F` is `c`. -/
structure Spared (b : Nat) (F : Ptr) (j : Nat) (c : Ptr) (s : State) : Prop where
  inv : Inv s
  lt : F < s.next
  birth : s.birth F = b
  at_ : s.At F j c

/-- The conversion writes the slot of `node`; whoever is executed only adds to the vector. -/
theorem Spared.step {b j : Nat} {F node c : Ptr} (hne : c ≠ node) {l : Label} {s : State}
    (hg : Sparing b F node l s) (h : Spared b F j c s) : Spared b F j c (l.apply s) := by
  rcases hg with hg | ⟨i, rfl, hs, hopen⟩
  · have hf := hg.frame h.inv
    have hb : s.birth F < b + 1 := Nat.lt_succ_of_le (Nat.le_of_eq h.birth)
    obtain ⟨rest, hrest⟩ := hf.childs F h.lt hb
    refine ⟨hg.inv h.inv, Nat.lt_of_lt_of_le h.lt hf.next, (hf.birth F h.lt).trans h.birth, ?_⟩
    obtain ⟨hj, -⟩ := List.getElem?_eq_some_iff.mp h.at_
    rw [State.At, ← hrest, List.getElem?_append_left hj]
    exact h.at_
  · have hg : Guard 0 (.replace F i node) s := ⟨hs, hopen, Nat.zero_le _⟩
    have hf := hg.frame h.inv
    refine ⟨hg.inv h.inv, Nat.lt_of_lt_of_le h.lt hf.next, (hf.birth F h.lt).trans h.birth, ?_⟩
    rw [replace_at h.inv hs, if_pos rfl]
    refine Or.inr ⟨?_, h.at_⟩
    rintro rfl
    exact hne (Option.some.inj (h.at_.symm.trans hs.at_))

theorem spares_convertFirst {node F : Ptr} {s : State} (h : Inv s) (hn : node < s.next)
    (hF : s.father node = some F) :
    Spec Label.apply (Sparing (s.birth F) F node) Safe (convertFirst node) s fun _ _ => True := by
  rw [convertFirst]
  refine Spec.act_bind (Or.inl hn) (Spec.get ?_)
  split
  · exact Spec.pure trivial
  · next hgo =>
    split
    · exact Spec.stop ⟨by decide, by decide⟩
    · next father hfather =>
      obtain rfl : F = father := Option.some.inj (hF.symm.trans hfather)
      split
      · exact Spec.stop ⟨by decide, by decide⟩
      · next i hi =>
        have hs := h.found hn hF hi
        have hconv : Spec Label.apply (Sparing (s.birth F) F node) Safe (replaceSlot F i node) s
            fun _ _ => True := by
          refine Spec.bind (Q := fun _ t => t = s) (Spec.get ?_) ?_
          · rw [show s.threadIDToNode (s.heap node).thread = some node from hs.reg]
            exact Spec.pure rfl
          · rintro _ _ - rfl
            exact Spec.act (Or.inr ⟨i, rfl, hs, not_not.mp (not_or.mp hgo).1⟩) trivial
        exact Spec.bind hconv fun _ _ _ _ => Spec.pure trivial

theorem spares_firstRound (f : Nat) {node F : Ptr} {s : State} (h : Inv s) (hn : node < s.next)
    (hroot : s.threadRoot ≠ none) (hF : s.father node = some F) :
    Spec Label.apply (Sparing (s.birth F) F node) Safe (firstRound f node) s fun _ _ => True := by
  have hconv := Spec.weaken (fun _ _ hg => hg.2)
    (Spec.both (does_convertFirst (Nat.le_refl 1) h hn) (spares_convertFirst h hn hF))
  rw [firstRound]
  refine Spec.bind hconv ?_
  rintro o t - ⟨ho, -⟩
  match f, o with
  | _, none => exact Spec.pure trivial
  | 0, some _ => exact Spec.stop ⟨by decide, by decide⟩
  | f + 1, some (father, i) =>
    obtain ⟨hs, hopen, rfl⟩ := ho father i rfl
    obtain rfl : F = father := Option.some.inj (hF.symm.trans hs.father)
    have henter := does_enterReplaced (f + 1) h hroot hs hopen (Nat.le_refl _)
    exact Spec.bind (Spec.weaken (fun _ _ => Or.inl) henter) fun _ _ _ _ => Spec.pure trivial

/-! ## Both functions -/

/-- A loop, after its first round. -/
theorem firstRound_bind {f : Nat} (node : Ptr) {loop : Nat → Ptr → Nat → M Unit}
    {rest : Nat → Ptr → Nat → Ptr → M Unit} (hzero : ∀ owner i, loop 0 owner i = stop .fuel)
    (hsucc : ∀ k owner i, loop (k + 1) owner i = (enterSlot (excute f) owner i >>= rest k owner i)) :
    (convertFirst node >>= fun o => match o with
      | none => pure ()
      | some (father, i) => loop f father i) =
    (firstRound f node >>= fun o => match o with
      | none => pure ()
      | some (father, i, child) => rest (f - 1) father i child) := by
  rw [firstRound, Prog.bind_assoc]
  congr 1
  funext o
  match f, o with
  | _, none => rfl
  | 0, some (father, i) =>
    show loop 0 father i = _
    rw [hzero]
    rfl
  | f + 1, some (father, i) =>
    show loop (f + 1) father i = _
    rw [hsucc]
    show _ = (enterSlot (excute (f + 1)) father i >>= _) >>= _
    rw [Prog.bind_assoc]
    rfl

theorem updateNode_eq (f : Nat) (node : Ptr) : updateNode f node =
    (firstRound f node >>= fun o => match o with
      | none => pure ()
      | some (father, i, child) => get >>= fun s =>
        slotEnd (s.Open child) father i child (excuteSlot (excute f) (f - 1) father i)) :=
  (convertFirst_bind node (excuteSlot (excute f) f)).symm.trans
    (firstRound_bind node (fun _ _ => rfl) fun k owner i => excuteSlot_succ (excute f) k owner i)

theorem updateNodePort_eq (f : Nat) (node : Ptr) : updateNodePort f node =
    (firstRound f node >>= fun o => match o with
      | none => pure ()
      | some (father, i, child) => get >>= fun s =>
        slotEnd ((s.heap child).type ≠ (s.heap node).newType) father i child
          (updateSlotPort (excute f) node (f - 1) father i)) :=
  (convertFirst_bind node (updateSlotPort (excute f) node f)).symm.trans
    (firstRound_bind node (fun _ _ => rfl) fun k owner i =>
      updateSlotPort_succ (excute f) node k owner i)

/-- Another conversion shows in the log. -/
theorem slotEnd_again {again : Prop} [Decidable again] (h : again) (f k : Nat) (owner : Ptr) (i : Nat)
    (child : Ptr) (w : World State Label Action) :
    slotEnd again owner i child (excuteSlot (excute f) k owner i) w ≠ act (.leave child) w := by
  intro heq
  rw [slotEnd, if_pos h] at heq
  have hrun : ∀ w' : World State Label Action, w'.log.length = w.log.length + 2 →
      (excuteSlot (excute f) k owner i w').2.log.length ≠ w.log.length + 1 := by
    intro w' hw'
    have hle := (Writes.grows (takes_excuteSlot (takes_excute f) k owner i) w').length_le
    omega
  rcases checkErase_skips child w with hcheck | ⟨e, hcheck⟩
  · -- the log has one entry more than after `leave`
    have hlog := congrArg (fun r => r.2.log.length) heq
    have hstep : (replaceSlot owner i child >>= fun _ => act (.leave child) >>= fun _ =>
        excuteSlot (excute f) k owner i) w =
        excuteSlot (excute f) k owner i
          ⟨(Label.leave child).apply ((Label.replace owner i child).apply w.st), w.input,
            (.leave child, (Label.replace owner i child).apply w.st) ::
              (.replace owner i child, w.st) :: w.log⟩ := by
      show Prog.bind (Prog.bind (checkErase child) _) _ w = _
      unfold Prog.bind
      rw [hcheck]
      rfl
    rw [hstep] at hlog
    exact hrun _ rfl hlog
  · have hstep : (replaceSlot owner i child >>= fun _ => act (.leave child) >>= fun _ =>
        excuteSlot (excute f) k owner i) w = (.error e, w) := by
      show Prog.bind (Prog.bind (checkErase child) _) _ w = _
      unfold Prog.bind
      rw [hcheck]
    rw [hstep] at heq
    cases congrArg Prod.fst heq

/-- `UpdateNode` ends after its first round. -/
theorem updateNodePort_once {f : Nat} {node : Ptr} {w : World State Label Action} (h : Inv w.st)
    (hn : node < w.st.next) (hroot : w.st.threadRoot ≠ none) :
    updateNodePort f node w = (firstRound f node >>= fun o => match o with
      | none => pure ()
      | some (_, _, child) => act (.leave child)) w := by
  have hfirst := (does_firstRound (Nat.le_refl 1) f h hn hroot w rfl).2
  rw [updateNodePort_eq]
  show Prog.bind _ _ w = Prog.bind _ _ w
  unfold Prog.bind
  rcases hw : firstRound f node w with ⟨e | o, w'⟩
  · rfl
  · rw [hw] at hfirst
    match o with
    | none => rfl
    | some (father, i, child) =>
      have htype : (w'.st.heap child).type = (w'.st.heap node).newType := hfirst father i child rfl
      show slotEnd ((w'.st.heap child).type ≠ (w'.st.heap node).newType) father i child
        (updateSlotPort (excute f) node (f - 1) father i) w' = act (.leave child) w'
      rw [slotEnd, if_neg (not_not_intro htype)]

/-- **The other children** of its father stay in their slots. -/
theorem updateNodePort_spares {f : Nat} {node : Ptr} {w : World State Label Action} (h : Inv w.st)
    (hn : node < w.st.next) (hroot : w.st.threadRoot ≠ none) {F c : Ptr} {j : Nat}
    (hF : w.st.father node = some F) (hat : w.st.At F j c) (hne : c ≠ node) :
    (updateNodePort f node w).2.st.At F j c := by
  obtain ⟨⟨es, -, htrace⟩, -⟩ := spares_firstRound f h hn hroot hF w rfl
  have hspared : Spared (w.st.birth F) F j c (firstRound f node w).2.st :=
    (htrace.keeps (fun _ _ hg hs => hs.step hne hg) ⟨h, (h.up node hn F hF).1, rfl, hat⟩).1
  rw [updateNodePort_once h hn hroot]
  show (Prog.bind _ _ w).2.st.At F j c
  unfold Prog.bind
  rcases hw : firstRound f node w with ⟨e | o, w'⟩
  · rw [hw] at hspared
    exact hspared.at_
  · rw [hw] at hspared
    match o with
    | none => exact hspared.at_
    | some (father, i, child) => exact hspared.at_

/-- **The two loops** do the same if and only if one conversion is enough.  Either way `UpdateNode`
    leaves the other children in their slots. -/
theorem updatePort_iff {f : Nat} {node : Ptr} {w : World State Label Action} (h : Inv w.st)
    (hn : node < w.st.next) (hroot : w.st.threadRoot ≠ none) :
    (updateNodePort f node w = updateNode f node w ↔ AsksOnce f node w) ∧
      ∀ F j c, w.st.father node = some F → w.st.At F j c → c ≠ node →
        (updateNodePort f node w).2.st.At F j c := by
  refine ⟨?_, fun F j c hF hat hne => updateNodePort_spares h hn hroot hF hat hne⟩
  rw [updateNodePort_once h hn hroot, updateNode_eq]
  show Prog.bind _ _ w = Prog.bind _ _ w ↔ _
  unfold Prog.bind
  rcases hw : firstRound f node w with ⟨e | o, w'⟩
  · refine ⟨fun _ father i child w₁ hok => ?_, fun _ => rfl⟩
    rw [hw] at hok
    cases hok
  · match o with
    | none =>
      refine ⟨fun _ father i child w₁ hok => ?_, fun _ => rfl⟩
      rw [hw] at hok
      cases hok
    | some (father, i, child) =>
      show act (.leave child) w' =
        slotEnd (w'.st.Open child) father i child (excuteSlot (excute f) (f - 1) father i) w' ↔ _
      constructor
      · intro heq father' i' child' w₁ hok hopen
        rw [hw] at hok
        cases hok
        exact slotEnd_again hopen f _ father i child w' heq.symm
      · intro honce
        have hclosed := honce father i child w' hw
        rw [slotEnd, if_neg hclosed]

/-- The leaf 1 below an AND root, which has asked for another type. -/
def asking (type : NodeType) : State :=
  (Label.edit 1 (.request type)).apply ((Label.enter 1).apply ((Label.newThread 0 5).apply
    ((Label.newRoot .and).apply (start 9 { plain with garbage := fun _ => true }))))

theorem inv_asking (type : NodeType) : Inv (asking type) := by
  have h0 : Inv (start 9 { plain with garbage := fun _ => true }) := inv_start 9 _
  have h1 := Guard.inv h0 (show Guard 0 (.newRoot .and) _ from ⟨trivial, rfl, rfl, rfl⟩)
  have h2 := Guard.inv h1 (show Guard 0 (.newThread 0 5) _ from
    ⟨by decide, by decide, Nat.zero_le _⟩)
  have h3 := Guard.inv h2 (show Guard 0 (.enter 1) _ from trivial)
  exact Guard.inv h3 (show Guard 0 (.edit 1 (.request type)) _ from
    ⟨by decide, Or.inl (by decide), Or.inl (by decide)⟩)

/-- An AND node without children asks for nothing. -/
theorem asking_and_agrees :
    updateNodePort 3 1 ⟨asking .and, [], []⟩ = updateNode 3 1 ⟨asking .and, [], []⟩ := by
  refine (updatePort_iff (inv_asking .and) (by decide) (by decide)).1.mpr ?_
  intro father i child w' hok
  have hfirst : (firstRound 3 1 ⟨asking .and, [], []⟩).1 = .ok (some (0, 0, 2)) := by decide +kernel
  have hclosed : ¬ (firstRound 3 1 ⟨asking .and, [], []⟩).2.st.Open 2 := by decide +kernel
  rw [hok] at hfirst hclosed
  cases hfirst
  exact hclosed

/-- A PAL node without children has ended: it asks for LEAF, and msvl.c leaves it so. -/
theorem second_conversion_lost :
    Inv (asking .pal) ∧
      updateNodePort 3 1 ⟨asking .pal, [.pause], []⟩ ≠ updateNode 3 1 ⟨asking .pal, [.pause], []⟩ := by
  refine ⟨inv_asking .pal, fun heq => ?_⟩
  have hlog : (updateNodePort 3 1 ⟨asking .pal, [.pause], []⟩).2.log.length ≠
      (updateNode 3 1 ⟨asking .pal, [.pause], []⟩).2.log.length := by decide +kernel
  exact hlog (by rw [heq])

end Msvl.Function
