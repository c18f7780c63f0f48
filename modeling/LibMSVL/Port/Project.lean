/-
  `prj_node_execute` of node.c beside `PrjNode::excute`.

  Both execute the p in slot 1, converting it as long as it asks for another type, remove it when it
  has come to its end, and go on with the next; then q may be executed.  function.cpp works on the
  vector: the new object is stored in its slot, `delete` and `erase` deal with the object there.  The
  port keeps the object in a local pointer.  The slot holds the object it held before, and what
  `dyn_array_erase` does is run the destructor on the slot, behind a `free` of the local pointer.  q is
  executed where its verdict says that it has come to its end.

  What the nodes do is a parameter (`Behaviour`).  A child is executed by `excute` there and by
  `node_execute` here, and q is judged by two functions, too; for leaves both do the same.  The
  conversion is the same for both, and so is the test for the end, which does not compile in node.c and
  is read as the one of function.cpp.

  1. `World` — the PRJ node, the rest of the memory, and a log.  An object is named by its thread and
     the number of conversions before it.
  2. `prjExcute`, `prjNodeExecute` — the two functions; `none` where a run does not end, or uses a slot
     that is not there or an object that has been freed.
  3. `Keeps` — what executing slot `i` leaves alone; the specs of the loops.
  4. `prjExecute_iff` — when the port does what function.cpp does.
-/
import LibMSVL.Function.State

namespace Msvl.Port.Project

open Msvl.Function (Tid)

/-! ## The world -/

/-- A node object: the thread, and how often its node had been converted. -/
abbrev Obj := Tid × Nat

/-- What `getNewNode` makes of an object. -/
def Obj.converted (o : Obj) : Obj := (o.1, o.2 + 1)

inductive Event
  | executed (o : Obj)
  | destroyed (o : Obj)
  | freed (o : Obj)
  deriving DecidableEq, Repr

/-- A PRJ node, and the rest. -/
structure World (σ : Type) where
  childs : List Obj
  extQ : Bool
  hasExtQ : Bool
  /-- `newType` is LEAF -/
  ended : Bool
  rest : σ
  log : List Event

/-- `hasExtQ = extQ` -/
def World.showExtQ {σ : Type} (w : World σ) : World σ := { w with hasExtQ := w.extQ }

/-- `extQ = false` -/
def World.closeQ {σ : Type} (w : World σ) : World σ := { w with extQ := false }

/-- function.cpp, or node.c. -/
inductive Side
  | cpp
  | port
  deriving DecidableEq, Repr

/-- What the nodes do.  ALW nodes append to the children of their father.  Composite nodes need not
    do the same on both sides. -/
structure Behaviour (σ : Type) where
  /-- `isCorrectAndExit()` of the PRJ node, or the path is false -/
  correct : List Obj → σ → Bool × σ
  /-- the type is LEAF -/
  leaf : Obj → σ → Bool
  execute : Side → Obj → List Obj → Bool → σ → List Obj × σ
  /-- the type is not the new type -/
  asks : Obj → σ → Bool
  convert : Obj → σ → σ
  /-- the length is EMPTY -/
  empty : Obj → σ → Bool
  destroy : Obj → σ → σ
  free : Obj → σ → σ
  /-- `isCorrectAndExit()` of q -/
  verdict : Side → Obj → List Obj → Bool → σ → Bool × σ
  leaf_execute : ∀ o cs h s, leaf o s = true → execute .port o cs h s = execute .cpp o cs h s
  leaf_verdict : ∀ o cs h s, leaf o s = true → verdict .port o cs h s = verdict .cpp o cs h s

namespace Behaviour

variable {σ : Type} (b : Behaviour σ)

/-- The verdict on q. -/
def judge (side : Side) (q : Obj) (w : World σ) : Bool × World σ :=
  let v := b.verdict side q w.childs w.hasExtQ w.rest
  (v.1, { w with rest := v.2 })

/-- A child is executed. -/
def run (side : Side) (o : Obj) (w : World σ) : World σ :=
  let r := b.execute side o w.childs w.hasExtQ w.rest
  { w with childs := w.childs ++ r.1, rest := r.2, log := w.log ++ [.executed o] }

/-! ## function.cpp -/

/-- `childs[i] = getNewNode(childs[i])` -/
def replace (i : Nat) (o : Obj) (w : World σ) : World σ :=
  { w with childs := w.childs.set i o.converted, rest := b.convert o w.rest }

/-- `childs[i]->excute()`, and again after each conversion. -/
def excuteSlot : Nat → Nat → World σ → Option (World σ)
  | 0, _, _ => none
  | f + 1, i, w =>
    match w.childs[i]? with
    | none => none
    | some o =>
      let w := b.run .cpp o w
      if b.asks o w.rest then excuteSlot f i (b.replace i o w) else some w

/-- `delete childs[1]; childs.erase(++childs.begin())` -/
def deleteP (o : Obj) (w : World σ) : World σ :=
  { w with childs := w.childs.eraseIdx 1, rest := b.destroy o w.rest, log := w.log ++ [.destroyed o] }

/-- `while (childs[1]->getNodeLength() == EMPTY)` -/
def excuteNext : Nat → World σ → Option (World σ)
  | 0, _ => none
  | f + 1, w =>
    match w.childs[1]? with
    | none => none
    | some o =>
      if b.empty o w.rest then
        let w := b.deleteP o { w with extQ := true }
        if w.childs.length = 1 then some w else (b.excuteSlot f 1 w).bind (excuteNext f)
      else some w

/-- The p's of `PrjNode::excute`. -/
def excuteP (f : Nat) (w : World σ) : Option (World σ) :=
  if w.childs.length ≤ 1 then some { w with extQ := true }
  else (b.excuteSlot f 1 w).bind (b.excuteNext f)

/-- The q of `PrjNode::excute`. -/
def excuteQ (f : Nat) (w : World σ) : Option (World σ) :=
  let w := w.showExtQ
  if w.extQ then
    match w.childs[0]? with
    | none => none
    | some q =>
      let v := b.judge .cpp q w
      if v.1 then some v.2 else (b.excuteSlot f 0 v.2).map World.closeQ
  else some w

/-- `PrjNode::excute` -/
def prjExcute (f : Nat) (w : World σ) : Option (World σ) :=
  let c := b.correct w.childs w.rest
  let w := { w with rest := c.2 }
  if c.1 then some { w with ended := true }
  else (b.excuteP f w).bind (b.excuteQ f)

/-! ## node.c -/

/-- `node_execute(n); while(..){ n = GetNewNode(n); node_execute(n); }` -/
def executeLocal : Nat → Obj → World σ → Option (Obj × World σ)
  | 0, _, _ => none
  | f + 1, n, w =>
    let w := b.run .port n w
    if b.asks n w.rest then executeLocal f n.converted { w with rest := b.convert n w.rest }
    else some (n, w)

/-- `free(n)` -/
def freeP (n : Obj) (w : World σ) : World σ :=
  { w with rest := b.free n w.rest, log := w.log ++ [.freed n] }

/-- `dyn_array_erase(this->childs, 1)`: the destructor on the slot first. -/
def eraseP (w : World σ) : Option (World σ) :=
  match w.childs[1]? with
  | none => some w
  | some o => if .freed o ∈ w.log then none else some (b.deleteP o w)

/-- `while(node_get_len(n1) == EMPTY)` -/
def executeNext : Nat → Obj → World σ → Option (World σ)
  | 0, _, _ => none
  | f + 1, n1, w =>
    if b.empty n1 w.rest then
      (b.eraseP (b.freeP n1 { w with extQ := true })).bind fun w =>
        if w.childs.length = 1 then some w
        else
          match w.childs[1]? with
          | none => none
          | some n1 => (b.executeLocal f n1 w).bind fun r => executeNext f r.1 r.2
    else some w

/-- The p's of `prj_node_execute`. -/
def executeP (f : Nat) (w : World σ) : Option (World σ) :=
  if w.childs.length ≤ 1 then some { w with extQ := true }
  else
    match w.childs[1]? with
    | none => none
    | some n1 => (b.executeLocal f n1 w).bind fun r => b.executeNext f r.1 r.2

/-- The q of `prj_node_execute`. -/
def executeQ (f : Nat) (w : World σ) : Option (World σ) :=
  let w := w.showExtQ
  match w.childs[0]? with
  | none => none
  | some n0 =>
    if w.extQ then
      let v := b.judge .port n0 w
      if v.1 then (b.executeLocal f n0 v.2).map fun r => r.2.closeQ else some v.2
    else some w

/-- `prj_node_execute` -/
def prjNodeExecute (f : Nat) (w : World σ) : Option (World σ) :=
  let c := b.correct w.childs w.rest
  let w := { w with rest := c.2 }
  if c.1 then some { w with ended := true }
  else (b.executeP f w).bind (b.executeQ f)

end Behaviour

/-! ## The loops over one node -/

/-- The objects that have been destroyed. -/
def World.lost {σ : Type} (w : World σ) : List Obj :=
  w.log.filterMap fun
    | .destroyed o => some o
    | _ => none

/-- No slot but `i` changes, nothing is destroyed, and no flag is set. -/
structure Keeps {σ : Type} (i : Nat) (w w' : World σ) : Prop where
  slots : ∀ j o, j ≠ i → w.childs[j]? = some o → w'.childs[j]? = some o
  lost : w'.lost = w.lost
  extQ : w'.extQ = w.extQ
  hasExtQ : w'.hasExtQ = w.hasExtQ

section

variable {σ : Type} {b : Behaviour σ} {side : Side}

theorem Keeps.trans {i : Nat} {w w' w'' : World σ} (h : Keeps i w w') (h' : Keeps i w' w'') :
    Keeps i w w'' where
  slots := fun j o hj ho => h'.slots j o hj (h.slots j o hj ho)
  lost := h'.lost.trans h.lost
  extQ := h'.extQ.trans h.extQ
  hasExtQ := h'.hasExtQ.trans h.hasExtQ

theorem run_slot (o : Obj) {w : World σ} {j : Nat} {c : Obj} (h : w.childs[j]? = some c) :
    (b.run side o w).childs[j]? = some c := by
  obtain ⟨hlt, -⟩ := List.getElem?_eq_some_iff.mp h
  show (w.childs ++ _)[j]? = some c
  rw [List.getElem?_append_left hlt, h]

theorem run_keeps (i : Nat) (o : Obj) (w : World σ) : Keeps i w (b.run side o w) where
  slots := fun _ _ _ h => run_slot o h
  lost := by simp [World.lost, Behaviour.run]
  extQ := rfl
  hasExtQ := rfl

theorem replace_keeps (i : Nat) (o : Obj) (w : World σ) : Keeps i w (b.replace i o w) where
  slots := fun _ _ hj h => (List.getElem?_set_ne (Ne.symm hj)).trans h
  lost := rfl
  extQ := rfl
  hasExtQ := rfl

/-- **Executing a slot** in function.cpp: it holds the last conversion of what it held. -/
theorem excuteSlot_spec {i : Nat} : ∀ {f : Nat} {w w' : World σ} {o : Obj},
    b.excuteSlot f i w = some w' → w.childs[i]? = some o →
      Keeps i w w' ∧ ∃ k, w'.childs[i]? = some (o.1, o.2 + k) ∧
        (b.asks o (b.run .cpp o w).rest = true → 0 < k) := by
  intro f
  induction f with
  | zero =>
    intro w w' o h
    cases h
  | succ f ih =>
    intro w w' o h ho
    rw [Behaviour.excuteSlot, ho] at h
    replace h : (if b.asks o (b.run .cpp o w).rest then b.excuteSlot f i (b.replace i o (b.run .cpp o w))
      else some (b.run .cpp o w)) = some w' := h
    have hrun : (b.run .cpp o w).childs[i]? = some o := run_slot o ho
    split at h
    · have hslot : (b.replace i o (b.run .cpp o w)).childs[i]? = some o.converted := by
        obtain ⟨hlt, -⟩ := List.getElem?_eq_some_iff.mp hrun
        exact List.getElem?_set_self hlt
      obtain ⟨hkeeps, k, hk, -⟩ := ih h hslot
      refine ⟨((run_keeps i o w).trans (replace_keeps i o _)).trans hkeeps, k + 1, ?_, fun _ => ?_⟩
      · rw [hk]
        show some (o.1, o.2 + 1 + k) = _
        rw [Nat.add_assoc, Nat.add_comm 1 k]
      · exact Nat.succ_pos k
    · next hasks =>
      cases h
      exact ⟨run_keeps i o w, 0, hrun, fun hcon => absurd hcon hasks⟩

/-- **Executing a local pointer** in node.c: no slot changes. -/
theorem executeLocal_spec : ∀ {f : Nat} {n n' : Obj} {w w' : World σ},
    b.executeLocal f n w = some (n', w') →
      (∀ (j : Nat) (o : Obj), w.childs[j]? = some o → w'.childs[j]? = some o) ∧
        w'.lost = w.lost ∧ w'.extQ = w.extQ := by
  intro f
  induction f with
  | zero =>
    intro n n' w w' h
    cases h
  | succ f ih =>
    intro n n' w w' h
    replace h : (if b.asks n (b.run .port n w).rest then
        b.executeLocal f n.converted { b.run .port n w with rest := b.convert n (b.run .port n w).rest }
      else some (n, b.run .port n w)) = some (n', w') := h
    have hrun : Keeps 0 w (b.run .port n w) := run_keeps 0 n w
    split at h
    · obtain ⟨hslots, hlost, hextQ⟩ := ih h
      exact ⟨fun j o ho => hslots j o (run_slot n ho), hlost.trans hrun.lost, hextQ⟩
    · cases h
      exact ⟨fun j o ho => run_slot n ho, hrun.lost, rfl⟩

/-- Without a request there is one round. -/
theorem excuteSlot_first {f i : Nat} {w a : World σ} {o : Obj} (ho : w.childs[i]? = some o)
    (hasks : b.asks o (b.run .cpp o w).rest = false) (h : b.excuteSlot f i w = some a) :
    a = b.run .cpp o w := by
  cases f with
  | zero => cases h
  | succ f =>
    rw [Behaviour.excuteSlot, ho] at h
    replace h : (if b.asks o (b.run .cpp o w).rest then b.excuteSlot f i (b.replace i o (b.run .cpp o w))
      else some (b.run .cpp o w)) = some a := h
    rw [hasks, if_neg Bool.false_ne_true] at h
    exact (Option.some.inj h).symm

theorem executeLocal_once {f : Nat} {n : Obj} {w : World σ}
    (hasks : b.asks n (b.run .port n w).rest = false) :
    b.executeLocal (f + 1) n w = some (n, b.run .port n w) := by
  show (if b.asks n (b.run .port n w).rest then _ else some (n, b.run .port n w)) = _
  rw [hasks, if_neg Bool.false_ne_true]

theorem executeLocal_first {f : Nat} {n n' : Obj} {w c : World σ}
    (hasks : b.asks n (b.run .port n w).rest = false) (h : b.executeLocal f n w = some (n', c)) :
    n' = n ∧ c = b.run .port n w := by
  cases f with
  | zero => cases h
  | succ f =>
    rw [executeLocal_once hasks] at h
    cases h
    exact ⟨rfl, rfl⟩

theorem run_ne_nil {i : Nat} {w : World σ} {p : Obj} (hp : w.childs[i]? = some p) :
    (b.run side p w).childs ≠ [] := by
  have hrun : (b.run side p w).childs[i]? = some p := run_slot p hp
  intro hnil
  rw [hnil] at hrun
  cases hrun

/-! ## The loops over the p's -/

theorem deleteP_lost (o : Obj) (w : World σ) : (b.deleteP o w).lost = w.lost ++ [o] := by
  simp [World.lost, Behaviour.deleteP]

theorem freeP_lost (n : Obj) (w : World σ) : (b.freeP n w).lost = w.lost := by
  simp [World.lost, Behaviour.freeP]

/-- function.cpp destroys what stands in slot 1, if that has come to its end. -/
theorem excuteNext_spec : ∀ {f : Nat} {w w' : World σ}, b.excuteNext f w = some w' →
    w.lost <+: w'.lost ∧ ∀ o, w.childs[1]? = some o →
      (b.empty o w.rest = true → w.lost ++ [o] <+: w'.lost) ∧
      (b.empty o w.rest = false → w' = w) := by
  intro f
  induction f with
  | zero =>
    intro w w' h
    cases h
  | succ f ih =>
    intro w w' h
    rw [Behaviour.excuteNext] at h
    cases ho : w.childs[1]? with
    | none =>
      rw [ho] at h
      cases h
    | some o =>
      rw [ho] at h
      by_cases hempty : b.empty o w.rest
      · replace h : (if (b.deleteP o { w with extQ := true }).childs.length = 1 then
            some (b.deleteP o { w with extQ := true })
          else (b.excuteSlot f 1 (b.deleteP o { w with extQ := true })).bind (b.excuteNext f)) =
            some w' := (if_pos hempty).symm.trans h
        have hlost : (b.deleteP o { w with extQ := true }).lost = w.lost ++ [o] := deleteP_lost o _
        have hmore : w.lost ++ [o] <+: w'.lost := by
          split at h
          · cases h
            exact hlost ▸ List.prefix_refl _
          · obtain ⟨w₁, hslot, hnext⟩ := Option.bind_eq_some_iff.mp h
            have hkept : w₁.lost = w.lost ++ [o] := by
              cases f with
              | zero => cases hslot
              | succ f =>
                cases hc : (b.deleteP o { w with extQ := true }).childs[1]? with
                | none =>
                  rw [Behaviour.excuteSlot, hc] at hslot
                  cases hslot
                | some c => exact (excuteSlot_spec hslot hc).1.lost.trans hlost
            rw [← hkept]
            exact (ih hnext).1
        refine ⟨(List.prefix_append _ _).trans hmore, fun c hc => ?_⟩
        cases hc
        exact ⟨fun _ => hmore, fun hcon => absurd (hempty.symm.trans hcon) (by decide)⟩
      · replace h : some w = some w' := (if_neg hempty).symm.trans h
        cases h
        refine ⟨List.prefix_refl _, fun c hc => ?_⟩
        cases hc
        exact ⟨fun hcon => absurd hcon hempty, fun _ => rfl⟩

/-- node.c destroys what stands in slot 1, too, unless it has just freed that. -/
theorem executeNext_spec : ∀ {f : Nat} {n : Obj} {w w' : World σ}, b.executeNext f n w = some w' →
    w.lost <+: w'.lost ∧
      (b.empty n w.rest = true → ∀ o, w.childs[1]? = some o → o ≠ n ∧ w.lost ++ [o] <+: w'.lost) ∧
      (b.empty n w.rest = false → w' = w) := by
  intro f
  induction f with
  | zero =>
    intro n w w' h
    cases h
  | succ f ih =>
    intro n w w' h
    rw [Behaviour.executeNext] at h
    by_cases hempty : b.empty n w.rest
    · rw [if_pos hempty] at h
      obtain ⟨w₁, herase, h⟩ := Option.bind_eq_some_iff.mp h
      -- what follows the erasure destroys more
      have hrest : w₁.lost <+: w'.lost := by
        split at h
        · cases h
          exact List.prefix_refl _
        · split at h
          · cases h
          · obtain ⟨⟨n', w₂⟩, hlocal, hnext⟩ := Option.bind_eq_some_iff.mp h
            obtain ⟨-, hlost, -⟩ := executeLocal_spec hlocal
            rw [← hlost]
            exact (ih hnext).1
      have hfree : (b.freeP n { w with extQ := true }).lost = w.lost := freeP_lost n _
      have hslot : (b.freeP n { w with extQ := true }).childs = w.childs := rfl
      rw [Behaviour.eraseP, hslot] at herase
      refine ⟨?_, fun _ o ho => ?_, fun hcon => absurd (hempty.symm.trans hcon) (by decide)⟩
      · split at herase
        · cases herase
          rwa [hfree] at hrest
        · split at herase
          · cases herase
          · cases herase
            rw [deleteP_lost, hfree] at hrest
            exact (List.prefix_append _ _).trans hrest
      · rw [ho] at herase
        replace herase : (if .freed o ∈ (b.freeP n { w with extQ := true }).log then none
          else some (b.deleteP o (b.freeP n { w with extQ := true }))) = some w₁ := herase
        split at herase
        · cases herase
        · next hnot =>
          cases herase
          rw [deleteP_lost, hfree] at hrest
          refine ⟨?_, hrest⟩
          rintro rfl
          exact hnot (List.mem_append_right _ List.mem_cons_self)
    · rw [if_neg hempty] at h
      cases h
      exact ⟨List.prefix_refl _, fun hcon => absurd hcon hempty, fun _ => rfl⟩

/-! ## q -/

/-- What both functions have in common at q. -/
structure AtQ (w w' : World σ) : Prop where
  lost : w'.lost = w.lost
  slot : ∀ o, w.childs[1]? = some o → w'.childs[1]? = some o

/-- function.cpp leaves `extQ` as the verdict on q is. -/
theorem excuteQ_spec {f : Nat} {w w' : World σ} (h : b.excuteQ f w = some w') :
    AtQ w w' ∧ (w.extQ = false → w' = w.showExtQ) ∧
      (w.extQ = true → ∀ q, w.childs[0]? = some q → w'.extQ = (b.judge .cpp q w.showExtQ).1) := by
  replace h : (if w.extQ then
      match w.childs[0]? with
      | none => none
      | some q => if (b.judge .cpp q w.showExtQ).1 then some (b.judge .cpp q w.showExtQ).2
        else (b.excuteSlot f 0 (b.judge .cpp q w.showExtQ).2).map World.closeQ
    else some w.showExtQ) = some w' := h
  cases hext : w.extQ with
  | false =>
    rw [hext, if_neg Bool.false_ne_true] at h
    cases h
    exact ⟨⟨rfl, fun _ ho => ho⟩, fun _ => rfl, nofun⟩
  | true =>
    rw [hext, if_pos rfl] at h
    cases hq : w.childs[0]? with
    | none =>
      rw [hq] at h
      cases h
    | some q =>
      rw [hq] at h
      have hslot : (b.judge .cpp q w.showExtQ).2.childs[0]? = some q := hq
      replace h : (if (b.judge .cpp q w.showExtQ).1 then some (b.judge .cpp q w.showExtQ).2
        else (b.excuteSlot f 0 (b.judge .cpp q w.showExtQ).2).map World.closeQ) = some w' := h
      refine ⟨?_, nofun, fun _ c hc => ?_⟩
      · split at h
        · cases h
          exact ⟨rfl, fun _ ho => ho⟩
        · obtain ⟨w₁, hrun, rfl⟩ := Option.map_eq_some_iff.mp h
          have hkeeps := (excuteSlot_spec hrun hslot).1
          exact ⟨hkeeps.lost, fun o ho => hkeeps.slots 1 o (by decide) ho⟩
      · cases hc
        split at h
        · next hverdict =>
          cases h
          exact hext.trans hverdict.symm
        · next hverdict =>
          obtain ⟨w₁, -, rfl⟩ := Option.map_eq_some_iff.mp h
          exact (Bool.eq_false_iff.mpr hverdict).symm

/-- node.c leaves `extQ` as the verdict on q is not. -/
theorem executeQ_spec {f : Nat} {w w' : World σ} (h : b.executeQ f w = some w') :
    AtQ w w' ∧ (w.extQ = false → w' = w.showExtQ) ∧
      (w.extQ = true → ∀ q, w.childs[0]? = some q → w'.extQ = !(b.judge .port q w.showExtQ).1) := by
  replace h : (match w.childs[0]? with
      | none => none
      | some q =>
        if w.extQ then
          if (b.judge .port q w.showExtQ).1 then
            (b.executeLocal f q (b.judge .port q w.showExtQ).2).map fun r => r.2.closeQ
          else some (b.judge .port q w.showExtQ).2
        else some w.showExtQ) = some w' := h
  cases hq : w.childs[0]? with
  | none =>
    rw [hq] at h
    cases h
  | some q =>
    rw [hq] at h
    cases hext : w.extQ with
    | false =>
      rw [hext] at h
      cases h
      exact ⟨⟨rfl, fun _ ho => ho⟩, fun _ => rfl, nofun⟩
    | true =>
      rw [hext] at h
      replace h : (if (b.judge .port q w.showExtQ).1 then
          (b.executeLocal f q (b.judge .port q w.showExtQ).2).map fun r => r.2.closeQ
        else some (b.judge .port q w.showExtQ).2) = some w' := h
      refine ⟨?_, nofun, fun _ c hc => ?_⟩
      · split at h
        · obtain ⟨⟨n, w₁⟩, hrun, rfl⟩ := Option.map_eq_some_iff.mp h
          obtain ⟨hslots, hlost, -⟩ := executeLocal_spec hrun
          exact ⟨hlost, fun o ho => hslots 1 o ho⟩
        · cases h
          exact ⟨rfl, fun _ ho => ho⟩
      · cases hc
        split at h
        · next hverdict =>
          obtain ⟨w₁, -, rfl⟩ := Option.map_eq_some_iff.mp h
          rw [hverdict]
          rfl
        · next hverdict =>
          cases h
          rw [Bool.eq_false_iff.mpr hverdict]
          exact hext

/-- q is left alone. -/
theorem executeQ_closed {g : Nat} {w : World σ} (hq : w.childs ≠ []) (hext : w.extQ = false) :
    b.executeQ g w = some w.showExtQ := by
  obtain ⟨q, cs, hcs⟩ := List.exists_cons_of_ne_nil hq
  have hslot : w.childs[0]? = some q := by rw [hcs]; rfl
  show (match w.childs[0]? with
    | none => none
    | some q =>
      if w.extQ then
        if (b.judge .port q w.showExtQ).1 then
          (b.executeLocal g q (b.judge .port q w.showExtQ).2).map fun r : Obj × World σ => r.2.closeQ
        else some (b.judge .port q w.showExtQ).2
      else some w.showExtQ) = _
  rw [hslot, hext]
  rfl

/-- Where both functions meet at q with `extQ` set, they part, if q is a leaf. -/
theorem q_parts {f g : Nat} {w w' : World σ} (h : b.excuteQ f w = some w')
    (h' : b.executeQ g w = some w') {q : Obj} (hq : w.childs[0]? = some q)
    (hleaf : b.leaf q w.rest = true) : w.extQ = false := by
  cases hext : w.extQ with
  | false => rfl
  | true =>
    have hv := (excuteQ_spec h).2.2 hext q hq
    have hv' := (executeQ_spec h').2.2 hext q hq
    have hsame : b.judge .port q w.showExtQ = b.judge .cpp q w.showExtQ := by
      rw [Behaviour.judge, Behaviour.judge]
      rw [b.leaf_verdict q w.showExtQ.childs w.showExtQ.hasExtQ w.showExtQ.rest hleaf]
    rw [hsame, hv] at hv'
    cases hj : (b.judge .cpp q w.showExtQ).1 <;> rw [hj] at hv' <;> cases hv'

/-! ## Both functions -/

/-- The test for the end has been made. -/
def Behaviour.begun (b : Behaviour σ) (w : World σ) : World σ :=
  { w with rest := (b.correct w.childs w.rest).2 }

/-- Both sides execute `p` alike, as they do every leaf. -/
def Behaviour.Alike (b : Behaviour σ) (p : Obj) (w : World σ) : Prop :=
  b.leaf p w.rest = true ∨ b.run .port p w = b.run .cpp p w

theorem Behaviour.Alike.run_eq {p : Obj} {w : World σ} (h : b.Alike p w) :
    b.run .port p w = b.run .cpp p w := by
  rcases h with hleaf | hsame
  · rw [Behaviour.run, Behaviour.run, b.leaf_execute p w.childs w.hasExtQ w.rest hleaf]
  · exact hsame

/-- The PRJ node has ended, or: there is a p, q is not to be executed, and the first p is executed
    alike and then neither asks for another type nor has come to its end. -/
def Behaviour.Quiet (b : Behaviour σ) (w : World σ) : Prop :=
  (b.correct w.childs w.rest).1 = true ∨
    2 ≤ w.childs.length ∧ w.extQ = false ∧ ∀ p, w.childs[1]? = some p →
      b.Alike p (b.begun w) ∧ b.asks p (b.run .cpp p (b.begun w)).rest = false ∧
        b.empty p (b.run .cpp p (b.begun w)).rest = false

theorem not_longer (os : List Obj) (o : Obj) : ¬ os ++ [o] <+: os := by
  intro h
  have hlen := h.length_le
  rw [List.length_append, List.length_singleton] at hlen
  omega

/-- Where the first p asks for another type, the port loses the object it is converted to. -/
theorem asks_parts {f g : Nat} {w a a' c c' w₁ w₂ : World σ} {p n : Obj}
    (hp : w.childs[1]? = some p) (hasks : b.asks p (b.run .cpp p w).rest = true)
    (hslot : b.excuteSlot f 1 w = some a) (hnext : b.excuteNext f a = some a') (hq : AtQ a' w₁)
    (hlocal : b.executeLocal g p w = some (n, c)) (hnext' : b.executeNext g n c = some c')
    (hq' : AtQ c' w₂) : w₁ ≠ w₂ := by
  obtain ⟨hkeeps, k, hk, hpos⟩ := excuteSlot_spec hslot hp
  have hpos := hpos hasks
  obtain ⟨hslots, hlost, -⟩ := executeLocal_spec hlocal
  have hold := hslots 1 p hp
  obtain ⟨-, hspec⟩ := excuteNext_spec hnext
  obtain ⟨-, hspec'⟩ := executeNext_spec hnext'
  obtain ⟨hempty, hstay⟩ := hspec _ hk
  rintro rfl
  cases he : b.empty (p.1, p.2 + k) a.rest with
  | true =>
    have hpre := hempty he
    rw [← hq.lost, hkeeps.lost] at hpre
    cases he' : b.empty n c.rest with
    | true =>
      -- both destroy something, but different objects
      have hpre' := (hspec'.1 he' p hold).2
      rw [← hq'.lost, hlost] at hpre'
      have heq := List.prefix_of_prefix_length_le hpre hpre' (by simp)
      have heq := heq.eq_of_length (by simp)
      have heq := List.singleton_inj.mp (List.append_cancel_left heq)
      have := congrArg Prod.snd heq
      simp only at this
      omega
    | false =>
      have hsame := hq'.lost
      rw [hspec'.2 he', hlost] at hsame
      rw [hsame] at hpre
      exact not_longer _ _ hpre
  | false =>
    have hsame := hq.lost
    rw [hstay he, hkeeps.lost] at hsame
    cases he' : b.empty n c.rest with
    | true =>
      have hpre' := (hspec'.1 he' p hold).2
      rw [← hq'.lost, hlost, hsame] at hpre'
      exact not_longer _ _ hpre'
    | false =>
      -- slot 1 holds the new object, or still the old one
      have hone := hq.slot _ (by rw [hstay he]; exact hk)
      have htwo := hq'.slot p (by rw [hspec'.2 he']; exact hold)
      rw [hone] at htwo
      have := congrArg Prod.snd (Option.some.inj htwo)
      simp only at this
      omega

/-- Where both come to the same, the first p asks for nothing and goes on, and q is not executed. -/
theorem quiet_of_agree {f g : Nat} {w w' : World σ} {q : Obj} (hq : w.childs[0]? = some q)
    (hqleaf : ∀ s, b.leaf q s = true) (hpleaf : ∀ p, w.childs[1]? = some p → b.leaf p w.rest = true)
    (h : (b.excuteP f w).bind (b.excuteQ f) = some w')
    (h' : (b.executeP g w).bind (b.executeQ g) = some w') :
    2 ≤ w.childs.length ∧ w.extQ = false ∧ ∀ p, w.childs[1]? = some p →
      b.Alike p w ∧ b.asks p (b.run .cpp p w).rest = false ∧
        b.empty p (b.run .cpp p w).rest = false := by
  obtain ⟨a', hP, hQ⟩ := Option.bind_eq_some_iff.mp h
  obtain ⟨c', hP', hQ'⟩ := Option.bind_eq_some_iff.mp h'
  rw [Behaviour.excuteP] at hP
  rw [Behaviour.executeP] at hP'
  by_cases hlen : w.childs.length ≤ 1
  · -- only q: `extQ` is set
    rw [if_pos hlen] at hP hP'
    cases hP
    cases hP'
    cases q_parts hQ hQ' hq (hqleaf _)
  · rw [if_neg hlen] at hP hP'
    have hlt : 1 < w.childs.length := Nat.lt_of_not_le hlen
    have hp : w.childs[1]? = some w.childs[1] := List.getElem?_eq_getElem hlt
    generalize w.childs[1] = p at hp
    rw [hp] at hP'
    obtain ⟨a, hslot, hnext⟩ := Option.bind_eq_some_iff.mp hP
    obtain ⟨⟨n, c⟩, hlocal, hnext'⟩ := Option.bind_eq_some_iff.mp hP'
    have hasks : b.asks p (b.run .cpp p w).rest = false := by
      rw [Bool.eq_false_iff]
      intro hasks
      exact asks_parts hp hasks hslot hnext (excuteQ_spec hQ).1 hlocal hnext'
        (executeQ_spec hQ').1 rfl
    -- the first round is the same
    have halike : b.Alike p w := Or.inl (hpleaf p hp)
    have hsame := halike.run_eq
    obtain rfl := excuteSlot_first hp hasks hslot
    obtain ⟨rfl, rfl⟩ := executeLocal_first (hsame ▸ hasks) hlocal
    rw [hsame] at hnext'
    have hrun : (b.run .cpp n w).childs[1]? = some n := run_slot n hp
    have hempty : b.empty n (b.run .cpp n w).rest = false := by
      rw [Bool.eq_false_iff]
      intro hempty
      exact ((executeNext_spec hnext').2.1 hempty n hrun).1 rfl
    have hstay := ((excuteNext_spec hnext).2 n hrun).2 hempty
    have hstay' := (executeNext_spec hnext').2.2 hempty
    rw [hstay] at hQ
    rw [hstay'] at hQ'
    have hext : (b.run .cpp n w).extQ = false := q_parts hQ hQ' (run_slot n hq) (hqleaf _)
    refine ⟨hlt, hext, fun p' hp' => ?_⟩
    cases hp.symm.trans hp'
    exact ⟨halike, hasks, hempty⟩

/-- And there both come to the same. -/
theorem agree_of_quiet {f : Nat} {w w' : World σ} (hlen : 2 ≤ w.childs.length)
    (hext : w.extQ = false) (hfirst : ∀ p, w.childs[1]? = some p →
      b.Alike p w ∧ b.asks p (b.run .cpp p w).rest = false ∧
        b.empty p (b.run .cpp p w).rest = false)
    (h : (b.excuteP f w).bind (b.excuteQ f) = some w') :
    (b.executeP 1 w).bind (b.executeQ 1) = some w' := by
  obtain ⟨a', hP, hQ⟩ := Option.bind_eq_some_iff.mp h
  have hlt : 1 < w.childs.length := hlen
  have hp : w.childs[1]? = some w.childs[1] := List.getElem?_eq_getElem hlt
  generalize w.childs[1] = p at hp
  obtain ⟨halike, hasks, hempty⟩ := hfirst p hp
  have hsame := halike.run_eq
  rw [Behaviour.excuteP, if_neg (Nat.not_le_of_lt hlt)] at hP
  obtain ⟨a, hslot, hnext⟩ := Option.bind_eq_some_iff.mp hP
  obtain rfl := excuteSlot_first hp hasks hslot
  have hstay := ((excuteNext_spec hnext).2 p (run_slot p hp)).2 hempty
  have hw' := (excuteQ_spec hQ).2.1 (by rw [hstay]; exact hext)
  have hnext' : b.executeNext 1 p (b.run .cpp p w) = some (b.run .cpp p w) := by
    rw [Behaviour.executeNext, hempty, if_neg Bool.false_ne_true]
  rw [Behaviour.executeP, if_neg (Nat.not_le_of_lt hlt), hp]
  show ((b.executeLocal 1 p w).bind fun r => b.executeNext 1 r.1 r.2).bind _ = some w'
  rw [executeLocal_once (hsame ▸ hasks), hsame]
  show (b.executeNext 1 p (b.run .cpp p w)).bind _ = some w'
  rw [hnext', Option.bind_some, executeQ_closed (run_ne_nil hp) hext, hw', hstay]

/-- **The port** does what function.cpp does where nothing comes to its end, is converted, or is
    executed as q; and if q and the first p are leaves, nowhere else. -/
theorem prjExecute_iff {f : Nat} {w w' : World σ} {q : Obj} (hq : w.childs[0]? = some q)
    (hret : b.prjExcute f w = some w') :
    (b.Quiet w → ∃ g, b.prjNodeExecute g w = some w') ∧
      ((∀ s, b.leaf q s = true) →
        (∀ p, w.childs[1]? = some p → b.leaf p (b.begun w).rest = true) →
          (∃ g, b.prjNodeExecute g w = some w') → b.Quiet w) := by
  have hcpp : (if (b.correct w.childs w.rest).1 then some { b.begun w with ended := true }
    else (b.excuteP f (b.begun w)).bind (b.excuteQ f)) = some w' := hret
  have hport : ∀ g, b.prjNodeExecute g w =
      if (b.correct w.childs w.rest).1 then some { b.begun w with ended := true }
      else (b.executeP g (b.begun w)).bind (b.executeQ g) := fun _ => rfl
  by_cases hdone : (b.correct w.childs w.rest).1 = true
  · refine ⟨fun _ => ⟨0, ?_⟩, fun _ _ _ => Or.inl hdone⟩
    rw [hport, if_pos hdone]
    rwa [if_pos hdone] at hcpp
  · rw [if_neg hdone] at hcpp
    constructor
    · rintro (hcon | ⟨hlen, hext, hfirst⟩)
      · exact absurd hcon hdone
      · refine ⟨1, ?_⟩
        rw [hport, if_neg hdone]
        exact agree_of_quiet (w := b.begun w) hlen hext hfirst hcpp
    · rintro hqleaf hpleaf ⟨g, hg⟩
      rw [hport, if_neg hdone] at hg
      exact Or.inr (quiet_of_agree (w := b.begun w) hq hqleaf hpleaf hcpp hg)

end

/-- Nodes that wait for the next state, whatever happens. -/
def waiting : Behaviour Unit where
  correct := fun _ _ => (false, ())
  leaf := fun _ _ => true
  execute := fun _ _ _ _ _ => ([], ())
  asks := fun _ _ => false
  convert := fun _ _ => ()
  empty := fun _ _ => false
  destroy := fun _ _ => ()
  free := fun _ _ => ()
  verdict := fun _ _ _ _ _ => (false, ())
  leaf_execute := fun _ _ _ _ _ => rfl
  leaf_verdict := fun _ _ _ _ _ => rfl

/-- q is thread 1, p is thread 2. -/
def pair (extQ : Bool) : World Unit where
  childs := [(1, 0), (2, 0)]
  extQ := extQ
  hasExtQ := false
  ended := false
  rest := ()
  log := []

theorem p_alone_agrees :
    (∃ g, waiting.prjNodeExecute g (pair false) =
      some { pair false with log := [.executed (2, 0)] }) ∧ waiting.Quiet (pair false) := by
  have hrun : waiting.prjExcute 2 (pair false) =
    some { pair false with log := [.executed (2, 0)] } := rfl
  obtain ⟨hif, honlyif⟩ := prjExecute_iff rfl hrun
  have hquiet : waiting.Quiet (pair false) :=
    Or.inr ⟨by decide, rfl, fun _ _ => ⟨Or.inl rfl, rfl, rfl⟩⟩
  exact ⟨hif hquiet, honlyif (fun _ => rfl) (fun _ _ => rfl) (hif hquiet)⟩

/-- Where q is to be executed, node.c does not execute it. -/
theorem q_not_executed :
    waiting.prjExcute 2 (pair true) =
        some { pair false with hasExtQ := true, log := [.executed (2, 0), .executed (1, 0)] } ∧
      ¬ ∃ g, waiting.prjNodeExecute g (pair true) =
        some { pair false with hasExtQ := true, log := [.executed (2, 0), .executed (1, 0)] } := by
  refine ⟨rfl, ?_⟩
  rintro ⟨g, hg⟩
  cases g with
  | zero => cases hg
  | succ g =>
    have hrun : waiting.prjNodeExecute (g + 1) (pair true) =
        some { pair true with hasExtQ := true, log := [.executed (2, 0)] } := rfl
    rw [hrun] at hg
    cases congrArg World.extQ (Option.some.inj hg)

end Msvl.Port.Project
