/-
  Which registered nodes the tree and keepChilds account for.

  A registered node is accounted for if it is in the tree, or waits in keepChilds, or is below one
  that waits.  `Linked` is the local form: the father of every registered node that does not wait is
  registered, too.  A conversion to LEAF clears the vector of the node without deleting the
  children, and an element of keepChilds is added to the object it has as its father, whether that
  is still in the tree or not; the other steps keep `Linked` (`Pairing`).
-/
import LibMSVL.Function.Conversion

namespace Msvl.Function

open Msvl.Run

/-- Every registered node is in the tree, or below an element of keepChilds that waits. -/
def State.Accounted (s : State) : Prop :=
  ∀ n, s.Reg n → s.InTree n ∨ ∃ c ∈ s.pending, s.Below c n

/-- The father of a registered node is registered, unless the node waits. -/
def State.Linked (s : State) : Prop :=
  ∀ n, s.Reg n → n ∈ s.pending ∨ s.threadRoot = some n ∨ ∃ F, s.father n = some F ∧ s.Reg F

/-- A conversion to LEAF leaves no children behind, and children are given to registered nodes. -/
def Pairing : Label → State → Prop
  | .replace _ _ n, s => (s.heap n).newType = .leaf → s.childs n = []
  | .attach _ father, s => s.Reg father
  | .moveToFather _ father, s => s.Reg father
  | _, _ => True

instance (l : Label) (s : State) : Decidable (Pairing l s) := by
  apply @Label.casesOn (fun l => Decidable (Pairing l s)) l <;> intros <;> unfold Pairing <;>
    infer_instance

/-! ## One step -/

theorem SameObjects.linked {s t : State} (h : SameObjects s t) (hl : s.Linked)
    (hfather : ∀ n, s.Reg n → t.father n = s.father n ∨ n ∈ t.pending ∨
      ∃ F, t.father n = some F ∧ s.Reg F)
    (hpending : ∀ n ∈ s.pending, n ∈ t.pending ∨ ∃ F, t.father n = some F ∧ s.Reg F) :
    t.Linked := by
  intro n hn
  rw [h.reg] at hn
  have hreg : (∃ F, t.father n = some F ∧ s.Reg F) → ∃ F, t.father n = some F ∧ t.Reg F :=
    fun ⟨F, hF, hFr⟩ => ⟨F, hF, (h.reg F).mpr hFr⟩
  rw [h.root]
  rcases hfather n hn with hf | hp | hF
  · rcases hl n hn with hp | hr | ⟨F, hF, hFr⟩
    · exact (hpending n hp).imp_right fun hF => Or.inr (hreg hF)
    · exact Or.inr (Or.inl hr)
    · exact Or.inr (Or.inr (hreg ⟨F, hf.trans hF, hFr⟩))
  · exact Or.inl hp
  · exact Or.inr (Or.inr (hreg hF))

theorem Unlinked.linked {s t : State} {n : Ptr} (hu : Unlinked s t n) (h : Inv s)
    (hl : s.Linked) : t.Linked := by
  intro x hx
  obtain ⟨hx, hxn⟩ := (hu.reg_iff h x).mp hx
  rw [hu.pending, hu.root_iff, hu.father, if_neg hxn]
  rcases hl x hx with hp | hr | ⟨F, hF, hFr⟩
  · exact Or.inl ⟨hp, hxn⟩
  · exact Or.inr (Or.inl ⟨hr, hxn⟩)
  · by_cases hFn : F = n
    · subst hFn
      -- the deleted node had no children, so `x` waits
      rcases h.att x hx F hF hFr with hat | hp
      · have hmem := State.at_iff_mem.mpr hat
        rw [hu.childs] at hmem
        exact absurd hmem List.not_mem_nil
      · exact Or.inl ⟨hp, hxn⟩
    · exact Or.inr (Or.inr ⟨F, hF, (hu.reg_iff h F).mpr ⟨hFr, hFn⟩⟩)

section

variable {s : State} (h : Inv s) (hl : s.Linked)

include h hl

theorem linked_newThread {F : Ptr} {id : Tid} (hF : s.Reg F) (hid : s.Fresh id) :
    (newThread s F id).Linked := by
  have hb := spawned_newThread F hid.2.2
  intro x hx
  rw [newThread_father, show (newThread s F id).threadRoot = s.threadRoot from
    newThread_global s F id fun _ _ _ => rfl,
    show (newThread s F id).pending = s.pending by
      unfold State.pending
      rw [show (newThread s F id).keepChilds = s.keepChilds from
        newThread_global s F id fun _ _ _ => rfl,
        show (newThread s F id).keepPos = s.keepPos from newThread_global s F id fun _ _ _ => rfl]]
  rcases (hb.reg x).mp hx with rfl | hx
  · rw [if_pos rfl]
    exact Or.inr (Or.inr ⟨F, rfl, (hb.reg F).mpr (Or.inr hF)⟩)
  · rw [if_neg (Nat.ne_of_lt (h.alloc hx))]
    exact (hl x hx).imp_right (Or.imp_right fun ⟨G, hG, hGr⟩ =>
      ⟨G, hG, (hb.reg G).mpr (Or.inr hGr)⟩)

theorem linked_newRoot {k : NodeType} (hno : s.threadRoot = none)
    (hmain : s.threadIDToNode s.mainThread = none) : (newRoot s k).Linked := by
  have hb := spawned_newRoot k hmain
  intro x hx
  rw [newRoot_father, show (newRoot s k).threadRoot = some s.next from
    newRoot_global s k fun _ _ _ => rfl,
    show (newRoot s k).pending = s.pending by
      unfold State.pending
      rw [show (newRoot s k).keepChilds = s.keepChilds from newRoot_global s k fun _ _ _ => rfl,
        show (newRoot s k).keepPos = s.keepPos from newRoot_global s k fun _ _ _ => rfl]]
  rcases (hb.reg x).mp hx with rfl | hx
  · exact Or.inr (Or.inl rfl)
  · rw [if_neg (Nat.ne_of_lt (h.alloc hx))]
    rcases hl x hx with hp | hr | ⟨G, hG, hGr⟩
    · exact Or.inl hp
    · rw [hno] at hr
      cases hr
    · exact Or.inr (Or.inr ⟨G, hG, (hb.reg G).mpr (Or.inr hGr)⟩)

theorem linked_replace {owner n : Ptr} {i : Nat} (hs : Slot s owner i n)
    (hleaf : s.newType n = .leaf → s.childs n = []) :
    ((Label.replace owner i n).apply s).Linked := by
  obtain ⟨-, hn, hne, -⟩ := hs.lt h
  have hreg := replace_reg hs
  have howner : s.Reg owner := by
    rcases hl n hs.reg with hp | hr | ⟨F, hF, hFr⟩
    · obtain ⟨-, F, hF, hno⟩ := h.pend n hp
      rw [hs.father] at hF
      cases hF
      exact absurd hs.at_ (hno i)
    · exact absurd hr (hs.not_root h)
    · rw [hs.father] at hF
      cases hF
      exact hFr
  intro x hx
  rw [replace_father, show ((Label.replace owner i n).apply s).threadRoot = s.threadRoot from
    replace_global s owner i n fun _ _ _ => rfl,
    show ((Label.replace owner i n).apply s).pending = s.pending by
      unfold State.pending
      rw [show ((Label.replace owner i n).apply s).keepChilds = s.keepChilds from
        replace_global s owner i n fun _ _ _ => rfl,
        show ((Label.replace owner i n).apply s).keepPos = s.keepPos from
        replace_global s owner i n fun _ _ _ => rfl]]
  rcases (hreg x).mp hx with rfl | ⟨hxs, hxn⟩
  · rw [if_neg (fun hk => Nat.lt_irrefl _ (h.alloc (hs.kept h hk).1)), if_pos rfl]
    exact Or.inr (Or.inr ⟨owner, hs.father, (hreg owner).mpr (Or.inr ⟨howner, hne⟩)⟩)
  · split
    · exact Or.inr (Or.inr ⟨s.next, rfl, (hreg s.next).mpr (Or.inl rfl)⟩)
    · next hk =>
      rw [if_neg (Nat.ne_of_lt (h.alloc hxs))]
      rcases hl x hxs with hp | hr | ⟨F, hF, hFr⟩
      · exact Or.inl hp
      · exact Or.inr (Or.inl hr)
      · by_cases hFn : F = n
        · subst hFn
          -- a child that is not handed on
          rcases h.att x hxs F hF hFr with ⟨j, hj⟩ | hp
          · exfalso
            by_cases hlf : s.newType F = .leaf
            · have hmem := State.at_iff_mem.mpr ⟨j, hj⟩
              rw [hleaf hlf] at hmem
              exact List.not_mem_nil hmem
            · exact hk (mem_kept.mpr ⟨hlf, j, hj⟩)
          · exact Or.inl hp
        · exact Or.inr (Or.inr ⟨F, hF, (hreg F).mpr (Or.inr ⟨hFr, hFn⟩)⟩)

/-- **Every other step keeps the fathers of registered nodes registered.** -/
theorem Guard.linked {b : Nat} {l : Label} (hg : Guard b l s) (hp : Pairing l s) :
    (l.apply s).Linked := by
  cases l with
  | edit n e =>
    have hsame := sameMap_edit s n e
    intro x hx
    rw [hsame.reg] at hx
    rw [hsame.root, edit_father, show ((Label.edit n e).apply s).pending = s.pending from
      edit_global s n e fun _ _ _ => rfl]
    exact (hl x hx).imp_right (Or.imp_right fun ⟨F, hF, hFr⟩ => ⟨F, hF, (hsame.reg F).mpr hFr⟩)
  | newRoot type => exact linked_newRoot h hl hg.2.1 hg.2.2.1
  | newThread F id => exact linked_newThread h hl hg.1 hg.2.1
  | replace owner i n => exact linked_replace h hl hg.1 hp
  | destroy owner i n => exact (unlinked_destroy h hg.1 hg.2.1).linked h hl
  | destroyRoot r => exact (unlinked_destroyRoot h hg.1 hg.2.1).linked h hl
  | moveToKeepChilds n =>
    have hpending : (moveToKeepChilds s n).pending = s.pending ++ s.childs n := by
      show (s.keepChilds ++ s.childs n).drop s.keepPos = _
      rw [List.drop_append_of_le_length h.pos]
      rfl
    refine (sameObjects_moveToKeepChilds s n).linked hl ?_ ?_
    · intro x _
      by_cases hx : x ∈ s.childs n
      · refine Or.inr (Or.inl ?_)
        rw [hpending]
        exact List.mem_append_right _ hx
      · exact Or.inl (by rw [moveToKeepChilds_father, if_neg hx])
    · intro x hx
      rw [hpending]
      exact Or.inl (List.mem_append_left _ hx)
  | moveToFather n F =>
    refine (sameObjects_moveToFather s n F).linked hl ?_ (fun x hx => Or.inl hx)
    intro x _
    by_cases hx : x ∈ s.childs n
    · refine Or.inr (Or.inr ⟨F, ?_, hp⟩)
      rw [moveToFather_father, if_pos hx]
      exact hg.2.1
    · exact Or.inl (by rw [moveToFather_father, if_neg hx])
  | attach c F =>
    have hfather : ∀ x, ((Label.attach c F).apply s).father x = s.father x :=
      fun x => attach_field s c F x (g := Node.father) fun _ _ => rfl
    refine (sameObjects_attach s c F).linked hl (fun x _ => Or.inl (hfather x)) ?_
    intro x hx
    obtain ⟨hlt, hget⟩ := List.getElem?_eq_some_iff.mp hg.1
    rw [State.pending, List.drop_eq_getElem_cons hlt, hget] at hx
    rcases List.mem_cons.mp hx with rfl | hx
    · exact Or.inr ⟨F, (hfather x).trans hg.2.1, hp⟩
    · exact Or.inl hx
  | drop c => exact (unlinked_drop h hg.1 hg.2.1).linked h hl
  | keepClear =>
    intro x hx
    refine (hl x hx).imp_left fun hx => ?_
    rw [hg.1] at hx
    exact absurd hx List.not_mem_nil
  | _ => exact hl

/-- From the local form to the whole tree, by induction on the age of the node. -/
theorem Inv.accounted : s.Accounted := by
  have hall : ∀ b n, s.birth n ≤ b → s.Reg n → s.InTree n ∨ ∃ c ∈ s.pending, s.Below c n := by
    intro b
    induction b with
    | zero =>
      intro n hb hn
      have := (h.birth n (h.alloc hn)).1
      omega
    | succ b ih =>
      intro n hb hn
      rcases hl n hn with hp | hr | ⟨F, hF, hFr⟩
      · exact Or.inr ⟨n, hp, .refl⟩
      · exact Or.inl ⟨[], .root hr⟩
      · rcases h.att n hn F hF hFr with ⟨i, hi⟩ | hp
        · have hlt := (h.up n (h.alloc hn) F hF).2
          rcases ih F (by omega) hFr with ⟨p, hpath⟩ | ⟨c, hc, hbelow⟩
          · exact Or.inl ⟨i :: p, hpath.child hi⟩
          · exact Or.inr ⟨c, hc, hbelow.child hi⟩
        · exact Or.inr ⟨n, hp, .refl⟩
  exact fun n hn => hall _ n (Nat.le_refl _) hn

end

/-! ## Runs -/

/-- **No thread is orphaned**, in every run whose conversions to LEAF and whose moves meet
    `Pairing`: in every state the tree and keepChilds account for every registered node, and when
    the root is deleted, only what waits in keepChilds is left besides it. -/
theorem run_accounted (f : Nat) (mainThread : Tid) (env : Env) (input : List Action)
    (hpair : EveryStep Pairing (run f mainThread env input).2) :
    (run f mainThread env input).2.st.Accounted ∧
    EveryStep (fun _ s => s.Accounted) (run f mainThread env input).2 ∧
    EveryStep (fun l s => ∀ r, l = .destroyRoot r → ∀ n, s.Reg n → n = r ∨
      ∃ c ∈ s.pending, s.Below c n) (run f mainThread env input).2 := by
  have hstart : (start mainThread env).Linked := by
    intro n hn
    cases hn
  obtain ⟨⟨hend, hendl⟩, hlog⟩ := (run_trace f mainThread env input).1.keeps_of
    (I := fun s => Inv s ∧ s.Linked) (C := Pairing)
    (fun l s hg hc hs => ⟨hg.inv hs.1, hg.linked hs.1 hs.2 hc⟩)
    ⟨inv_start mainThread env, hstart⟩ hpair
  refine ⟨hend.accounted hendl, ?_, ?_⟩
  · intro l s hmem
    obtain ⟨⟨h, hl⟩, -⟩ := hlog l s hmem
    exact h.accounted hl
  · rintro l s hmem r rfl n hn
    obtain ⟨⟨h, hl⟩, hroot, hchilds, -⟩ := hlog _ s hmem
    refine (h.accounted hl n hn).imp_left ?_
    rintro ⟨p, hp⟩
    have hbelow : ∀ q m, s.Path q m → m = r := by
      intro q m hq
      induction hq with
      | root hr =>
        rw [hroot] at hr
        cases hr
        rfl
      | child _ hat ih =>
        subst ih
        have hmem := State.at_iff_mem.mpr ⟨_, hat⟩
        rw [hchilds] at hmem
        exact absurd hmem List.not_mem_nil
    exact hbelow p n hp

/-- A parallel statement below a thread.  Its thread ends, `isCorrectAndExit` deletes it, and the
    PAL node becomes a leaf one state later. -/
def endedScript : List Action :=
  [.call (.myCreateThread true .and 2), .pause,
   .call (.myCreateThread true .pal 3), .pause,
   .exit, .pause, .pause]

theorem run_accounted_ended :
    (run 10 1 plain endedScript).2.st.Accounted :=
  (run_accounted 10 1 plain endedScript (by decide +kernel)).1

def Label.isTurn : Label → Bool
  | .turn _ => true
  | _ => false

/-- A parallel statement below a thread.  Its thread sets its length and pauses. -/
def pausedScript : List Action :=
  [.call (.myCreateThread true .and 2), .pause,
   .call (.myCreateThread true .and 3), .pause,
   .call (.setNodeLength .empty), .pause, .pause]

/-- The AND node becomes a leaf at once and its vector is cleared; when the next turn begins, the
    thread that has paused is still registered, and nothing leads to its node. -/
theorem paused_orphan : ¬ EveryStep (fun l s => l.isTurn = true → s.Accounted)
    (run 10 1 plain pausedScript).2 := by
  intro hall
  -- a node with a father is in the tree with it
  have hfather : EveryStep (fun l s => l.isTurn = true → s.pending = [] →
      ∀ n ∈ List.range s.next, s.Reg n → s.threadRoot = some n ∨ ∀ F ∈ s.father n, s.Reg F)
      (run 10 1 plain pausedScript).2 := by
    intro l s hmem hturn hpend n _ hn
    obtain ⟨h, -⟩ := (run_inv 10 1 plain pausedScript).2 l s hmem
    rcases hall l s hmem hturn n hn with ⟨p, hp⟩ | ⟨c, hc, -⟩
    · cases hp with
      | root hr => exact Or.inl hr
      | child hF hat =>
        refine Or.inr ?_
        intro G hG
        have heq : some _ = some G := (h.path_father hF hat).symm.trans hG
        cases heq
        exact h.path_reg hF
    · rw [hpend] at hc
      exact absurd hc List.not_mem_nil
  exact absurd hfather (by decide +kernel)

end Msvl.Function
