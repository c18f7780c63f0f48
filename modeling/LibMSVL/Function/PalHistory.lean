/-
  Completion of a PAL node over the whole history of its checks.

  A call of isCorrectAndExit counts the EMPTY children among those present and deletes all whose
  interval or thread has ended.  It forgets that a child was deleted without having become EMPTY, and
  when the others are EMPTY at a later call it says that all have ended.

  1. `palHistory_remains`: where the children of the start are.
  2. `palRight_of_endsWhole`, `endsWhole_of_palRight`: the calls are right exactly when no child has
     been lost before the last ones become EMPTY.
  3. `palChange_setNodeLength`, `palRound_ends`: what happens between the calls is what
     `setNodeLength` does, and the end of a thread.

  An EMPTY child is deleted by the next call, so by then its thread has exited (`gone`), or the
  signal ends threads only.
-/
import LibMSVL.Function.Check
import LibMSVL.Lib.System

namespace Msvl.Function

open Msvl.Run Msvl.Trans

/-! ## Rounds -/

/-- A PAL node with leaves under it, all of length MORE. -/
structure PalStart (n : Ptr) (s : State) : Prop where
  flat : Flat s n
  type : s.type n = .pal
  len : (s.heap n).len = .more
  leaf : ∀ c ∈ s.childs n, s.type c = .leaf ∧ (s.heap c).len = .more
  some_ : s.childs n ≠ []

/-- Children set their length to EMPTY, and their threads exit.  The last child to become EMPTY ends
    the node already (`setPalLen`). -/
structure PalChange (n : Ptr) (s t : State) : Prop where
  flat : Flat t n
  type : t.type n = s.type n
  childs : t.childs n = s.childs n
  types : ∀ c ∈ s.childs n, t.type c = s.type c
  len : ∀ c ∈ s.childs n, (t.heap c).len = (s.heap c).len ∨
    (s.heap c).len = .more ∧ (t.heap c).len = .empty
  own : (t.heap n).len = (s.heap n).len ∨
    (t.heap n).len = .empty ∧ ∀ c ∈ t.childs n, (t.heap c).len = .empty
  fate : ∀ c ∈ s.childs n, s.Deletable c → t.Deletable c

/-- By the time of the call the threads of the EMPTY children are gone. -/
structure PalRound (n : Ptr) (s t : State) : Prop extends PalChange n s t where
  gone : ∀ c ∈ t.childs n, (t.heap c).len = .empty → t.Deletable c

abbrev PalHistory (n : Ptr) : State → List (Check State) → State → Prop :=
  History (PalStart n) (PalRound n) (Returns n)

/-- The child was EMPTY at a check. -/
def Became (n : Ptr) (checks : List (Check State)) (c : Ptr) : Prop :=
  ∃ k ∈ checks, c ∈ k.before.childs n ∧ (k.before.heap c).len = .empty

/-- A check has found a child whose thread had exited and that was not EMPTY. -/
def Lost (n : Ptr) (checks : List (Check State)) : Prop :=
  ∃ k ∈ checks, ∃ c ∈ k.before.childs n, k.before.isExit c = true ∧ (k.before.heap c).len ≠ .empty

/-- What isCorrectAndExit is to say in the history that began in `s₀`. -/
structure PalRight (n : Ptr) (s₀ : State) (checks : List (Check State)) : Prop where
  result : ∀ later k past, checks = later ++ k :: past →
    (k.result = true ↔ ∀ c ∈ s₀.childs n, Became n (k :: past) c)
  again : ∀ later k' k past, checks = later ++ k' :: k :: past → k'.before = k.after →
    k'.result = k.result
  deleted : ∀ k ∈ checks, ∀ c ∈ k.before.childs n, c ∉ k.after.childs n →
    k.before.isExit c = true ∨ (k.before.heap c).len = .empty

/-- Where the last children become EMPTY, no child has been lost before. -/
def EndsWhole (n : Ptr) (checks : List (Check State)) : Prop :=
  ∀ later k past, checks = later ++ k :: past → Lost n past →
    ∃ c ∈ k.before.childs n, (k.before.heap c).len ≠ .empty

/-! ## What remains -/

section

variable {n : Ptr} {s₀ s t u : State} {past : List (Check State)} {b : Bool}

/-- What the checks have left. -/
structure Remains (n : Ptr) (s₀ : State) (past : List (Check State)) (s : State) : Prop where
  flat : Flat s n
  type : s.type n = .pal
  leaf : ∀ c ∈ s.childs n, s.type c = .leaf ∧ (s.heap c).len = .more
  sub : ∀ c ∈ s.childs n, c ∈ s₀.childs n
  -- where the others are
  others : ∀ c ∈ s₀.childs n, c ∈ s.childs n ∨ Became n past c ∨ Lost n past
  -- what is still there has not become EMPTY, and what was lost never will
  present : ∀ c ∈ s.childs n, ¬ Became n past c
  lost : Lost n past → ∃ c ∈ s₀.childs n, c ∉ s.childs n ∧ ¬ Became n past c

theorem became_cons {k : Check State} {c : Ptr} : Became n (k :: past) c ↔
    (c ∈ k.before.childs n ∧ (k.before.heap c).len = .empty) ∨ Became n past c := by
  unfold Became
  rw [List.exists_mem_cons_iff]

theorem lost_cons {k : Check State} : Lost n (k :: past) ↔
    (∃ c ∈ k.before.childs n, k.before.isExit c = true ∧ (k.before.heap c).len ≠ .empty) ∨
      Lost n past := by
  unfold Lost
  rw [List.exists_mem_cons_iff]

/-- The children before a call. -/
theorem Remains.before (h : Remains n s₀ past s) (hr : PalRound n s t) {c : Ptr}
    (hc : c ∈ t.childs n) : c ∈ s.childs n ∧ t.type c = .leaf ∧
      ((t.heap c).len = .more ∨ (t.heap c).len = .empty) := by
  have hcs : c ∈ s.childs n := hr.childs ▸ hc
  obtain ⟨hleaf, hmore⟩ := h.leaf c hcs
  refine ⟨hcs, (hr.types c hcs).trans hleaf, ?_⟩
  rcases hr.len c hcs with hlen | hlen
  · exact Or.inl (hlen.trans hmore)
  · exact Or.inr hlen.2

/-- Whom the call deletes can be deleted. -/
theorem Remains.deletable (h : Remains n s₀ past s) (hr : PalRound n s t) :
    ∀ c ∈ t.childs n, (t.ended c && t.type c == .leaf) = true → t.Deletable c := by
  intro c hc hend
  rcases (Bool.or_eq_true _ _).mp ((Bool.and_eq_true _ _).mp hend).1 with hexit | hleaf
  · exact Or.inl hexit
  · refine hr.gone c hc (((h.before hr hc).2.2).resolve_left fun hmore => ?_)
    simp [hmore] at hleaf

/-- One call: who stays, and what it returns. -/
theorem Remains.call (h : Remains n s₀ past s) (hr : PalRound n s t) (hcall : Returns n t b u) :
    Flat u n ∧ u.type n = .pal ∧
      (∀ c, c ∈ u.childs n ↔ c ∈ t.childs n ∧ t.isExit c = false ∧ (t.heap c).len = .more) ∧
      (∀ c ∈ u.childs n, u.heap c = t.heap c) ∧
      (b = true ↔ (t.heap n).len = .empty ∨ ∀ c ∈ t.childs n, (t.heap c).len = .empty) ∧
      (b = true ↔ (u.heap n).len = .empty) := by
  have hpal : t.type n = .pal := hr.type.trans h.type
  obtain ⟨hk, hb, hlen⟩ := hcall.of_yields
    fun f hf => yields_palCorrect_flat hr.flat hpal (h.deletable hr) hf
  have hall : (∀ c ∈ t.childs n, t.emptyLeaf c = true) ↔
      ∀ c ∈ t.childs n, (t.heap c).len = .empty := by
    refine forall₂_congr fun c hc => ?_
    rw [State.emptyLeaf, show (t.heap c).type = .leaf from (h.before hr hc).2.1]
    simp
  rw [hall] at hb
  refine ⟨hk.flat, hk.type.trans hpal, fun c => ?_, fun c hc => hk.same c (hk.childs ▸ hc), hb, ?_⟩
  · rw [hk.childs, List.mem_filter]
    refine and_congr_right fun hc => ?_
    rw [State.ended, (h.before hr hc).2.1]
    simp
  · rw [hlen]
    cases b with
    | true => exact iff_of_true rfl rfl
    | false =>
      refine iff_of_false Bool.false_ne_true fun hcon => ?_
      exact Bool.false_ne_true (hb.mpr (Or.inl hcon))

/-- **What remains**, by induction over the rounds. -/
theorem palHistory_remains (h : PalHistory n s₀ past s) : Remains n s₀ past s := by
  induction h with
  | start hs =>
    refine ⟨hs.flat, hs.type, hs.leaf, fun _ hc => hc, fun _ hc => Or.inl hc, ?_, ?_⟩
    · simp [Became]
    · simp [Lost]
  | @check t u v past b _ hr hcall ih =>
    obtain ⟨hflat, htype, hmem, hsame, -, -⟩ := ih.call hr hcall
    have hsub : ∀ c ∈ v.childs n, c ∈ t.childs n :=
      fun c hc => hr.childs ▸ ((hmem c).mp hc).1
    refine ⟨hflat, htype, ?_, fun c hc => ih.sub c (hsub c hc), ?_, ?_, ?_⟩
    · intro c hc
      obtain ⟨hcu, -, hmore⟩ := (hmem c).mp hc
      rw [State.type, hsame c hc]
      exact ⟨(ih.before hr hcu).2.1, hmore⟩
    · intro c hc
      rw [became_cons, lost_cons]
      rcases ih.others c hc with hct | hb | hl
      · have hcu : c ∈ u.childs n := hr.childs ▸ hct
        rcases (ih.before hr hcu).2.2 with hmore | hempty
        · by_cases hexit : u.isExit c = true
          · exact Or.inr (Or.inr (Or.inl ⟨c, hcu, hexit, by simp [hmore]⟩))
          · exact Or.inl ((hmem c).mpr ⟨hcu, Bool.not_eq_true _ ▸ hexit, hmore⟩)
        · exact Or.inr (Or.inl (Or.inl ⟨hcu, hempty⟩))
      · exact Or.inr (Or.inl (Or.inr hb))
      · exact Or.inr (Or.inr (Or.inr hl))
    · intro c hc hb
      rcases became_cons.mp hb with ⟨-, hempty⟩ | hb
      · rw [((hmem c).mp hc).2.2] at hempty
        cases hempty
      · exact ih.present c (hsub c hc) hb
    · intro hl
      rcases lost_cons.mp hl with ⟨c, hcu, hexit, hne⟩ | hl
      · have hct : c ∈ t.childs n := hr.childs ▸ hcu
        refine ⟨c, ih.sub c hct, fun hcv => ?_, fun hb => ?_⟩
        · rw [((hmem c).mp hcv).2.1] at hexit
          cases hexit
        · rcases became_cons.mp hb with ⟨-, hempty⟩ | hb
          · exact hne hempty
          · exact ih.present c hct hb
      · obtain ⟨c, hc, hct, hnb⟩ := ih.lost hl
        refine ⟨c, hc, fun hcv => hct (hsub c hcv), fun hb => ?_⟩
        rcases became_cons.mp hb with ⟨hcu, -⟩ | hb
        · exact hct (hr.childs ▸ hcu)
        · exact hnb hb

/-- All children present become EMPTY only if nothing has been lost: then the call is right. -/
theorem Remains.right (h : Remains n s₀ past s) (hr : PalRound n s t) (hcall : Returns n t b u)
    (hend : Lost n past → ∃ c ∈ t.childs n, (t.heap c).len ≠ .empty)
    (hlen : (s.heap n).len = .empty ↔ ∀ c ∈ s₀.childs n, Became n past c) :
    b = true ↔ ∀ c ∈ s₀.childs n, Became n (⟨t, b, u⟩ :: past) c := by
  obtain ⟨-, -, -, -, hb, -⟩ := h.call hr hcall
  have hall : (∀ c ∈ t.childs n, (t.heap c).len = .empty) →
      ∀ c ∈ s₀.childs n, Became n (⟨t, b, u⟩ :: past) c := by
    intro hempty c hc
    rw [became_cons]
    rcases h.others c hc with hcs | hbec | hl
    · have hct : c ∈ t.childs n := hr.childs ▸ hcs
      exact Or.inl ⟨hct, hempty c hct⟩
    · exact Or.inr hbec
    · obtain ⟨c', hc', hne⟩ := hend hl
      exact absurd (hempty c' hc') hne
  rw [hb]
  constructor
  · rintro (hown | hempty)
    · rcases hr.own with hsame | ⟨-, hempty⟩
      · exact fun c hc => became_cons.mpr (Or.inr (hlen.mp (hsame ▸ hown) c hc))
      · exact hall hempty
    · exact hall hempty
  · intro hbec
    refine Or.inr fun c hc => ?_
    have hcs := (h.before hr hc).1
    rcases became_cons.mp (hbec c (h.sub c hcs)) with ⟨-, hempty⟩ | hpast
    · exact hempty
    · exact absurd hpast (h.present c hcs)

/-- As long as the history ends whole, the length of the node says whether all have become EMPTY. -/
theorem palHistory_len (h : PalHistory n s₀ past s) (hend : EndsWhole n past) :
    (s.heap n).len = .empty ↔ ∀ c ∈ s₀.childs n, Became n past c := by
  induction h with
  | start hs =>
    obtain ⟨c, hc⟩ := List.exists_mem_of_ne_nil _ hs.some_
    refine iff_of_false (by simp [hs.len]) fun hcon => ?_
    obtain ⟨k, hk, -⟩ := hcon c hc
    cases hk
  | @check t u v past b h hr hcall ih =>
    have hrem := palHistory_remains h
    have hlen := ih fun later k past' heq => hend (_ :: later) k past' (by rw [heq]; rfl)
    obtain ⟨-, -, -, -, -, hv⟩ := hrem.call hr hcall
    rw [← hv]
    exact hrem.right hr hcall (hend [] _ past rfl) hlen

theorem palRight_of_endsWhole (h : PalHistory n s₀ past s) (hend : EndsWhole n past) :
    PalRight n s₀ past := by
  have hcheck : ∀ later k earlier, past = later ++ k :: earlier →
      ∃ v, Remains n s₀ earlier v ∧ PalRound n v k.before ∧ Returns n k.before k.result k.after ∧
        Remains n s₀ (k :: earlier) k.after ∧
        (k.result = true ↔ ∀ c ∈ s₀.childs n, Became n (k :: earlier) c) := by
    rintro later k earlier rfl
    obtain ⟨v, hv, hr, hcall⟩ := h.prefix
    have hrem := palHistory_remains hv
    refine ⟨v, hrem, hr, hcall, palHistory_remains (hv.check hr hcall), ?_⟩
    refine hrem.right hr hcall (hend later k earlier rfl) (palHistory_len hv ?_)
    exact fun later' k' past' heq =>
      hend (later ++ k :: later') k' past' (by rw [heq, List.append_assoc]; rfl)
  constructor
  · intro later k earlier heq
    obtain ⟨-, -, -, -, -, hresult⟩ := hcheck later k earlier heq
    exact hresult
  · intro later k' k earlier heq hsame
    obtain ⟨-, -, -, -, -, hresult'⟩ := hcheck later k' (k :: earlier) heq
    obtain ⟨-, -, -, -, hrem, hresult⟩ := hcheck (later ++ [k']) k earlier (by simp [heq])
    -- nobody present is EMPTY after a call
    have hbec : ∀ c, Became n (k' :: k :: earlier) c ↔ Became n (k :: earlier) c := by
      intro c
      rw [became_cons]
      refine or_iff_right ?_
      rintro ⟨hc, hempty⟩
      rw [hsame] at hc hempty
      rw [(hrem.leaf c hc).2] at hempty
      cases hempty
    rw [Bool.eq_iff_iff, hresult', hresult]
    exact forall₂_congr fun c _ => hbec c
  · intro k hk c hc hgone
    obtain ⟨later, earlier, heq⟩ := List.append_of_mem hk
    obtain ⟨v, hrem, hr, hcall, -, -⟩ := hcheck later k earlier heq
    obtain ⟨-, -, hmem, -, -, -⟩ := hrem.call hr hcall
    rcases (hrem.before hr hc).2.2 with hmore | hempty
    · refine Or.inl ?_
      by_contra hexit
      exact hgone ((hmem c).mpr ⟨hc, Bool.not_eq_true _ ▸ hexit, hmore⟩)
    · exact Or.inr hempty

theorem endsWhole_of_palRight (h : PalHistory n s₀ past s) (hright : PalRight n s₀ past) :
    EndsWhole n past := by
  rintro later k earlier rfl hlost
  obtain ⟨v, hv, hr, hcall⟩ := h.prefix
  have hrem := palHistory_remains hv
  by_contra hno
  have hempty : ∀ c ∈ k.before.childs n, (k.before.heap c).len = .empty := by
    intro c hc
    by_contra hne
    exact hno ⟨c, hc, hne⟩
  obtain ⟨-, -, -, -, hb, -⟩ := hrem.call hr hcall
  obtain ⟨c, hc, hcv, hnb⟩ := hrem.lost hlost
  have hbec := (hright.result later k earlier rfl).mp (hb.mpr (Or.inr hempty)) c hc
  rcases became_cons.mp hbec with ⟨hck, -⟩ | hpast
  · exact hcv (hr.childs ▸ hck)
  · exact hnb hpast

/-- The call returns, and nothing need happen before it. -/
theorem Remains.returns (h : Remains n s₀ past s) (hr : PalRound n s t) :
    ∃ b u, Returns n t b u := by
  obtain ⟨b, es, u, hev, -⟩ := yields_palCorrect_flat hr.flat (hr.type.trans h.type)
    (h.deletable hr) (Nat.lt_succ_self _)
  exact ⟨b, u, _, es, Nat.lt_succ_self _, hev⟩

theorem Remains.idle (h : Remains n s₀ past s) : PalRound n s s :=
  ⟨⟨h.flat, rfl, rfl, fun _ _ => rfl, fun _ _ => Or.inl rfl, Or.inl rfl, fun _ _ => id⟩,
    fun c hc hempty => absurd ((h.leaf c hc).2.symm.trans hempty) (by simp)⟩

/-- **PAL completion over its whole history.**  Every call returns, and what they return is right
    exactly when no child has been lost before the last ones become EMPTY. -/
theorem pal_history_iff (h : PalHistory n s₀ past s) :
    (∀ t, PalRound n s t → ∃ b u, Returns n t b u) ∧
      (PalRight n s₀ past ↔ EndsWhole n past) :=
  ⟨fun _ hr => (palHistory_remains h).returns hr, endsWhole_of_palRight h, palRight_of_endsWhole h⟩

end

/-! ## setNodeLength makes a round -/

/-- A leaf child becomes EMPTY: the write. -/
theorem palChange_edit {n c : Ptr} {s : State} (h : Flat s n) (hmore : (s.heap c).len = .more)
    (hc : c ∈ s.childs n) : PalChange n s ((Label.edit c (.len .empty)).apply s) := by
  have htype := (sameMap_edit s c (.len .empty)).type
  have hnc : n ≠ c := by
    rintro rfl
    exact h.own hc
  refine ⟨h.edit c _, htype n, edit_childs s c _ n, fun x _ => htype x, fun x _ => ?_,
    Or.inl (congrArg Node.len (if_neg hnc)), fun x _ => (deletable_edit s c _ x).mpr⟩
  by_cases hx : x = c
  · subst hx
    exact Or.inr ⟨hmore, congrArg Node.len (if_pos rfl)⟩
  · exact Or.inl (congrArg Node.len (if_neg hx))

/-- The node itself is written, and rightly so. -/
theorem PalChange.own_edit {n : Ptr} {s t : State} {e : Edit} (h : PalChange n s t)
    (he : (∃ r, e = .leaf r) ∨ e = .len .empty ∧ ∀ c ∈ t.childs n, (t.heap c).len = .empty) :
    PalChange n s ((Label.edit n e).apply t) := by
  have hoff : ∀ c ∈ t.childs n, ((Label.edit n e).apply t).heap c = t.heap c := by
    intro c hc
    rw [apply_edit]
    refine if_neg ?_
    rintro rfl
    exact h.flat.own hc
  have htype := (sameMap_edit t n e).type
  refine ⟨h.flat.edit n e, (htype n).trans h.type, (edit_childs t n e n).trans h.childs,
    fun c hc => (htype c).trans (h.types c hc), fun c hc => ?_, ?_,
    fun c hc hdel => (deletable_edit t n e c).mpr (h.fate c hc hdel)⟩
  · rw [hoff c (h.childs ▸ hc)]
    exact h.len c hc
  · rw [edit_childs]
    have hkeep : (∀ c ∈ t.childs n, (t.heap c).len = .empty) →
        ∀ c ∈ t.childs n, (((Label.edit n e).apply t).heap c).len = .empty := by
      intro hempty c hc
      rw [hoff c hc]
      exact hempty c hc
    rcases he with ⟨r, rfl⟩ | ⟨rfl, hempty⟩
    · rw [show (((Label.edit n (.leaf r)).apply t).heap n).len = (t.heap n).len from
        edit_field (g := Node.len) (fun _ => rfl) n]
      exact h.own.imp id fun hown => ⟨hown.1, hkeep hown.2⟩
    · exact Or.inr ⟨congrArg Node.len (if_pos rfl), hkeep hempty⟩

/-- A leaf child ends its interval. -/
theorem palChange_setNodeLength {n c : Ptr} {s : State} (h : Flat s n) (hpal : s.type n = .pal)
    (hc : c ∈ s.childs n) (hfather : s.father c = some n)
    (hleaf : ∀ x ∈ s.childs n, s.type x = .leaf ∧ (s.heap x).len ≠ .none)
    (hmore : (s.heap c).len = .more) (f : Nat) :
    Spec Label.apply (fun _ _ => True) (fun _ => True) (setNodeLength f (s.thread c) .empty) s
      fun _ t => PalChange n s t ∧
        ∀ x ∈ s.childs n, t.heap x = ((Label.edit c (.len .empty)).apply s).heap x := by
  have hround := palChange_edit h hmore hc
  rw [setNodeLength]
  refine Spec.get ?_
  rw [show s.threadIDToNode (s.thread c) = some c from h.reg c hc]
  refine Spec.act_bind trivial ?_
  rw [show (s.heap c).father = some n from hfather]
  dsimp only
  rw [show (s.heap n).type = .pal from hpal]
  generalize hu : (Label.edit c (.len .empty)).apply s = u at hround ⊢
  -- no child is NONE
  have hnone : ∀ x ∈ u.childs n, ((u.heap x).len == .none) = false := by
    intro x hx
    have hxs : x ∈ s.childs n := hround.childs ▸ hx
    rw [beq_eq_false_iff_ne]
    rcases hround.len x hxs with hlen | ⟨-, hlen⟩
    · rw [hlen]
      exact (hleaf x hxs).2
    · rw [hlen]
      simp
  have hzero : ((u.childs n).countP fun x => (u.heap x).len == .none) = 0 := by
    rw [List.countP_eq_zero]
    intro x hx
    simp [hnone x hx]
  have hpos : (u.childs n).length ≠ 0 := by
    rw [hround.childs]
    exact fun hnil => List.not_mem_nil (List.length_eq_zero_iff.mp hnil ▸ hc)
  rw [setPalLen]
  refine Spec.get ?_
  show Spec _ _ _ (if ((u.childs n).countP fun x => (u.heap x).len == .none) = (u.childs n).length
    then _ else if (u.childs n).countP u.emptyLeaf +
      ((u.childs n).countP fun x => (u.heap x).len == .none) = (u.childs n).length then _ else _) _ _
  rw [hzero, if_neg (Ne.symm hpos), Nat.add_zero]
  split
  · next hall =>
    have hempty : ∀ x ∈ u.childs n, (u.heap x).len = .empty := by
      rw [List.countP_eq_length] at hall
      exact fun x hx => (type_of_emptyLeaf (hall x hx)).1
    refine Spec.act_bind trivial (Spec.act trivial
      ⟨(hround.own_edit (Or.inr ⟨rfl, hempty⟩)).own_edit (Or.inl ⟨true, rfl⟩), fun x hx => ?_⟩)
    have hxn : x ≠ n := fun heq => h.own (heq ▸ hx)
    have hoff : ∀ (v : State) (e : Edit), ((Label.edit n e).apply v).heap x = v.heap x := by
      intro v e
      rw [apply_edit]
      exact if_neg hxn
    rw [hoff, hoff]
  · exact Spec.pure ⟨hround, fun _ _ => rfl⟩

/-- The thread exits. -/
theorem PalChange.exit {n : Ptr} {s t : State} (h : PalChange n s t) (id : Tid) :
    PalChange n s ((Label.exit id).apply t) :=
  ⟨⟨h.flat.composite, h.flat.terminal, h.flat.reg, h.flat.bare, h.flat.nodup, h.flat.root⟩,
    h.type, h.childs, h.types, h.len, h.own, fun c hc hdel => deletable_exit id (h.fate c hc hdel)⟩

/-- **A leaf child that ends its interval and exits makes a round.** -/
theorem palRound_ends {n c : Ptr} {s : State} (h : Flat s n) (hpal : s.type n = .pal)
    (hc : c ∈ s.childs n) (hfather : s.father c = some n)
    (hleaf : ∀ x ∈ s.childs n, s.type x = .leaf ∧ (s.heap x).len ≠ .none)
    (hmore : (s.heap c).len = .more)
    (hgone : ∀ x ∈ s.childs n, (s.heap x).len = .empty → s.Deletable x) (f : Nat) :
    Spec Label.apply (fun _ _ => True) (fun _ => True) (do
      setNodeLength f (s.thread c) .empty
      act (.exit (s.thread c))) s fun _ t => PalRound n s t := by
  refine Spec.bind (palChange_setNodeLength h hpal hc hfather hleaf hmore f) ?_
  rintro _ t - ⟨hchange, hheap⟩
  refine Spec.act trivial ⟨hchange.exit _, fun x hx hempty => ?_⟩
  replace hx : x ∈ s.childs n := hchange.childs ▸ (show x ∈ t.childs n from hx)
  replace hheap := hheap x hx
  by_cases hxc : x = c
  · subst hxc
    refine Or.inl ((Bool.or_eq_true _ _).mpr (Or.inr ?_))
    show Function.update t.exited (s.thread x) true (t.heap x).thread = true
    rw [hheap, show ((Label.edit x (.len .empty)).apply s).heap x =
      { s.heap x with len := .empty } from if_pos rfl]
    exact Function.update_self _ _ _
  · replace hheap : t.heap x = s.heap x := hheap.trans (if_neg hxc)
    have hold : (s.heap x).len = .empty := hheap ▸ (show (t.heap x).len = .empty from hempty)
    exact deletable_exit _ (hchange.fate x hx (hgone x hx hold))

/-- A PAL root with two threads under it. -/
def palTwo : State := newThread (newThread (newRoot (start 1 plain) .pal) 0 2) 0 3

theorem palTwo_start : PalStart 0 palTwo :=
  ⟨⟨by decide, by decide, by decide, by decide, by decide, by decide⟩, by decide, by decide,
    by decide, by decide⟩

/-- One thread exits without having ended its interval, the other ends it and exits. -/
def palTwoRound : State :=
  (Label.exit 3).apply ((Label.edit 2 (.len .empty)).apply ((Label.exit 2).apply palTwo))

theorem palTwo_round : PalRound 0 palTwo palTwoRound := by
  refine ⟨⟨⟨?_, ?_, ?_, ?_, ?_, ?_⟩, ?_, ?_, ?_, ?_, ?_, ?_⟩, ?_⟩ <;> decide

/-- The history of one call. -/
theorem pal_history_palTwo : ∃ k : Check State, k.before = palTwoRound ∧
    (∀ t, PalRound 0 k.after t → ∃ b u, Returns 0 t b u) ∧
      (PalRight 0 palTwo [k] ↔ EndsWhole 0 [k]) := by
  have hstart : PalHistory 0 palTwo [] palTwo := .start palTwo_start
  obtain ⟨b, u, hcall⟩ := (palHistory_remains hstart).returns palTwo_round
  exact ⟨⟨palTwoRound, b, u⟩, rfl, pal_history_iff (hstart.check palTwo_round hcall)⟩

/-- The second call says that both have ended. -/
theorem lost_child_forgotten :
    ¬ ∀ (n : Ptr) (s₀ s : State) (past : List (Check State)), PalHistory n s₀ past s →
      PalRight n s₀ past := by
  intro hall
  have hstart : PalHistory 0 palTwo [] palTwo := .start palTwo_start
  have hrem := palHistory_remains hstart
  obtain ⟨b, u, hcall⟩ := hrem.returns palTwo_round
  have hfirst := hstart.check palTwo_round hcall
  have hrem' := palHistory_remains hfirst
  obtain ⟨b', u', hcall'⟩ := hrem'.returns hrem'.idle
  have hsecond := hfirst.check hrem'.idle hcall'
  have hlost : Lost 0 [⟨palTwoRound, b, u⟩] :=
    ⟨_, List.mem_cons_self, 1, (by decide : 1 ∈ palTwoRound.childs 0 ∧
      palTwoRound.isExit 1 = true ∧ (palTwoRound.heap 1).len ≠ .empty)⟩
  obtain ⟨c, hc, -⟩ := endsWhole_of_palRight hsecond (hall _ _ _ _ hsecond) [] _ _ rfl hlost
  -- but nobody is left after the first call
  obtain ⟨-, -, hmem, -, -, -⟩ := hrem.call palTwo_round hcall
  have hnobody : ∀ c ∈ palTwoRound.childs 0,
      ¬ (palTwoRound.isExit c = false ∧ (palTwoRound.heap c).len = .more) := by decide
  exact hnobody c ((hmem c).mp hc).1 ((hmem c).mp hc).2

end Msvl.Function
