/-
  `childs[i] = getNewNode(child)`: the object of a node is replaced.

  The new object is built for the same thread: it takes over the id, the mutex and the cond, and its
  children get it as their father.  The old object is not registered any more.  It was in one slot of
  its father (`once`), so it is gone from the vector when that slot is overwritten; its own vector is
  emptied when the new node is a leaf, and that is the only way to replace an AND, PAL or PRJ node
  (`newType`), so those never point to children that are not theirs (`held`).
-/
import LibMSVL.Function.Build

namespace Msvl.Function

/-- The children that are handed on. -/
theorem mem_kept {s : State} {n c : Ptr} :
    c ∈ kept s n ↔ s.newType n ≠ .leaf ∧ ∃ j, s.At n j c := by
  unfold kept
  split
  · next hl => simp [hl]
  · next hl => simp [hl, State.at_iff_mem]

/-- The node `n` in slot `i` of its father `owner` is replaced. -/
structure Slot (s : State) (owner : Ptr) (i : Nat) (n : Ptr) : Prop where
  at_ : s.At owner i n
  reg : s.Reg n
  father : s.father n = some owner

section

variable {s t : State} {owner n : Ptr} {i : Nat} (h : Inv s) (hs : Slot s owner i n)

include h hs

/-- The owner is older than what is in its slot. -/
theorem Slot.lt : owner < s.next ∧ n < s.next ∧ owner ≠ n ∧ s.birth owner < s.birth n := by
  have hn := h.alloc hs.reg
  obtain ⟨ho, hb⟩ := h.up n hn owner hs.father
  refine ⟨ho, hn, ?_, hb⟩
  rintro rfl
  exact Nat.lt_irrefl _ hb

theorem Slot.not_root : s.threadRoot ≠ some n := by
  intro hr
  have hf := (h.root n hr).2
  rw [hs.father] at hf
  cases hf

/-- The children that are handed on. -/
theorem Slot.kept {c : Ptr} (hc : c ∈ kept s n) :
    s.Reg c ∧ s.father c = some n ∧ s.birth n < s.birth c ∧ ∀ j, ¬ s.At owner j c := by
  obtain ⟨-, j, hj⟩ := mem_kept.mp hc
  exact h.child hs.reg hs.father hj

omit h hs in
theorem replace_thread (x : Ptr) : ((Label.replace owner i n).apply s).thread x =
    if x = s.next then s.thread n else s.thread x :=
  replace_field s owner i n x (g := Node.thread) (fun _ _ => rfl) (fun _ _ => rfl)
    (fun _ _ => rfl) fun _ _ _ => rfl

omit h in
/-- The new object is registered in place of the old one. -/
theorem replace_reg (x : Ptr) : ((Label.replace owner i n).apply s).Reg x ↔
    x = s.next ∨ s.Reg x ∧ x ≠ n := by
  have hthread : (((Label.replace owner i n).apply s).heap x).thread = _ := replace_thread x
  unfold State.Reg
  rw [replace_map, hthread]
  by_cases hx : x = s.next
  · simp [hx]
  · rw [if_neg hx, Function.update_apply]
    have hreg : s.threadIDToNode (s.thread n) = some n := hs.reg
    split
    · next heq =>
      rw [show (s.heap x).thread = s.thread n from heq, hreg]
      simp [hx, eq_comm]
    · next hne =>
      have hxn : x ≠ n := by
        rintro rfl
        exact hne rfl
      simp [hx, hxn]

/-- The vectors: the slot has the new object, which has the children handed on, as the old one has.
    -/
theorem replace_at (G : Ptr) (j : Nat) (x : Ptr) : ((Label.replace owner i n).apply s).At G j x ↔
    if G = owner then j = i ∧ x = s.next ∨ j ≠ i ∧ s.At owner j x
    else if G = s.next ∨ G = n then s.newType n ≠ .leaf ∧ s.At n j x
    else s.At G j x := by
  obtain ⟨ho, -, hne, -⟩ := hs.lt h
  unfold State.At
  rw [replace_childs s owner i n G hne]
  split
  · rw [if_neg (Nat.ne_of_lt ho), List.getElem?_set]
    have hlen : i < (s.childs owner).length := by
      have hat := hs.at_
      exact (List.getElem?_eq_some_iff.mp hat).1
    by_cases hji : j = i
    · subst hji
      simp [hlen, eq_comm]
    · simp [hji, Ne.symm hji]
  · split
    · unfold Function.kept
      split
      · next hl => simp [hl]
      · next hl => simp [hl]
    · rfl

/-! ## The links -/

theorem Slot.not_kept : n ∉ Function.kept s n := by
  intro hk
  have hf := (hs.kept h hk).2.1
  rw [hs.father] at hf
  cases hf
  exact (hs.lt h).2.2.1 rfl

theorem Slot.kept_old {x : Ptr} (hx : x ∈ Function.kept s n) :
    x < s.next ∧ s.Reg x ∧ s.father x = some n ∧ s.birth n < s.birth x ∧ ∀ j, ¬ s.At owner j x :=
  ⟨h.alloc (hs.kept h hx).1, hs.kept h hx⟩

theorem Slot.next_not_kept : s.next ∉ Function.kept s n :=
  fun hk => Nat.lt_irrefl _ (hs.kept_old h hk).1

/-- The node `n` in slot `i` of `owner` has been replaced by one at `s.next`. -/
structure Replaced (s t : State) (owner n : Ptr) (i : Nat) : Prop where
  next : t.next = s.next + 1
  nextLock : t.nextLock = s.nextLock
  births : t.births = s.births
  map : t.threadIDToNode = Function.update s.threadIDToNode (s.thread n) (some s.next)
  main : t.mainThread = s.mainThread
  changed : t.changedNode = s.changedNode
  prj : t.prjNode = s.prjNode
  threadRoot : t.threadRoot = s.threadRoot
  keepChilds : t.keepChilds = s.keepChilds
  keepPos : t.keepPos = s.keepPos
  reg : ∀ x, t.Reg x ↔ x = s.next ∨ s.Reg x ∧ x ≠ n
  at_ : ∀ G j x, t.At G j x ↔
    if G = owner then j = i ∧ x = s.next ∨ j ≠ i ∧ s.At owner j x
    else if G = s.next ∨ G = n then s.newType n ≠ .leaf ∧ s.At n j x
    else s.At G j x
  father : ∀ x, t.father x =
    if x ∈ kept s n then some s.next else if x = s.next then some owner else s.father x
  thread : ∀ x, t.thread x = if x = s.next then s.thread n else s.thread x
  birth : ∀ x, t.birth x = if x = s.next then s.birth n else s.birth x
  type : ∀ x, t.type x = if x = s.next then s.newType n else s.type x
  newType : ∀ x, t.newType x = if x = s.next then s.newType n else s.newType x
  mutex : ∀ x, (t.heap x).mutex =
    if x = n then none else if x = s.next then (s.heap n).mutex else (s.heap x).mutex
  cond : ∀ x, (t.heap x).cond =
    if x = n then none else if x = s.next then (s.heap n).cond else (s.heap x).cond

theorem replaced : Replaced s ((Label.replace owner i n).apply s) owner n i where
  next := replace_global s owner i n fun _ _ _ => rfl
  nextLock := replace_global s owner i n fun _ _ _ => rfl
  births := replace_global s owner i n fun _ _ _ => rfl
  map := replace_map s owner i n
  main := replace_global s owner i n fun _ _ _ => rfl
  changed := replace_global s owner i n fun _ _ _ => rfl
  prj := replace_global s owner i n fun _ _ _ => rfl
  threadRoot := replace_global s owner i n fun _ _ _ => rfl
  keepChilds := replace_global s owner i n fun _ _ _ => rfl
  keepPos := replace_global s owner i n fun _ _ _ => rfl
  reg := replace_reg hs
  at_ := replace_at h hs
  father x := by rw [replace_father, hs.father]
  thread := replace_thread
  birth x := replace_field s owner i n x (g := Node.birth) (fun _ _ => rfl) (fun _ _ => rfl)
    (fun _ _ => rfl) fun _ _ _ => rfl
  type x := replace_field s owner i n x (g := Node.type) (fun _ _ => rfl) (fun _ _ => rfl)
    (fun _ _ => rfl) fun _ _ _ => rfl
  newType x := replace_field s owner i n x (g := Node.newType) (fun _ _ => rfl) (fun _ _ => rfl)
    (fun _ _ => rfl) fun _ _ _ => rfl
  mutex x := replace_lock s owner i n x (g := Node.mutex) (fun _ _ => rfl) (fun _ _ => rfl)
    (fun _ _ => rfl) fun _ => rfl
  cond x := replace_lock s owner i n x (g := Node.cond) (fun _ _ => rfl) (fun _ _ => rfl)
    (fun _ _ => rfl) fun _ => rfl

end

namespace Replaced

section

variable {s t : State} {owner n : Ptr} {i : Nat} (hr : Replaced s t owner n i)

include hr

theorem pending : t.pending = s.pending := by
  unfold State.pending
  rw [hr.keepChilds, hr.keepPos]

theorem lt_or {x : Ptr} (hx : x < t.next) : x = s.next ∨ x < s.next := by
  rw [hr.next] at hx
  rcases Nat.lt_or_ge x s.next with hlt | hge
  · exact Or.inr hlt
  · exact Or.inl (Nat.le_antisymm (Nat.le_of_lt_succ hx) hge)

theorem old {x : Ptr} (hx : x < s.next) : x < t.next ∧ t.birth x = s.birth x ∧ x ≠ s.next := by
  rw [hr.next, hr.birth, if_neg (Nat.ne_of_lt hx)]
  exact ⟨Nat.lt_succ_of_lt hx, rfl, Nat.ne_of_lt hx⟩

/-- The new object is as old as the one it replaces: it has the same thread. -/
theorem birth_new : t.birth s.next = s.birth n := by rw [hr.birth, if_pos rfl]

/-- An old object that is not handed on keeps its father. -/
theorem stay {x : Ptr} (hx : x < s.next) (hk : x ∉ kept s n) : t.father x = s.father x := by
  rw [hr.father, if_neg hk, if_neg (Nat.ne_of_lt hx)]

/-- It is where it was, but for the slot that is overwritten. -/
theorem back {G x : Ptr} {j : Nat} (hG : G < s.next) (hx : x < s.next) (hk : x ∉ kept s n)
    (hat : t.At G j x) : s.At G j x ∧ (G = owner → j ≠ i) := by
  rw [hr.at_] at hat
  split at hat
  · next hGo =>
    rcases hat with ⟨-, rfl⟩ | ⟨hji, hat⟩
    · exact absurd hx (Nat.lt_irrefl _)
    · exact ⟨hGo ▸ hat, fun _ => hji⟩
  · next hGo =>
    refine ⟨?_, fun hGo' => absurd hGo' hGo⟩
    split at hat
    · next hGn =>
      rcases hGn with rfl | rfl
      · exact absurd hG (Nat.lt_irrefl _)
      · exact absurd (mem_kept.mpr ⟨hat.1, j, hat.2⟩) hk
    · exact hat

variable (h : Inv s) (hs : Slot s owner i n)

include h hs

/-- What is new is below the father of the old object, what is handed on below the new one. -/
theorem up : ∀ x < t.next, ∀ F, t.father x = some F → F < t.next ∧ t.birth F < t.birth x := by
  obtain ⟨ho, hn, hne, hob⟩ := hs.lt h
  intro m hm G hG
  rcases hr.lt_or hm with rfl | hm'
  · rw [hr.father, if_neg (hs.next_not_kept h), if_pos rfl] at hG
    cases hG
    rw [hr.birth_new, (hr.old ho).2.1]
    exact ⟨(hr.old ho).1, hob⟩
  · rw [(hr.old hm').2.1]
    by_cases hk : m ∈ kept s n
    · rw [hr.father, if_pos hk] at hG
      cases hG
      rw [hr.birth_new, hr.next]
      exact ⟨Nat.lt_succ_self _, (hs.kept_old h hk).2.2.2.1⟩
    · rw [hr.stay hm' hk] at hG
      obtain ⟨hG', hb⟩ := h.up m hm' G hG
      rw [(hr.old hG').2.1]
      exact ⟨(hr.old hG').1, hb⟩

/-- Children are younger still: births have not changed. -/
theorem down : ∀ G < t.next, ∀ j c, t.At G j c → c < t.next ∧ t.birth G < t.birth c ∧
    ∀ F, t.father c = some F → t.birth F ≤ t.birth G := by
  obtain ⟨ho, hn, hne, hob⟩ := hs.lt h
  intro G hG j c hc
  have hc' := hc
  rw [hr.at_] at hc'
  split at hc'
  · next hGo =>
    subst hGo
    rw [(hr.old ho).2.1]
    rcases hc' with ⟨-, rfl⟩ | ⟨hji, hc'⟩
    · rw [hr.birth_new, hr.next, hr.father, if_neg (hs.next_not_kept h), if_pos rfl]
      refine ⟨Nat.lt_succ_self _, hob, ?_⟩
      intro F' hF'
      cases hF'
      exact Nat.le_of_eq (hr.old ho).2.1
    · obtain ⟨hcl, hb, hle⟩ := h.down G ho j c hc'
      rw [(hr.old hcl).2.1, hr.stay hcl fun hk => (hs.kept_old h hk).2.2.2.2 j hc']
      refine ⟨(hr.old hcl).1, hb, ?_⟩
      intro F' hF'
      rw [(hr.old (h.up c hcl F' hF').1).2.1]
      exact hle F' hF'
  · split at hc'
    · next hGn =>
      have hk := mem_kept.mpr ⟨hc'.1, j, hc'.2⟩
      obtain ⟨hcl, -, -, hb, -⟩ := hs.kept_old h hk
      have hGb : t.birth G = s.birth n := by
        rcases hGn with rfl | rfl
        · exact hr.birth_new
        · exact (hr.old hn).2.1
      rw [hGb, (hr.old hcl).2.1, hr.father, if_pos hk]
      refine ⟨(hr.old hcl).1, hb, ?_⟩
      intro F' hF'
      cases hF'
      exact Nat.le_of_eq hr.birth_new
    · next hGn =>
      have hG' := (hr.lt_or hG).resolve_left fun heq => hGn (Or.inl heq)
      obtain ⟨hcl, hb, hle⟩ := h.down G hG' j c hc'
      rw [(hr.old hG').2.1, (hr.old hcl).2.1]
      refine ⟨(hr.old hcl).1, hb, ?_⟩
      intro F' hF'
      by_cases hk : c ∈ kept s n
      · rw [hr.father, if_pos hk] at hF'
        cases hF'
        rw [hr.birth_new]
        exact hle n (hs.kept_old h hk).2.2.1
      · rw [hr.stay hcl hk] at hF'
        rw [(hr.old (h.up c hcl F' hF').1).2.1]
        exact hle F' hF'

/-- The old object keeps no children: only a leaf can replace a composite node. -/
theorem held (hopen : s.Open n) :
    ∀ x < t.next, t.Held x → ∀ j c, t.At x j c → t.Reg c ∧ t.father c = some x := by
  obtain ⟨ho, hn, hne, hob⟩ := hs.lt h
  intro x hx hheld j c hc
  rw [hr.reg, hr.father]
  rw [hr.at_] at hc
  rcases hr.lt_or hx with rfl | hx'
  · rw [if_neg (Ne.symm (hr.old ho).2.2), if_pos (Or.inl rfl)] at hc
    have hk := mem_kept.mpr ⟨hc.1, j, hc.2⟩
    obtain ⟨hcl, hcr, hcf, -, -⟩ := hs.kept_old h hk
    refine ⟨Or.inr ⟨hcr, ?_⟩, if_pos hk⟩
    rintro rfl
    exact hs.not_kept h hk
  · by_cases hxn : x = n
    · subst hxn
      rw [if_neg (Ne.symm hne), if_pos (Or.inr rfl)] at hc
      -- the old object has no children: only a leaf can replace a composite node
      have hcomp : (s.type x).Composite := by
        rcases hheld with hheld | hheld
        · rw [hr.reg] at hheld
          rcases hheld with heq | hheld
          · exact absurd heq (hr.old hx').2.2
          · exact absurd rfl hheld.2
        · rwa [hr.type, if_neg (hr.old hx').2.2] at hheld
      rcases h.newType x hs.reg (hs.not_root h) hcomp with heq | heq
      · exact absurd heq.symm hopen
      · exact absurd heq hc.1
    · have hheld' : s.Held x := by
        unfold State.Held at hheld ⊢
        rw [hr.reg, hr.type, if_neg (hr.old hx').2.2] at hheld
        rcases hheld with (heq | ⟨hxr, -⟩) | hcomp
        · exact absurd heq (hr.old hx').2.2
        · exact Or.inl hxr
        · exact Or.inr hcomp
      by_cases hxo : x = owner
      · subst hxo
        rw [if_pos rfl] at hc
        rcases hc with ⟨-, rfl⟩ | ⟨hji, hc⟩
        · exact ⟨Or.inl rfl, by rw [if_neg (hs.next_not_kept h), if_pos rfl]⟩
        · obtain ⟨hcr, hcf⟩ := h.held x hx' hheld' j c hc
          refine ⟨Or.inr ⟨hcr, ?_⟩, ?_⟩
          · rintro rfl
            exact hji (h.once c hn x hs.father j i hc hs.at_)
          · rw [if_neg fun hk => (hs.kept_old h hk).2.2.2.2 j hc,
              if_neg (hr.old (h.alloc hcr)).2.2]
            exact hcf
      · rw [if_neg hxo,
          if_neg (by rintro (heq | heq); exacts [(hr.old hx').2.2 heq, hxn heq])] at hc
        obtain ⟨hcr, hcf⟩ := h.held x hx' hheld' j c hc
        refine ⟨Or.inr ⟨hcr, ?_⟩, ?_⟩
        · rintro rfl
          rw [hs.father] at hcf
          cases hcf
          exact hxo rfl
        · rw [if_neg, if_neg (hr.old (h.alloc hcr)).2.2]
          · exact hcf
          · intro hk
            rw [(hs.kept_old h hk).2.2.1] at hcf
            cases hcf
            exact hxn rfl

/-- The new object is in the slot of the old one, and nowhere else. -/
theorem once : ∀ x < t.next, ∀ F, t.father x = some F → ∀ j k, t.At F j x → t.At F k x → j = k := by
  obtain ⟨ho, hn, hne, hob⟩ := hs.lt h
  intro x hx G hG j k hj hk
  rcases hr.lt_or hx with rfl | hx'
  · rw [hr.father, if_neg (hs.next_not_kept h), if_pos rfl] at hG
    cases hG
    rw [hr.at_, if_pos rfl] at hj hk
    rcases hj with ⟨rfl, -⟩ | ⟨-, hj⟩
    · rcases hk with ⟨rfl, -⟩ | ⟨-, hk⟩
      · rfl
      · exact absurd hk (h.fresh ho k)
    · exact absurd hj (h.fresh ho j)
  · by_cases hxk : x ∈ kept s n
    · rw [hr.father, if_pos hxk] at hG
      cases hG
      rw [hr.at_, if_neg (Ne.symm (hr.old ho).2.2), if_pos (Or.inl rfl)] at hj hk
      exact h.once x hx' n (hs.kept_old h hxk).2.2.1 j k hj.2 hk.2
    · rw [hr.stay hx' hxk] at hG
      have hG' := (h.up x hx' G hG).1
      exact h.once x hx' G hG j k (hr.back hG' hx' hxk hj).1 (hr.back hG' hx' hxk hk).1

/-- The old object is gone from its slot. -/
theorem gone : ∀ x < t.next, ¬ t.Reg x → ∀ F, t.father x = some F → ∀ j, ¬ t.At F j x := by
  intro x hx hxreg G hG j hj
  rw [hr.reg, not_or] at hxreg
  have hx' := (hr.lt_or hx).resolve_left hxreg.1
  have hxk : x ∉ kept s n := by
    intro hk
    refine hxreg.2 ⟨(hs.kept_old h hk).2.1, ?_⟩
    rintro rfl
    exact hs.not_kept h hk
  rw [hr.stay hx' hxk] at hG
  obtain ⟨hj', hji⟩ := hr.back (h.up x hx' G hG).1 hx' hxk hj
  by_cases hxr : s.Reg x
  · have hxn : x = n := by
      by_contra hxn
      exact hxreg.2 ⟨hxr, hxn⟩
    subst hxn
    rw [hs.father] at hG
    cases hG
    exact hji rfl (h.once x hx' owner hs.father j i hj' hs.at_)
  · exact h.gone x hx' hxr G hG j hj'

/-- What waits is not among the children handed on. -/
theorem pend : ∀ c ∈ t.pending, t.Reg c ∧ ∃ F, t.father c = some F ∧ ∀ j, ¬ t.At F j c := by
  intro c hc
  rw [hr.pending] at hc
  obtain ⟨hcr, F, hF, hno⟩ := h.pend c hc
  have hcl := h.alloc hcr
  have hck : c ∉ kept s n := by
    intro hk
    rw [(hs.kept_old h hk).2.2.1] at hF
    cases hF
    obtain ⟨-, j, hj⟩ := mem_kept.mp hk
    exact hno j hj
  rw [hr.reg, hr.stay hcl hck]
  refine ⟨Or.inr ⟨hcr, ?_⟩, F, hF, ?_⟩
  · rintro rfl
    rw [hs.father] at hF
    cases hF
    exact hno i hs.at_
  · exact fun j hj => hno j (hr.back (h.up c hcl F hF).1 hcl hck hj).1

/-- The new object stands in the slot, what is handed on in the new object. -/
theorem att : ∀ x, t.Reg x → ∀ F, t.father x = some F → t.Reg F →
    (∃ j, t.At F j x) ∨ x ∈ t.pending := by
  obtain ⟨ho, hn, hne, hob⟩ := hs.lt h
  intro x hx G hG hGreg
  rw [hr.pending]
  rcases (hr.reg x).mp hx with rfl | ⟨hxr, hxn⟩
  · rw [hr.father, if_neg (hs.next_not_kept h), if_pos rfl] at hG
    cases hG
    exact Or.inl ⟨i, (hr.at_ owner i _).mpr (by rw [if_pos rfl]; exact Or.inl ⟨rfl, rfl⟩)⟩
  · by_cases hk : x ∈ kept s n
    · rw [hr.father, if_pos hk] at hG
      cases hG
      obtain ⟨hl, j, hj⟩ := mem_kept.mp hk
      refine Or.inl ⟨j, (hr.at_ s.next j x).mpr ?_⟩
      rw [if_neg (Ne.symm (hr.old ho).2.2), if_pos (Or.inl rfl)]
      exact ⟨hl, hj⟩
    · have hxl := h.alloc hxr
      rw [hr.stay hxl hk] at hG
      have hG' := (h.up x hxl G hG).1
      obtain ⟨hGr, hGn⟩ := ((hr.reg G).mp hGreg).resolve_left (hr.old hG').2.2
      rcases h.att x hxr G hG hGr with ⟨j, hj⟩ | hp
      · refine Or.inl ⟨j, (hr.at_ G j x).mpr ?_⟩
        split
        · next hGo =>
          subst hGo
          refine Or.inr ⟨?_, hj⟩
          rintro rfl
          have heq := hs.at_.symm.trans hj
          cases heq
          exact hxn rfl
        · rw [if_neg (by rintro (heq | heq); exacts [(hr.old hG').2.2 heq, hGn heq])]
          exact hj
      · exact Or.inr hp

theorem root_ : ∀ r, t.threadRoot = some r → t.Reg r ∧ t.father r = none := by
  intro r hroot
  rw [hr.threadRoot] at hroot
  obtain ⟨hrr, hrf⟩ := h.root r hroot
  have hrk : r ∉ kept s n := by
    intro hk
    rw [(hs.kept_old h hk).2.2.1] at hrf
    cases hrf
  rw [hr.reg, hr.stay (h.alloc hrr) hrk]
  refine ⟨Or.inr ⟨hrr, ?_⟩, hrf⟩
  rintro rfl
  exact hs.not_root h hroot

omit hs in
theorem rootOnly : ∀ x, t.Reg x → t.father x = none → t.threadRoot = some x := by
  intro x hx hfx
  rw [hr.threadRoot]
  rw [hr.father] at hfx
  split at hfx
  · cases hfx
  · split at hfx
    · cases hfx
    · next hxp => exact h.rootOnly x (((hr.reg x).mp hx).resolve_left hxp).1 hfx

theorem links (hopen : s.Open n) : Links t where
  up := hr.up h hs
  down := hr.down h hs
  held := hr.held h hs hopen
  once := hr.once h hs
  gone := hr.gone h hs
  pos := by
    rw [hr.keepChilds, hr.keepPos]
    exact h.pos
  pendOnce := by
    rw [hr.pending]
    exact h.pendOnce
  pend := hr.pend h hs
  att := hr.att h hs
  root := hr.root_ h hs
  rootOnly := hr.rootOnly h

/-! ## The objects -/

omit hr h hs in
/-- What the new object takes over, the old one has given up. -/
theorem lock {g : Node → Option Ptr} (hn : n < s.next) (hg : ∀ x, g (t.heap x) =
      if x = n then none else if x = s.next then g (s.heap n) else g (s.heap x)) :
    g (t.heap s.next) = g (s.heap n) ∧ g (t.heap n) = none ∧
      ∀ x < s.next, x ≠ n → g (t.heap x) = g (s.heap x) := by
  refine ⟨?_, ?_, ?_⟩
  · rw [hg, if_neg (Ne.symm (Nat.ne_of_lt hn)), if_pos rfl]
  · rw [hg, if_pos rfl]
  · intro x hx hxn
    rw [hg, if_neg hxn, if_neg (Nat.ne_of_lt hx)]

/-- So nobody else owns it. -/
theorem own {g : Node → Option Ptr} (hg : ∀ x, g (t.heap x) =
      if x = n then none else if x = s.next then g (s.heap n) else g (s.heap x))
    (hown : ∀ x < s.next, ∀ y < s.next, ∀ m, g (s.heap x) = some m → g (s.heap y) = some m →
      x = y) :
    ∀ x < t.next, ∀ y < t.next, ∀ m, g (t.heap x) = some m → g (t.heap y) = some m → x = y := by
  have hn := (hs.lt h).2.1
  obtain ⟨hnew, hnone, hold⟩ := lock hn hg
  have hkeeps : ∀ x < s.next, ∀ m, g (t.heap x) = some m → x ≠ n ∧ g (s.heap x) = some m := by
    intro x hx m hm
    have hxn : x ≠ n := by
      rintro rfl
      rw [hnone] at hm
      cases hm
    exact ⟨hxn, (hold x hx hxn).symm.trans hm⟩
  rw [hr.next]
  refine own_succ (g := fun x => g (t.heap x)) ?_ (fun _ _ => rfl) ?_
  · intro x hx y hy m hmx hmy
    exact hown x hx y hy m (hkeeps x hx m hmx).2 (hkeeps y hy m hmy).2
  · intro x hx m hm heq
    obtain ⟨hxn, hmx⟩ := hkeeps x hx m hm
    rw [hnew] at heq
    exact hxn (hown x hx n hn m hmx heq)

theorem objects : Objects t where
  map := by
    intro k m hm
    rw [hr.map, Function.update_apply] at hm
    rw [hr.next, hr.thread]
    split at hm
    · next hk =>
      cases hm
      exact ⟨Nat.lt_succ_self _, by rw [if_pos rfl, hk]⟩
    · obtain ⟨hm', hk⟩ := h.map k m hm
      exact ⟨Nat.lt_succ_of_lt hm', by rw [if_neg (Nat.ne_of_lt hm')]; exact hk⟩
  birth := by
    intro m hm
    rw [hr.births]
    rcases hr.lt_or hm with rfl | hm'
    · rw [hr.birth_new]
      exact h.birth n (h.alloc hs.reg)
    · rw [(hr.old hm').2.1]
      exact h.birth m hm'
  main := by
    intro m hm
    rw [hr.map, hr.main, Function.update_apply] at hm
    rw [hr.threadRoot]
    split at hm
    · next hk =>
      have hmain : s.threadIDToNode s.mainThread = some n := by
        rw [hk]
        exact hs.reg
      exact absurd (h.main n hmain) (hs.not_root h)
    · exact h.main m hm
  rootType := by
    intro r hroot
    rw [hr.threadRoot] at hroot
    have hrp := Nat.ne_of_lt (h.alloc (h.root r hroot).1)
    rw [hr.type, if_neg hrp, hr.thread, if_neg hrp, hr.main]
    exact h.rootType r hroot
  newType := by
    intro x hx hroot hc
    rw [hr.threadRoot] at hroot
    rw [hr.type] at hc
    rw [hr.newType, hr.type]
    rcases (hr.reg x).mp hx with rfl | ⟨hx', -⟩
    · exact Or.inl (by rw [if_pos rfl, if_pos rfl])
    · have hxp := Nat.ne_of_lt (h.alloc hx')
      rw [if_neg hxp] at hc
      rw [if_neg hxp, if_neg hxp]
      exact h.newType x hx' hroot hc
  locks := by
    intro x hx
    have hn := h.alloc hs.reg
    obtain ⟨hmutex, -, hmutexOld⟩ := lock hn hr.mutex
    obtain ⟨hcond, -, hcondOld⟩ := lock hn hr.cond
    rcases (hr.reg x).mp hx with rfl | ⟨hx', hxn⟩
    · rw [hmutex, hcond]
      exact h.locks n hs.reg
    · rw [hmutexOld x (h.alloc hx') hxn, hcondOld x (h.alloc hx') hxn]
      exact h.locks x hx'
  lockNext := by
    intro x hx
    have hn := h.alloc hs.reg
    obtain ⟨hmutex, hmutexNone, hmutexOld⟩ := lock hn hr.mutex
    obtain ⟨hcond, hcondNone, hcondOld⟩ := lock hn hr.cond
    rw [hr.nextLock]
    rcases hr.lt_or hx with rfl | hx'
    · rw [hmutex, hcond]
      exact h.lockNext n hn
    · by_cases hxn : x = n
      · rw [hxn, hmutexNone, hcondNone]
        refine ⟨?_, ?_⟩
        · intro m hm
          cases hm
        · intro c hc
          cases hc
      · rw [hmutexOld x hx' hxn, hcondOld x hx' hxn]
        exact h.lockNext x hx'
  mutexOwn := hr.own h hs hr.mutex h.mutexOwn
  condOwn := hr.own h hs hr.cond h.condOwn
  changed := by
    intro m hm
    rw [hr.changed] at hm
    rw [hr.next]
    exact Nat.lt_succ_of_lt (h.changed m hm)
  prj := by
    intro m hm
    rw [hr.prj] at hm
    obtain ⟨hm', hc⟩ := h.prj m hm
    rw [hr.next, hr.type, if_neg (Nat.ne_of_lt hm')]
    exact ⟨Nat.lt_succ_of_lt hm', hc⟩

end

end Replaced

section

variable {s : State} {owner n : Ptr} {i : Nat} (h : Inv s) (hs : Slot s owner i n)

include h hs

/-- **A conversion** keeps the invariant, if the node asks for another type. -/
theorem inv_replace (hopen : s.Open n) : Inv ((Label.replace owner i n).apply s) :=
  have hr := replaced h hs
  { hr.links h hs hopen, hr.objects h hs with }

end

end Msvl.Function
