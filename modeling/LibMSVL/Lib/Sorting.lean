/-
  Sorting by a comparison function whose result is an `int`.

  The sign of `cmp a b` says which of the two comes first, and 0 that neither does.  Different
  objects may be tied, so a sorted list is determined up to ties only.

  * `TotalPreorder` — what makes such a function fit for sorting;
  * `insertBefore` — insertion before the first element that is not less; it is Mathlib's
    `orderedInsert`, and inserting one by one is `insertionSort` of the reversed list;
  * `insertAll_ties` — tied objects end up in reverse order of insertion;
  * `sorted_unique` — two sorted lists of the same objects agree up to ties, place by place;
  * `StrictWeakOn` — what C++ asks of a comparison that returns a `bool`; `strictWeakOn_keyFirst` takes a
    comparison apart that looks at a key first.
-/
import Mathlib.Data.List.Sort

namespace Msvl.Sorting

variable {α : Type}

/-- The sign of `cmp` is a total preorder. -/
structure TotalPreorder (cmp : α → α → Int) : Prop where
  swap : ∀ a b, cmp a b < 0 ↔ 0 < cmp b a
  trans : ∀ a b c, cmp a b ≤ 0 → cmp b c ≤ 0 → cmp a c ≤ 0

abbrev Le (cmp : α → α → Int) (a b : α) : Prop := cmp a b ≤ 0

abbrev Sorted (cmp : α → α → Int) (l : List α) : Prop := l.Pairwise (Le cmp)

/-- Insertion before the first element that is not less than `x`. -/
def insertBefore (cmp : α → α → Int) (x : α) (l : List α) : List α :=
  l.insertIdx (l.findIdx fun e => !decide (cmp e x < 0)) x

/-- Insertion one by one into the empty list. -/
def insertAll (cmp : α → α → Int) (xs : List α) : List α :=
  xs.foldl (fun l x => insertBefore cmp x l) []

section

variable {cmp : α → α → Int} (h : TotalPreorder cmp)

include h

theorem TotalPreorder.not_lt {a b : α} : ¬ cmp a b < 0 ↔ cmp b a ≤ 0 := by
  rw [h.swap a b]
  omega

theorem TotalPreorder.tied_comm {a b : α} : cmp a b = 0 ↔ cmp b a = 0 := by
  have hab := h.swap a b
  have hba := h.swap b a
  omega

theorem TotalPreorder.refl (a : α) : cmp a a = 0 := by
  have := h.swap a a
  omega

theorem TotalPreorder.total : Std.Total (Le cmp) where
  total a b := by
    have hab := h.swap a b
    show cmp a b ≤ 0 ∨ cmp b a ≤ 0
    omega

theorem TotalPreorder.isTrans : IsTrans α (Le cmp) where
  trans a b c := h.trans a b c

/-! ## Insertion -/

theorem insertBefore_eq (x : α) (l : List α) : insertBefore cmp x l = l.orderedInsert (Le cmp) x := by
  unfold insertBefore
  induction l with
  | nil => rfl
  | cons e l ih =>
    rw [List.orderedInsert_cons, List.findIdx_cons]
    by_cases hlt : cmp e x < 0
    · have hnot : ¬ Le cmp x e := fun hle => h.not_lt.mpr hle hlt
      simp only [hlt, decide_true, Bool.not_true, cond_false]
      rw [if_neg hnot, List.insertIdx_succ_cons, ih]
    · have hle : Le cmp x e := h.not_lt.mp hlt
      simp only [hlt, decide_false, Bool.not_false, cond_true]
      rw [if_pos hle, List.insertIdx_zero]

/-- Where the object goes: behind everything less than it, and before everything else. -/
theorem insertBefore_split (x : α) (l : List α) : insertBefore cmp x l =
    (l.takeWhile fun e => cmp e x < 0) ++ x :: l.dropWhile fun e => cmp e x < 0 := by
  have hsame : ∀ b, decide (¬ Le cmp x b) = decide (cmp b x < 0) := fun b =>
    decide_eq_decide.mpr (by rw [Le, ← h.not_lt, not_not])
  rw [insertBefore_eq h, List.orderedInsert_eq_take_drop]
  simp only [hsame]

theorem insertBefore_sorted (x : α) {l : List α} (hl : Sorted cmp l) :
    Sorted cmp (insertBefore cmp x l) := by
  have := h.total
  have := h.isTrans
  rw [insertBefore_eq h]
  exact hl.orderedInsert x l

theorem insertAll_eq (xs : List α) : insertAll cmp xs = xs.reverse.insertionSort (Le cmp) := by
  rw [insertAll, List.insertionSort, List.foldr_reverse]
  congr
  funext l x
  exact insertBefore_eq h x l

theorem insertAll_sorted (xs : List α) : Sorted cmp (insertAll cmp xs) := by
  have := h.total
  have := h.isTrans
  rw [insertAll_eq h]
  exact List.pairwise_insertionSort _ _

theorem insertAll_perm (xs : List α) : (insertAll cmp xs).Perm xs := by
  rw [insertAll_eq h]
  exact (List.perm_insertionSort _ _).trans (List.reverse_perm xs)

/-- **Ties**: the objects tied with `k` stand in reverse order of insertion. -/
theorem insertAll_ties (xs : List α) (k : α) :
    (insertAll cmp xs).filter (fun e => cmp e k = 0) = (xs.filter fun e => cmp e k = 0).reverse := by
  rw [← List.filter_reverse, insertAll_eq h]
  -- the tied objects are a sorted sublist of what is sorted, and there are no others
  have hties : Sorted cmp (xs.reverse.filter fun e => cmp e k = 0) := by
    refine List.pairwise_of_forall_mem_list fun a ha b hb => ?_
    have hak := of_decide_eq_true (List.mem_filter.mp ha).2
    have hbk := of_decide_eq_true (List.mem_filter.mp hb).2
    exact h.trans a k b (Int.le_of_eq hak) (Int.le_of_eq (h.tied_comm.mp hbk))
  have hsub := (List.sublist_insertionSort hties List.filter_sublist).filter fun e => cmp e k = 0
  rw [List.filter_filter] at hsub
  simp only [Bool.and_self] at hsub
  have hlen := ((List.perm_insertionSort (Le cmp) xs.reverse).filter fun e => cmp e k = 0).length_eq
  exact (hsub.eq_of_length hlen.symm).symm

/-! ## Sorted up to ties -/

/-- **Sorted lists of the same objects** agree place by place, up to ties.  Induction with what the
    permutation says about keys only: there are equally many objects up to each one. -/
theorem sorted_unique {l l' : List α} (hl : Sorted cmp l) (hl' : Sorted cmp l') (hperm : l.Perm l') :
    List.Forall₂ (fun e e' => cmp e e' = 0) l l' := by
  have hcount : ∀ k, (l.countP fun e => cmp e k ≤ 0) = l'.countP fun e => cmp e k ≤ 0 :=
    fun k => hperm.countP_eq _
  clear hperm
  have hhead : ∀ {a b : α} {l l' : List α}, Sorted cmp (b :: l') →
      (((a :: l).countP fun e => cmp e a ≤ 0) = (b :: l').countP fun e => cmp e a ≤ 0) → cmp b a ≤ 0 := by
    intro a b l l' hs heq
    have hpos : 0 < (a :: l).countP fun e => cmp e a ≤ 0 :=
      List.countP_pos_iff.mpr ⟨a, List.mem_cons_self, decide_eq_true (Int.le_of_eq (h.refl a))⟩
    rw [heq] at hpos
    obtain ⟨e, he, hle⟩ := List.countP_pos_iff.mp hpos
    rcases List.mem_cons.mp he with rfl | he
    · exact of_decide_eq_true hle
    · exact h.trans b e a ((List.pairwise_cons.mp hs).1 e he) (of_decide_eq_true hle)
  induction l generalizing l' with
  | nil =>
    cases l' with
    | nil => exact .nil
    | cons b l' =>
      have hzero := hcount b
      simp [h.refl b] at hzero
  | cons a l ih =>
    cases l' with
    | nil =>
      have hzero := hcount a
      simp [h.refl a] at hzero
    | cons b l' =>
      have hba := hhead hl' (hcount a)
      have hab := hhead hl (hcount b).symm
      have htie : cmp a b = 0 := by
        have := h.swap a b
        omega
      refine .cons htie (ih (List.pairwise_cons.mp hl).2 (List.pairwise_cons.mp hl').2 fun k => ?_)
      have hk := hcount k
      have hsame : cmp a k ≤ 0 ↔ cmp b k ≤ 0 := ⟨h.trans b a k hba, h.trans a b k hab⟩
      rw [List.countP_cons, List.countP_cons] at hk
      simp only [hsame] at hk
      exact Nat.add_right_cancel hk

end

/-! ## Strict weak orders -/

/-- `lt` is a strict weak order on `S`. -/
structure StrictWeakOn (S : Set α) (lt : α → α → Prop) : Prop where
  irrefl : ∀ a ∈ S, ¬ lt a a
  asymm : ∀ a ∈ S, ∀ b ∈ S, lt a b → ¬ lt b a
  trans : ∀ a ∈ S, ∀ b ∈ S, ∀ c ∈ S, lt a b → lt b c → lt a c
  tied : ∀ a ∈ S, ∀ b ∈ S, ∀ c ∈ S, ¬ lt a b → ¬ lt b a → ¬ lt b c → ¬ lt c b → ¬ lt a c ∧ ¬ lt c a

/-- Two laws are enough: nothing goes both ways, and whatever stands between two that are ordered
    is ordered against one of them. -/
theorem strictWeakOn_iff {S : Set α} {lt : α → α → Prop} : StrictWeakOn S lt ↔
    (∀ a ∈ S, ∀ b ∈ S, lt a b → ¬ lt b a) ∧
      ∀ a ∈ S, ∀ b ∈ S, ∀ c ∈ S, lt a c → lt a b ∨ lt b c := by
  constructor
  · intro h
    refine ⟨h.asymm, fun a ha b hb c hc hac => ?_⟩
    by_contra hno
    obtain ⟨hab, hbc⟩ := not_or.mp hno
    have hba : ¬ lt b a := fun hba => hbc (h.trans b hb a ha c hc hba hac)
    have hcb : ¬ lt c b := fun hcb => hab (h.trans a ha c hc b hb hac hcb)
    exact (h.tied a ha b hb c hc hab hba hbc hcb).1 hac
  · rintro ⟨hasymm, hmid⟩
    refine ⟨fun a ha haa => hasymm a ha a ha haa haa, hasymm, ?_, ?_⟩
    · intro a ha b hb c hc hab hbc
      rcases hmid a ha c hc b hb hab with hac | hcb
      · exact hac
      · exact absurd hbc (hasymm c hc b hb hcb)
    · intro a ha b hb c hc hab hba hbc hcb
      refine ⟨fun hac => ?_, fun hca => ?_⟩
      · rcases hmid a ha b hb c hc hac with h | h
        · exact hab h
        · exact hbc h
      · rcases hmid c hc b hb a ha hca with h | h
        · exact hcb h
        · exact hba h

/-- More objects satisfy `q` than `p` when one of them does not satisfy `p`. -/
theorem countP_lt {p q : α → Bool} {l : List α} (hpq : ∀ x ∈ l, p x = true → q x = true) {a : α}
    (ha : a ∈ l) (hq : q a = true) (hp : ¬ p a = true) : l.countP p < l.countP q := by
  induction l with
  | nil => simp at ha
  | cons b l ih =>
    have hle : l.countP p ≤ l.countP q :=
      List.countP_mono_left fun x hx => hpq x (List.mem_cons_of_mem b hx)
    rcases List.mem_cons.mp ha with rfl | ha
    · rw [List.countP_cons_of_pos hq, List.countP_cons_of_neg hp]
      omega
    · have hlt := ih (fun x hx => hpq x (List.mem_cons_of_mem b hx)) ha
      have hb := hpq b List.mem_cons_self
      rw [List.countP_cons, List.countP_cons]
      by_cases hpb : p b = true
      · rw [if_pos hpb, if_pos (hb hpb)]
        omega
      · rw [if_neg hpb]
        omega

/-- **Finitely many objects** are in a strict weak order when they stand on levels: an object's level
    is the number of objects before it. -/
theorem strictWeakOn_iff_level {l : List α} {lt : α → α → Prop} :
    StrictWeakOn {a | a ∈ l} lt ↔
      ∃ level : α → Nat, ∀ a ∈ l, ∀ b ∈ l, lt a b ↔ level a < level b := by
  classical
  rw [strictWeakOn_iff]
  constructor
  · rintro ⟨hasymm, hmid⟩
    refine ⟨fun b => l.countP fun x => lt x b, fun a ha b hb => ⟨fun hab => ?_, fun hlt => ?_⟩⟩
    · have hsub : ∀ x ∈ l, decide (lt x a) = true → decide (lt x b) = true := by
        intro x hx hxa
        rcases hmid x hx b hb a ha (of_decide_eq_true hxa) with hxb | hba
        · exact decide_eq_true hxb
        · exact absurd hab (hasymm b hb a ha hba)
      exact countP_lt hsub ha (decide_eq_true hab)
        fun haa => hasymm a ha a ha (of_decide_eq_true haa) (of_decide_eq_true haa)
    · by_contra hab
      have hle : (l.countP fun x => lt x b) ≤ l.countP fun x => lt x a := by
        refine List.countP_mono_left fun x hx hxb => ?_
        rcases hmid x hx a ha b hb (of_decide_eq_true hxb) with hxa | h
        · exact decide_eq_true hxa
        · exact absurd h hab
      exact absurd hlt (Nat.not_lt.mpr hle)
  · rintro ⟨level, hlevel⟩
    refine ⟨fun a ha b hb hab hba => ?_, fun a ha b hb c hc hac => ?_⟩
    · exact Nat.lt_asymm ((hlevel a ha b hb).mp hab) ((hlevel b hb a ha).mp hba)
    · rw [hlevel a ha c hc] at hac
      rw [hlevel a ha b hb, hlevel b hb c hc]
      omega

/-- A key first, and `r` among those with the same key. -/
def KeyFirst {κ : Type} [LT κ] (key : α → κ) (r : α → α → Prop) (a b : α) : Prop :=
  key a < key b ∨ key a = key b ∧ r a b

/-- **Key first**: what is left to check are the objects that share a key. -/
theorem strictWeakOn_keyFirst {κ : Type} [LinearOrder κ] {key : α → κ} {S : Set α} {r : α → α → Prop} :
    StrictWeakOn S (KeyFirst key r) ↔ ∀ k, StrictWeakOn {a | a ∈ S ∧ key a = k} r := by
  simp only [strictWeakOn_iff]
  constructor
  · rintro ⟨hasymm, hmid⟩ k
    refine ⟨?_, ?_⟩
    · rintro a ⟨ha, rfl⟩ b ⟨hb, hkey⟩ hab hba
      exact hasymm a ha b hb (Or.inr ⟨hkey.symm, hab⟩) (Or.inr ⟨hkey, hba⟩)
    · rintro a ⟨ha, rfl⟩ b ⟨hb, hkb⟩ c ⟨hc, hkc⟩ hac
      rcases hmid a ha b hb c hc (Or.inr ⟨hkc.symm, hac⟩) with (hlt | h) | (hlt | h)
      · exact absurd hkb (ne_of_gt hlt)
      · exact Or.inl h.2
      · exact absurd (hkb.trans hkc.symm) (ne_of_lt hlt)
      · exact Or.inr h.2
  · intro h
    refine ⟨?_, ?_⟩
    · rintro a ha b hb (hab | ⟨hkey, hab⟩) (hba | ⟨hkey', hba⟩)
      · exact lt_asymm hab hba
      · exact ne_of_lt hab hkey'.symm
      · exact ne_of_lt hba hkey.symm
      · exact (h (key a)).1 a ⟨ha, rfl⟩ b ⟨hb, hkey.symm⟩ hab hba
    · rintro a ha b hb c hc (hac | ⟨hkey, hac⟩)
      · rcases lt_or_ge (key a) (key b) with hab | hba
        · exact Or.inl (Or.inl hab)
        · exact Or.inr (Or.inl (lt_of_le_of_lt hba hac))
      · rcases lt_trichotomy (key a) (key b) with hab | hab | hba
        · exact Or.inl (Or.inl hab)
        · rcases (h (key a)).2 a ⟨ha, rfl⟩ b ⟨hb, hab.symm⟩ c ⟨hc, hkey.symm⟩ hac with hr | hr
          · exact Or.inl (Or.inr ⟨hab, hr⟩)
          · exact Or.inr (Or.inr ⟨hab.symm.trans hkey, hr⟩)
        · exact Or.inr (Or.inl (lt_of_lt_of_eq hba hkey))

end Msvl.Sorting
