/-
  Comp, the order of the elements of $$prsnt.

  Priorities come first, larger ones in front.  Among the elements of priority 4 those with an empty
  `left` stand last, before them those with an empty `right`, and the others are compared by name:
  `a` is before `b` when the `left` of `b` occurs in the `right` of `a`.  Only this last comparison
  can go wrong (`comp_strictWeak_iff`): everything before it is a key (`comp_iff`), and a key keeps
  the laws whatever stands behind it.
-/
import LibMSVL.Function.State
import LibMSVL.Lib.Sorting
import Mathlib.Data.Prod.Lex
import Mathlib.Order.Nat

namespace Msvl.Function

open Msvl.Sorting

/-! ## Comp -/

/-- `Comp` -/
def comp (a b : Element) : Bool :=
  if a.priority > b.priority then true
  else if a.priority < b.priority then false
  else if a.priority ≠ 4 then false
  else if a.left.isEmpty then false
  else if b.left.isEmpty then true
  else if a.right.isEmpty then false
  else if b.right.isEmpty then true
  else a.right.contains b.left

/-! ## Key first -/

/-- The element is compared by names. -/
def Element.Naming (a : Element) : Prop := a.priority = 4 ∧ a.left ≠ [] ∧ a.right ≠ []

/-- Where it stands among those of its priority. -/
def Element.rank (a : Element) : Nat :=
  if a.priority ≠ 4 then 0 else if a.left = [] then 2 else if a.right = [] then 1 else 0

/-- The key that is compared before any name. -/
def Element.key (a : Element) : Lex (Int × Nat) := toLex (-a.priority, a.rank)

/-- `a` is before `b` by name. -/
def Names (a b : Element) : Prop := a.Naming ∧ b.Naming ∧ b.left ∈ a.right

theorem key_lt {a b : Element} : a.key < b.key ↔
    a.priority > b.priority ∨ a.priority = b.priority ∧ a.rank < b.rank := by
  rw [Element.key, Element.key, Prod.Lex.toLex_lt_toLex]
  simp only [Int.neg_lt_neg_iff, Int.neg_inj, gt_iff_lt]

theorem key_eq {a b : Element} : a.key = b.key ↔ a.priority = b.priority ∧ a.rank = b.rank := by
  rw [Element.key, Element.key, toLex_inj, Prod.mk.injEq, Int.neg_inj]

theorem naming_iff {a : Element} : a.Naming ↔ a.priority = 4 ∧ a.rank = 0 := by
  unfold Element.Naming Element.rank
  by_cases hpriority : a.priority = 4
  · by_cases hleft : a.left = []
    · simp [hleft]
    · by_cases hright : a.right = [] <;> simp [hpriority, hleft, hright]
  · simp [hpriority]

/-- **Comp compares keys first**, and names only between elements of the same key. -/
theorem comp_iff (a b : Element) : comp a b = true ↔ KeyFirst Element.key Names a b := by
  rw [KeyFirst, key_lt, key_eq]
  unfold comp
  rcases Int.lt_trichotomy a.priority b.priority with hlt | heq | hgt
  · have hnot : ¬ a.priority > b.priority := by omega
    simp only [if_neg hnot, if_pos hlt]
    simp
    omega
  · by_cases hpriority : a.priority = 4
    · have hb : b.priority = 4 := heq ▸ hpriority
      simp only [Names, naming_iff, Element.rank, hpriority, hb, List.isEmpty_iff]
      by_cases hal : a.left = [] <;> by_cases hbl : b.left = []
      · simp [hal, hbl]
      · by_cases hbr : b.right = [] <;> simp [hal, hbl, hbr]
      · by_cases har : a.right = [] <;> simp [hal, hbl, har]
      · by_cases har : a.right = [] <;> by_cases hbr : b.right = [] <;> simp [hal, hbl, har, hbr]
    · have hb : b.priority ≠ 4 := heq ▸ hpriority
      simp [Names, naming_iff, Element.rank, heq, hb]
  · simp [hgt]

/-! ## Names -/

/-- Only one key has names to compare. -/
theorem names_strictWeak {S : Set Element} :
    (∀ k, StrictWeakOn {a | a ∈ S ∧ a.key = k} Names) ↔ StrictWeakOn {a | a ∈ S ∧ a.Naming} Names := by
  simp only [strictWeakOn_iff]
  constructor
  · intro h
    have hkey : ∀ {a : Element}, a.Naming → a.key = toLex (-4, 0) := by
      intro a ha
      obtain ⟨hpriority, hrank⟩ := naming_iff.mp ha
      rw [Element.key, hpriority, hrank]
    obtain ⟨hasymm, hmid⟩ := h (toLex (-4, 0))
    refine ⟨?_, ?_⟩
    · rintro a ⟨ha, hna⟩ b ⟨hb, hnb⟩
      exact hasymm a ⟨ha, hkey hna⟩ b ⟨hb, hkey hnb⟩
    · rintro a ⟨ha, hna⟩ b ⟨hb, hnb⟩ c ⟨hc, hnc⟩
      exact hmid a ⟨ha, hkey hna⟩ b ⟨hb, hkey hnb⟩ c ⟨hc, hkey hnc⟩
  · rintro ⟨hasymm, hmid⟩ k
    refine ⟨?_, ?_⟩
    · rintro a ⟨ha, -⟩ b ⟨hb, -⟩ hab
      exact hasymm a ⟨ha, hab.1⟩ b ⟨hb, hab.2.1⟩ hab
    · rintro a ⟨ha, hka⟩ b ⟨hb, hkb⟩ c ⟨hc, -⟩ hac
      have hnb : b.Naming := by
        obtain ⟨hpriority, hrank⟩ := key_eq.mp (hkb.trans hka.symm)
        rw [naming_iff, hpriority, hrank]
        exact naming_iff.mp hac.1
      exact hmid a ⟨ha, hac.1⟩ b ⟨hb, hnb⟩ c ⟨hc, hac.2.1⟩ hac

/-- The elements that are compared by name stand on levels: each of them names exactly the `left`s
    of those on higher levels. -/
def Layered (es : List Element) : Prop :=
  ∃ level : Element → Nat, ∀ a ∈ es, ∀ b ∈ es, a.Naming → b.Naming →
    (b.left ∈ a.right ↔ level a < level b)

/-- **The laws of a strict weak order** hold of Comp on the elements of a list exactly when their
    names are layered. -/
theorem comp_strictWeak_iff (es : List Element) :
    StrictWeakOn {a | a ∈ es} (fun a b => comp a b = true) ↔ Layered es := by
  classical
  have hlex : (fun a b => comp a b = true) = KeyFirst Element.key Names := by
    funext a b
    exact propext (comp_iff a b)
  have hset : {a | a ∈ {a | a ∈ es} ∧ a.Naming} = {a | a ∈ es.filter fun a => a.Naming} := by
    ext a
    simp
  rw [hlex, strictWeakOn_keyFirst, names_strictWeak, hset, strictWeakOn_iff_level]
  constructor
  · rintro ⟨level, hlevel⟩
    refine ⟨level, fun a ha b hb hna hnb => ?_⟩
    rw [← hlevel a (by simp [ha, hna]) b (by simp [hb, hnb])]
    exact ⟨fun h => ⟨hna, hnb, h⟩, fun h => h.2.2⟩
  · rintro ⟨level, hlevel⟩
    refine ⟨level, fun a ha b hb => ?_⟩
    obtain ⟨ha, hna⟩ := List.mem_filter.mp ha
    obtain ⟨hb, hnb⟩ := List.mem_filter.mp hb
    rw [← hlevel a ha b hb (of_decide_eq_true hna) (of_decide_eq_true hnb)]
    exact ⟨fun h => h.2.2, fun h => ⟨of_decide_eq_true hna, of_decide_eq_true hnb, h⟩⟩

/-- An element pushed with its own `left` among the names is before itself. -/
theorem names_itself :
    ¬ ∀ es : List Element, StrictWeakOn {a | a ∈ es} fun a b => comp a b = true := by
  intro h
  have hself := (h [⟨['x'], [['x']], 4, 0⟩]).irrefl ⟨['x'], [['x']], 4, 0⟩ (by simp)
  exact hself (by decide)

end Msvl.Function
