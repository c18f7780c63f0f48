/-
  The projection operator: `(p₁, …, pₘ) prj q`.

  The p's run one after the other.  `spans k a ps` says when: the first of `ps` begins in state `a`,
  each one takes `k p` steps and so ends in the state `k p` later, and the next begins in the state
  in which the one before ends.  q is projected on the ends: it has a turn in state 0, in the
  states in which some p ends, and in every state after the last p has ended (`QDue`), as long as it
  has not ended itself in its `(j + 1)`-th turn.

  1. `spans_bounds` — when a span can lie.
  2. `active_ends`, `active_goes` — what happens in state `t`, from the p that is next.
  3. `left_split` — what is left after it.
-/
import Mathlib.Data.List.Basic
import Mathlib.Data.List.Count

namespace Msvl.Projection

variable {α : Type}

/-- The states of the turns of one p, both ends included. -/
structure Span (α : Type) where
  task : α
  first : Nat
  last : Nat

/-- The p's `ps`, from state `a` on. -/
def spans (k : α → Nat) : Nat → List α → List (Span α)
  | _, [] => []
  | a, p :: ps => ⟨p, a, a + k p⟩ :: spans k (a + k p) ps

/-- The p's that have a turn in state `t`. -/
def active (sps : List (Span α)) (t : Nat) : List (Span α) :=
  sps.filter fun sp => sp.first ≤ t ∧ t ≤ sp.last

/-- The p's that have not ended after state `t`. -/
def left (sps : List (Span α)) (t : Nat) : List (Span α) := sps.filter fun sp => t < sp.last

/-- q is due in state `t`. -/
def QDue (sps : List (Span α)) (t : Nat) : Prop :=
  t = 0 ∨ (∃ sp ∈ sps, sp.last = t) ∨ ∀ sp ∈ sps, sp.last < t

instance (sps : List (Span α)) (t : Nat) : Decidable (QDue sps t) :=
  inferInstanceAs (Decidable (_ ∨ _ ∨ _))

/-- The turns q has had before state `t`, were it never to end. -/
def dueBefore (sps : List (Span α)) (t : Nat) : Nat := (List.range t).countP fun u => QDue sps u

/-- q, which ends in its `(j + 1)`-th turn, has a turn in state `t`. -/
def QTurn (sps : List (Span α)) (j t : Nat) : Prop := QDue sps t ∧ dueBefore sps t ≤ j

instance (sps : List (Span α)) (j t : Nat) : Decidable (QTurn sps j t) :=
  inferInstanceAs (Decidable (_ ∧ _))

/-- Everybody has ended in state `t` or before. -/
def Over (sps : List (Span α)) (j t : Nat) : Prop :=
  (∀ sp ∈ sps, sp.last ≤ t) ∧ j < dueBefore sps (t + 1)

instance (sps : List (Span α)) (j t : Nat) : Decidable (Over sps j t) :=
  inferInstanceAs (Decidable (_ ∧ _))

/-- All who have a turn in state `t`, the p's first. -/
def turnsAt (q : α) (sps : List (Span α)) (j t : Nat) : List α :=
  (active sps t).map Span.task ++ if QTurn sps j t then [q] else []

theorem dueBefore_succ (sps : List (Span α)) (t : Nat) :
    dueBefore sps (t + 1) = dueBefore sps t + if QDue sps t then 1 else 0 := by
  rw [dueBefore, dueBefore, List.range_succ, List.countP_append, List.countP_singleton]
  simp only [decide_eq_true_eq]

variable {k : α → Nat}

theorem spans_bounds {ps : List α} {a : Nat} : ∀ sp ∈ spans k a ps, a ≤ sp.first ∧ sp.first ≤ sp.last := by
  induction ps generalizing a with
  | nil => exact fun _ h => nomatch h
  | cons p ps ih =>
    intro sp hsp
    rcases List.mem_cons.mp hsp with rfl | hsp
    · exact ⟨Nat.le_refl a, Nat.le_add_right a (k p)⟩
    · have := ih sp hsp
      omega

theorem spans_tasks (ps : List α) (a : Nat) : (spans k a ps).map Span.task = ps := by
  induction ps generalizing a with
  | nil => rfl
  | cons p ps ih => rw [spans, List.map_cons, ih]

/-! ## What is over does not count -/

section

variable {ended cur : List (Span α)} {t : Nat} (hended : ∀ sp ∈ ended, sp.last < t)

include hended

theorem active_append : active (ended ++ cur) t = active cur t := by
  have hnil : active ended t = [] := by
    refine List.filter_eq_nil_iff.mpr fun sp hsp => ?_
    have := hended sp hsp
    simp
    omega
  rw [active, List.filter_append]
  exact (congrArg (· ++ active cur t) hnil).trans (List.nil_append _)

theorem left_append : left (ended ++ cur) t = left cur t := by
  have hnil : left ended t = [] := by
    refine List.filter_eq_nil_iff.mpr fun sp hsp => ?_
    have := hended sp hsp
    simp
    omega
  rw [left, List.filter_append]
  exact (congrArg (· ++ left cur t) hnil).trans (List.nil_append _)

theorem due_append (hcur : ∀ sp ∈ cur, t ≤ sp.last) :
    QDue (ended ++ cur) t ↔ t = 0 ∨ (∃ sp ∈ cur, sp.last = t) ∨ cur = [] := by
  rw [QDue]
  refine or_congr_right (or_congr ?_ ?_)
  · constructor
    · rintro ⟨sp, hsp, hlast⟩
      rcases List.mem_append.mp hsp with hsp | hsp
      · exact absurd hlast (Nat.ne_of_lt (hended sp hsp))
      · exact ⟨sp, hsp, hlast⟩
    · rintro ⟨sp, hsp, hlast⟩
      exact ⟨sp, List.mem_append_right _ hsp, hlast⟩
  · constructor
    · intro hall
      by_contra hne
      obtain ⟨sp, hsp⟩ := List.exists_mem_of_ne_nil _ hne
      have hlt := hall sp (List.mem_append_right _ hsp)
      have hle := hcur sp hsp
      omega
    · rintro rfl sp hsp
      rw [List.append_nil] at hsp
      exact hended sp hsp

omit hended in
theorem left_eq_nil {sps : List (Span α)} : left sps t = [] ↔ ∀ sp ∈ sps, sp.last ≤ t := by
  rw [left, List.filter_eq_nil_iff]
  simp

end

/-! ## One state -/

section

variable {p : α} {a t : Nat} (ps : List α)

/-- The next p ends in state `t`. -/
theorem active_ends (h : a + k p = t) :
    active (spans k a (p :: ps)) t = ⟨p, a, t⟩ :: active (spans k t ps) t ∧
    left (spans k a (p :: ps)) t = left (spans k t ps) t := by
  subst h
  rw [spans]
  constructor
  · exact List.filter_cons_of_pos (by simp)
  · exact List.filter_cons_of_neg (by simp)

/-- The next p goes on after state `t`: the others wait. -/
theorem active_goes (ha : a ≤ t) (h : t < a + k p) :
    active (spans k a (p :: ps)) t = [⟨p, a, a + k p⟩] ∧
      left (spans k a (p :: ps)) t = spans k a (p :: ps) := by
  rw [spans]
  constructor
  · refine (List.filter_cons_of_pos (by simp; omega)).trans ?_
    refine congrArg _ (List.filter_eq_nil_iff.mpr fun sp hsp => ?_)
    have := spans_bounds sp hsp
    simp
    omega
  · refine List.filter_eq_self.mpr fun sp hsp => ?_
    rcases List.mem_cons.mp hsp with rfl | hsp
    · simpa using h
    · have := spans_bounds sp hsp
      simp
      omega

/-- **After a state**, the p's that are left are the end of the schedule, and the first of them has
    begun. -/
theorem left_split : ∀ a ≤ t, ∃ ended a', a' ≤ t ∧
    spans k a ps = ended ++ spans k a' ((left (spans k a ps) t).map Span.task) ∧
    (∀ sp ∈ ended, sp.last ≤ t) ∧
    left (spans k a ps) t = spans k a' ((left (spans k a ps) t).map Span.task) := by
  induction ps with
  | nil => exact fun a ha => ⟨[], a, ha, rfl, nofun, rfl⟩
  | cons p ps ih =>
    intro a ha
    rcases Nat.lt_or_ge t (a + k p) with hgo | hle
    · obtain ⟨-, hleft⟩ := active_goes ps ha hgo
      rw [hleft, spans_tasks]
      exact ⟨[], a, ha, rfl, nofun, rfl⟩
    · obtain ⟨ended, a', ha', hsplit, hended, hleft⟩ := ih (a + k p) hle
      have hcons : left (spans k a (p :: ps)) t = left (spans k (a + k p) ps) t :=
        List.filter_cons_of_neg (by simpa using hle)
      rw [hcons]
      refine ⟨⟨p, a, a + k p⟩ :: ended, a', ha', ?_, ?_, hleft⟩
      · rw [spans, List.cons_append, ← hsplit]
      · rintro sp (_ | ⟨_, hsp⟩)
        · exact hle
        · exact hended sp hsp

end

end Msvl.Projection
