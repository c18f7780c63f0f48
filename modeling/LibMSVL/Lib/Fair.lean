/-
  Infinite runs, fairness, and the rule for "leads to".

  1. `Behaviour` — an infinite run: at each moment a step, or nothing.  It may begin in any state;
     `Behaviour.still` and `Steps.before` build one from a finite run.
  2. `Fair` — weak fairness for each class of actions: a class of which some action can be taken
     from some moment on at every moment is taken from again.
  3. `Behaviour.leads` — the response rule.  A rank that no step raises, and in each state a
     helpful class that can act, keeps being the helpful one while the rank stays, and lowers it.
-/
import LibMSVL.Lib.System

namespace Msvl.Trans

variable {σ α κ : Type}

/-- One moment: a step that satisfies `C`, or nothing. -/
def Moment (S : System σ α) (C : σ → α → Prop) (s : σ) : Option α → σ → Prop
  | none, t => t = s
  | some a, t => C s a ∧ S.step s a t

/-- An infinite run. -/
structure Behaviour (S : System σ α) (C : σ → α → Prop) where
  state : Nat → σ
  act : Nat → Option α
  next : ∀ i, Moment S C (state i) (act i) (state (i + 1))

/-- Some action of the class can be taken. -/
def CanAct (S : System σ α) (C : σ → α → Prop) (cls : κ → α → Prop) (c : κ) (s : σ) : Prop :=
  ∃ a, cls c a ∧ C s a ∧ ∃ t, S.step s a t

variable {S : System σ α} {C : σ → α → Prop} {cls : κ → α → Prop}

namespace Behaviour

/-- A class that can act from some moment on acts again. -/
def Fair (cls : κ → α → Prop) (b : Behaviour S C) : Prop :=
  ∀ c i, (∀ j, i ≤ j → CanAct S C cls c (b.state j)) → ∃ j, i ≤ j ∧ ∃ a ∈ b.act j, cls c a

variable (b : Behaviour S C)

theorem reachable (h0 : S.init (b.state 0)) (i : Nat) : ReachableBy S C (b.state i) := by
  induction i with
  | zero => exact .start h0
  | succ i ih =>
    have hnext := b.next i
    cases ha : b.act i with
    | none =>
      rw [ha] at hnext
      have heq : b.state (i + 1) = b.state i := hnext
      rwa [heq]
    | some a =>
      rw [ha] at hnext
      exact ih.next hnext.1 hnext.2

/-- What every step keeps until `Q`, holds until `Q`. -/
theorem lasts {P Q : σ → Prop}
    (hstep : ∀ s a t, P s → C s a → S.step s a t → Q t ∨ P t) {i : Nat} (hi : P (b.state i))
    (k : Nat) : (∃ j, i ≤ j ∧ Q (b.state j)) ∨ P (b.state (i + k)) := by
  induction k with
  | zero => exact Or.inr hi
  | succ k ih =>
    rcases ih with hq | hk
    · exact Or.inl hq
    · have hnext := b.next (i + k)
      cases ha : b.act (i + k) with
      | none =>
        rw [ha] at hnext
        have heq : b.state (i + k + 1) = b.state (i + k) := hnext
        exact Or.inr (show P (b.state (i + k + 1)) from heq ▸ hk)
      | some a =>
        rw [ha] at hnext
        rcases hstep _ _ _ hk hnext.1 hnext.2 with hq | hp
        · exact Or.inl ⟨i + k + 1, by omega, hq⟩
        · exact Or.inr hp

/-- **The response rule.**  In a state with `P` the helpful class can act; a step from there leads to
    `Q`, or to a state with `P` of a lower rank, or it is no step of the helpful class and leaves
    rank and helpful class as they are.  Then a fair run with a state of `P` has one of `Q` later. -/
theorem leads {P Q : σ → Prop} (hfair : b.Fair cls) (rank : σ → Nat) (help : σ → κ)
    (ok : α → Prop) (hcan : ∀ s, P s → CanAct S C cls (help s) s)
    (hstep : ∀ s a t, P s → C s a → ok a → S.step s a t → Q t ∨ P t ∧
      (rank t < rank s ∨ rank t = rank s ∧ help t = help s ∧ ¬ cls (help s) a))
    {i : Nat} (hok : ∀ j, i ≤ j → ∀ a ∈ b.act j, ok a) (hi : P (b.state i)) :
    ∃ j, i ≤ j ∧ Q (b.state j) := by
  by_contra hnever
  -- without `Q` the rank would have to fall for ever
  suffices hfall : ∀ n j, i ≤ j → P (b.state j) → rank (b.state j) ≠ n from
    hfall _ i (Nat.le_refl i) hi rfl
  intro n
  induction n using Nat.strongRecOn with
  | ind n ih =>
    intro j hij hj hrank
    have hstay : ∀ k, P (b.state (j + k)) ∧ rank (b.state (j + k)) = n ∧
        help (b.state (j + k)) = help (b.state j) := by
      intro k
      induction k with
      | zero => exact ⟨hj, hrank, rfl⟩
      | succ k ihk =>
        obtain ⟨hk, hkrank, hkhelp⟩ := ihk
        have hnext := b.next (j + k)
        cases ha : b.act (j + k) with
        | none =>
          rw [ha] at hnext
          have heq : b.state (j + k + 1) = b.state (j + k) := hnext
          rw [show j + (k + 1) = j + k + 1 from rfl, heq]
          exact ⟨hk, hkrank, hkhelp⟩
        | some a =>
          rw [ha] at hnext
          have hoka : ok a := hok (j + k) (by omega) a ha
          rcases hstep _ _ _ hk hnext.1 hoka hnext.2 with hq | ⟨hp, hlt | ⟨heq, hh, -⟩⟩
          · exact absurd ⟨j + k + 1, by omega, hq⟩ hnever
          · exact absurd rfl (ih _ (by omega) (j + k + 1) (by omega) hp)
          · exact ⟨hp, heq.trans hkrank, hh.trans hkhelp⟩
    have hcans : ∀ l, j ≤ l → CanAct S C cls (help (b.state j)) (b.state l) := by
      intro l hl
      obtain ⟨hk, -, hhelp⟩ := hstay (l - j)
      rw [show j + (l - j) = l by omega] at hk hhelp
      exact hhelp ▸ hcan _ hk
    obtain ⟨l, hl, a, ha, hcls⟩ := hfair _ j hcans
    obtain ⟨hk, hkrank, hkhelp⟩ := hstay (l - j)
    rw [show j + (l - j) = l by omega] at hk hkrank hkhelp
    have hnext := b.next l
    rw [show b.act l = some a from ha] at hnext
    rcases hstep _ _ _ hk hnext.1 (hok l (by omega) a ha) hnext.2 with hq | ⟨hp, hlt | ⟨-, -, hn⟩⟩
    · exact hnever ⟨l + 1, by omega, hq⟩
    · exact ih _ (by omega) (l + 1) (by omega) hp rfl
    · exact hn (hkhelp ▸ hcls)

end Behaviour

/-! ## Finite runs -/

/-- Nothing happens any more. -/
def Behaviour.still (S : System σ α) (C : σ → α → Prop) (s : σ) : Behaviour S C where
  state := fun _ => s
  act := fun _ => none
  next := fun _ => rfl

theorem still_fair {s : σ} (h : ∀ c, ¬ CanAct S C cls c s) : (Behaviour.still S C s).Fair cls :=
  fun c i hcan => absurd (hcan i (Nat.le_refl i)) (h c)

/-- One step before the run. -/
def Behaviour.cons (b : Behaviour S C) {s : σ} (a : α) (h : C s a ∧ S.step s a (b.state 0)) :
    Behaviour S C where
  state := fun i => match i with
    | 0 => s
    | i + 1 => b.state i
  act := fun i => match i with
    | 0 => some a
    | i + 1 => b.act i
  next := fun i => match i with
    | 0 => h
    | i + 1 => b.next i

theorem cons_fair {b : Behaviour S C} {s : σ} {a : α} (h : C s a ∧ S.step s a (b.state 0))
    (hb : b.Fair cls) : (b.cons a h).Fair cls := by
  intro c i hcan
  obtain ⟨j, hj, hact⟩ := hb c i fun j hj => hcan (j + 1) (by omega)
  exact ⟨j + 1, by omega, hact⟩

/-- Steps from one state to another. -/
inductive Steps (S : System σ α) (C : σ → α → Prop) : σ → List α → σ → Prop
  | nil (s : σ) : Steps S C s [] s
  | cons {s t u : σ} {a : α} {as : List α} :
      C s a → S.step s a t → Steps S C t as u → Steps S C s (a :: as) u

/-- What has happened before does not matter to fairness. -/
theorem Steps.before {s t : σ} {as : List α} (h : Steps S C s as t) (cls : κ → α → Prop) :
    ∀ b : Behaviour S C, b.state 0 = t → ∃ b' : Behaviour S C, b'.state 0 = s ∧
      (b.Fair cls → b'.Fair cls) ∧
      ∀ i, b'.state (as.length + i) = b.state i ∧ b'.act (as.length + i) = b.act i := by
  induction h with
  | nil s => exact fun b hb => ⟨b, hb, id, fun i => by simp⟩
  | @cons s t u a as hc hs _ ih =>
    intro b hb
    obtain ⟨b', h0, hfair, hlater⟩ := ih b hb
    have hcs : C s a ∧ S.step s a (b'.state 0) := ⟨hc, h0 ▸ hs⟩
    refine ⟨b'.cons a hcs, rfl, fun hf => cons_fair hcs (hfair hf), fun i => ?_⟩
    rw [List.length_cons, Nat.add_right_comm]
    exact hlater i

end Msvl.Trans
