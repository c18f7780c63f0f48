/-
  The words of `right` in the `$$Push` of msvl.c.

  function.cpp reads them from an `istringstream` (`words`).  msvl.c scans the string with two
  indices, `j` where a word begins and `i` where the scan stands.  A word is imported when the scan
  meets the white space behind it, then the white space is skipped.  So white space at the front
  imports a word of no characters, for which `dyn_array_import` returns NULL, and a word that the
  string ends with is never imported.

  1. `scan`, `pushRight` — the loop.  `i` is an `int`: `none` where it overflows.
  2. `kept` — what the scan stores, read off the string alone (`scan_kept`).
  3. `kept_finished` — the words but for an unfinished last one.
  4. `words_runs` — `words` are the maximal runs; `push_words_iff` — when msvl.c stores them.
-/
import LibMSVL.Function.Code
import Mathlib.Algebra.Group.Nat.Defs
import Mathlib.Data.List.Basic

namespace Msvl.Prsnt

open Msvl.Function (isspace words)

/-! ## The scan -/

/-- A word as it is stored: a `dyn_array_t` of its characters, or NULL. -/
abbrev Word := Option (List Char)

/-- `dyn_array_import` of characters that are there; of none it returns NULL. -/
def importWord (data : List Char) : Word := if data = [] then none else some data

/-- `i++` of an `int`. -/
def next (i : Nat) : Option Nat := if i + 1 < 2 ^ 31 then some (i + 1) else none

/-- `while(right[i] && isspace(right[i])) i++`, for `n` rounds at most. -/
def skip (right : List Char) : Nat → Nat → Option Nat
  | 0, i => some i
  | n + 1, i =>
    match right[i]? with
    | none => some i
    | some c => if isspace c then (next i).bind (skip right n) else some i

/-- `for(i = 0; right[i]; i++)`, for `n` rounds at most.  After white space `i--` and the `i++` of
    the loop leave `i` where the skipping has ended. -/
def scan (right : List Char) : Nat → Nat → Nat → List Word → Option (List Word)
  | 0, _, _, stored => some stored
  | n + 1, i, j, stored =>
    match right[i]? with
    | none => some stored
    | some c =>
      if isspace c then
        let temp := importWord ((right.take i).drop j)
        (skip right right.length i).bind fun i => scan right n i i (stored ++ [temp])
      else (next i).bind fun i => scan right n i j stored

/-- `ele->right` after `$$Push`; `none` for NULL as the argument. -/
def pushRight : Option (List Char) → Option (List Word)
  | none => some []
  | some right => scan right right.length 0 0 []

/-! ## What is stored -/

/-- What a scan stores of the rest of the string: in a word, of which it has `w`, or behind one. -/
def kept : Option (List Char) → List Char → List Word
  | _, [] => []
  | none, c :: rest => if isspace c then kept none rest else kept (some [c]) rest
  | some w, c :: rest =>
    if isspace c then importWord w :: kept none rest else kept (some (w ++ [c])) rest

/-- White space is passed, one character or all of it. -/
theorem kept_none {rest : List Char} (h : ∀ c ∈ rest.head?, isspace c = false) :
    kept none rest = kept (some []) rest := by
  cases rest with
  | nil => rfl
  | cons c rest =>
    have hc : isspace c = false := h c rfl
    rw [kept, kept, hc]
    rfl

theorem skip_spec {right : List Char} (hlen : right.length < 2 ^ 31) :
    ∀ n i, i ≤ right.length → right.length ≤ i + n → ∃ k, skip right n i = some k ∧ i ≤ k ∧
      k ≤ right.length ∧ kept none (right.drop i) = kept (some []) (right.drop k) := by
  intro n
  induction n with
  | zero =>
    intro i hi hn
    refine ⟨i, rfl, Nat.le_refl i, hi, ?_⟩
    rw [List.drop_eq_nil_of_le (by omega)]
    rfl
  | succ n ih =>
    intro i hi hn
    rw [skip]
    cases hc : right[i]? with
    | none =>
      have hend := List.getElem?_eq_none_iff.mp hc
      refine ⟨i, rfl, Nat.le_refl i, hi, ?_⟩
      rw [List.drop_eq_nil_of_le hend]
      rfl
    | some c =>
      obtain ⟨hlt, hget⟩ := List.getElem?_eq_some_iff.mp hc
      have hdrop := List.drop_eq_getElem_cons hlt
      rw [hget] at hdrop
      by_cases hspace : isspace c
      · obtain ⟨k, hk, hik, hle, hkept⟩ := ih (i + 1) (by omega) (by omega)
        refine ⟨k, ?_, by omega, hle, ?_⟩
        · show (if isspace c then (next i).bind (skip right n) else some i) = some k
          rw [if_pos hspace, next, if_pos (by omega), Option.bind_some, hk]
        · rw [hdrop, kept, if_pos hspace, hkept]
      · refine ⟨i, ?_, Nat.le_refl i, hi, ?_⟩
        · show (if isspace c then (next i).bind (skip right n) else some i) = some i
          rw [if_neg hspace]
        · refine kept_none ?_
          rw [hdrop]
          rintro _ ⟨⟩
          exact Bool.eq_false_iff.mpr hspace

/-- The skipping goes forward, and does not reach `2 ^ 31`. -/
theorem skip_le {right : List Char} : ∀ n i k, skip right n i = some k →
    i ≤ k ∧ (i < 2 ^ 31 → k < 2 ^ 31) := by
  intro n
  induction n with
  | zero =>
    rintro i _ ⟨⟩
    exact ⟨Nat.le_refl i, id⟩
  | succ n ih =>
    intro i k hk
    rw [skip] at hk
    split at hk
    · cases hk
      exact ⟨Nat.le_refl i, id⟩
    · split at hk
      · obtain ⟨m, hm, hk⟩ := Option.bind_eq_some_iff.mp hk
        rw [next] at hm
        split at hm
        · cases hm
          obtain ⟨hle, hlt⟩ := ih _ _ hk
          exact ⟨by omega, fun _ => hlt (by omega)⟩
        · cases hm
      · cases hk
        exact ⟨Nat.le_refl i, id⟩

/-- White space where it begins is passed. -/
theorem lt_of_skip {right : List Char} {i k : Nat} {c : Char} (hc : right[i]? = some c)
    (hspace : isspace c = true) (hk : skip right right.length i = some k) : i < k := by
  have hlt := (List.getElem?_eq_some_iff.mp hc).1
  cases hn : right.length with
  | zero => omega
  | succ n =>
    rw [hn, skip, hc] at hk
    obtain ⟨m, hm, hk⟩ := Option.bind_eq_some_iff.mp ((if_pos hspace).symm.trans hk)
    rw [next] at hm
    split at hm
    · cases hm
      exact (skip_le _ _ _ hk).1
    · cases hm

theorem take_drop_succ {right : List Char} {i j : Nat} (hj : j ≤ i) (hi : i < right.length) :
    (right.take (i + 1)).drop j = (right.take i).drop j ++ [right[i]] := by
  rw [List.take_add_one, List.getElem?_eq_getElem hi, Option.toList_some,
    List.drop_append_of_le_length (by rw [List.length_take]; omega)]

theorem take_drop_self (right : List Char) (k : Nat) : (right.take k).drop k = [] :=
  List.drop_eq_nil_of_le (List.length_take_le k right)

/-- **The scan** stores what stands before it, and what is kept of the rest. -/
theorem scan_kept {right : List Char} (hlen : right.length < 2 ^ 31) :
    ∀ n i j stored, j ≤ i → i ≤ right.length → right.length ≤ i + n →
      scan right n i j stored =
        some (stored ++ kept (some ((right.take i).drop j)) (right.drop i)) := by
  intro n
  induction n with
  | zero =>
    intro i j stored _ hi hn
    have hend : right.drop i = [] := List.drop_eq_nil_of_le (by omega)
    rw [hend, scan, kept, List.append_nil]
  | succ n ih =>
    intro i j stored hj hi hn
    rw [scan]
    cases hc : right[i]? with
    | none =>
      have hend : right.drop i = [] := List.drop_eq_nil_of_le (List.getElem?_eq_none_iff.mp hc)
      rw [hend, kept, List.append_nil]
    | some c =>
      obtain ⟨hlt, hget⟩ := List.getElem?_eq_some_iff.mp hc
      have hdrop := List.drop_eq_getElem_cons hlt
      rw [hget] at hdrop
      show (if isspace c then _ else _) = _
      by_cases hspace : isspace c
      · obtain ⟨k, hk, hik, hle, hkept⟩ :=
          skip_spec hlen right.length i hi (Nat.le_add_left _ _)
        have hlt' := lt_of_skip hc hspace hk
        rw [hdrop, kept, if_pos hspace] at hkept
        rw [if_pos hspace, hk, Option.bind_some, ih k k _ (Nat.le_refl k) hle (by omega), hdrop,
          kept, if_pos hspace, List.append_assoc, hkept, take_drop_self]
        rfl
      · rw [if_neg hspace, next, if_pos (by omega), Option.bind_some,
          ih (i + 1) j stored (by omega) (by omega) (by omega), take_drop_succ hj hlt, hget, hdrop,
          kept, if_neg hspace]

/-- A scan to the end of the string has not overflowed. -/
theorem scan_lt {right : List Char} : ∀ n i j stored words, i < 2 ^ 31 → right.length ≤ i + n →
    scan right n i j stored = some words → right.length < 2 ^ 31 := by
  intro n
  induction n with
  | zero =>
    intro i _ _ _ hi hn _
    omega
  | succ n ih =>
    intro i j stored words hi hn hscan
    rw [scan] at hscan
    split at hscan
    · next hc =>
      have := List.getElem?_eq_none_iff.mp hc
      omega
    · next c hc =>
      split at hscan
      · next hspace =>
        obtain ⟨k, hk, hscan⟩ := Option.bind_eq_some_iff.mp hscan
        have hik := lt_of_skip hc hspace hk
        exact ih k k _ _ ((skip_le _ _ _ hk).2 hi) (by omega) hscan
      · obtain ⟨k, hk, hscan⟩ := Option.bind_eq_some_iff.mp hscan
        rw [next] at hk
        split at hk
        · cases hk
          exact ih _ _ _ _ (by omega) (by omega) hscan
        · cases hk

/-! ## The words -/

/-- The string ends with white space, or is empty: no word is unfinished. -/
def Finished (right : List Char) : Prop := ∀ c ∈ right.getLast?, isspace c = true

/-- The string does not begin with white space. -/
def AtWord (right : List Char) : Prop := ∀ c ∈ right.head?, isspace c = false

instance (right : List Char) : Decidable (Finished right) := Option.decidableForallMem right.getLast?

instance (right : List Char) : Decidable (AtWord right) := Option.decidableForallMem right.head?

theorem words_space {c : Char} {rest : List Char} (hc : isspace c = true) :
    words (c :: rest) = words rest := if_pos hc

theorem words_single {c : Char} (hc : isspace c = false) : words [c] = [[c]] :=
  if_neg (Bool.eq_false_iff.mp hc)

/-- A character in a word, by the one behind it. -/
theorem words_cons {c d : Char} {rest : List Char} (hc : isspace c = false) :
    words (c :: d :: rest) =
      if isspace d then [c] :: words (d :: rest)
      else match words (d :: rest) with
        | [] => [[c]]
        | w :: ws => (c :: w) :: ws :=
  if_neg (Bool.eq_false_iff.mp hc)

/-- A word, and what stands behind it. -/
theorem words_append {w rest : List Char} (hw : ∀ c ∈ w, isspace c = false) (hne : w ≠ [])
    (hrest : ∀ c ∈ rest.head?, isspace c = true) : words (w ++ rest) = w :: words rest := by
  induction w with
  | nil => exact absurd rfl hne
  | cons a w ih =>
    have ha : isspace a = false := hw a List.mem_cons_self
    cases w with
    | nil =>
      cases rest with
      | nil => exact words_single ha
      | cons c rest =>
        have hc : isspace c = true := hrest c rfl
        rw [List.cons_append, List.nil_append, words_cons ha, if_pos hc]
    | cons b w =>
      have hb : isspace b = false := hw b (List.mem_cons_of_mem _ List.mem_cons_self)
      have htail := ih (fun c hc => hw c (List.mem_cons_of_mem _ hc)) (List.cons_ne_nil b w)
      rw [List.cons_append] at htail
      rw [List.cons_append, List.cons_append, words_cons ha, hb, if_neg Bool.false_ne_true, htail]

/-- **`words` are the maximal runs** of characters that are no white space, in order. -/
theorem words_runs (right : List Char) :
    words right = (right.splitOnP isspace).filter fun w => !w.isEmpty := by
  induction right with
  | nil => rfl
  | cons c rest ih =>
    rw [List.splitOnP_cons_eq_if_modifyHead]
    by_cases hc : isspace c
    · rw [words_space hc, if_pos hc, ih]
      rfl
    · rw [if_neg hc]
      have hc : isspace c = false := Bool.eq_false_iff.mpr hc
      cases rest with
      | nil => exact words_single hc
      | cons d rest =>
        rw [words_cons hc, ih, List.splitOnP_cons_eq_if_modifyHead]
        by_cases hd : isspace d
        · rw [if_pos hd, if_pos hd]
          rfl
        · rw [if_neg hd, if_neg hd]
          cases hrest : rest.splitOnP isspace with
          | nil => exact absurd hrest (List.splitOnP_ne_nil _ _)
          | cons v vs => rfl

/-- Where a word is unfinished there is a word. -/
theorem words_ne_nil {right : List Char} (h : ¬ Finished right) : words right ≠ [] := by
  induction right with
  | nil => exact absurd (by rintro c ⟨⟩) h
  | cons c rest ih =>
    by_cases hc : isspace c
    · rw [words_space hc]
      refine ih fun hrest => h ?_
      cases rest with
      | nil =>
        rintro _ ⟨⟩
        exact hc
      | cons d rest =>
        intro e he
        rw [List.getLast?_cons_cons] at he
        exact hrest e he
    · have hc : isspace c = false := Bool.eq_false_iff.mpr hc
      cases rest with
      | nil =>
        rw [words_single hc]
        exact List.cons_ne_nil _ _
      | cons d rest =>
        rw [words_cons hc]
        split
        · exact List.cons_ne_nil _ _
        · split <;> exact List.cons_ne_nil _ _

/-- The words that white space follows. -/
def finished (right : List Char) : List (List Char) :=
  if Finished right then words right else (words right).dropLast

theorem finished_space {c : Char} {rest : List Char} (hc : isspace c = true) :
    finished (c :: rest) = finished rest := by
  have hiff : Finished (c :: rest) ↔ Finished rest := by
    cases rest with
    | nil =>
      refine ⟨fun _ => by rintro d ⟨⟩, fun _ => ?_⟩
      rintro _ ⟨⟩
      exact hc
    | cons d rest =>
      unfold Finished
      rw [List.getLast?_cons_cons]
  rw [finished, finished, words_space hc]
  by_cases h : Finished rest
  · rw [if_pos (hiff.mpr h), if_pos h]
  · rw [if_neg (mt hiff.mp h), if_neg h]

theorem finished_word {w rest : List Char} {c : Char} (hw : ∀ d ∈ w, isspace d = false)
    (hne : w ≠ []) (hc : isspace c = true) : finished (w ++ c :: rest) = w :: finished rest := by
  have hwords : words (w ++ c :: rest) = w :: words (c :: rest) := by
    refine words_append hw hne ?_
    rintro _ ⟨⟩
    exact hc
  have hiff : Finished (w ++ c :: rest) ↔ Finished (c :: rest) := by
    unfold Finished
    rw [List.getLast?_append, List.getLast?_cons, Option.some_or]
  have hspace : finished rest = finished (c :: rest) := (finished_space hc).symm
  rw [hspace, finished, finished, hwords]
  by_cases h : Finished (c :: rest)
  · rw [if_pos (hiff.mpr h), if_pos h]
  · rw [if_neg (mt hiff.mp h), if_neg h, List.dropLast_cons_of_ne_nil (words_ne_nil h)]

/-- **What is kept** of a string that begins with a word, or behind white space, are its finished
    words. -/
theorem kept_finished (rest : List Char) :
    kept none rest = (finished rest).map some ∧
    ∀ w, w ≠ [] → (∀ c ∈ w, isspace c = false) →
      kept (some w) rest = (finished (w ++ rest)).map some := by
  induction rest with
  | nil =>
    refine ⟨rfl, fun w hne hw => ?_⟩
    have hunfinished : ¬ Finished w := by
      intro h
      have hlast := h _ (List.getLast?_eq_some_getLast hne)
      rw [hw _ (List.getLast_mem hne)] at hlast
      cases hlast
    have hwords : words w = [w] := by
      have h : words (w ++ []) = w :: words [] := words_append hw hne (by rintro c ⟨⟩)
      rwa [List.append_nil] at h
    rw [List.append_nil, finished, if_neg hunfinished, hwords]
    rfl
  | cons c rest ih =>
    obtain ⟨ihNone, ihSome⟩ := ih
    by_cases hc : isspace c
    · refine ⟨?_, fun w hne hw => ?_⟩
      · rw [kept, if_pos hc, ihNone, finished_space hc]
      · rw [kept, if_pos hc, ihNone, finished_word hw hne hc, importWord, if_neg hne]
        rfl
    · have hc : isspace c = false := Bool.eq_false_iff.mpr hc
      refine ⟨?_, fun w hne hw => ?_⟩
      · rw [kept, hc, if_neg Bool.false_ne_true]
        refine ihSome [c] (List.cons_ne_nil _ _) fun d hd => ?_
        rw [List.mem_singleton.mp hd]
        exact hc
      · rw [kept, hc, if_neg Bool.false_ne_true, ihSome (w ++ [c]) (by simp), List.append_assoc]
        · rfl
        · intro d hd
          rcases List.mem_append.mp hd with hd | hd
          · exact hw d hd
          · rw [List.mem_singleton.mp hd]
            exact hc

/-! ## Both tokenisers -/

/-- The words stored are those that function.cpp stores. -/
def SameWords (right : List Char) : Prop := pushRight (some right) = some ((words right).map some)

instance (right : List Char) : Decidable (SameWords right) :=
  inferInstanceAs (Decidable (_ = _))

theorem kept_start {right : List Char} :
    kept (some []) right = (words right).map some ↔ AtWord right ∧ Finished right := by
  cases right with
  | nil => exact ⟨fun _ => ⟨by rintro c ⟨⟩, by rintro c ⟨⟩⟩, fun _ => rfl⟩
  | cons c rest =>
    by_cases hc : isspace c
    · -- NULL for the word in front of the white space
      constructor
      · intro h
        rw [kept, if_pos hc, words_space hc, importWord, if_pos rfl] at h
        cases hwords : words rest with
        | nil =>
          rw [hwords] at h
          cases h
        | cons w ws =>
          rw [hwords] at h
          cases h
      · rintro ⟨hat, -⟩
        rw [hat c rfl] at hc
        cases hc
    · have hc : isspace c = false := Bool.eq_false_iff.mpr hc
      have hat : AtWord (c :: rest) := by
        rintro _ ⟨⟩
        exact hc
      have hkept : kept (some []) (c :: rest) = (finished (c :: rest)).map some := by
        rw [kept, hc, if_neg Bool.false_ne_true]
        refine (kept_finished rest).2 [c] (List.cons_ne_nil _ _) fun d hd => ?_
        rw [List.mem_singleton.mp hd]
        exact hc
      rw [hkept, finished]
      by_cases hfin : Finished (c :: rest)
      · rw [if_pos hfin]
        exact ⟨fun _ => ⟨hat, hfin⟩, fun _ => rfl⟩
      · rw [if_neg hfin]
        refine ⟨fun h => ?_, fun h => absurd h.2 hfin⟩
        have hlen := congrArg List.length h
        have hpos := List.length_pos_iff.mpr (words_ne_nil hfin)
        rw [List.length_map, List.length_map, List.length_dropLast] at hlen
        omega

/-- **The two tokenisers agree** on the strings that begin with a word and end with white space, and
    on the empty string, as long as an `int` counts the characters. -/
theorem push_words_iff (right : List Char) :
    SameWords right ↔ right.length < 2 ^ 31 ∧ AtWord right ∧ Finished right := by
  have hpush : pushRight (some right) = scan right right.length 0 0 [] := rfl
  rw [SameWords, hpush]
  constructor
  · intro h
    have hlen := scan_lt _ _ _ _ _ (by decide) (Nat.le_add_left _ _) h
    refine ⟨hlen, kept_start.mp ?_⟩
    rw [scan_kept hlen _ 0 0 [] (Nat.le_refl 0) (Nat.zero_le _) (Nat.le_add_left _ _)] at h
    exact Option.some.inj h
  · rintro ⟨hlen, hcond⟩
    rw [scan_kept hlen _ 0 0 [] (Nat.le_refl 0) (Nat.zero_le _) (Nat.le_add_left _ _)]
    exact congrArg some (kept_start.mpr hcond)

/-- The last word is lost; white space at the front is stored as a word. -/
theorem word_lost : ¬ SameWords ['x'] ∧
    pushRight (some ['x', ' ', 'y']) = some [some ['x']] ∧
    pushRight (some [' ', 'x', ' ']) = some [none, some ['x']] := by decide

end Msvl.Prsnt
