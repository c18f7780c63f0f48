/-
  `is_prime` and `find_next_prime` of `dyn_hash_map.c`.

  Trial division up to the square root, in `int`.  The bound of the loop is the product `i * i`,
  which leaves the `int` range at `i = 46341`: a composite number shows a divisor before that, a
  prime from `46340 * 46340` on does not.

  Conventions of the translation: an `int` is an `Int`, a `size_t` a `Nat`; a signed overflow has no
  defined result and gives `none`.  A loop is given more rounds than it can use (`trial_eq`).
  `MAX_INT` is defined nowhere; it is read as `INT_MAX`.

  * `trial_eq` — the loop, by induction on the rounds left: no divisor below `i`;
  * `isPrime_eq` — what `is_prime` answers for every `int` from 2 on;
  * `findNextPrime_eq` — what `find_next_prime` answers where there is a prime to be found;
  * `primeSearch_iff` — the headline.
-/
import LibMSVL.Lib.Primality
import Mathlib.Order.Bounds.Basic
import Mathlib.Tactic.IntervalCases
import Mathlib.Tactic.NormNum.Prime
import Mathlib.Tactic.ReduceModChar

namespace Msvl.HashMap

open Msvl.Primality

/-- `MAX_INT`. -/
def maxInt : Nat := 2 ^ 31 - 1

/-- The loop `for (i = 2; i * i <= n; i++)` of `is_prime`, with the number of rounds left. -/
def trial (n : Nat) : Nat → Nat → Option Bool
  | 0, _ => none
  | rounds + 1, i =>
    if i * i ≤ maxInt then
      if i * i ≤ n then
        if n % i = 0 then some false else trial n rounds (i + 1)
      else some true
    else none

/-- `is_prime`. -/
def isPrime (n : Int) : Option Bool := if n < 2 then some false else trial n.toNat n.toNat 2

/-- The loop `for (i = start + 1; i < MAX_INT; i++)` of `find_next_prime`. -/
def nextFrom : Nat → Int → Option Int
  | 0, _ => some maxInt
  | rounds + 1, i =>
    if i < maxInt then
      (isPrime i).bind fun b => if b then some i else nextFrom rounds (i + 1)
    else some maxInt

/-- `find_next_prime`. -/
def findNextPrime (start : Int) : Option Int :=
  if start < maxInt then nextFrom (maxInt - start).toNat (start + 1) else none

/-! ## Trial division -/

/-- The first number whose trial division, if it has no divisor, forms a product out of range:
    the largest square in range. -/
def squareLimit : Nat := 46340 * 46340

/-- What trial division of `n` comes to. -/
def trialResult (n : Nat) : Option Bool :=
  if n.Prime then if n < squareLimit then some true else none else some false

theorem square_le_maxInt_iff (i : Nat) : i * i ≤ maxInt ↔ i ≤ 46340 := by
  unfold maxInt
  constructor
  · intro h
    by_contra hgt
    have : 46341 * 46341 ≤ i * i := Nat.mul_self_le_mul_self (by omega)
    omega
  · intro h
    have : i * i ≤ 46340 * 46340 := Nat.mul_self_le_mul_self h
    omega

/-- **The loop**: with no divisor below `i`, and `i` not past the square root by more than one.
    Induction on the rounds left. -/
theorem trial_eq {n : Nat} (hn : 2 ≤ n) (hmax : n ≤ maxInt) :
    ∀ rounds i, 2 ≤ i → n + 2 ≤ rounds + i → (i - 1) * (i - 1) ≤ n →
      (∀ j, 2 ≤ j → j < i → ¬ j ∣ n) → trial n rounds i = trialResult n := by
  intro rounds
  induction rounds with
  | zero =>
    intro i _ hr hsq _
    have : (n + 1) * (n + 1) ≤ (i - 1) * (i - 1) := Nat.mul_self_le_mul_self (by omega)
    have : n + 1 ≤ (n + 1) * (n + 1) := Nat.le_mul_self _
    omega
  | succ rounds ih =>
    intro i hi hr hsq hno
    rw [trial, trialResult]
    by_cases hrange : i * i ≤ maxInt
    · rw [if_pos hrange]
      by_cases hle : i * i ≤ n
      · rw [if_pos hle]
        by_cases hdvd : n % i = 0
        · rw [if_pos hdvd, if_neg (not_prime_of_divisor hi hle (Nat.dvd_of_mod_eq_zero hdvd))]
        · rw [if_neg hdvd]
          refine ih (i + 1) (by omega) (by omega) (by simpa using hle) fun j hj hji => ?_
          rcases Nat.lt_or_eq_of_le (Nat.lt_succ_iff.mp hji) with hlt | rfl
          · exact hno j hj hlt
          · exact fun h => hdvd (Nat.mod_eq_zero_of_dvd h)
      · -- past the square root
        have hp : n.Prime := by
          refine prime_of_untried (b := i - 1) hn ?_ fun d hd hle => hno d hd (by omega)
          rw [Nat.sub_add_cancel (by omega)]
          exact Nat.not_le.mp hle
        have hlim : n < squareLimit := by
          have := (square_le_maxInt_iff i).mp hrange
          have : i * i ≤ 46340 * 46340 := Nat.mul_self_le_mul_self this
          unfold squareLimit
          omega
        rw [if_neg hle, if_pos hp, if_pos hlim]
    · rw [if_neg hrange]
      have hi' : 46340 < i := by
        have := (square_le_maxInt_iff i).not.mp hrange
        omega
      have hlim : squareLimit ≤ n := by
        have : 46340 * 46340 ≤ (i - 1) * (i - 1) := Nat.mul_self_le_mul_self (by omega)
        unfold squareLimit
        omega
      -- every divisor up to the square root has been tried
      have hp : n.Prime := by
        refine prime_of_untried (b := 46340) hn ?_ fun d hd hle => hno d hd (by omega)
        unfold maxInt at hmax
        omega
      rw [if_pos hp, if_neg (by omega)]

/-- **`is_prime`** decides primality, except that it overflows on the primes from `squareLimit` on. -/
theorem isPrime_eq {n : Nat} (hmax : n ≤ maxInt) : isPrime n = trialResult n := by
  rw [isPrime]
  by_cases hn : n < 2
  · rw [if_pos (by omega), trialResult, if_neg]
    exact fun hp => absurd hp.two_le (by omega)
  · rw [if_neg (by omega), Int.toNat_natCast]
    refine trial_eq (by omega) hmax n 2 (Nat.le_refl _) (Nat.le_refl _) (by omega) fun j hj hlt => ?_
    omega

/-! ## The next prime -/

/-- The search reaches the first prime from `i` on.  Induction on the rounds left. -/
theorem nextFrom_eq {p : Nat} (hp : p.Prime) (hmax : p < maxInt) :
    ∀ rounds i : Nat, i ≤ p → p < rounds + i → (∀ q, i ≤ q → q < p → ¬ q.Prime) →
      nextFrom rounds i = if p < squareLimit then some (p : Int) else none := by
  intro rounds
  induction rounds with
  | zero => intro i hi hr _; omega
  | succ rounds ih =>
    intro i hi hr hno
    rw [nextFrom, if_pos (by omega), isPrime_eq (by omega), trialResult]
    rcases Nat.lt_or_eq_of_le hi with hlt | rfl
    · rw [if_neg (hno i (Nat.le_refl _) hlt), Option.bind_some, if_neg (by decide)]
      exact ih (i + 1) hlt (by omega) fun q hq => hno q (by omega)
    · rw [if_pos hp]
      by_cases hlim : i < squareLimit
      · rw [if_pos hlim, if_pos hlim, Option.bind_some, if_pos rfl]
      · rw [if_neg hlim, if_neg hlim, Option.bind_none]

/-- `p` is the least prime from `n` on. -/
def LeastPrime (n p : Nat) : Prop := IsLeast {q | q.Prime ∧ n ≤ q} p

theorem exists_leastPrime (n : Nat) : ∃ p, LeastPrime n p := by
  obtain ⟨q, hq, hp⟩ := Nat.exists_infinite_primes n
  have hex : ∃ q, q.Prime ∧ n ≤ q := ⟨q, hp, hq⟩
  exact ⟨Nat.find hex, Nat.find_spec hex, fun r hr => Nat.find_min' hex hr⟩

/-- **`find_next_prime`**: the next prime, unless testing it overflows. -/
theorem findNextPrime_eq {start p : Nat} (hp : LeastPrime (start + 1) p) (hmax : p < maxInt) :
    findNextPrime start = if p < squareLimit then some (p : Int) else none := by
  have hle := hp.1.2
  rw [findNextPrime, if_pos (by omega)]
  have hno : ∀ q, start + 1 ≤ q → q < p → ¬ q.Prime := fun q hq hlt hprime =>
    absurd (hp.2 ⟨hprime, hq⟩) (by omega)
  exact nextFrom_eq hp.1.1 hmax _ (start + 1) hle (by omega) hno

/-! ## The largest primes -/

/-- The largest prime below `MAX_INT`. -/
def lastPrime : Nat := 2147483629

/-- The largest prime below the largest square in range. -/
def lastTested : Nat := 2147395589

/-- By Lucas's test: 2 generates the units. -/
theorem lastPrime_prime : lastPrime.Prime := by
  show Nat.Prime 2147483629
  refine prime_of_powers (2 : ZMod 2147483629) [2, 2, 3, 3, 59652323] (by norm_num) ?_
    (by reduce_mod_char) ?_
  · simp only [List.forall_mem_cons]
    norm_num
  · simp only [List.forall_mem_cons]
    refine ⟨?_, ?_, ?_, ?_, ?_, nofun⟩
    all_goals norm_num; reduce_mod_char; decide

theorem lastTested_prime : lastTested.Prime := by
  show Nat.Prime 2147395589
  refine prime_of_powers (2 : ZMod 2147395589) [2, 2, 13, 83, 647, 769] (by norm_num) ?_
    (by reduce_mod_char) ?_
  · simp only [List.forall_mem_cons]
    norm_num
  · simp only [List.forall_mem_cons]
    refine ⟨?_, ?_, ?_, ?_, ?_, ?_, nofun⟩
    all_goals norm_num; reduce_mod_char; decide

theorem lastPrime_greatest : IsGreatest {q | q.Prime ∧ q < maxInt} lastPrime := by
  refine ⟨⟨lastPrime_prime, by decide⟩, ?_⟩
  rintro q ⟨hq, hmax⟩
  by_contra hgt
  have hlo : 2147483629 < q := Nat.not_le.mp hgt
  have hhi : q < 2147483647 := hmax
  interval_cases q <;> revert hq <;> norm_num

theorem lastTested_greatest : IsGreatest {q | q.Prime ∧ q < squareLimit} lastTested := by
  refine ⟨⟨lastTested_prime, by decide⟩, ?_⟩
  rintro q ⟨hq, hlim⟩
  by_contra hgt
  have hlo : 2147395589 < q := Nat.not_le.mp hgt
  have hhi : q < 2147395600 := hlim
  interval_cases q <;> revert hq <;> norm_num

/-! ## The law -/

/-- `is_prime(n)` ends and says whether `n` is prime; no negative number is. -/
def Decides (n : Int) : Prop := ∃ b, isPrime n = some b ∧ (b = true ↔ n.toNat.Prime)

/-- `find_next_prime(start)` ends with the least prime above `start`. -/
def Finds (start : Int) : Prop :=
  ∃ p : Nat, IsLeast {q : Nat | q.Prime ∧ start < q} p ∧ findNextPrime start = some (p : Int)

/-- A number past the largest square in range is decided by a divisor, if it has one. -/
theorem decides_iff {n : Int} (hmax : n ≤ maxInt) :
    Decides n ↔ n < squareLimit ∨ ∃ d : Nat, 2 ≤ d ∧ d ≤ 46340 ∧ (d : Int) ∣ n := by
  have hlimit : squareLimit = 2147395600 := rfl
  by_cases hsmall : n < 2
  · have hno : ¬ n.toNat.Prime := fun hp => absurd hp.two_le (by omega)
    refine iff_of_true ⟨false, by rw [isPrime, if_pos hsmall], ?_⟩ (.inl (by omega))
    exact iff_of_false nofun hno
  · obtain ⟨m, rfl⟩ := Int.eq_ofNat_of_zero_le (show 0 ≤ n by omega)
    have hm : m ≤ maxInt := by omega
    rw [Decides, isPrime_eq hm, trialResult, Int.toNat_natCast]
    by_cases hp : m.Prime
    · rw [if_pos hp]
      by_cases hlim : m < squareLimit
      · rw [if_pos hlim]
        exact iff_of_true ⟨true, rfl, iff_of_true rfl hp⟩ (.inl (by omega))
      · rw [if_neg hlim]
        refine iff_of_false (fun ⟨_, hb, _⟩ => nomatch hb) ?_
        rintro (hlt | ⟨d, hd, hle, hdvd⟩)
        · omega
        · have hsq : d * d ≤ 46340 * 46340 := Nat.mul_self_le_mul_self hle
          exact not_prime_of_divisor hd (by omega) (Int.natCast_dvd_natCast.mp hdvd) hp
    · rw [if_neg hp]
      refine iff_of_true ⟨false, rfl, iff_of_false nofun hp⟩ ?_
      obtain ⟨d, hd, hsq, hdvd⟩ := exists_divisor (by omega) hp
      have hle := (square_le_maxInt_iff d).mp (Nat.le_trans hsq hm)
      exact .inr ⟨d, hd, hle, Int.natCast_dvd_natCast.mpr hdvd⟩

/-- The search goes as far as the next prime can be tested. -/
theorem finds_iff {start : Int} {top : Nat} (htop : IsGreatest {q | q.Prime ∧ q < maxInt} top)
    (hstart : 0 ≤ start) (hlt : start < top) : Finds start ↔ start < lastTested := by
  obtain ⟨s, rfl⟩ := Int.eq_ofNat_of_zero_le hstart
  obtain ⟨p, hp⟩ := exists_leastPrime (s + 1)
  have hset : {q : Nat | q.Prime ∧ (s : Int) < q} = {q | q.Prime ∧ s + 1 ≤ q} := by
    ext q
    exact and_congr_right fun _ => by omega
  have hpmax : p < maxInt := by
    have hle := hp.2 ⟨htop.1.1, show s + 1 ≤ top by omega⟩
    have hmax := htop.1.2
    omega
  rw [Finds, hset, findNextPrime_eq hp hpmax]
  have hs := hp.1.2
  by_cases hlim : p < squareLimit
  · have hle := lastTested_greatest.2 ⟨hp.1.1, hlim⟩
    rw [if_pos hlim]
    exact iff_of_true ⟨p, hp, rfl⟩ (by omega)
  · have hlast := lastTested_greatest.1
    rw [if_neg hlim]
    refine iff_of_false (fun ⟨_, _, hnone⟩ => nomatch hnone) fun hcon => ?_
    -- the last prime that can be tested would be the next one
    have hle := hp.2 ⟨hlast.1, show s + 1 ≤ lastTested by omega⟩
    exact hlim (Nat.lt_of_le_of_lt hle hlast.2)

/-- **The prime search.**  `is_prime` decides every `int` but the primes past the largest square in
    range: those below it, and those with a divisor up to its root.  `find_next_prime` finds the next
    prime from every `start` below the last one that can be tested. -/
theorem primeSearch_iff {n start : Int} {top : Nat} (hmax : n ≤ maxInt)
    (htop : IsGreatest {q | q.Prime ∧ q < maxInt} top) (hstart : 0 ≤ start) (hlt : start < top) :
    (Decides n ↔ n < squareLimit ∨ ∃ d : Nat, 2 ≤ d ∧ d ≤ 46340 ∧ (d : Int) ∣ n) ∧
    (Finds start ↔ start < lastTested) :=
  ⟨decides_iff hmax, finds_iff htop hstart hlt⟩

/-- The last prime that can be tested. -/
theorem last_tested_found : Decides 2147395589 ∧ Finds 2147395588 := by
  have h : (Decides 2147395589 ↔ _) ∧ (Finds 2147395588 ↔ _) :=
    primeSearch_iff (by decide) lastPrime_greatest (by decide) (by decide)
  exact ⟨h.1.mpr (.inl (by decide)), h.2.mpr (by decide)⟩

/-- The largest prime below `MAX_INT`: its test overflows, and so does the search for it. -/
theorem last_prime_overflows :
    IsGreatest {q | q.Prime ∧ q < maxInt} 2147483629 ∧ ¬ Decides 2147483629 ∧ ¬ Finds 2147483628 := by
  refine ⟨lastPrime_greatest, ?_, ?_⟩
  · have hnone : isPrime lastPrime = none := by
      rw [isPrime_eq (by decide), trialResult, if_pos lastPrime_prime, if_neg (by decide)]
    rintro ⟨b, hb, -⟩
    cases hnone.symm.trans hb
  · intro hfinds
    have hlt := (finds_iff lastPrime_greatest (by decide) (by decide)).mp hfinds
    exact absurd hlt (by decide)

end Msvl.HashMap
