/-
  Primes: by the divisors that have to be tried, and by certificate.

  * `exists_divisor` — a composite number has a divisor whose square does not exceed it;
  * `prime_of_untried` — so it is enough to try the divisors up to a bound whose successor's square
                         is past the number;
  * `prime_of_powers` — Lucas's test, from a list of the prime factors of `p - 1`.
-/
import Mathlib.Data.List.Prime
import Mathlib.NumberTheory.LucasPrimality

namespace Msvl.Primality

/-! ## Trial division -/

theorem exists_divisor {n : Nat} (hn : 2 ≤ n) (hp : ¬ n.Prime) :
    ∃ d, 2 ≤ d ∧ d * d ≤ n ∧ d ∣ n := by
  have hsq := Nat.minFac_sq_le_self (by omega) hp
  rw [Nat.pow_two] at hsq
  exact ⟨n.minFac, (Nat.minFac_prime (by omega)).two_le, hsq, Nat.minFac_dvd n⟩

/-- No divisor up to `b`, and the square of `b + 1` is past `n`. -/
theorem prime_of_untried {n b : Nat} (hn : 2 ≤ n) (hb : n < (b + 1) * (b + 1))
    (hno : ∀ d, 2 ≤ d → d ≤ b → ¬ d ∣ n) : n.Prime := by
  by_contra hp
  obtain ⟨d, hd, hsq, hdvd⟩ := exists_divisor hn hp
  have hle : d ≤ b := by
    by_contra hgt
    have hmul : (b + 1) * (b + 1) ≤ d * d := Nat.mul_self_le_mul_self (by omega)
    omega
  exact hno d hd hle hdvd

/-- A divisor whose square does not exceed the number is a proper one. -/
theorem not_prime_of_divisor {n d : Nat} (hd : 2 ≤ d) (hsq : d * d ≤ n) (hdvd : d ∣ n) :
    ¬ n.Prime := by
  refine Nat.not_prime_of_dvd_of_ne hdvd (by omega) ?_
  rintro rfl
  have hmul : 2 * d ≤ d * d := Nat.mul_le_mul_right d hd
  omega

/-! ## Certificates -/

/-- `a` generates the units: `fs` are the prime factors of `p - 1`. -/
theorem prime_of_powers {p : Nat} (a : ZMod p) (fs : List Nat) (hprod : fs.prod = p - 1)
    (hfs : ∀ q ∈ fs, q.Prime) (hone : a ^ (p - 1) = 1)
    (hne : ∀ q ∈ fs, a ^ ((p - 1) / q) ≠ 1) : p.Prime := by
  refine lucas_primality p a hone fun q hq hdvd => hne q ?_
  rw [← hprod] at hdvd
  exact mem_list_primes_of_dvd_prod hq.prime (fun r hr => (hfs r hr).prime) hdvd

end Msvl.Primality
