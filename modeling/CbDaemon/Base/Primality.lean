/- module: CbDaemon/Base/Primality
   layer: library
   digest: A number is prime when some element has its full order. -/

import Mathlib.Data.List.Prime
import Mathlib.NumberTheory.LucasPrimality

set_option autoImplicit false
set_option relaxedAutoImplicit false

namespace CbDaemon.Base.Primality

theorem prime_of_factors {p : ℕ} (a : ZMod p) (factors : List (ℕ × ℕ))
    (product : (factors.map fun q => q.1 ^ q.2).prod = p - 1)
    (primes : ∀ q ∈ factors, q.1.Prime) (one : a ^ (p - 1) = 1)
    (others : ∀ q ∈ factors, a ^ ((p - 1) / q.1) ≠ 1) : p.Prime := by
  refine lucas_primality p a one fun q prime divides => ?_
  rw [← product] at divides
  obtain ⟨power, listed, divides⟩ := prime.prime.dvd_prod_iff.mp divides
  obtain ⟨factor, among, rfl⟩ := List.mem_map.mp listed
  rw [(Nat.prime_dvd_prime_iff_eq prime (primes factor among)).mp (prime.dvd_of_dvd_pow divides)]
  exact others factor among

end CbDaemon.Base.Primality
