import Mathlib.FieldTheory.Finite.Basic
import Mathlib.Data.Nat.ChineseRemainder

/-!
# Powers with inverse exponents, and recombination from two primes

An exponent pair with product one modulo `p - 1` undoes itself modulo the prime `p`,
also on multiples of `p`.  A number below `p * q` is found again from its residues by
`(r - s) * q⁻¹ mod p` times `q`, plus `s`.
-/

namespace Roswell.Verified.Crt

/-- Raising to `e` and then to `d` gives back the number modulo a prime. -/
theorem pow_pow_modEq {p e d : Nat} (hp : p.Prime) (htwo : 2 < p) (hed : e * d ≡ 1 [MOD p - 1])
    (m : Nat) : (m ^ e) ^ d ≡ m [MOD p] := by
  have : Fact p.Prime := ⟨hp⟩
  rw [← ZMod.natCast_eq_natCast_iff, Nat.cast_pow, Nat.cast_pow, ← pow_mul]
  have hmod : e * d % (p - 1) = 1 := by
    rw [hed]
    exact Nat.mod_eq_of_lt (by omega)
  have hsplit : e * d = (p - 1) * (e * d / (p - 1)) + 1 := by
    have := Nat.div_add_mod (e * d) (p - 1)
    omega
  rw [hsplit]
  by_cases hzero : (m : ZMod p) = 0
  · rw [hzero, zero_pow (Nat.succ_ne_zero _)]
  · rw [pow_succ, pow_mul, ZMod.pow_card_sub_one_eq_one hzero, one_pow, one_mul]

/-- The recombination of two residues. -/
theorem recombine {p q c m t : Nat} (hp : p.Prime) (hq : q.Prime) (hne : p ≠ q)
    (hc : q * c ≡ 1 [MOD p]) (hm : m < p * q) (ht : t + m % q ≡ m [MOD p]) :
    t * c % p * q + m % q = m := by
  have hcoprime : Nat.Coprime p q := (Nat.coprime_primes hp hq).2 hne
  have hpq : t * c % p * q + m % q ≡ m [MOD p] := by
    calc t * c % p * q + m % q ≡ t * c * q + m % q [MOD p] :=
          ((Nat.mod_modEq _ _).mul_right _).add_right _
      _ = t * (q * c) + m % q := by ring
      _ ≡ t * 1 + m % q [MOD p] := (hc.mul_left _).add_right _
      _ = t + m % q := by rw [Nat.mul_one]
      _ ≡ m [MOD p] := ht
  have hq' : t * c % p * q + m % q ≡ m [MOD q] :=
    (Nat.mul_add_mod_self_right _ _ _).trans (Nat.mod_mod _ _)
  have hboth := (Nat.modEq_and_modEq_iff_modEq_mul hcoprime).1 ⟨hpq, hq'⟩
  refine Nat.ModEq.eq_of_lt_of_lt hboth ?_ hm
  have hres := Nat.mod_lt m hq.pos
  have hhigh : t * c % p + 1 ≤ p := Nat.mod_lt _ hp.pos
  calc t * c % p * q + m % q < t * c % p * q + q := Nat.add_lt_add_left hres _
    _ = (t * c % p + 1) * q := by ring
    _ ≤ p * q := Nat.mul_le_mul_right q hhigh

end Roswell.Verified.Crt
