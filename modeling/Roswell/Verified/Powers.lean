import Mathlib.Data.Nat.Bitwise

/-!
# Powers by squaring, and inverses by Newton iteration

`squareMultiply` reads an exponent from its low bit; whatever the operation does to
representations, it computes a power in the monoid they stand for.  An odd word is
inverted modulo the word size by `x * (2 - m * x)`: each step squares the error,
which is even to begin with.
-/

namespace Roswell.Verified.Powers

section SquareMultiply

variable {α : Type} (mul : α → α → α) (bit : Nat → Bool)

/-- Square and multiply over `n` bits from bit `i` on. -/
def squareMultiply : Nat → Nat → α → α → α
  | 0, _, acc, _ => acc
  | n + 1, i, acc, val =>
    squareMultiply n (i + 1) (if bit i then mul acc val else acc) (mul val val)

variable {mul} {G : Type} [CommMonoid G] {φ : α → G} {P : α → Prop}

theorem squareMultiply_spec (hmul : ∀ {x y}, P x → P y → P (mul x y) ∧ φ (mul x y) = φ x * φ y)
    (e : Nat) (n i : Nat) {acc val : α} (hacc : P acc) (hval : P val) :
    P (squareMultiply mul e.testBit n i acc val) ∧
      φ (squareMultiply mul e.testBit n i acc val) = φ acc * φ val ^ (e / 2 ^ i % 2 ^ n) := by
  induction n generalizing i acc val with
  | zero =>
    rw [Nat.pow_zero, Nat.mod_one, pow_zero, mul_one]
    exact ⟨hacc, rfl⟩
  | succ n ih =>
    obtain ⟨hsquare, hφ⟩ := hmul hval hval
    obtain ⟨acc', hacc'⟩ : ∃ x, (if e.testBit i then mul acc val else acc) = x := ⟨_, rfl⟩
    have hstep : P acc' ∧ φ acc' = φ acc * φ val ^ (e / 2 ^ i % 2) := by
      rw [← hacc', ← Nat.toNat_testBit]
      cases e.testBit i with
      | false => exact ⟨hacc, by simp⟩
      | true =>
        obtain ⟨hprod, heq⟩ := hmul hacc hval
        exact ⟨hprod, by simpa using heq⟩
    obtain ⟨hrest, hpower⟩ := ih (i + 1) hstep.1 hsquare
    have hbits : e / 2 ^ i % 2 ^ (n + 1) = e / 2 ^ i % 2 + 2 * (e / 2 ^ (i + 1) % 2 ^ n) := by
      rw [Nat.pow_succ' (n := n), Nat.mod_mul, Nat.pow_succ, Nat.div_div_eq_div_mul]
    rw [squareMultiply, hacc']
    refine ⟨hrest, hpower.trans ?_⟩
    rw [hstep.2, hφ, hbits]
    generalize e / 2 ^ (i + 1) % 2 ^ n = q
    rw [pow_add, pow_mul, pow_two, mul_assoc]

end SquareMultiply

/-! ## Newton iteration -/

def newtonStep (m x : UInt32) : UInt32 := x * (2 - m * x)

/-- A step squares the error. -/
theorem newtonStep_error (m x : UInt32) :
    1 - m * newtonStep m x = (1 - m * x) * (1 - m * x) := by
  unfold newtonStep
  grind

/-- An error divisible by `d` becomes divisible by `d * d`. -/
theorem newtonStep_dvd {m x d k : UInt32} (h : 1 - m * x = d * k) :
    1 - m * newtonStep m x = d * d * (k * k) := by
  rw [newtonStep_error, h]
  grind

/-- The error of the start is even, and five squarings make it divisible by the word
size. -/
theorem newton_inverse {m : UInt32} (hodd : m &&& 1 = 1) :
    m * (List.range 5).foldl (fun x _ => newtonStep m x) m = 1 := by
  obtain ⟨j, hj⟩ : ∃ j, m = 2 * j + 1 := by
    refine ⟨m >>> 1, UInt32.toNat_inj.1 ?_⟩
    have hm := m.toNat_lt
    have hbit : m.toNat % 2 = 1 := by
      rw [← Nat.and_one_is_mod, ← UInt32.toNat_one, ← UInt32.toNat_and, hodd]
    have hhalf : (m >>> 1).toNat = m.toNat / 2 := by
      rw [UInt32.toNat_shiftRight, Nat.shiftRight_eq_div_pow]
      rfl
    rw [UInt32.toNat_add, UInt32.toNat_mul, hhalf, UInt32.toNat_one]
    show _ = (2 * (m.toNat / 2) % 2 ^ 32 + 1) % 2 ^ 32
    omega
  have h0 : 1 - m * m = 2 * (0 - 2 * (j * j) - 2 * j) := by
    rw [hj]
    grind
  have h5 := newtonStep_dvd (newtonStep_dvd (newtonStep_dvd (newtonStep_dvd (newtonStep_dvd h0))))
  have hzero : (2 : UInt32) * 2 * (2 * 2) * (2 * 2 * (2 * 2)) * (2 * 2 * (2 * 2) * (2 * 2 * (2 * 2))) *
      (2 * 2 * (2 * 2) * (2 * 2 * (2 * 2)) * (2 * 2 * (2 * 2) * (2 * 2 * (2 * 2)))) = 0 := by
    decide
  rw [hzero, UInt32.zero_mul] at h5
  have hone : ∀ y : UInt32, 1 - y = 0 → y = 1 := by grind
  exact hone _ h5

end Roswell.Verified.Powers
