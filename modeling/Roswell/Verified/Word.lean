import Mathlib.Data.Nat.Bitwise

/-!
# Thirty-two-bit words as natural numbers

Machine words are carried as `Nat` values below `2 ^ 32`.  Addition and
subtraction wrap explicitly, rounding is the division form used by C macros,
and packed words are read back by division: a word assembled with `|||` from
fields that do not overlap equals the sum of its shifted fields, so every
decoding lemma is elementary arithmetic.

Nothing here refers to a particular program.  The main facts are

* `wsub_of_le`, `wadd_of_lt`: the wrapping operations agree with `Nat` as long
  as the exact result is representable;
* `alignDown_le`: masking with the complement of `a - 1` never increases a
  word, whatever `a` is;
* `alignDown_two_pow`: for a power of two the mask subtracts the remainder;
* `or_shiftLeft_eq`: disjoint fields combine by addition.
-/

namespace Roswell.Verified.Word

/-- Wrapping addition of two words.  The carry is decided by a comparison, so
that a sum with a large constant does not unfold into successors. -/
def wadd (a b : Nat) : Nat :=
  if 2 ^ 32 - b % 2 ^ 32 ≤ a % 2 ^ 32 then a % 2 ^ 32 - (2 ^ 32 - b % 2 ^ 32)
  else a % 2 ^ 32 + b % 2 ^ 32

/-- Wrapping subtraction of two words. -/
def wsub (a b : Nat) : Nat :=
  if b % 2 ^ 32 ≤ a % 2 ^ 32 then a % 2 ^ 32 - b % 2 ^ 32
  else a % 2 ^ 32 + (2 ^ 32 - b % 2 ^ 32)

/-- Wrapping multiplication of two words. -/
def wmul (a b : Nat) : Nat := a * b % 2 ^ 32

/-- `x & ~(a - 1)` on words.  For `1 ≤ a` the complement of `a - 1` is
`2 ^ 32 - a`. -/
def alignDown (x a : Nat) : Nat := x &&& (2 ^ 32 - a)

/-- `(x / a) * a`. -/
def roundDown (x a : Nat) : Nat := x / a * a

/-- `((x + a - 1) / a) * a`, where the sum wraps. -/
def roundUp (x a : Nat) : Nat := wadd x (a - 1) / a * a

theorem wadd_eq (a b : Nat) : wadd a b = (a + b) % 2 ^ 32 := by
  unfold wadd
  split <;> omega

theorem wsub_eq (a b : Nat) : wsub a b = (a + (2 ^ 32 - b % 2 ^ 32)) % 2 ^ 32 := by
  unfold wsub
  split <;> omega

theorem wadd_lt (a b : Nat) : wadd a b < 2 ^ 32 := by
  rw [wadd_eq]
  exact Nat.mod_lt _ (by decide)

theorem wsub_lt (a b : Nat) : wsub a b < 2 ^ 32 := by
  rw [wsub_eq]
  exact Nat.mod_lt _ (by decide)

variable {x : Int32} {a b : Nat}

theorem wadd_of_lt (h : a + b < 2 ^ 32) : wadd a b = a + b := by
  rw [wadd_eq]
  exact Nat.mod_eq_of_lt h

theorem wsub_of_le (hb : b ≤ a) (ha : a < 2 ^ 32) :
    wsub a b = a - b := by
  rw [wsub_eq]
  omega

/-! ## Rounding -/

theorem alignDown_le (x a : Nat) : alignDown x a ≤ x := Nat.and_le_left

/-- Masking twice is masking once. -/
theorem alignDown_alignDown (x a : Nat) : alignDown (alignDown x a) a = alignDown x a := by
  unfold alignDown
  rw [Nat.and_assoc, Nat.and_self]

/-- For a power of two the mask clears the low bits, in words of any width. -/
theorem and_mask_two_pow {x k w : Nat} (hx : x < 2 ^ w) (hk : k ≤ w) :
    x &&& (2 ^ w - 2 ^ k) = roundDown x (2 ^ k) := by
  have hmask : 2 ^ w - 2 ^ k = (2 ^ (w - k) - 1) <<< k := by
    rw [Nat.shiftLeft_eq, Nat.sub_mul, ← Nat.pow_add, Nat.one_mul]
    congr 2
    omega
  have hround : roundDown x (2 ^ k) = (x >>> k) <<< k := by
    rw [roundDown, Nat.shiftLeft_eq, Nat.shiftRight_eq_div_pow]
  rw [hmask, hround]
  apply Nat.eq_of_testBit_eq
  intro i
  rw [Nat.testBit_and, Nat.testBit_shiftLeft, Nat.testBit_shiftLeft,
    Nat.testBit_two_pow_sub_one, Nat.testBit_shiftRight]
  by_cases hki : k ≤ i
  · rw [show k + (i - k) = i by omega]
    by_cases hi : i < w
    · have : i - k < w - k := by omega
      simp [hki, this]
    · -- Above the word both sides read a clear bit.
      have hz : x.testBit i = false :=
        Nat.testBit_lt_two_pow (Nat.lt_of_lt_of_le hx (Nat.pow_le_pow_right (by decide)
          (by omega)))
      simp [hz]
  · simp [hki]

theorem alignDown_two_pow {x k : Nat} (hx : x < 2 ^ 32) (hk : k ≤ 32) :
    alignDown x (2 ^ k) = roundDown x (2 ^ k) :=
  and_mask_two_pow hx hk

theorem roundDown_le (x a : Nat) : roundDown x a ≤ x := Nat.div_mul_le_self x a

theorem roundDown_dvd (x a : Nat) : a ∣ roundDown x a := ⟨x / a, Nat.mul_comm _ _⟩

theorem roundUp_dvd (x a : Nat) : a ∣ roundUp x a := ⟨_, Nat.mul_comm _ _⟩

theorem roundDown_of_dvd {x a : Nat} (h : a ∣ x) : roundDown x a = x :=
  Nat.div_mul_cancel h

/-- A multiple of `a` below `x` is below the rounded value too. -/
theorem le_roundDown {x a m : Nat} (ha : 0 < a) (hm : a ∣ m) (h : m ≤ x) :
    m ≤ roundDown x a := by
  obtain ⟨k, rfl⟩ := hm
  rw [roundDown, Nat.mul_comm a k]
  exact Nat.mul_le_mul_right a ((Nat.le_div_iff_mul_le ha).2 (by rwa [Nat.mul_comm]))

/-- Two multiples of `a` less than `a` apart are equal. -/
theorem eq_of_dvd_of_lt_add {x y a : Nat} (hx : a ∣ x) (hy : a ∣ y) (hle : x ≤ y)
    (hlt : y < x + a) : x = y := by
  have hzero := Nat.eq_zero_of_dvd_of_lt (Nat.dvd_sub hy hx) (by omega)
  omega

theorem lt_roundDown_add (x a : Nat) (ha : 0 < a) : x < roundDown x a + a := by
  have h := Nat.div_add_mod x a
  have hlt := Nat.mod_lt x ha
  have hcomm : a * (x / a) = x / a * a := Nat.mul_comm _ _
  unfold roundDown
  omega

theorem le_of_dvd_of_lt_add {x y c : Nat} (hx : c ∣ x) (hy : c ∣ y) (hlt : x < y + c) : x ≤ y := by
  obtain ⟨a, rfl⟩ := hx
  obtain ⟨b, rfl⟩ := hy
  rw [← Nat.mul_succ] at hlt
  exact Nat.mul_le_mul_left c (Nat.le_of_lt_succ (Nat.lt_of_mul_lt_mul_left hlt))

/-- A size rounded up is the only multiple from the size on within one unit. -/
theorem rounded (size : Nat) {c : Nat} (hc : 0 < c) :
    c ∣ (size + (c - 1)) / c * c ∧ size ≤ (size + (c - 1)) / c * c ∧
      (size + (c - 1)) / c * c < size + c := by
  have hle := Nat.div_mul_le_self (size + (c - 1)) c
  have hlt := lt_roundDown_add (size + (c - 1)) c hc
  unfold roundDown at hlt
  exact ⟨Nat.dvd_mul_left _ _, by omega, by omega⟩

theorem roundUp_eq {x a : Nat} (h : x + (a - 1) < 2 ^ 32) :
    roundUp x a = roundDown (x + (a - 1)) a := by
  rw [roundUp, wadd_of_lt h, roundDown]

theorem le_roundUp {x a : Nat} (ha : 0 < a) (h : x + (a - 1) < 2 ^ 32) :
    x ≤ roundUp x a := by
  have hlt := lt_roundDown_add (x + (a - 1)) a ha
  rw [roundUp_eq h]
  omega

/-- Rounding up stays below every multiple that bounds the argument. -/
theorem roundUp_le {x a m : Nat} (ha : 0 < a) (hm : a ∣ m) (hx : x ≤ m)
    (hlt : x + (a - 1) < 2 ^ 32) : roundUp x a ≤ m := by
  rw [roundUp_eq hlt]
  by_contra hgt
  obtain ⟨k, rfl⟩ := hm
  have hdvd := roundDown_dvd (x + (a - 1)) a
  obtain ⟨q, hq⟩ := hdvd
  have hle := roundDown_le (x + (a - 1)) a
  rw [hq] at hgt hle
  have hkq : k < q := Nat.lt_of_mul_lt_mul_left (Nat.lt_of_not_le hgt)
  have hstep : a * k + a ≤ a * q := by
    rw [← Nat.mul_succ]
    exact Nat.mul_le_mul_left a hkq
  omega

/-! ## Packed fields -/

/-- A field shifted above the bits of another one combines with it by
addition. -/
theorem or_shiftLeft_eq {hi lo k : Nat} (h : lo < 2 ^ k) :
    (hi <<< k) ||| lo = hi * 2 ^ k + lo := by
  rw [← Nat.shiftLeft_add_eq_or_of_lt h, Nat.shiftLeft_eq]

/-- A single high bit combines with a smaller value by addition. -/
theorem two_pow_or_eq {lo k : Nat} (h : lo < 2 ^ k) :
    2 ^ k ||| lo = 2 ^ k + lo := by
  have hor := Nat.two_pow_add_eq_or_of_lt h 1
  rw [Nat.mul_one] at hor
  exact hor.symm

/-- Testing one bit by masking. -/
theorem and_two_pow_ne_zero (x k : Nat) :
    x &&& 2 ^ k ≠ 0 ↔ x / 2 ^ k % 2 = 1 := by
  rw [Nat.and_two_pow]
  cases hbit : x.testBit k with
  | true =>
    rw [Nat.testBit_eq_decide_div_mod_eq, decide_eq_true_eq] at hbit
    simp [hbit]
  | false =>
    rw [Nat.testBit_eq_decide_div_mod_eq, decide_eq_false_iff_not] at hbit
    simp [hbit]

/-! ## Counters that do not wrap -/

theorem long_add_one (h : x.toInt + 1 < 2 ^ 31) : (x + 1).toInt = x.toInt + 1 := by
  have hlow := x.le_toInt
  rw [Int32.toInt_add]
  exact Int.bmod_eq_of_le (by simp; omega) (by simp; omega)

theorem long_sub_one (h : -2 ^ 31 < x.toInt) : (x - 1).toInt = x.toInt - 1 := by
  have hhigh := x.toInt_lt
  rw [Int32.toInt_sub]
  exact Int.bmod_eq_of_le (by simp; omega) (by simp; omega)

theorem long_eq_zero : x = 0 ↔ x.toInt = 0 := Int32.toInt_inj.symm

theorem long_eq_neg_one : x = -1 ↔ x.toInt = -1 := Int32.toInt_inj.symm

theorem long_ofNat_eq_zero {n : Nat} (h : n < 2 ^ 32) : Int32.ofNat n = 0 ↔ n = 0 := by
  constructor
  · intro hzero
    have hbits : (Int32.ofNat n).toBitVec.toNat = 0 := by
      rw [hzero]
      rfl
    rw [Int32.toBitVec_ofNat', BitVec.toNat_ofNat] at hbits
    omega
  · rintro rfl
    rfl

theorem ulong_add_one {x : UInt32} (h : x.toNat + 1 < 2 ^ 32) : (x + 1).toNat = x.toNat + 1 := by
  rw [UInt32.toNat_add]
  exact Nat.mod_eq_of_lt h

theorem ulong_sub_one {x : UInt32} (h : 0 < x.toNat) : (x - 1).toNat = x.toNat - 1 :=
  UInt32.toNat_sub_of_le x 1 h

theorem ulong_eq_zero {x : UInt32} : x = 0 ↔ x.toNat = 0 := UInt32.toNat_inj.symm

theorem ushort_add_one {x : UInt16} (h : x.toNat + 1 < 2 ^ 16) : (x + 1).toNat = x.toNat + 1 := by
  rw [UInt16.toNat_add]
  exact Nat.mod_eq_of_lt h

theorem ushort_sub_one {x : UInt16} (h : 0 < x.toNat) : (x - 1).toNat = x.toNat - 1 :=
  UInt16.toNat_sub_of_le x 1 h

theorem ushort_eq_zero {x : UInt16} : x = 0 ↔ x.toNat = 0 := UInt16.toNat_inj.symm

/-- A counter less than a full turn ahead shows the same 16 bits only where it started. -/
theorem ushort_ofNat_inj (h : UInt16.ofNat b = UInt16.ofNat a) (hle : a ≤ b)
    (hlt : b < a + 2 ^ 16) : b = a := by
  have hmod : b % 2 ^ 16 = a % 2 ^ 16 := by
    rw [← UInt16.toNat_ofNat', ← UInt16.toNat_ofNat', h]
  omega

end Roswell.Verified.Word
