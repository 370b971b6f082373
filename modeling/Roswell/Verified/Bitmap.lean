import Mathlib.Data.Nat.Bitwise

/-!
# Bitmaps in 32-bit words

A bitmap is an array of words; bit `i` is bit `i % 32` of word `i / 32`, which C
code reaches with shifts and masks.  The lemmas reduce a bitmap to the function
it stands for: testing after setting or clearing a bit, or a range of bits.
-/

namespace Roswell.Verified.Bitmap

open Function

/-- The words of a bitmap. -/
abbrev Words : Type := Nat → Nat

/-- `Map[i >> 5] & (1 << (i & 31))`. -/
def test (words : Words) (i : Nat) : Bool := words (i >>> 5) &&& 1 <<< (i &&& 31) != 0

/-- `Map[i >> 5] |= 1 << (i & 31)`. -/
def set (words : Words) (i : Nat) : Words :=
  update words (i >>> 5) (words (i >>> 5) ||| 1 <<< (i &&& 31))

/-- `Map[i >> 5] &= ~(1 << (i & 31))`. -/
def clear (words : Words) (i : Nat) : Words :=
  update words (i >>> 5) (words (i >>> 5) &&& (0xFFFFFFFF ^^^ 1 <<< (i &&& 31)))

/-- Write `count` bits from `start` on. -/
def setRange (words : Words) (start : Nat) (value : Bool) : Nat → Words
  | 0 => words
  | n + 1 =>
    let rest := setRange words start value n
    if value then set rest (start + n) else clear rest (start + n)

variable {words : Words} {i j : Nat}

private theorem shift_index (i : Nat) : i >>> 5 = i / 32 := Nat.shiftRight_eq_div_pow i 5

private theorem mask_index (i : Nat) : i &&& 31 = i % 32 := Nat.and_two_pow_sub_one_eq_mod i 5

theorem test_eq_testBit (words : Words) (i : Nat) :
    test words i = (words (i / 32)).testBit (i % 32) := by
  unfold test
  rw [shift_index, mask_index, Nat.shiftLeft_eq, Nat.one_mul, Nat.and_two_pow]
  cases (words (i / 32)).testBit (i % 32) with
  | false => simp
  | true => simp

/-- Two indices of one word are equal when their bits are. -/
private theorem index_eq (hw : i / 32 = j / 32) (hb : i % 32 = j % 32) : i = j := by omega

theorem test_set (words : Words) (i j : Nat) :
    test (set words i) j = (decide (j = i) || test words j) := by
  rw [test_eq_testBit, test_eq_testBit]
  unfold set
  rw [shift_index, mask_index, Nat.shiftLeft_eq, Nat.one_mul]
  by_cases hw : j / 32 = i / 32
  · rw [hw, update_self, Nat.testBit_or, Nat.testBit_two_pow, Bool.or_comm]
    congr 1
    rw [decide_eq_decide]
    exact ⟨fun hb => index_eq hw hb.symm, fun e => by rw [e]⟩
  · have hne : j ≠ i := fun e => hw (by rw [e])
    rw [update_of_ne hw, decide_eq_false hne, Bool.false_or]

theorem test_clear (words : Words) (i j : Nat) :
    test (clear words i) j = (decide (j ≠ i) && test words j) := by
  rw [test_eq_testBit, test_eq_testBit]
  unfold clear
  rw [shift_index, mask_index, Nat.shiftLeft_eq, Nat.one_mul]
  by_cases hw : j / 32 = i / 32
  · have hbit : j % 32 < 32 := Nat.mod_lt _ (by decide)
    have hmask : Nat.testBit 0xFFFFFFFF (j % 32) = true := by
      rw [show (0xFFFFFFFF : Nat) = 2 ^ 32 - 1 from rfl, Nat.testBit_two_pow_sub_one]
      exact decide_eq_true hbit
    rw [hw, update_self, Nat.testBit_and, Nat.testBit_xor, hmask, Nat.testBit_two_pow,
      Bool.true_xor, Bool.and_comm]
    congr 1
    rw [← decide_not, decide_eq_decide, not_iff_not]
    exact ⟨fun hb => index_eq hw hb.symm, fun e => by rw [e]⟩
  · have hne : j ≠ i := fun e => hw (by rw [e])
    rw [update_of_ne hw, decide_eq_true hne, Bool.true_and]

/-- A range of bits is written and the others are kept. -/
theorem test_setRange (words : Words) (start : Nat) (value : Bool) (n j : Nat) :
    test (setRange words start value n) j =
      if start ≤ j ∧ j < start + n then value else test words j := by
  induction n with
  | zero =>
    rw [setRange, if_neg]
    omega
  | succ n ih =>
    rw [setRange]
    by_cases hj : j = start + n
    · subst hj
      rw [if_pos (by omega : start ≤ start + n ∧ start + n < start + (n + 1))]
      cases value with
      | false => simp [test_clear]
      | true => simp [test_set]
    · have hin : (start ≤ j ∧ j < start + (n + 1)) ↔ (start ≤ j ∧ j < start + n) := by omega
      rw [if_congr hin rfl rfl, ← ih]
      cases value with
      | false => simp [test_clear, hj]
      | true => simp [test_set, hj]

end Roswell.Verified.Bitmap
