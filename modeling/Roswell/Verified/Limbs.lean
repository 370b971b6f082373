import Mathlib.Data.Nat.Bitwise
import Mathlib.Tactic.Ring

/-!
# Numbers as lists of words

A number is a list of 32-bit words, least significant first; `value` is what it
stands for.  The words and the bits of the value are those of the list, and one
step of a product row fits into a double word (`toNat_mac`).
-/

namespace Roswell.Verified.Limbs

def value : List UInt32 → Nat
  | [] => 0
  | w :: l => w.toNat + 2 ^ 32 * value l

@[simp] theorem value_nil : value [] = 0 := rfl

@[simp] theorem value_cons (w : UInt32) (l : List UInt32) :
    value (w :: l) = w.toNat + 2 ^ 32 * value l := rfl

theorem radix_pow_succ (n : Nat) : (2 ^ 32) ^ (n + 1) = 2 ^ 32 * (2 ^ 32) ^ n := by
  rw [Nat.pow_succ, Nat.mul_comm]

theorem value_lt (l : List UInt32) : value l < (2 ^ 32) ^ l.length := by
  induction l with
  | nil => decide
  | cons w l ih =>
    have hw := w.toNat_lt
    rw [value_cons, List.length_cons, radix_pow_succ]
    omega

theorem value_append (l m : List UInt32) :
    value (l ++ m) = value l + (2 ^ 32) ^ l.length * value m := by
  induction l with
  | nil => simp
  | cons w l ih =>
    rw [List.cons_append, value_cons, ih, value_cons, List.length_cons, radix_pow_succ]
    ring

theorem value_replicate (n : Nat) : value (List.replicate n 0) = 0 := by
  induction n with
  | zero => rfl
  | succ n ih =>
    rw [List.replicate_succ, value_cons, ih]
    rfl

theorem value_eq_zero {l : List UInt32} : value l = 0 ↔ ∀ w ∈ l, w = 0 := by
  induction l with
  | nil => simp
  | cons w l ih =>
    rw [value_cons, List.forall_mem_cons, ← ih]
    constructor
    · intro h
      exact ⟨UInt32.toNat_inj.1 (by rw [UInt32.toNat_zero]; omega), by omega⟩
    · rintro ⟨rfl, h⟩
      rw [h]
      rfl

/-- Words of equal lists of words can be read off the value. -/
theorem eq_of_value {l m : List UInt32} (hlen : l.length = m.length) (h : value l = value m) :
    l = m := by
  induction l generalizing m with
  | nil => exact (List.length_eq_zero_iff.1 hlen.symm).symm
  | cons w l ih =>
    cases m with
    | nil => exact absurd hlen (Nat.succ_ne_zero _)
    | cons v m =>
      have hw := w.toNat_lt
      have hv := v.toNat_lt
      rw [value_cons, value_cons] at h
      rw [ih (Nat.succ.inj hlen) (by omega), UInt32.toNat_inj.1 (show w.toNat = v.toNat by omega)]

theorem value_drop (l : List UInt32) (k : Nat) : value (l.drop k) = value l / (2 ^ 32) ^ k := by
  induction k generalizing l with
  | zero => rw [List.drop_zero, Nat.pow_zero, Nat.div_one]
  | succ k ih =>
    cases l with
    | nil => simp
    | cons w l =>
      have hw := w.toNat_lt
      rw [List.drop_succ_cons, ih, value_cons, radix_pow_succ, ← Nat.div_div_eq_div_mul]
      congr 1
      omega

/-- Word `k` of a number. -/
theorem toNat_getD (l : List UInt32) (k : Nat) :
    (l.getD k 0).toNat = value l / (2 ^ 32) ^ k % 2 ^ 32 := by
  rw [← value_drop, List.getD_eq_getElem?_getD, ← List.head?_drop]
  cases l.drop k with
  | nil => rfl
  | cons w m =>
    have hw := w.toNat_lt
    rw [List.head?_cons, Option.getD_some, value_cons]
    omega

/-- The words below a place, and the word at it. -/
theorem value_take_succ {l : List UInt32} {n : Nat} (h : n < l.length) :
    value (l.take (n + 1)) = value (l.take n) + (2 ^ 32) ^ n * (l.getD n 0).toNat := by
  rw [List.take_add_one, value_append, List.length_take, Nat.min_eq_left (by omega),
    List.getElem?_eq_getElem h, List.getD_eq_getElem?_getD, List.getElem?_eq_getElem h]
  simp

/-- Bit `i` of a number. -/
theorem testBit_value (l : List UInt32) (i : Nat) :
    ((l.getD (i / 32) 0) >>> UInt32.ofNat (i % 32)) &&& 1 =
      if (value l).testBit i then 1 else 0 := by
  have hbit : (value l).testBit i = ((l.getD (i / 32) 0).toNat).testBit (i % 32) := by
    rw [toNat_getD, ← Nat.pow_mul, Nat.testBit_mod_two_pow, ← Nat.shiftRight_eq_div_pow,
      Nat.testBit_shiftRight, Nat.div_add_mod, decide_eq_true (Nat.mod_lt i (by decide)),
      Bool.true_and]
  generalize hw : l.getD (i / 32) 0 = w
  have hlt := Nat.mod_lt i (show 0 < 32 by decide)
  have hnat := Nat.toNat_testBit w.toNat (i % 32)
  rw [hbit, hw]
  refine UInt32.toNat_inj.1 ?_
  rw [UInt32.toNat_and, UInt32.toNat_shiftRight, UInt32.toNat_ofNat', UInt32.toNat_one,
    Nat.and_one_is_mod, Nat.mod_eq_of_lt (show i % 32 < 2 ^ 32 by omega), Nat.mod_mod,
    Nat.shiftRight_eq_div_pow, ← hnat]
  cases w.toNat.testBit (i % 32) <;> rfl

/-! ## One step of a row -/

/-- `Carry += (ULONGLONG)a * b + t` does not overflow. -/
theorem toNat_mac (a b t : UInt32) {c : UInt64} (hc : c.toNat < 2 ^ 32) :
    (c + (a.toUInt64 * b.toUInt64 + t.toUInt64)).toNat =
      c.toNat + (a.toNat * b.toNat + t.toNat) := by
  have ha := a.toNat_lt
  have hb := b.toNat_lt
  have ht := t.toNat_lt
  have hprod : a.toNat * b.toNat ≤ (2 ^ 32 - 1) * (2 ^ 32 - 1) :=
    Nat.mul_le_mul (by omega) (by omega)
  rw [UInt64.toNat_add, UInt64.toNat_add, UInt64.toNat_mul, UInt32.toNat_toUInt64,
    UInt32.toNat_toUInt64, UInt32.toNat_toUInt64]
  omega

/-- The halves of a double word. -/
theorem toNat_halves (x : UInt64) :
    x.toUInt32.toNat + 2 ^ 32 * (x >>> 32).toNat = x.toNat ∧ (x >>> 32).toNat < 2 ^ 32 := by
  have hx := x.toNat_lt
  have hhigh : (x >>> 32).toNat = x.toNat / 2 ^ 32 := by
    rw [UInt64.toNat_shiftRight, Nat.shiftRight_eq_div_pow]
    rfl
  rw [UInt64.toNat_toUInt32, hhigh]
  omega

end Roswell.Verified.Limbs
