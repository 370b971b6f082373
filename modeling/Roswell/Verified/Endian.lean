import Mathlib.Data.Nat.Bitwise
import Roswell.Verified.Bytes

/-!
# Words and their bytes

A 32-bit word is put together from four bytes, lowest first or highest first, and
taken apart again.
-/

namespace Roswell.Verified.Endian

open Bytes

/-- The word with the given bytes, lowest first. -/
def le32 (b0 b1 b2 b3 : UInt8) : UInt32 :=
  b0.toUInt32 ||| b1.toUInt32 <<< 8 ||| b2.toUInt32 <<< 16 ||| b3.toUInt32 <<< 24

/-- A byte of a word, counted from the lowest. -/
def byte (w : UInt32) : Nat → UInt8
  | 0 => w.toUInt8
  | 1 => (w >>> 8).toUInt8
  | 2 => (w >>> 16).toUInt8
  | _ => (w >>> 24).toUInt8

/-- The bytes of a word, lowest first. -/
def leBytes (w : UInt32) : List UInt8 := [byte w 0, byte w 1, byte w 2, byte w 3]

/-- The bytes of a word, highest first. -/
def beBytes (w : UInt32) : List UInt8 := [byte w 3, byte w 2, byte w 1, byte w 0]

/-- Disjoint parts combine by addition. -/
theorem or_eq_add {x y k : Nat} (hx : x < 2 ^ k) : x ||| 2 ^ k * y = x + 2 ^ k * y := by
  rw [Nat.or_comm, ← Nat.two_pow_add_eq_or_of_lt hx, Nat.add_comm]

theorem toNat_shiftLeft_byte (b : UInt8) {k : Nat} (hk : k ≤ 24) :
    (b.toUInt32 <<< UInt32.ofNat k).toNat = 2 ^ k * b.toNat := by
  have hb := b.toNat_lt
  have hle : 2 ^ k ≤ 2 ^ 24 := Nat.pow_le_pow_right (by decide) hk
  have hlt : 2 ^ k * b.toNat < 2 ^ 32 :=
    calc 2 ^ k * b.toNat ≤ 2 ^ 24 * b.toNat := Nat.mul_le_mul_right _ hle
      _ < 2 ^ 32 := by omega
  rw [UInt32.toNat_shiftLeft, UInt8.toNat_toUInt32, UInt32.toNat_ofNat', Nat.shiftLeft_eq,
    Nat.mod_eq_of_lt (show k < 2 ^ 32 by omega), Nat.mod_eq_of_lt (show k < 32 by omega),
    Nat.mul_comm, Nat.mod_eq_of_lt hlt]

theorem toNat_le32 (b0 b1 b2 b3 : UInt8) :
    (le32 b0 b1 b2 b3).toNat =
      b0.toNat + 2 ^ 8 * b1.toNat + 2 ^ 16 * b2.toNat + 2 ^ 24 * b3.toNat := by
  have h0 := b0.toNat_lt
  have h1 := b1.toNat_lt
  have h2 := b2.toNat_lt
  have s1 := toNat_shiftLeft_byte b1 (k := 8) (by decide)
  have s2 := toNat_shiftLeft_byte b2 (k := 16) (by decide)
  have s3 := toNat_shiftLeft_byte b3 (k := 24) (by decide)
  rw [le32, UInt32.toNat_or, UInt32.toNat_or, UInt32.toNat_or, UInt8.toNat_toUInt32]
  rw [show (8 : UInt32) = UInt32.ofNat 8 from rfl, show (16 : UInt32) = UInt32.ofNat 16 from rfl,
    show (24 : UInt32) = UInt32.ofNat 24 from rfl, s1, s2, s3, or_eq_add h0,
    or_eq_add (k := 16) (by omega), or_eq_add (k := 24) (by omega)]

theorem toNat_byte (w : UInt32) {k : Nat} (hk : k < 4) :
    (byte w k).toNat = w.toNat / 2 ^ (8 * k) % 2 ^ 8 := by
  match k, hk with
  | 0, _ => simp [byte]
  | 1, _ => simp [byte, Nat.shiftRight_eq_div_pow]
  | 2, _ => simp [byte, Nat.shiftRight_eq_div_pow]
  | 3, _ => simp [byte, Nat.shiftRight_eq_div_pow]

theorem le32_byte (w : UInt32) : le32 (byte w 0) (byte w 1) (byte w 2) (byte w 3) = w := by
  have hw := w.toNat_lt
  refine UInt32.toNat_inj.1 ?_
  rw [toNat_le32, toNat_byte w (by decide), toNat_byte w (by decide), toNat_byte w (by decide),
    toNat_byte w (by decide)]
  omega

theorem byte_le32 (b0 b1 b2 b3 : UInt8) :
    byte (le32 b0 b1 b2 b3) 0 = b0 ∧ byte (le32 b0 b1 b2 b3) 1 = b1 ∧
      byte (le32 b0 b1 b2 b3) 2 = b2 ∧ byte (le32 b0 b1 b2 b3) 3 = b3 := by
  have h0 := b0.toNat_lt
  have h1 := b1.toNat_lt
  have h2 := b2.toNat_lt
  have h3 := b3.toNat_lt
  refine ⟨UInt8.toNat_inj.1 ?_, UInt8.toNat_inj.1 ?_, UInt8.toNat_inj.1 ?_, UInt8.toNat_inj.1 ?_⟩
  · rw [toNat_byte _ (by decide), toNat_le32]
    omega
  · rw [toNat_byte _ (by decide), toNat_le32]
    omega
  · rw [toNat_byte _ (by decide), toNat_le32]
    omega
  · rw [toNat_byte _ (by decide), toNat_le32]
    omega

/-- A word of a byte buffer. -/
def getWord (m : Memory) (i : Nat) : UInt32 :=
  le32 (m (4 * i)) (m (4 * i + 1)) (m (4 * i + 2)) (m (4 * i + 3))

/-! ## Strings of words -/

/-- The `n` words at byte `a`. -/
def wordsAt (m : Memory) : Nat → Nat → List UInt32
  | _, 0 => []
  | a, n + 1 => le32 (m a) (m (a + 1)) (m (a + 2)) (m (a + 3)) :: wordsAt m (a + 4) n

@[simp] theorem length_wordsAt (m : Memory) (a n : Nat) : (wordsAt m a n).length = n := by
  induction n generalizing a with
  | zero => rfl
  | succ n ih => rw [wordsAt, List.length_cons, ih]

theorem wordsAt_add (m : Memory) (a n k : Nat) :
    wordsAt m a (n + k) = wordsAt m a n ++ wordsAt m (a + 4 * n) k := by
  induction n generalizing a with
  | zero => rw [Nat.zero_add, wordsAt, List.nil_append, Nat.mul_zero, Nat.add_zero]
  | succ n ih =>
    rw [Nat.succ_add, wordsAt, wordsAt, ih, List.cons_append,
      show a + 4 + 4 * n = a + 4 * (n + 1) by omega]

theorem leBytes_wordsAt (m : Memory) (a n : Nat) :
    (wordsAt m a n).flatMap leBytes = slice m a (4 * n) := by
  induction n generalizing a with
  | zero => rfl
  | succ n ih =>
    obtain ⟨h0, h1, h2, h3⟩ := byte_le32 (m a) (m (a + 1)) (m (a + 2)) (m (a + 3))
    rw [wordsAt, List.flatMap_cons, ih, show 4 * (n + 1) = 4 + 4 * n by omega, slice_append,
      leBytes, h0, h1, h2, h3]
    rfl

theorem length_leBytes (l : List UInt32) : (l.flatMap leBytes).length = 4 * l.length := by
  induction l with
  | nil => rfl
  | cons w l ih =>
    rw [List.flatMap_cons, List.length_append, ih, List.length_cons, Nat.mul_succ, Nat.add_comm]
    rfl

theorem leBytes_injective {l k : List UInt32} (hlen : l.length = k.length)
    (h : l.flatMap leBytes = k.flatMap leBytes) : l = k := by
  induction l generalizing k with
  | nil => exact (List.length_eq_zero_iff.1 hlen.symm).symm
  | cons w l ih =>
    cases k with
    | nil => exact absurd hlen (Nat.succ_ne_zero _)
    | cons v k =>
      rw [List.flatMap_cons, List.flatMap_cons] at h
      obtain ⟨hhead, htail⟩ := List.append_inj h rfl
      have hword : w = v := by
        rw [leBytes, leBytes] at hhead
        injection hhead with h0 hhead
        injection hhead with h1 hhead
        injection hhead with h2 hhead
        injection hhead with h3 hhead
        rw [← le32_byte w, ← le32_byte v, h0, h1, h2, h3]
      rw [hword, ih (Nat.succ.inj hlen) htail]

end Roswell.Verified.Endian
