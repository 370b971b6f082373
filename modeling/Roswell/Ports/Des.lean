import Mathlib.Tactic.IntervalCases
import Roswell.Verified.BlockCipher
import Roswell.Verified.Endian

/-!
# DES

Model of the cipher framework of `crypto.c`: `DesPermute`, `DesLoadKey`,
`DesBlock` and `DesCryptBlock`.  Bits are numbered as in FIPS 46-3, from one, the
highest bit of a byte first.  The key table is loaded as it is, whether or not a
schedule of a key ever built it.

`DesBlock` runs backwards with the round keys in the other order: the final
permutation undoes the initial one (`desFp_desIp`), the halves leave exchanged,
and the rounds between are a Feistel network.
-/

namespace Roswell.Ports.Des

open Verified Verified.Bytes Verified.Endian

/-! ## Tables -/

def desIp : List Nat :=
  [58, 50, 42, 34, 26, 18, 10, 2, 60, 52, 44, 36, 28, 20, 12, 4,
    62, 54, 46, 38, 30, 22, 14, 6, 64, 56, 48, 40, 32, 24, 16, 8,
    57, 49, 41, 33, 25, 17, 9, 1, 59, 51, 43, 35, 27, 19, 11, 3,
    61, 53, 45, 37, 29, 21, 13, 5, 63, 55, 47, 39, 31, 23, 15, 7]

def desFp : List Nat :=
  [40, 8, 48, 16, 56, 24, 64, 32, 39, 7, 47, 15, 55, 23, 63, 31,
    38, 6, 46, 14, 54, 22, 62, 30, 37, 5, 45, 13, 53, 21, 61, 29,
    36, 4, 44, 12, 52, 20, 60, 28, 35, 3, 43, 11, 51, 19, 59, 27,
    34, 2, 42, 10, 50, 18, 58, 26, 33, 1, 41, 9, 49, 17, 57, 25]

def desE : List Nat :=
  [32, 1, 2, 3, 4, 5, 4, 5, 6, 7, 8, 9,
    8, 9, 10, 11, 12, 13, 12, 13, 14, 15, 16, 17,
    16, 17, 18, 19, 20, 21, 20, 21, 22, 23, 24, 25,
    24, 25, 26, 27, 28, 29, 28, 29, 30, 31, 32, 1]

def desP : List Nat :=
  [16, 7, 20, 21, 29, 12, 28, 17, 1, 15, 23, 26, 5, 18, 31, 10,
    2, 8, 24, 14, 32, 27, 3, 9, 19, 13, 30, 6, 22, 11, 4, 25]

def desSBox : List (List UInt8) :=
  [[14, 4, 13, 1, 2, 15, 11, 8, 3, 10, 6, 12, 5, 9, 0, 7,
      0, 15, 7, 4, 14, 2, 13, 1, 10, 6, 12, 11, 9, 5, 3, 8,
      4, 1, 14, 8, 13, 6, 2, 11, 15, 12, 9, 7, 3, 10, 5, 0,
      15, 12, 8, 2, 4, 9, 1, 7, 5, 11, 3, 14, 10, 0, 6, 13],
    [15, 1, 8, 14, 6, 11, 3, 4, 9, 7, 2, 13, 12, 0, 5, 10,
      3, 13, 4, 7, 15, 2, 8, 14, 12, 0, 1, 10, 6, 9, 11, 5,
      0, 14, 7, 11, 10, 4, 13, 1, 5, 8, 12, 6, 9, 3, 2, 15,
      13, 8, 10, 1, 3, 15, 4, 2, 11, 6, 7, 12, 0, 5, 14, 9],
    [10, 0, 9, 14, 6, 3, 15, 5, 1, 13, 12, 7, 11, 4, 2, 8,
      13, 7, 0, 9, 3, 4, 6, 10, 2, 8, 5, 14, 12, 11, 15, 1,
      13, 6, 4, 9, 8, 15, 3, 0, 11, 1, 2, 12, 5, 10, 14, 7,
      1, 10, 13, 0, 6, 9, 8, 7, 4, 15, 14, 3, 11, 5, 2, 12],
    [7, 13, 14, 3, 0, 6, 9, 10, 1, 2, 8, 5, 11, 12, 4, 15,
      13, 8, 11, 5, 6, 15, 0, 3, 4, 7, 2, 12, 1, 10, 14, 9,
      10, 6, 9, 0, 12, 11, 7, 13, 15, 1, 3, 14, 5, 2, 8, 4,
      3, 15, 0, 6, 10, 1, 13, 8, 9, 4, 5, 11, 12, 7, 2, 14],
    [2, 12, 4, 1, 7, 10, 11, 6, 8, 5, 3, 15, 13, 0, 14, 9,
      14, 11, 2, 12, 4, 7, 13, 1, 5, 0, 15, 10, 3, 9, 8, 6,
      4, 2, 1, 11, 10, 13, 7, 8, 15, 9, 12, 5, 6, 3, 0, 14,
      11, 8, 12, 7, 1, 14, 2, 13, 6, 15, 0, 9, 10, 4, 5, 3],
    [12, 1, 10, 15, 9, 2, 6, 8, 0, 13, 3, 4, 14, 7, 5, 11,
      10, 15, 4, 2, 7, 12, 9, 5, 6, 1, 13, 14, 0, 11, 3, 8,
      9, 14, 15, 5, 2, 8, 12, 3, 7, 0, 4, 10, 1, 13, 11, 6,
      4, 3, 2, 12, 9, 5, 15, 10, 11, 14, 1, 7, 6, 0, 8, 13],
    [4, 11, 2, 14, 15, 0, 8, 13, 3, 12, 9, 7, 5, 10, 6, 1,
      13, 0, 11, 7, 4, 9, 1, 10, 14, 3, 5, 12, 2, 15, 8, 6,
      1, 4, 11, 13, 12, 3, 7, 14, 10, 15, 6, 8, 0, 5, 9, 2,
      6, 11, 13, 8, 1, 4, 10, 7, 9, 5, 0, 15, 14, 2, 3, 12],
    [13, 2, 8, 4, 6, 15, 11, 1, 10, 9, 3, 14, 5, 0, 12, 7,
      1, 15, 13, 8, 10, 3, 7, 4, 12, 5, 6, 11, 0, 14, 9, 2,
      7, 11, 4, 1, 9, 12, 14, 2, 0, 6, 10, 13, 15, 3, 5, 8,
      2, 1, 14, 7, 4, 10, 8, 13, 15, 12, 9, 0, 3, 5, 6, 11]]

/-! ## Permutations -/

/-- An array as bytes to read. -/
def bytes {n : Nat} (x : Vector UInt8 n) : Memory := fun i => x[i]?.getD 0

/-- The first bytes of an array. -/
def array (n : Nat) (m : Memory) : Vector UInt8 n := Vector.ofFn fun i => m i

/-- `x[i] |= b`. -/
def orAt {n : Nat} (x : Vector UInt8 n) (i : Nat) (b : UInt8) : Vector UInt8 n :=
  x.setIfInBounds i (bytes x i ||| b)

def xor {n : Nat} (x y : Vector UInt8 n) : Vector UInt8 n := Vector.zipWith (· ^^^ ·) x y

def desBit (bytes : Memory) (position : Nat) : UInt32 :=
  ((bytes ((position - 1) >>> 3)).toUInt32 >>> UInt32.ofNat (7 - ((position - 1) &&& 7))) &&& 1

/-- One round of the loop of `DesPermute`. -/
def putBit {n : Nat} (input : Memory) (table : List Nat) (out : Vector UInt8 n) (i : Nat) :
    Vector UInt8 n :=
  orAt out (i >>> 3) (desBit input (table.getD i 0) <<< UInt32.ofNat (7 - (i &&& 7))).toUInt8

/-- `DesPermute` of as many bits as the table has, into an array of `n` bytes. -/
def desPermute (n : Nat) (input : Memory) (table : List Nat) : Vector UInt8 n :=
  (List.range table.length).foldl (putBit input table) (Vector.replicate n 0)

/-! ## Keys -/

/-- The sixteen round keys, six bits for each S-box. -/
abbrev DesKey := Nat → Nat → UInt8

/-- `DES_KEY_SHIFT`. -/
def desKeyShift (k : Nat) : Nat := ((k >>> 1) * 8 + if k &&& 1 ≠ 0 then 6 else 2) &&& 31

/-- Six bits of a word of a round key, lowest first in the word. -/
def desLoadSix (word : UInt32) (k : Nat) : UInt8 :=
  let shift := desKeyShift k
  let six := (word >>> UInt32.ofNat shift) |||
    (if 26 < shift then word <<< UInt32.ofNat (32 - shift) else 0)
  (List.range 6).foldl (fun value b =>
    value ||| (((six >>> UInt32.ofNat b) &&& 1) <<< UInt32.ofNat (5 - b)).toUInt8) 0

def desLoadKey (table : Memory) : DesKey := fun r k =>
  let at' := r * 8 + (k &&& 1) * 4
  desLoadSix (le32 (table at') (table (at' + 1)) (table (at' + 2)) (table (at' + 3))) k

/-! ## Blocks -/

abbrev Half := Vector UInt8 4

abbrev Block := Vector UInt8 8

/-- Four bits out of an S-box, in the place of `SOut` they are for. -/
def desSubstitute (right : Half) (subkey : Nat → UInt8) (k : Nat) : UInt8 :=
  let six := (List.range 6).foldl (fun six i => six |||
    (desBit (bytes right) (desE.getD (k * 6 + i) 0) <<< UInt32.ofNat (5 - i)).toUInt8) 0
  let six := six ^^^ subkey k
  let row := ((six >>> 4) &&& 2) ||| (six &&& 1)
  let column := (six >>> 1) &&& 0x0F
  let value := (desSBox.getD k []).getD (row.toNat * 16 + column.toNat) 0
  if k &&& 1 ≠ 0 then value else value <<< 4

/-- The right half through the S-boxes and the permutation behind them. -/
def desFeistel (subkey : Nat → UInt8) (right : Half) : Half :=
  let sOut := (List.range 8).foldl
    (fun sOut k => orAt sOut (k >>> 1) (desSubstitute right subkey k)) (Vector.replicate 4 0)
  desPermute 4 (bytes sOut) desP

/-- One round: `Feistel ^= Left`, and the halves move. -/
def desRound (key : DesKey) (decrypt : Bool) (halves : Half × Half) (round : Nat) : Half × Half :=
  let subkey := key (if decrypt then 15 - round else round)
  (halves.2, xor (desFeistel subkey halves.2) halves.1)

def desBlock (input : Block) (key : DesKey) (decrypt : Bool) : Block :=
  let state := desPermute 8 (bytes input) desIp
  let left := array 4 (bytes state)
  let right := array 4 fun i => bytes state (4 + i)
  let (left, right) := (List.range 16).foldl (desRound key decrypt) (left, right)
  desPermute 8 (bytes (right ++ left)) desFp

def desCryptBlock (input : Block) (keys : Nat → DesKey) (keyCount : Nat) (decrypt : Bool) : Block :=
  if keyCount = 1 then desBlock input (keys 0) decrypt
  else if !decrypt then
    desBlock (desBlock (desBlock input (keys 0) false) (keys 1) true) (keys 2) false
  else desBlock (desBlock (desBlock input (keys 2) true) (keys 1) false) (keys 0) true

def desKeyCount (cipher : Nat) : Nat := if cipher = 0 then 1 else 3

/-- `DesLoadTable`. -/
def desLoadTable (table : Memory) : Nat → DesKey := fun i =>
  desLoadKey fun a => table (i * 128 + a)

/-! ## Bits -/

/-- A bit of a byte string, numbered from zero. -/
def bit (m : Memory) (q : Nat) : Bool := (m (q / 8)).toNat.testBit (7 - q % 8)

theorem desBit_eq (m : Memory) (p : Nat) : desBit m p = if bit m (p - 1) then 1 else 0 := by
  unfold desBit bit
  rw [Nat.shiftRight_eq_div_pow, show p - 1 &&& 7 = (p - 1) % 8 from
    Nat.and_two_pow_sub_one_eq_mod (p - 1) 3]
  obtain ⟨x, hx⟩ : ∃ x, m ((p - 1) / 2 ^ 3) = x := ⟨_, rfl⟩
  obtain ⟨s, hs⟩ : ∃ s, 7 - (p - 1) % 8 = s := ⟨_, rfl⟩
  rw [hx, hs, show (p - 1) / 8 = (p - 1) / 2 ^ 3 from rfl, hx]
  refine UInt32.toNat_inj.1 ?_
  have hbit := Nat.toNat_testBit x.toNat s
  rw [UInt32.toNat_and, UInt32.toNat_shiftRight, UInt8.toNat_toUInt32, UInt32.toNat_ofNat',
    UInt32.toNat_one, Nat.and_one_is_mod, Nat.mod_eq_of_lt (show s < 2 ^ 32 by omega),
    Nat.mod_eq_of_lt (show s < 32 by omega), Nat.shiftRight_eq_div_pow, ← hbit]
  cases x.toNat.testBit s <;> rfl

/-- A bit shifted to its place in a byte. -/
theorem testBit_shift (b : Bool) {s t : Nat} (hs : s < 8) (ht : t < 8) :
    ((if b then (1 : UInt32) else 0) <<< UInt32.ofNat s).toUInt8.toNat.testBit t =
      (b && decide (t = s)) := by
  have hall : ∀ b : Bool, ∀ s < 8, ∀ t < 8,
      ((if b then (1 : UInt32) else 0) <<< UInt32.ofNat s).toUInt8.toNat.testBit t =
        (b && decide (t = s)) := by
    decide
  exact hall b s hs t ht

theorem bytes_getElem {n : Nat} (x : Vector UInt8 n) {i : Nat} (hi : i < n) : bytes x i = x[i] := by
  unfold bytes
  rw [Vector.getElem?_eq_getElem hi, Option.getD_some]

theorem bytes_orAt {n : Nat} (x : Vector UInt8 n) {i j : Nat} (hj : j < n) (b : UInt8) :
    bytes (orAt x i b) j = if j = i then bytes x i ||| b else bytes x j := by
  unfold orAt bytes
  rw [Vector.getElem?_setIfInBounds]
  by_cases heq : i = j
  · subst heq
    rw [if_pos rfl, if_pos hj, if_pos rfl, Option.getD_some]
  · rw [if_neg heq, if_neg (Ne.symm heq)]

section Permute

variable {n : Nat} {input : Memory} {table : List Nat}

/-- One round puts one bit. -/
theorem bit_putBit (out : Vector UInt8 n) {i q : Nat} (hq : q < 8 * n) :
    bit (bytes (putBit input table out i)) q =
      (bit (bytes out) q || (decide (q = i) && bit input (table.getD i 0 - 1))) := by
  unfold putBit
  rw [desBit_eq, Nat.shiftRight_eq_div_pow,
    show i &&& 7 = i % 8 from Nat.and_two_pow_sub_one_eq_mod i 3]
  obtain ⟨b, hb⟩ : ∃ b, bit input (table.getD i 0 - 1) = b := ⟨_, rfl⟩
  rw [hb, bit, bytes_orAt out (show q / 8 < n by omega)]
  by_cases hbyte : q / 8 = i / 2 ^ 3
  · rw [if_pos hbyte, UInt8.toNat_or, Nat.testBit_or, testBit_shift b (by omega) (by omega), bit,
      hbyte, Bool.and_comm]
    have hiff : (7 - q % 8 = 7 - i % 8) ↔ q = i := by omega
    simp only [hiff]
  · rw [if_neg hbyte, decide_eq_false (by omega), Bool.false_and, Bool.or_false, bit]

theorem bit_foldl_putBit (k : Nat) {q : Nat} (hq : q < 8 * n) :
    bit (bytes ((List.range k).foldl (putBit input table) (Vector.replicate n 0))) q =
      (decide (q < k) && bit input (table.getD q 0 - 1)) := by
  induction k with
  | zero =>
    have hzero : bytes (Vector.replicate n (0 : UInt8)) (q / 8) = 0 := by
      unfold bytes
      rw [Vector.getElem?_replicate]
      split <;> rfl
    rw [List.range_zero, List.foldl_nil, bit, hzero]
    exact Nat.zero_testBit _
  | succ k ih =>
    rw [List.range_succ, List.foldl_append, List.foldl_cons, List.foldl_nil, bit_putBit _ hq, ih]
    by_cases hk : q = k
    · subst hk
      rw [decide_eq_false (Nat.lt_irrefl q), decide_eq_true (rfl : q = q),
        decide_eq_true (Nat.lt_succ_self q), Bool.false_and, Bool.false_or]
    · have hiff : q < k + 1 ↔ q < k := by omega
      simp only [hk, hiff, decide_false, Bool.false_and, Bool.or_false]

theorem bit_desPermute {q : Nat} (hq : q < 8 * n) (htable : q < table.length) :
    bit (bytes (desPermute n input table)) q = bit input (table.getD q 0 - 1) := by
  rw [desPermute, bit_foldl_putBit _ hq, decide_eq_true htable, Bool.true_and]

end Permute

/-- Arrays with the same bits are equal. -/
theorem eq_of_bits {n : Nat} {x y : Vector UInt8 n}
    (h : ∀ q < 8 * n, bit (bytes x) q = bit (bytes y) q) : x = y := by
  refine Vector.ext fun i hi => UInt8.toNat_inj.1 (Nat.eq_of_testBit_eq fun t => ?_)
  by_cases ht : t < 8
  · have hbit := h (8 * i + (7 - t)) (by omega)
    unfold bit at hbit
    rw [show (8 * i + (7 - t)) / 8 = i by omega, show 7 - (8 * i + (7 - t)) % 8 = t by omega,
      bytes_getElem x hi, bytes_getElem y hi] at hbit
    exact hbit
  · have hhigh : ∀ b : UInt8, b.toNat.testBit t = false := by
      intro b
      have hb := b.toNat_lt
      refine Nat.testBit_lt_two_pow (hb.trans_le ?_)
      exact Nat.pow_le_pow_right (by decide) (by omega)
    rw [hhigh, hhigh]

/-- Two permutations of a block that undo each other. -/
theorem desPermute_desPermute {first second : List Nat} (hlen : first.length = 64)
    (hlen' : second.length = 64)
    (hinv : ∀ q < 64, second.getD q 0 - 1 < 64 ∧ first.getD (second.getD q 0 - 1) 0 - 1 = q)
    (x : Block) : desPermute 8 (bytes (desPermute 8 (bytes x) first)) second = x := by
  refine eq_of_bits fun q hq => ?_
  obtain ⟨hlt, hback⟩ := hinv q hq
  rw [bit_desPermute hq (by omega), bit_desPermute (by omega) (by omega), hback]

theorem desIp_desFp (x : Block) :
    desPermute 8 (bytes (desPermute 8 (bytes x) desFp)) desIp = x :=
  desPermute_desPermute rfl rfl (by decide) x

theorem desFp_desIp (x : Block) :
    desPermute 8 (bytes (desPermute 8 (bytes x) desIp)) desFp = x :=
  desPermute_desPermute rfl rfl (by decide) x

/-! ## The network -/

theorem xor_cancel {n : Nat} (x y : Vector UInt8 n) : xor x (xor x y) = y := by
  refine Vector.ext fun i hi => ?_
  unfold xor
  rw [Vector.getElem_zipWith, Vector.getElem_zipWith, ← UInt8.xor_assoc, UInt8.xor_self,
    UInt8.zero_xor]

theorem xor_cancel_right {n : Nat} (x y : Vector UInt8 n) : xor (xor x y) y = x := by
  refine Vector.ext fun i hi => ?_
  unfold xor
  rw [Vector.getElem_zipWith, Vector.getElem_zipWith, UInt8.xor_assoc, UInt8.xor_self,
    UInt8.xor_zero]

/-- The halves of a block. -/
def halves (x : Block) : Half × Half := (array 4 (bytes x), array 4 fun i => bytes x (4 + i))

theorem halves_append (x y : Half) : halves (x ++ y) = (x, y) := by
  refine Prod.ext (Vector.ext fun i hi => ?_) (Vector.ext fun i hi => ?_)
  · show (array 4 (bytes (x ++ y)))[i] = x[i]
    rw [array, Vector.getElem_ofFn, bytes_getElem _ (by omega), Vector.getElem_append_left hi]
  · show (array 4 fun i => bytes (x ++ y) (4 + i))[i] = y[i]
    rw [array, Vector.getElem_ofFn, bytes_getElem _ (by omega),
      Vector.getElem_append_right (by omega) (by omega)]
    simp

theorem append_halves (x : Block) : (halves x).1 ++ (halves x).2 = x := by
  refine Vector.ext fun i hi => ?_
  unfold halves array
  by_cases hlow : i < 4
  · rw [Vector.getElem_append_left hlow, Vector.getElem_ofFn, bytes_getElem _ hi]
  · rw [Vector.getElem_append_right (by omega) (by omega), Vector.getElem_ofFn]
    show bytes x (4 + (i - 4)) = x[i]
    rw [show 4 + (i - 4) = i by omega, bytes_getElem _ hi]

/-- The round keys in the order of use. -/
def schedule (key : DesKey) (decrypt : Bool) : List (Nat → UInt8) :=
  (List.range 16).map fun round => key (if decrypt then 15 - round else round)

theorem schedule_not (key : DesKey) (decrypt : Bool) :
    schedule key (!decrypt) = (schedule key decrypt).reverse := by
  cases decrypt <;> rfl

theorem foldl_desRound (key : DesKey) (decrypt : Bool) (b : Half × Half) :
    (List.range 16).foldl (desRound key decrypt) b =
      BlockCipher.rounds xor desFeistel (schedule key decrypt) b := by
  unfold BlockCipher.rounds schedule
  rw [List.foldl_map]
  rfl

theorem desBlock_eq (x : Block) (key : DesKey) (decrypt : Bool) :
    desBlock x key decrypt = desPermute 8 (bytes (
      (BlockCipher.rounds xor desFeistel (schedule key decrypt)
          (halves (desPermute 8 (bytes x) desIp))).2 ++
        (BlockCipher.rounds xor desFeistel (schedule key decrypt)
          (halves (desPermute 8 (bytes x) desIp))).1)) desFp := by
  rw [← foldl_desRound]
  rfl

/-- `DesBlock` with the other direction undoes it. -/
theorem desBlock_desBlock (x : Block) (key : DesKey) (decrypt : Bool) :
    desBlock (desBlock x key decrypt) key (!decrypt) = x := by
  generalize hb : BlockCipher.rounds xor desFeistel (schedule key decrypt) (halves (desPermute 8
    (bytes x) desIp)) = b
  have hback := BlockCipher.rounds_reverse xor desFeistel xor_cancel (schedule key decrypt)
    (halves (desPermute 8 (bytes x) desIp))
  rw [hb] at hback
  rw [desBlock_eq x, hb, desBlock_eq, desIp_desFp, halves_append, schedule_not]
  rw [show (b.2, b.1) = b.swap from rfl, hback, Prod.fst_swap, Prod.snd_swap, append_halves,
    desFp_desIp]

/-- Decryption undoes encryption, with one key or with three. -/
theorem desCryptBlock_decrypt (x : Block) (keys : Nat → DesKey) (keyCount : Nat) :
    desCryptBlock (desCryptBlock x keys keyCount false) keys keyCount true = x := by
  have hundo : ∀ y key, desBlock (desBlock y key false) key true = y :=
    fun y key => desBlock_desBlock y key false
  have hredo : ∀ y key, desBlock (desBlock y key true) key false = y :=
    fun y key => desBlock_desBlock y key true
  unfold desCryptBlock
  by_cases hone : keyCount = 1
  · rw [if_pos hone, if_pos hone, hundo]
  · simp only [if_neg hone, Bool.not_false, Bool.not_true, if_true]
    rw [if_neg (by decide), hundo, hredo, hundo]

end Roswell.Ports.Des
