import Mathlib.Data.Nat.ModEq
import Mathlib.Tactic.LinearCombination
import Mathlib.Tactic.Zify
import Roswell.Verified.Limbs

/-!
# Multi-word arithmetic

Model of the `Bn` helpers of `crypto.c`.  Operands are lists of words, least
significant first; where the source passes a word count it is the length of the
list.  Each helper has one lemma that says what it does to values.

`BnMontMul` keeps its accumulator in `N + 2` words: the lowest `N` are the list
`low`, the two above it `top` and `spill`.
-/

namespace Roswell.Ports.BigNum

open Verified.Limbs

/-! ## The helpers -/

/-- `BnCompare` of the lowest `n` words: zero, one or minus one. -/
def bnCompare (a b : List UInt32) : Nat → UInt32
  | 0 => 0
  | n + 1 =>
    if a.getD n 0 ≠ b.getD n 0 then if b.getD n 0 < a.getD n 0 then 1 else 0xFFFFFFFF
    else bnCompare a b n

/-- `BnSubtract` from a borrow on: the difference and the borrow out of the top. -/
def bnSubtract : List UInt32 → List UInt32 → UInt64 → List UInt32 × UInt64
  | a :: as, b :: bs, borrow =>
    let d := a.toUInt64 - b.toUInt64 - borrow
    let rest := bnSubtract as bs ((d >>> 32) &&& 1)
    (d.toUInt32 :: rest.1, rest.2)
  | _, _, borrow => ([], borrow)

/-- The shift in `BnDoubleMod`. -/
def bnShift : List UInt32 → UInt32 → List UInt32 × UInt32
  | a :: as, carry =>
    let rest := bnShift as (a >>> 31)
    (((a <<< 1) ||| carry) :: rest.1, rest.2)
  | [], carry => ([], carry)

/-- One subtraction of the modulus, if the number with `top` above it reaches it. -/
def bnReduceOnce (top : UInt32) (a m : List UInt32) : List UInt32 :=
  if top ≠ 0 ∨ bnCompare a m m.length ≠ 0xFFFFFFFF then (bnSubtract a m 0).1 else a

def bnDoubleMod (a : List UInt32) (bit : UInt32) (m : List UInt32) : List UInt32 :=
  let (a, carry) := bnShift a bit
  bnReduceOnce carry a m

/-- The loop of `BnReduce`, with `i` bits left. -/
def bnReduceLoop (v m : List UInt32) : Nat → List UInt32 → List UInt32
  | 0, result => result
  | i + 1, result =>
    bnReduceLoop v m i
      (bnDoubleMod result ((v.getD (i / 32) 0 >>> UInt32.ofNat (i % 32)) &&& 1) m)

def bnReduce (v m : List UInt32) : List UInt32 :=
  bnReduceLoop v m (v.length * 32) (List.replicate m.length 0)

/-- A row of products is added: `Carry += A[j] * B + T[j]` for all `j`. -/
def addRow : List UInt32 → UInt32 → List UInt32 → UInt64 → List UInt32 × UInt64
  | a :: as, b, t :: ts, carry =>
    let carry := carry + (a.toUInt64 * b.toUInt64 + t.toUInt64)
    let rest := addRow as b ts (carry >>> 32)
    (carry.toUInt32 :: rest.1, rest.2)
  | _, _, _, carry => ([], carry)

/-- The accumulator of `BnMontMul`. -/
structure Accumulator where
  low : List UInt32
  top : UInt32
  spill : UInt32

/-- One round of `BnMontMul`: add a row, cancel the low word, shift down. -/
def montRow (a m : List UInt32) (mInv : UInt32) (t : Accumulator) (b : UInt32) : Accumulator :=
  let (low, carry) := addRow a b t.low 0
  let carry := carry + t.top.toUInt64
  let top := carry.toUInt32
  let spill := (carry >>> 32).toUInt32
  let factor := low.headD 0 * mInv
  let carry := (factor.toUInt64 * (m.headD 0).toUInt64 + (low.headD 0).toUInt64) >>> 32
  let (low, carry) := addRow m.tail factor low.tail carry
  let carry := carry + top.toUInt64
  ⟨low ++ [carry.toUInt32], spill + (carry >>> 32).toUInt32, spill⟩

def bnMontMul (a b m : List UInt32) (mInv : UInt32) : List UInt32 :=
  let t := b.foldl (montRow a m mInv) ⟨List.replicate m.length 0, 0, 0⟩
  bnReduceOnce t.top t.low m

/-- Row `i` of a product, in a result of twice the length. -/
def mulRow (a b : List UInt32) (result : List UInt32) (i : Nat) : List UInt32 :=
  let (row, carry) := addRow a (b.getD i 0) ((result.drop i).take a.length) 0
  result.take i ++ row ++ carry.toUInt32 :: result.drop (i + a.length + 1)

/-- `BnMultiply`, and the product in `BnMulMod`. -/
def bnMultiply (a b : List UInt32) : List UInt32 :=
  (List.range b.length).foldl (mulRow a b) (List.replicate (2 * b.length) 0)

def bnMulMod (a b m : List UInt32) : List UInt32 := bnReduce (bnMultiply a b) m

def bnIsZero (a : List UInt32) : Bool := a.all (· == 0)

/-- `BnAdd` from a carry on: the sum and the carry out of the top. -/
def bnAdd : List UInt32 → List UInt32 → UInt64 → List UInt32 × UInt64
  | a :: as, b :: bs, carry =>
    let carry := carry + (a.toUInt64 + b.toUInt64)
    let rest := bnAdd as bs (carry >>> 32)
    (carry.toUInt32 :: rest.1, rest.2)
  | _, _, carry => ([], carry)

/-! ## Comparison and subtraction -/

variable {a b : List UInt32}

theorem bnCompare_lt {n : Nat} (ha : n ≤ a.length) (hb : n ≤ b.length) :
    bnCompare a b n = 0xFFFFFFFF ↔ value (a.take n) < value (b.take n) := by
  induction n with
  | zero => simp [bnCompare]
  | succ n ih =>
    have hla := value_lt (a.take n)
    have hlb := value_lt (b.take n)
    rw [List.length_take, Nat.min_eq_left (by omega)] at hla hlb
    rw [bnCompare, value_take_succ ha, value_take_succ hb]
    obtain ⟨x, hx⟩ : ∃ x, a.getD n 0 = x := ⟨_, rfl⟩
    obtain ⟨y, hy⟩ : ∃ y, b.getD n 0 = y := ⟨_, rfl⟩
    obtain ⟨r, hr⟩ : ∃ r, (2 ^ 32) ^ n = r := ⟨_, rfl⟩
    rw [hr] at hla hlb ⊢
    rw [hx, hy]
    by_cases heq : x = y
    · rw [if_neg (fun hne => hne heq), ih (by omega) (by omega), heq]
      omega
    rw [if_pos heq]
    rcases Nat.lt_or_gt_of_ne (fun h => heq (UInt32.toNat_inj.1 h)) with hlt | hgt
    · have hmul : r * (x.toNat + 1) ≤ r * y.toNat := Nat.mul_le_mul_left r hlt
      rw [if_neg (by rw [UInt32.lt_iff_toNat_lt]; omega)]
      rw [Nat.mul_add] at hmul
      exact ⟨fun _ => by omega, fun _ => rfl⟩
    · have hmul : r * (y.toNat + 1) ≤ r * x.toNat := Nat.mul_le_mul_left r hgt
      rw [if_pos (by rw [UInt32.lt_iff_toNat_lt]; omega)]
      rw [Nat.mul_add] at hmul
      exact ⟨fun h => absurd h (by decide), fun h => by omega⟩

theorem bnSubtract_spec (borrow : UInt64) (hlen : a.length = b.length)
    (hborrow : borrow.toNat ≤ 1) :
    (bnSubtract a b borrow).1.length = a.length ∧ (bnSubtract a b borrow).2.toNat ≤ 1 ∧
      value (bnSubtract a b borrow).1 + value b + borrow.toNat =
        value a + (2 ^ 32) ^ a.length * (bnSubtract a b borrow).2.toNat := by
  induction a generalizing b borrow with
  | nil =>
    obtain rfl := List.length_eq_zero_iff.1 hlen.symm
    exact ⟨rfl, hborrow, by simp [bnSubtract]⟩
  | cons x a ih =>
    cases b with
    | nil => exact absurd hlen (Nat.succ_ne_zero _)
    | cons y b =>
      have hx := x.toNat_lt
      have hy := y.toNat_lt
      generalize hd : x.toUInt64 - y.toUInt64 - borrow = d
      have hdn : d.toNat = (2 ^ 64 - borrow.toNat + (2 ^ 64 - y.toNat + x.toNat) % 2 ^ 64) % 2 ^ 64 := by
        rw [← hd, UInt64.toNat_sub, UInt64.toNat_sub, UInt32.toNat_toUInt64,
          UInt32.toNat_toUInt64]
      have hnext : ((d >>> 32) &&& 1).toNat = d.toNat / 2 ^ 32 % 2 := by
        rw [UInt64.toNat_and, UInt64.toNat_shiftRight, Nat.shiftRight_eq_div_pow]
        exact Nat.and_one_is_mod _
      obtain ⟨hlow, hbound, hsum⟩ := ih _ (Nat.succ.inj hlen)
        (show ((d >>> 32) &&& 1).toNat ≤ 1 by omega)
      rw [bnSubtract, hd]
      dsimp only
      refine ⟨by rw [List.length_cons, List.length_cons, hlow], hbound, ?_⟩
      rw [value_cons, value_cons, value_cons, List.length_cons, radix_pow_succ,
        UInt64.toNat_toUInt32, Nat.mul_assoc]
      omega

theorem bnReduceOnce_spec (top : UInt32) {a m : List UInt32} (hlen : a.length = m.length)
    (hbound : value a + (2 ^ 32) ^ m.length * top.toNat < value m + (2 ^ 32) ^ m.length) :
    (bnReduceOnce top a m).length = m.length ∧
      value (bnReduceOnce top a m) =
        if value m ≤ value a + (2 ^ 32) ^ m.length * top.toNat then
          value a + (2 ^ 32) ^ m.length * top.toNat - value m
        else value a + (2 ^ 32) ^ m.length * top.toNat := by
  have hcompare := bnCompare_lt (b := m) (Nat.le_of_eq hlen.symm) (Nat.le_refl m.length)
  rw [List.take_length, ← hlen, List.take_length, hlen] at hcompare
  have hm := value_lt m
  obtain ⟨r, hr⟩ : ∃ r, (2 ^ 32) ^ m.length = r := ⟨_, rfl⟩
  rw [hr] at hbound hm ⊢
  obtain ⟨hlow, hone, hsum⟩ := bnSubtract_spec (b := m) 0 hlen (by decide)
  have hresult := value_lt (bnSubtract a m 0).1
  rw [hlow, hlen, hr] at hresult
  rw [hlen, hr, UInt64.toNat_zero, Nat.add_zero] at hsum
  have htop : top.toNat ≤ 1 := by
    by_contra htwo
    have := Nat.mul_le_mul_left r (show 2 ≤ top.toNat by omega)
    omega
  -- the number with `top` above it reaches the modulus exactly when the test says so
  have htest : (top ≠ 0 ∨ bnCompare a m m.length ≠ 0xFFFFFFFF) ↔
      value m ≤ value a + r * top.toNat := by
    rw [Ne, Ne, hcompare]
    by_cases hzero : top = 0
    · rw [hzero, UInt32.toNat_zero]
      simp
    · have hpos : top.toNat = 1 := by
        have : top.toNat ≠ 0 := fun h => hzero (UInt32.toNat_inj.1 h)
        omega
      rw [hpos]
      exact ⟨fun _ => by omega, fun _ => Or.inl hzero⟩
  unfold bnReduceOnce
  by_cases hreach : value m ≤ value a + r * top.toNat
  · rw [if_pos (htest.2 hreach), if_pos hreach]
    refine ⟨hlow.trans hlen, ?_⟩
    rcases Nat.le_one_iff_eq_zero_or_eq_one.1 hone with hb | hb <;>
      rcases Nat.le_one_iff_eq_zero_or_eq_one.1 htop with ht | ht <;>
      rw [hb] at hsum <;> rw [ht] at hreach hbound ⊢ <;> omega
  · rw [if_neg (fun h => hreach (htest.1 h)), if_neg hreach]
    refine ⟨hlen, ?_⟩
    rcases Nat.le_one_iff_eq_zero_or_eq_one.1 htop with ht | ht <;> rw [ht] at hreach ⊢ <;> omega

/-! ## Doubling and reduction -/

theorem bnShift_spec {a : List UInt32} (carry : UInt32) (hcarry : carry.toNat ≤ 1) :
    (bnShift a carry).1.length = a.length ∧
      value (bnShift a carry).1 + (2 ^ 32) ^ a.length * (bnShift a carry).2.toNat =
        2 * value a + carry.toNat := by
  induction a generalizing carry with
  | nil => simp [bnShift]
  | cons x a ih =>
    have hx := x.toNat_lt
    have hnext : (x >>> 31).toNat = x.toNat / 2 ^ 31 := by
      rw [UInt32.toNat_shiftRight, Nat.shiftRight_eq_div_pow]
      rfl
    have hword : ((x <<< 1) ||| carry).toNat = x.toNat * 2 % 2 ^ 32 + carry.toNat := by
      rw [UInt32.toNat_or, UInt32.toNat_shiftLeft, Nat.shiftLeft_eq]
      show x.toNat * 2 ^ 1 % 2 ^ 32 ||| carry.toNat = _
      have heven : x.toNat * 2 ^ 1 % 2 ^ 32 = 2 ^ 1 * (x.toNat % 2 ^ 31) := by omega
      rw [heven, ← Nat.two_pow_add_eq_or_of_lt (by omega)]
      omega
    obtain ⟨hlen, hsum⟩ := ih (x >>> 31) (by omega)
    rw [bnShift]
    dsimp only
    refine ⟨by rw [List.length_cons, List.length_cons, hlen], ?_⟩
    rw [value_cons, value_cons, List.length_cons, radix_pow_succ, hword, Nat.mul_assoc]
    omega

theorem bnDoubleMod_spec {a m : List UInt32} (bit : UInt32) (hlen : a.length = m.length)
    (hbit : bit.toNat ≤ 1)
    (hbound : 2 * value a + bit.toNat < value m + (2 ^ 32) ^ m.length) :
    (bnDoubleMod a bit m).length = m.length ∧
      value (bnDoubleMod a bit m) =
        if value m ≤ 2 * value a + bit.toNat then 2 * value a + bit.toNat - value m
        else 2 * value a + bit.toNat := by
  obtain ⟨hshift, hsum⟩ := bnShift_spec _ hbit
  rw [hlen] at hsum
  rw [← hsum] at hbound ⊢
  exact bnReduceOnce_spec _ (hshift.trans hlen) hbound

/-- Bit by bit from the top, the result is the number read so far modulo `M`. -/
theorem bnReduceLoop_spec {v m result : List UInt32} (hm : 0 < value m) {i : Nat}
    (hlen : result.length = m.length) (hresult : value result = value v / 2 ^ i % value m) :
    (bnReduceLoop v m i result).length = m.length ∧
      value (bnReduceLoop v m i result) = value v % value m := by
  induction i generalizing result with
  | zero =>
    rw [Nat.pow_zero, Nat.div_one] at hresult
    exact ⟨hlen, hresult⟩
  | succ i ih =>
    obtain ⟨bit, hbit⟩ : ∃ b, (v.getD (i / 32) 0 >>> UInt32.ofNat (i % 32)) &&& 1 = b := ⟨_, rfl⟩
    have hvalue : bit.toNat = value v / 2 ^ i % 2 := by
      rw [← Nat.toNat_testBit, ← hbit, testBit_value]
      cases (value v).testBit i <;> rfl
    have hlt : value result < value m := by
      rw [hresult]
      exact Nat.mod_lt _ hm
    have hfits := value_lt m
    have hsplit : value v / 2 ^ i = 2 * (value v / 2 ^ (i + 1)) + bit.toNat := by
      rw [hvalue, Nat.pow_succ, ← Nat.div_div_eq_div_mul]
      omega
    obtain ⟨hlength, hdouble⟩ := bnDoubleMod_spec bit hlen (by omega)
      (by omega)
    rw [bnReduceLoop, hbit]
    refine ih hlength (hdouble.trans ?_)
    have hmod : value v / 2 ^ i % value m = (2 * value result + bit.toNat) % value m := by
      have hread : value v / 2 ^ (i + 1) ≡ value result [MOD value m] := by
        rw [hresult]
        exact (Nat.mod_modEq _ _).symm
      rw [hsplit]
      exact (hread.mul_left 2).add_right bit.toNat
    rw [hmod]
    split
    case isTrue hreach => rw [Nat.mod_eq_sub_mod hreach, Nat.mod_eq_of_lt (by omega)]
    case isFalse hshort => rw [Nat.mod_eq_of_lt (by omega)]

theorem bnReduce_spec {v m : List UInt32} (hm : 0 < value m) :
    (bnReduce v m).length = m.length ∧ value (bnReduce v m) = value v % value m := by
  refine bnReduceLoop_spec hm List.length_replicate ?_
  have hv := value_lt v
  rw [value_replicate, Nat.div_eq_of_lt, Nat.zero_mod]
  rwa [Nat.mul_comm, Nat.pow_mul]

/-! ## Products -/

theorem addRow_spec {a t : List UInt32} {b : UInt32} (carry : UInt64) (hlen : a.length = t.length)
    (hcarry : carry.toNat < 2 ^ 32) :
    (addRow a b t carry).1.length = a.length ∧ (addRow a b t carry).2.toNat < 2 ^ 32 ∧
      value (addRow a b t carry).1 + (2 ^ 32) ^ a.length * (addRow a b t carry).2.toNat =
        value a * b.toNat + value t + carry.toNat := by
  induction a generalizing t carry with
  | nil =>
    obtain rfl := List.length_eq_zero_iff.1 hlen.symm
    exact ⟨rfl, hcarry, by simp [addRow]⟩
  | cons x a ih =>
    cases t with
    | nil => exact absurd hlen (Nat.succ_ne_zero _)
    | cons y t =>
      generalize hc : carry + (x.toUInt64 * b.toUInt64 + y.toUInt64) = c
      have hmac := toNat_mac x b y hcarry
      rw [hc] at hmac
      obtain ⟨hhalves, hhigh⟩ := toNat_halves c
      obtain ⟨hlength, hbound, hsum⟩ := ih _ (Nat.succ.inj hlen) hhigh
      rw [addRow, hc]
      dsimp only
      refine ⟨by rw [List.length_cons, List.length_cons, hlength], hbound, ?_⟩
      rw [value_cons, value_cons, value_cons, List.length_cons, radix_pow_succ, Nat.mul_assoc,
        Nat.add_mul, Nat.mul_assoc]
      omega

/-- What the rows so far have made of the result: the product of `a` and the words of
`b` read, with nothing above it. -/
structure Multiplied (a b result : List UInt32) (i : Nat) : Prop where
  length : result.length = 2 * b.length
  product : value result = value a * value (b.take i)
  above : value (result.drop (i + a.length)) = 0

theorem Multiplied.row {a b result : List UInt32} {i : Nat} (h : Multiplied a b result i)
    (hlen : a.length = b.length) (hi : i < b.length) :
    Multiplied a b (mulRow a b result i) (i + 1) := by
  obtain ⟨mid, hmid⟩ : ∃ l, (result.drop i).take a.length = l := ⟨_, rfl⟩
  have hmidlen : mid.length = a.length := by
    rw [← hmid, List.length_take, List.length_drop, h.length]
    omega
  obtain ⟨rowlen, hcarry, hrow⟩ := addRow_spec (a := a) (t := mid) 0
    hmidlen.symm (by decide)
  have htake : (result.take i).length = i := by
    rw [List.length_take, h.length]
    omega
  have hrest : value (result.drop (i + a.length + 1)) = 0 := by
    have habove := value_drop (result.drop (i + a.length)) 1
    rwa [List.drop_drop, h.above, Nat.zero_div] at habove
  have hold : value result = value (result.take i) + (2 ^ 32) ^ i * value mid := by
    have hsplit : result.take i ++ (mid ++ result.drop (i + a.length)) = result := by
      rw [← hmid, ← List.drop_drop, List.take_append_drop, List.take_append_drop]
    have hvalue := congrArg value hsplit
    rw [value_append, value_append, h.above, htake, Nat.mul_zero, Nat.add_zero] at hvalue
    exact hvalue.symm
  have hcarry32 : (addRow a (b.getD i 0) mid 0).2.toUInt32.toNat =
      (addRow a (b.getD i 0) mid 0).2.toNat := by
    exact Nat.mod_eq_of_lt hcarry
  have hform : mulRow a b result i = result.take i ++ ((addRow a (b.getD i 0) mid 0).1 ++
      (addRow a (b.getD i 0) mid 0).2.toUInt32 :: result.drop (i + a.length + 1)) := by
    rw [mulRow, hmid]
    exact List.append_assoc ..
  refine ⟨?_, ?_, ?_⟩
  · rw [hform, List.length_append, List.length_append, List.length_cons, List.length_drop, htake,
      rowlen, h.length]
    omega
  · have hnew : value (mulRow a b result i) = value (result.take i) +
        (2 ^ 32) ^ i * (value a * (b.getD i 0).toNat + value mid) := by
      rw [UInt64.toNat_zero, Nat.add_zero] at hrow
      rw [hform, value_append, value_append, value_cons, hrest, hcarry32, htake, rowlen,
        Nat.mul_zero, Nat.add_zero, hrow]
    calc value (mulRow a b result i)
        = value result + (2 ^ 32) ^ i * (value a * (b.getD i 0).toNat) := by
          rw [hnew, hold]
          ring
      _ = value a * value (b.take (i + 1)) := by
          rw [h.product, value_take_succ hi]
          ring
  · rw [hform, show i + 1 + a.length = i + (a.length + 1) by omega, ← List.drop_drop,
      List.drop_left' htake, ← List.drop_drop, List.drop_left' rowlen]
    exact hrest

theorem bnMultiply_spec (hlen : a.length = b.length) :
    (bnMultiply a b).length = 2 * b.length ∧ value (bnMultiply a b) = value a * value b := by
  have hrows : ∀ n ≤ b.length, Multiplied a b
      ((List.range n).foldl (mulRow a b) (List.replicate (2 * b.length) 0)) n := by
    intro n
    induction n with
    | zero =>
      intro _
      refine ⟨List.length_replicate, ?_, ?_⟩
      · rw [List.range_zero, List.foldl_nil, value_replicate, List.take_zero]
        rfl
      · rw [List.range_zero, List.foldl_nil, List.drop_replicate, value_replicate]
    | succ n ih =>
      intro hn
      rw [List.range_succ, List.foldl_append, List.foldl_cons, List.foldl_nil]
      exact (ih (by omega)).row hlen hn
  have hall := hrows b.length (Nat.le_refl _)
  refine ⟨hall.length, ?_⟩
  have hproduct := hall.product
  rwa [List.take_length] at hproduct

theorem bnMulMod_spec {a b m : List UInt32} (hlen : a.length = b.length) (hm : 0 < value m) :
    (bnMulMod a b m).length = m.length ∧ value (bnMulMod a b m) = value a * value b % value m := by
  rw [← (bnMultiply_spec hlen).2]
  exact bnReduce_spec hm

/-! ## Montgomery products -/

/-- What an accumulator stands for; the word `spill` is written before it is read. -/
def Accumulator.total (t : Accumulator) : Nat :=
  value t.low + (2 ^ 32) ^ t.low.length * t.top.toNat

/-- Adding two words in a double word. -/
theorem toNat_add_word (w : UInt32) {c : UInt64} (hc : c.toNat < 2 ^ 32) :
    (c + w.toUInt64).toUInt32.toNat + 2 ^ 32 * ((c + w.toUInt64) >>> 32).toUInt32.toNat =
        c.toNat + w.toNat ∧
      ((c + w.toUInt64) >>> 32).toUInt32.toNat ≤ 1 := by
  have hw := w.toNat_lt
  obtain ⟨hhalves, hhigh⟩ := toNat_halves (c + w.toUInt64)
  have hsum : (c + w.toUInt64).toNat = c.toNat + w.toNat := by
    rw [UInt64.toNat_add, UInt32.toNat_toUInt64]
    omega
  have htrunc : ((c + w.toUInt64) >>> 32).toUInt32.toNat = ((c + w.toUInt64) >>> 32).toNat := by
    exact Nat.mod_eq_of_lt hhigh
  omega

/-- The multiple of the modulus that a round adds cancels the low word. -/
theorem cancel_low {t m mInv : UInt32} (hinv : m.toNat * mInv.toNat % 2 ^ 32 = 2 ^ 32 - 1) :
    2 ^ 32 * (((t * mInv).toUInt64 * m.toUInt64 + t.toUInt64) >>> 32).toNat =
      (t * mInv).toNat * m.toNat + t.toNat := by
  have hmac := toNat_mac (t * mInv) m t (c := 0) (by decide)
  rw [UInt64.zero_add, UInt64.toNat_zero, Nat.zero_add] at hmac
  have hzero : ((t * mInv).toNat * m.toNat + t.toNat) % 2 ^ 32 = 0 := by
    have hfactor : (t * mInv).toNat ≡ t.toNat * mInv.toNat [MOD 2 ^ 32] := by
      exact Nat.mod_modEq _ _
    have hm : m.toNat * mInv.toNat + 1 ≡ 0 [MOD 2 ^ 32] := by
      unfold Nat.ModEq
      omega
    calc (t * mInv).toNat * m.toNat + t.toNat
        ≡ t.toNat * mInv.toNat * m.toNat + t.toNat [MOD 2 ^ 32] :=
          (hfactor.mul_right _).add_right _
      _ = t.toNat * (m.toNat * mInv.toNat + 1) := by ring
      _ ≡ t.toNat * 0 [MOD 2 ^ 32] := hm.mul_left _
      _ = 0 := Nat.mul_zero _
  obtain ⟨hhalves, -⟩ := toNat_halves ((t * mInv).toUInt64 * m.toUInt64 + t.toUInt64)
  rw [UInt64.toNat_toUInt32] at hhalves
  omega

/-- A round divides the accumulator, a product row and a multiple of the modulus by
one word, and keeps the accumulator below the sum of the operands. -/
theorem montRow_spec {a m : List UInt32} {mInv b : UInt32} {t : Accumulator}
    (ha : a.length = m.length) (ht : t.low.length = m.length) (hpos : 0 < m.length)
    (hinv : (m.headD 0).toNat * mInv.toNat % 2 ^ 32 = 2 ^ 32 - 1)
    (hbound : t.total < value a + value m) :
    (montRow a m mInv t b).low.length = m.length ∧
      (montRow a m mInv t b).total < value a + value m ∧
      ∃ f, 2 ^ 32 * (montRow a m mInv t b).total = t.total + value a * b.toNat + f * value m := by
  obtain ⟨m0, ms, rfl⟩ : ∃ m0 ms, m = m0 :: ms := List.exists_cons_of_length_pos hpos
  rw [List.headD_cons] at hinv
  obtain ⟨hlen1, hc1, hrow1⟩ := addRow_spec (a := a) (b := b) 0
    (ha.trans ht.symm) (by decide)
  obtain ⟨t0, ts, hlow1⟩ : ∃ t0 ts, (addRow a b t.low 0).1 = t0 :: ts :=
    List.exists_cons_of_length_pos (by rw [hlen1, ha]; exact hpos)
  obtain ⟨c1, hcarry1⟩ : ∃ c, (addRow a b t.low 0).2 = c := ⟨_, rfl⟩
  have hts : ms.length = ts.length := by
    rw [hlow1] at hlen1
    exact Nat.succ.inj (ha.symm.trans hlen1.symm)
  have hpair1 : addRow a b t.low 0 = (t0 :: ts, c1) := Prod.ext hlow1 hcarry1
  obtain ⟨hsplit1, hspill⟩ := toNat_add_word t.top (c := c1) (by rw [← hcarry1]; exact hc1)
  have hcancel := cancel_low (t := t0) hinv
  generalize hk : ((t0 * mInv).toUInt64 * m0.toUInt64 + t0.toUInt64) >>> 32 = k
  have hkbound : k.toNat < 2 ^ 32 := by
    rw [← hk]
    exact (toNat_halves _).2
  obtain ⟨hlen2, hc2, hrow2⟩ := addRow_spec (a := ms) (t := ts) k hts
    hkbound
  obtain ⟨low2, hlow2⟩ : ∃ l, (addRow ms (t0 * mInv) ts k).1 = l := ⟨_, rfl⟩
  obtain ⟨c2, hcarry2⟩ : ∃ c, (addRow ms (t0 * mInv) ts k).2 = c := ⟨_, rfl⟩
  have hpair2 : addRow ms (t0 * mInv) ts k = (low2, c2) := Prod.ext hlow2 hcarry2
  obtain ⟨hsplit2, hhigh⟩ := toNat_add_word (c1 + t.top.toUInt64).toUInt32 (c := c2)
    (by rw [← hcarry2]; exact hc2)
  obtain ⟨top1, htop1⟩ : ∃ w, (c1 + t.top.toUInt64).toUInt32 = w := ⟨_, rfl⟩
  obtain ⟨spill, hspillEq⟩ : ∃ w, ((c1 + t.top.toUInt64) >>> 32).toUInt32 = w := ⟨_, rfl⟩
  rw [htop1] at hsplit1 hsplit2 hhigh
  rw [hspillEq] at hsplit1 hspill
  obtain ⟨lo3, hlo3⟩ : ∃ w, (c2 + top1.toUInt64).toUInt32 = w := ⟨_, rfl⟩
  obtain ⟨hi3, hhi3⟩ : ∃ w, ((c2 + top1.toUInt64) >>> 32).toUInt32 = w := ⟨_, rfl⟩
  rw [hlo3, hhi3] at hsplit2
  rw [hhi3] at hhigh
  have hresult : montRow a (m0 :: ms) mInv t b = ⟨low2 ++ [lo3], spill + hi3, spill⟩ := by
    unfold montRow
    rw [hpair1]
    dsimp only [List.headD_cons, List.tail_cons]
    rw [hk, hpair2, htop1, hspillEq]
    rw [hlo3, hhi3]
  have htop : (spill + hi3).toNat = spill.toNat + hi3.toNat := by
    rw [UInt32.toNat_add]
    omega
  have hlow2len : low2.length = ms.length := by rw [← hlow2, hlen2]
  have hequation : 2 ^ 32 * (montRow a (m0 :: ms) mInv t b).total =
      t.total + value a * b.toNat + (t0 * mInv).toNat * value (m0 :: ms) := by
    rw [hresult]
    unfold Accumulator.total
    rw [hk] at hcancel
    rw [hpair1, ha, value_cons, List.length_cons, radix_pow_succ, UInt64.toNat_zero] at hrow1
    rw [hpair2] at hrow2
    rw [List.length_append, List.length_singleton, hlow2len, ht, List.length_cons, radix_pow_succ,
      value_append, hlow2len, htop, value_cons, value_cons, value_nil]
    generalize (2 ^ 32) ^ ms.length = p at hrow1 hrow2 ⊢
    zify at hrow1 hrow2 hsplit1 hsplit2 hcancel ⊢
    linear_combination (2 ^ 32 * (p : ℤ)) * hsplit2 + 2 ^ 32 * hrow2 + hcancel +
      (2 ^ 32 * (p : ℤ)) * hsplit1 + hrow1
  refine ⟨?_, ?_, _, hequation⟩
  · rw [hresult]
    rw [List.length_append, hlow2len]
    rfl
  · have hb := b.toNat_lt
    have hf := (t0 * mInv).toNat_lt
    have h1 : value a * b.toNat ≤ value a * (2 ^ 32 - 1) := Nat.mul_le_mul_left _ (by omega)
    have h2 : (t0 * mInv).toNat * value (m0 :: ms) ≤ (2 ^ 32 - 1) * value (m0 :: ms) :=
      Nat.mul_le_mul_right _ (by omega)
    omega

/-- All the rounds of `BnMontMul`. -/
theorem montRows_spec {a m b : List UInt32} (mInv : UInt32) {t : Accumulator}
    (ha : a.length = m.length) (ht : t.low.length = m.length) (hpos : 0 < m.length)
    (hinv : (m.headD 0).toNat * mInv.toNat % 2 ^ 32 = 2 ^ 32 - 1)
    (hbound : t.total < value a + value m) :
    (b.foldl (montRow a m mInv) t).low.length = m.length ∧
      (b.foldl (montRow a m mInv) t).total < value a + value m ∧
      ∃ q, (2 ^ 32) ^ b.length * (b.foldl (montRow a m mInv) t).total =
        t.total + value a * value b + q * value m := by
  induction b generalizing t with
  | nil =>
    refine ⟨ht, hbound, 0, ?_⟩
    simp
  | cons b bs ih =>
    obtain ⟨hlen, hnext, f, hf⟩ := montRow_spec ha ht hpos hinv hbound
    obtain ⟨hlow, hlast, q, hq⟩ := ih hlen hnext
    refine ⟨hlow, hlast, f + 2 ^ 32 * q, ?_⟩
    rw [List.foldl_cons, List.length_cons, radix_pow_succ, value_cons, Nat.mul_assoc, hq]
    zify at hf ⊢
    linear_combination hf

theorem bnMontMul_spec {a b m : List UInt32} {mInv : UInt32} (ha : a.length = m.length)
    (hb : b.length = m.length) (hpos : 0 < m.length)
    (hinv : (m.headD 0).toNat * mInv.toNat % 2 ^ 32 = 2 ^ 32 - 1) (hm : 0 < value m)
    (hle : value a ≤ value m) :
    (bnMontMul a b m mInv).length = m.length ∧ value (bnMontMul a b m mInv) < value m ∧
      (2 ^ 32) ^ m.length * value (bnMontMul a b m mInv) ≡ value a * value b [MOD value m] := by
  have hstart : (⟨List.replicate m.length 0, 0, 0⟩ : Accumulator).total = 0 := by
    unfold Accumulator.total
    rw [value_replicate]
    rfl
  obtain ⟨hlow, hbound, q, hq⟩ := montRows_spec mInv
    (t := ⟨List.replicate m.length 0, 0, 0⟩) ha List.length_replicate hpos hinv (by omega)
  generalize ht : b.foldl (montRow a m mInv) ⟨List.replicate m.length 0, 0, 0⟩ = t
  have hfits := value_lt m
  rw [ht] at hlow hbound hq
  rw [hstart, hb, Nat.zero_add] at hq
  have htotal : t.total = value t.low + (2 ^ 32) ^ m.length * t.top.toNat := by
    rw [Accumulator.total, hlow]
  obtain ⟨hlength, hvalue⟩ := bnReduceOnce_spec t.top hlow (by rw [← htotal]; omega)
  rw [← htotal] at hvalue
  have hcongr : value (bnReduceOnce t.top t.low m) ≡ t.total [MOD value m] := by
    rw [hvalue]
    split
    case isTrue hreach =>
      have := Nat.ModEq.symm (Nat.add_modEq_right (n := value m) (a := t.total - value m))
      rwa [Nat.sub_add_cancel hreach] at this
    case isFalse => rfl
  unfold bnMontMul
  rw [ht]
  refine ⟨hlength, ?_, ?_⟩
  · rw [hvalue]
    split <;> omega
  · calc (2 ^ 32) ^ m.length * value (bnReduceOnce t.top t.low m)
        ≡ (2 ^ 32) ^ m.length * t.total [MOD value m] := hcongr.mul_left _
      _ = value a * value b + q * value m := hq
      _ ≡ value a * value b [MOD value m] := Nat.add_mul_mod_self_right _ _ _

/-! ## Addition -/

/-- A sum of two numbers is a row of a product with one. -/
theorem bnAdd_eq (a b : List UInt32) (carry : UInt64) : bnAdd a b carry = addRow a 1 b carry := by
  induction a generalizing b carry with
  | nil => simp [bnAdd, addRow]
  | cons x a ih =>
    cases b with
    | nil => rfl
    | cons y b => simp [bnAdd, addRow, ih]

theorem bnAdd_spec (carry : UInt64) (hlen : a.length = b.length)
    (hcarry : carry.toNat ≤ 1) :
    (bnAdd a b carry).1.length = a.length ∧ (bnAdd a b carry).2.toNat ≤ 1 ∧
      value (bnAdd a b carry).1 + (2 ^ 32) ^ a.length * (bnAdd a b carry).2.toNat =
        value a + value b + carry.toNat := by
  obtain ⟨hlength, -, hsum⟩ := addRow_spec carry hlen (by omega)
  rw [← bnAdd_eq, UInt32.toNat_one, Nat.mul_one] at hsum
  rw [← bnAdd_eq] at hlength
  refine ⟨hlength, ?_, hsum⟩
  have ha := value_lt a
  have hb := value_lt b
  rw [← hlen] at hb
  by_contra hmore
  have hle := Nat.mul_le_mul_left ((2 ^ 32) ^ a.length) (Nat.lt_of_not_le hmore)
  omega

end Roswell.Ports.BigNum
