import Mathlib.Data.ZMod.Basic
import Roswell.Ports.BigNum
import Roswell.Verified.Powers

/-!
# Modular exponentiation

Model of `XcpModExp`.  An odd modulus takes the Montgomery path: a number `x`
stands for `x` divided by `2 ^ 32N`, so that the Montgomery product is the product
of what its operands stand for.  An even modulus takes the bitwise path, where a
number stands for itself.  Both run the same loop, and the loop is read once, for
any such representation.

The operands of `BnMontMul` need not be below the modulus: the modulus one leaves
the Montgomery form of one at one.
-/

namespace Roswell.Ports.ModExp

open Verified.Limbs Verified.Powers BigNum

/-! ## The model -/

def bnMaxWords : Nat := 512

/-- Bit `i` of an operand, as the loops test it. -/
def bitOf (exponent : List UInt32) (i : Nat) : Bool :=
  ((exponent.getD (i / 32) 0 >>> UInt32.ofNat (i % 32)) &&& 1) != 0

/-- The loop that leaves out the zero bits on top. -/
def expBits (exponent : List UInt32) : Nat → Nat
  | 0 => 0
  | n + 1 => if bitOf exponent n then n + 1 else expBits exponent n

/-- `2 ^ n` times a number, by doubling. -/
def doublings (m : List UInt32) : Nat → List UInt32 → List UInt32
  | 0, a => a
  | n + 1, a => doublings m n (bnDoubleMod a 0 m)

/-- The number one. -/
def one (words : Nat) : List UInt32 := 1 :: List.replicate (words - 1) 0

/-- The loop over the exponent, with the product of the path taken. -/
def expLoop (mul : List UInt32 → List UInt32 → List UInt32) (exponent acc val : List UInt32)
    (words : Nat) : List UInt32 :=
  squareMultiply mul (bitOf exponent) (expBits exponent (words * 32)) 0 acc val

def oddPath (val exponent modulus : List UInt32) (words : Nat) : List UInt32 :=
  let m0 := modulus.headD 0
  let inv := (List.range 5).foldl (fun inv _ => newtonStep m0 inv) m0
  let mInv := 0 - inv
  let acc := doublings modulus (words * 32) (one words)
  let scratch := doublings modulus (words * 32) acc
  let mul := fun a b => bnMontMul a b modulus mInv
  let val := mul val scratch
  mul (expLoop mul exponent acc val words) (one words)

def evenPath (val exponent modulus : List UInt32) (words : Nat) : List UInt32 :=
  expLoop (fun a b => bnMulMod a b modulus) exponent (one words) val words

/-- The words written to `Result`, or `none` where the call returns zero. -/
def xcpModExp (allocated : Bool) (base exponent modulus : List UInt32) (words : Nat) :
    Option (List UInt32) :=
  if words = 0 ∨ bnMaxWords < words then none
  else if modulus.all (· == 0) then none
  else if !allocated then none
  else
    let val := bnReduce base modulus
    if modulus.headD 0 &&& 1 ≠ 0 then some (oddPath val exponent modulus words)
    else some (evenPath val exponent modulus words)

/-! ## The exponent -/

theorem bitOf_eq (exponent : List UInt32) : bitOf exponent = (value exponent).testBit := by
  funext i
  unfold bitOf
  rw [testBit_value]
  cases (value exponent).testBit i <;> rfl

theorem lt_expBits {exponent : List UInt32} {n : Nat} (h : value exponent < 2 ^ n) :
    value exponent < 2 ^ expBits exponent n := by
  induction n with
  | zero => exact h
  | succ n ih =>
    rw [expBits, bitOf_eq]
    by_cases hbit : (value exponent).testBit n
    · rwa [if_pos hbit]
    rw [if_neg hbit]
    refine ih ?_
    rw [Nat.testBit_eq_decide_div_mod_eq, decide_eq_true_eq] at hbit
    have htop : value exponent / 2 ^ n < 2 := by
      rw [Nat.div_lt_iff_lt_mul (Nat.two_pow_pos n), Nat.mul_comm, ← Nat.pow_succ]
      exact h
    generalize hq : value exponent / 2 ^ n = q at hbit htop
    exact (Nat.div_eq_zero_iff_lt (Nat.two_pow_pos n)).1 (by omega)

/-- The loop computes a power in whatever the numbers stand for. -/
theorem expLoop_spec {mul : List UInt32 → List UInt32 → List UInt32} {G : Type} [CommMonoid G]
    {φ : List UInt32 → G} {P : List UInt32 → Prop}
    (hmul : ∀ {x y}, P x → P y → P (mul x y) ∧ φ (mul x y) = φ x * φ y)
    {exponent acc val : List UInt32} {words : Nat} (hlen : exponent.length = words)
    (hacc : P acc) (hval : P val) :
    P (expLoop mul exponent acc val words) ∧
      φ (expLoop mul exponent acc val words) = φ acc * φ val ^ value exponent := by
  have hlt := value_lt exponent
  rw [hlen, ← Nat.pow_mul, Nat.mul_comm] at hlt
  have hspec := squareMultiply_spec hmul (value exponent) (expBits exponent (words * 32)) 0 hacc hval
  rw [Nat.pow_zero, Nat.div_one, Nat.mod_eq_of_lt (lt_expBits hlt)] at hspec
  unfold expLoop
  rw [bitOf_eq]
  exact hspec

/-! ## The paths -/

section Paths

variable {m : List UInt32} {words : Nat}

theorem value_one (hwords : 0 < words) : (one words).length = words ∧ value (one words) = 1 := by
  unfold one
  rw [List.length_cons, List.length_replicate, value_cons, value_replicate]
  exact ⟨by omega, rfl⟩

/-- Doubling keeps a number at most the modulus, and is right modulo it. -/
theorem doublings_spec (n : Nat) {a : List UInt32} (hlen : a.length = m.length)
    (hle : value a ≤ value m) :
    (doublings m n a).length = m.length ∧ value (doublings m n a) ≤ value m ∧
      value (doublings m n a) ≡ 2 ^ n * value a [MOD value m] := by
  induction n generalizing a with
  | zero =>
    rw [Nat.pow_zero, Nat.one_mul]
    exact ⟨hlen, hle, rfl⟩
  | succ n ih =>
    have hfits := value_lt m
    obtain ⟨hlength, hvalue⟩ := bnDoubleMod_spec (m := m) 0 hlen (by decide)
      (by rw [UInt32.toNat_zero]; omega)
    rw [UInt32.toNat_zero, Nat.add_zero] at hvalue
    have hnext : value (bnDoubleMod a 0 m) ≤ value m ∧
        value (bnDoubleMod a 0 m) ≡ 2 * value a [MOD value m] := by
      rw [hvalue]
      split
      case isTrue hreach =>
        refine ⟨by omega, ?_⟩
        have := Nat.ModEq.symm (Nat.add_modEq_right (n := value m) (a := 2 * value a - value m))
        rwa [Nat.sub_add_cancel hreach] at this
      case isFalse hshort => exact ⟨by omega, rfl⟩
    obtain ⟨hlast, hbound, hmod⟩ := ih hlength hnext.1
    refine ⟨hlast, hbound, hmod.trans ?_⟩
    rw [Nat.pow_succ, Nat.mul_assoc]
    exact hnext.2.mul_left _

theorem evenPath_spec {val exponent : List UInt32} (hwords : m.length = words) (hpos : 0 < words)
    (hm : 1 < value m) (hexp : exponent.length = words) (hval : val.length = words)
    (hlt : value val < value m) :
    (evenPath val exponent m words).length = words ∧
      value (evenPath val exponent m words) = value val ^ value exponent % value m := by
  have hmul : ∀ {x y : List UInt32}, (x.length = words ∧ value x < value m) →
      (y.length = words ∧ value y < value m) →
      ((bnMulMod x y m).length = words ∧ value (bnMulMod x y m) < value m) ∧
        ((value (bnMulMod x y m) : ZMod (value m)) = value x * value y) := by
    rintro x y ⟨hx, -⟩ ⟨hy, -⟩
    obtain ⟨hlength, hvalue⟩ := bnMulMod_spec (m := m) (hx.trans hy.symm) (by omega)
    refine ⟨⟨hlength.trans hwords, ?_⟩, ?_⟩
    · rw [hvalue]
      exact Nat.mod_lt _ (by omega)
    · rw [hvalue, ZMod.natCast_mod, Nat.cast_mul]
  obtain ⟨hone, hvalue⟩ := value_one hpos
  obtain ⟨⟨hlength, hbound⟩, hpower⟩ := expLoop_spec (φ := fun x => (value x : ZMod (value m)))
    (P := fun x => x.length = words ∧ value x < value m) hmul hexp ⟨hone, by omega⟩ ⟨hval, hlt⟩
  rw [hvalue, Nat.cast_one, one_mul, ← Nat.cast_pow, ZMod.natCast_eq_natCast_iff',
    Nat.mod_eq_of_lt hbound] at hpower
  exact ⟨hlength, hpower⟩

/-- The inverse the odd path computes is the one the reduction needs. -/
theorem neg_newton (hodd : m.headD 0 &&& 1 = 1) {mInv : UInt32}
    (h : mInv = 0 - (List.range 5).foldl (fun inv _ => newtonStep (m.headD 0) inv) (m.headD 0)) :
    (m.headD 0).toNat * mInv.toNat % 2 ^ 32 = 2 ^ 32 - 1 := by
  have hinv := newton_inverse hodd
  have hneg : m.headD 0 * mInv = 0 - 1 := by
    grind
  rw [← UInt32.toNat_mul, hneg]
  rfl

/-- The parity of a number is in its low word. -/
theorem value_mod_two (m : List UInt32) : value m % 2 = (m.headD 0 &&& 1).toNat := by
  cases m with
  | nil => rfl
  | cons w m =>
    rw [value_cons, List.headD_cons, UInt32.toNat_and, UInt32.toNat_one, Nat.and_one_is_mod]
    omega

theorem coprime_radix (hodd : m.headD 0 &&& 1 = 1) (n : Nat) :
    Nat.Coprime ((2 ^ 32) ^ n) (value m) := by
  have hbit : value m % 2 = 1 := by
    rw [value_mod_two, hodd, UInt32.toNat_one]
  rw [← Nat.pow_mul]
  exact Nat.Coprime.pow_left _ (Nat.coprime_two_left.2 (Nat.odd_iff.2 hbit))

/-- On the Montgomery path a number `x` stands for `x` over the radix power. -/
theorem oddPath_spec {val exponent : List UInt32} (hwords : m.length = words) (hpos : 0 < words)
    (hm : 0 < value m) (hodd : m.headD 0 &&& 1 = 1) (hexp : exponent.length = words)
    (hval : val.length = words) (hlt : value val < value m) :
    (oddPath val exponent m words).length = words ∧
      value (oddPath val exponent m words) = value val ^ value exponent % value m := by
  unfold oddPath
  dsimp only
  obtain ⟨mInv, hmInv⟩ : ∃ mInv, 0 - (List.range 5).foldl
    (fun inv _ => newtonStep (m.headD 0) inv) (m.headD 0) = mInv := ⟨_, rfl⟩
  have hinv := neg_newton hodd hmInv.symm
  obtain ⟨r, hr⟩ : ∃ r : ZMod (value m), ((2 ^ 32) ^ m.length : Nat) * r = 1 :=
    ⟨_, ZMod.coe_mul_inv_eq_one _ (coprime_radix hodd m.length)⟩
  have hprod : ∀ {x y : List UInt32}, (x.length = words ∧ value x ≤ value m) →
      y.length = words → ((bnMontMul x y m mInv).length = words ∧
        value (bnMontMul x y m mInv) < value m) ∧
        (value (bnMontMul x y m mInv) : ZMod (value m)) = value x * value y * r := by
    rintro x y ⟨hx, hle⟩ hy
    obtain ⟨hlength, hbound, hmod⟩ := bnMontMul_spec (hx.trans hwords.symm) (hy.trans hwords.symm)
      (by omega) hinv hm hle
    refine ⟨⟨hlength.trans hwords, hbound⟩, ?_⟩
    rw [← ZMod.natCast_eq_natCast_iff, Nat.cast_mul, Nat.cast_mul] at hmod
    linear_combination r * hmod - (value (bnMontMul x y m mInv) : ZMod (value m)) * hr
  have hmul : ∀ {x y : List UInt32}, (x.length = words ∧ value x ≤ value m) →
      (y.length = words ∧ value y ≤ value m) →
      ((bnMontMul x y m mInv).length = words ∧ value (bnMontMul x y m mInv) ≤ value m) ∧
        (value (bnMontMul x y m mInv) * r : ZMod (value m)) = value x * r * (value y * r) := by
    rintro x y hx ⟨hy, -⟩
    obtain ⟨⟨hlength, hbound⟩, heq⟩ := hprod hx hy
    refine ⟨⟨hlength, hbound.le⟩, ?_⟩
    rw [heq]
    ring
  -- the Montgomery forms of one and of the base
  have hone := value_one hpos
  obtain ⟨hlenAcc, hleAcc, hmodAcc⟩ := doublings_spec (m := m) (words * 32)
    (hone.1.trans hwords.symm) (by omega)
  obtain ⟨acc, hacc⟩ : ∃ acc, doublings m (words * 32) (one words) = acc := ⟨_, rfl⟩
  rw [hacc] at hlenAcc hleAcc hmodAcc
  obtain ⟨hlenScratch, -, hmodScratch⟩ := doublings_spec (words * 32) hlenAcc hleAcc
  obtain ⟨scratch, hscratch⟩ : ∃ scratch, doublings m (words * 32) acc = scratch := ⟨_, rfl⟩
  have hradix : 2 ^ (words * 32) = (2 ^ 32) ^ m.length := by
    rw [hwords, Nat.mul_comm, Nat.pow_mul]
  rw [hscratch] at hlenScratch hmodScratch
  rw [hradix, ← ZMod.natCast_eq_natCast_iff, Nat.cast_mul, hone.2, Nat.cast_one, mul_one]
    at hmodAcc
  rw [hradix, ← ZMod.natCast_eq_natCast_iff, Nat.cast_mul, hmodAcc] at hmodScratch
  obtain ⟨⟨hlenVal, hltVal⟩, hbase⟩ := hprod ⟨hval, hlt.le⟩ (hlenScratch.trans hwords)
  obtain ⟨hpower, heq⟩ := expLoop_spec (φ := fun x => (value x * r : ZMod (value m)))
    (P := fun x => x.length = words ∧ value x ≤ value m) hmul hexp
    ⟨hlenAcc.trans hwords, hleAcc⟩ ⟨hlenVal, hltVal.le⟩
  obtain ⟨⟨hlength, hbound⟩, hout⟩ := hprod hpower hone.1
  rw [hmInv, hacc, hscratch]
  refine ⟨hlength, ?_⟩
  have hstand : (value val * value scratch * r * r : ZMod (value m)) = value val := by
    rw [hmodScratch]
    linear_combination (value val : ZMod (value m)) * (((2 ^ 32) ^ m.length : Nat) * r + 1) * hr
  rw [hmodAcc, hr, hbase, hstand, one_mul] at heq
  rw [hone.2, Nat.cast_one, mul_one, heq, ← Nat.cast_pow, ZMod.natCast_eq_natCast_iff',
    Nat.mod_eq_of_lt hbound] at hout
  exact hout

end Paths

/-- `XcpModExp` writes the power, whichever path the modulus takes. -/
theorem xcpModExp_spec (base : List UInt32) {exponent modulus : List UInt32} {words : Nat}
    (hwords : 0 < words ∧ words ≤ bnMaxWords) (hexp : exponent.length = words)
    (hmod : modulus.length = words) (hm : value modulus ≠ 0) :
    ∃ result, xcpModExp true base exponent modulus words = some result ∧ result.length = words ∧
      value result = value base ^ value exponent % value modulus := by
  have hzero : ¬ modulus.all (· == 0) := by
    rw [List.all_eq_true]
    exact fun h => hm (value_eq_zero.2 fun w hw => beq_iff_eq.1 (h w hw))
  have hlow := value_mod_two modulus
  obtain ⟨hlength, hvalue⟩ := bnReduce_spec (Nat.pos_of_ne_zero hm)
  have hlt : value (bnReduce base modulus) < value modulus := by
    rw [hvalue]
    exact Nat.mod_lt _ (Nat.pos_of_ne_zero hm)
  unfold xcpModExp
  rw [if_neg (by omega), if_neg hzero, if_neg (by decide)]
  rw [Nat.pow_mod, ← hvalue]
  split_ifs with hodd
  · have hbit : modulus.headD 0 &&& 1 = 1 := by
      rw [Ne, ← UInt32.toNat_inj, UInt32.toNat_zero] at hodd
      exact UInt32.toNat_inj.1 (by rw [UInt32.toNat_one]; omega)
    exact ⟨_, rfl, oddPath_spec hmod hwords.1 (Nat.pos_of_ne_zero hm) hbit hexp
      (hlength.trans hmod) hlt⟩
  · rw [not_ne_iff.1 hodd, UInt32.toNat_zero] at hlow
    exact ⟨_, rfl, evenPath_spec hmod hwords.1 (by omega) hexp (hlength.trans hmod) hlt⟩

/-- For every word count the routine takes, every base and exponent and every nonzero
modulus, the power is written. -/
theorem modExp_power (words : Nat) (hwords : 1 ≤ words ∧ words ≤ 512)
    (base exponent modulus : List UInt32) (hexponent : exponent.length = words)
    (hmodulus : modulus.length = words) (hzero : value modulus ≠ 0) :
    ∃ result, xcpModExp true base exponent modulus words = some result ∧ result.length = words ∧
      value result = value base ^ value exponent % value modulus := by
  exact xcpModExp_spec base hwords hexponent hmodulus hzero

/-- An odd and an even modulus, with a base above both. -/
theorem modExp_power_small :
    (∃ result, xcpModExp true [200] [11] [101] 1 = some result ∧ result.length = 1 ∧
      value result = 200 ^ 11 % 101) ∧
    ∃ result, xcpModExp true [200] [11] [100] 1 = some result ∧ result.length = 1 ∧
      value result = 200 ^ 11 % 100 :=
  ⟨modExp_power 1 (by decide) [200] [11] [101] rfl rfl (by decide),
    modExp_power 1 (by decide) [200] [11] [100] rfl rfl (by decide)⟩

end Roswell.Ports.ModExp
