import Mathlib.Tactic.NormNum.Prime
import Roswell.Ports.ModExp
import Roswell.Verified.Crt
import Roswell.Verified.Endian

/-!
# RSA with a public and a private key blob

Model of `XcpPKEncPublic` and `XcpPKDecPrivate`.  Key blobs and values are byte
memories addressed from their start; both operations copy their input before they
write, so what they write is returned.  `alloc` says which of the allocations of a
call succeed, in the order the call makes them.

The private operation works modulo each prime and recombines; that it undoes the
public operation is `pow_pow_modEq` for each prime and `recombine` for the two.
-/

namespace Roswell.Ports.Rsa

open Verified.Bytes Verified.Endian Verified.Limbs Verified.Crt BigNum ModExp

/-! ## The key blobs -/

def pkMagic (key : Memory) : UInt32 := getWord key 0

def pkBlobLength (key : Memory) : UInt32 := getWord key 1

def pkModulusBits (key : Memory) : UInt32 := getWord key 2

def pkModulusTop (key : Memory) : UInt32 := getWord key 3

def pkExponent (key : Memory) : UInt32 := getWord key 4

def pkModulus (key : Memory) (words : Nat) : List UInt32 := wordsAt key 0x14 words

def pkPublicMagic : UInt32 := 0x31415352

def pkPrivateMagic : UInt32 := 0x32415352

/-- The number of words of the modulus of a private key. -/
def pkWords (key : Memory) : Nat := (pkModulusBits key / 8 / 4).toNat

/-- A half-width number at an offset from the end of the modulus field. -/
def pkField (key : Memory) (offset : UInt32) : List UInt32 :=
  wordsAt key (0x14 + pkBlobLength key + offset).toNat (pkWords key / 2)

def prime1 (key : Memory) : List UInt32 := pkField key 0

def prime2 (key : Memory) : List UInt32 := pkField key (pkBlobLength key / 2)

def exponent1 (key : Memory) : List UInt32 := pkField key (pkBlobLength key)

def exponent2 (key : Memory) : List UInt32 := pkField key (3 * (pkBlobLength key / 2))

def coefficient (key : Memory) : List UInt32 := pkField key (2 * pkBlobLength key)

/-! ## The operations -/

/-- A number as the operations write it: its bytes and eight zero bytes. -/
def answer (result : List UInt32) : List UInt8 := result.flatMap leBytes ++ List.replicate 8 0

/-- The bytes written to `Out`, or `none` where the call returns zero. -/
def xcpPKEncPublic (alloc : Nat → Bool) (pubKey input : Memory) : Option (List UInt8) :=
  let top := pkModulusTop pubKey
  let bytes := top + 1
  let words := (bytes / 4).toNat
  if bytes &&& 3 ≠ 0 ∨ words = 0 ∨ bnMaxWords < words ∨ pkMagic pubKey ≠ pkPublicMagic then none
  else if !alloc 0 then none
  else
    let base := wordsAt input 0 (words + 2)
    let exp := pkExponent pubKey :: List.replicate (words - 1) 0
    let mod := pkModulus pubKey words
    if base.getD words 0 ≠ 0 ∨ base.getD (words + 1) 0 ≠ 0 then none
    else if bnCompare base mod words ≠ 0xFFFFFFFF then none
    else (xcpModExp (alloc 1) (base.take words) exp mod words).map answer

/-- The loop that carries into the upper half of the product. -/
def carryUp : UInt64 → List UInt32 → List UInt32
  | _, [] => []
  | carry, w :: ws =>
    if carry = 0 then w :: ws else (w + 1) :: carryUp (if w + 1 = 0 then 1 else 0) ws

/-- `(M1 - M2) * Qi mod P`, then back up to the whole answer. -/
def recombined (p q qi m1 m2 : List UInt32) : List UInt32 :=
  let half := p.length
  let difference := bnSubtract m1 m2 0
  let t := if difference.2 ≠ 0 then (bnAdd difference.1 p 0).1 else difference.1
  let h := bnMulMod t qi p
  let product := bnMultiply h q
  let low := bnAdd (product.take half) m2 0
  low.1 ++ carryUp low.2 (product.drop half)

def xcpPKDecPrivate (alloc : Nat → Bool) (privKey input : Memory) : Option (List UInt8) :=
  let bytes := pkModulusBits privKey / 8
  let words := pkWords privKey
  let half := words / 2
  let stride := pkBlobLength privKey
  if bytes &&& 7 ≠ 0 ∨ half = 0 ∨ bnMaxWords < words ∨ stride < bytes ∨ stride &&& 1 ≠ 0 ∨
      pkMagic privKey ≠ pkPrivateMagic then none
  else if !alloc 0 then none
  else
    let p := prime1 privKey
    let q := prime2 privKey
    let value := wordsAt input 0 (words + 1)
    if bnIsZero p || bnIsZero q then none
    else
      match xcpModExp (alloc 1) (bnReduce value p) (exponent1 privKey) p half with
      | none => none
      | some m1 =>
        match xcpModExp (alloc 2) (bnReduce value q) (exponent2 privKey) q half with
        | none => none
        | some m2 => some (answer (recombined p q (coefficient privKey) m1 m2))

/-! ## Well-formed keys -/

/-- A private key the operation takes, with the number theory of the scheme. -/
structure WellFormed (key : Memory) : Prop where
  magic : pkMagic key = pkPrivateMagic
  width : 8 ∣ (pkModulusBits key).toNat / 8
  words : 2 ≤ pkWords key ∧ pkWords key ≤ bnMaxWords
  stride : (pkModulusBits key).toNat / 8 ≤ (pkBlobLength key).toNat ∧ 2 ∣ (pkBlobLength key).toNat
  isPrime1 : (value (prime1 key)).Prime
  isPrime2 : (value (prime2 key)).Prime
  odd : value (prime2 key) ≠ 2
  order : value (prime2 key) < value (prime1 key)
  modulus : value (pkModulus key (pkWords key)) = value (prime1 key) * value (prime2 key)
  inverse1 : (pkExponent key).toNat * value (exponent1 key) ≡ 1 [MOD value (prime1 key) - 1]
  inverse2 : (pkExponent key).toNat * value (exponent2 key) ≡ 1 [MOD value (prime2 key) - 1]
  inverse : value (prime2 key) * value (coefficient key) ≡ 1 [MOD value (prime1 key)]

/-- The public blob of a private key: its header and modulus under the public magic. -/
structure PublicOf (pub key : Memory) : Prop where
  magic : pkMagic pub = pkPublicMagic
  top : (pkModulusTop pub).toNat + 1 = 4 * pkWords key
  exponent : pkExponent pub = pkExponent key
  modulus : pkModulus pub (pkWords key) = pkModulus key (pkWords key)

/-! ## The public operation -/

section Public

variable {pub key input : Memory}

/-- A mask of low ones tests for a multiple. -/
theorem and_mask_eq_zero {b mask : UInt32} {k : Nat} (hmask : mask.toNat = 2 ^ k - 1) :
    b &&& mask = 0 ↔ 2 ^ k ∣ b.toNat := by
  rw [← UInt32.toNat_inj, UInt32.toNat_and, Nat.dvd_iff_mod_eq_zero, hmask,
    Nat.and_two_pow_sub_one_eq_mod]
  rfl

theorem WellFormed.bytes (h : WellFormed key) :
    (pkModulusBits key).toNat / 8 = 4 * pkWords key ∧ 2 ∣ pkWords key := by
  have hwords : pkWords key = (pkModulusBits key).toNat / 8 / 4 := by
    unfold pkWords
    rfl
  have hwidth := h.width
  omega

/-- A value below the modulus has two zero words above the modulus' width. -/
theorem wordsAt_message {words : Nat}
    (hmsg : value (wordsAt input 0 (words + 2)) < value (pkModulus key words)) :
    wordsAt input 0 (words + 2) = wordsAt input 0 words ++ [0, 0] := by
  have hmodulus := value_lt (pkModulus key words)
  rw [pkModulus, length_wordsAt] at hmodulus
  have hsmall := hmsg.trans hmodulus
  rw [wordsAt_add, value_append, length_wordsAt] at hsmall
  have hhigh : value (wordsAt input (0 + 4 * words) 2) = value [0, 0] := by
    refine Nat.eq_zero_of_not_pos fun hpos => ?_
    have := Nat.mul_le_mul_left ((2 ^ 32) ^ words) hpos
    omega
  rw [wordsAt_add]
  exact congrArg _ (eq_of_value (length_wordsAt input _ 2) hhigh)

/-- A message below the modulus is raised to the public exponent. -/
theorem xcpPKEncPublic_spec (hkey : WellFormed key) (hpub : PublicOf pub key)
    (hmsg : value (wordsAt input 0 (pkWords key + 2)) < value (pkModulus key (pkWords key))) :
    ∃ result, xcpPKEncPublic (fun _ => true) pub input = some (answer result) ∧
      result.length = pkWords key ∧
      value result = value (wordsAt input 0 (pkWords key)) ^ (pkExponent key).toNat %
        value (pkModulus key (pkWords key)) := by
  obtain ⟨hlo, hhi⟩ := hkey.words
  have htop := hpub.top
  have hmax : bnMaxWords = 512 := rfl
  have hbytes : (pkModulusTop pub + 1).toNat = 4 * pkWords key := by
    rw [UInt32.toNat_add, UInt32.toNat_one]
    omega
  have hwords : ((pkModulusTop pub + 1) / 4).toNat = pkWords key := by
    rw [UInt32.toNat_div, hbytes]
    exact Nat.mul_div_cancel_left _ (by decide)
  have hmask : (pkModulusTop pub + 1) &&& 3 = 0 :=
    (and_mask_eq_zero (k := 2) rfl).2 ⟨_, hbytes⟩
  obtain ⟨words, hw⟩ : ∃ words, pkWords key = words := ⟨_, rfl⟩
  have hmodulus := hpub.modulus
  rw [hw] at hwords hmsg hmodulus hlo hhi ⊢
  have hbase := wordsAt_message hmsg
  have hlow : (wordsAt input 0 words ++ [0, 0]).take words = wordsAt input 0 words :=
    List.take_left' (length_wordsAt ..)
  have hhigh : ∀ k, words ≤ k → (wordsAt input 0 words ++ [0, 0]).getD k 0 = 0 := by
    intro k hk
    rw [List.getD_append_right _ _ _ _ (by rw [length_wordsAt]; exact hk)]
    rcases k - (wordsAt input 0 words).length with _ | _ | n <;> rfl
  have hbelow : value (wordsAt input 0 words) < value (pkModulus key words) := by
    rwa [hbase, value_append] at hmsg
  have hcompare : bnCompare (wordsAt input 0 words ++ [0, 0]) (pkModulus key words) words =
      0xFFFFFFFF := by
    rw [bnCompare_lt (by rw [List.length_append, length_wordsAt]; omega)
      (by rw [pkModulus, length_wordsAt]), hlow,
      List.take_of_length_le (by rw [pkModulus, length_wordsAt])]
    exact hbelow
  have hexp : value (pkExponent key :: List.replicate (words - 1) 0) = (pkExponent key).toNat := by
    rw [value_cons, value_replicate, Nat.mul_zero, Nat.add_zero]
  obtain ⟨result, hrun, hlength, hvalue⟩ := xcpModExp_spec (wordsAt input 0 words) ⟨by omega, hhi⟩
    (show (pkExponent key :: List.replicate (words - 1) 0).length = words by
      rw [List.length_cons, List.length_replicate]; omega)
    (show (pkModulus key words).length = words from length_wordsAt ..) (by omega)
  rw [hexp] at hvalue
  refine ⟨result, ?_, hlength, hvalue⟩
  unfold xcpPKEncPublic
  dsimp only
  rw [hwords, hpub.exponent, hmodulus, hbase, hlow, if_neg, if_neg (by decide), if_neg, if_neg, hrun]
  · rfl
  · exact not_ne_iff.2 hcompare
  · rw [hhigh words (Nat.le_refl _), hhigh (words + 1) (by omega)]
    decide
  · rintro (h | h | h | h)
    · exact h hmask
    · omega
    · omega
    · exact h hpub.magic

end Public

/-! ## The private operation -/

/-- The carry goes up as far as it must. -/
theorem carryUp_spec (carry : UInt64) (hcarry : carry.toNat ≤ 1) {l : List UInt32}
    (hfits : value l + carry.toNat < (2 ^ 32) ^ l.length) :
    (carryUp carry l).length = l.length ∧ value (carryUp carry l) = value l + carry.toNat := by
  induction l generalizing carry with
  | nil =>
    rw [value_nil, List.length_nil, Nat.pow_zero] at hfits
    exact ⟨rfl, by rw [carryUp, value_nil]; omega⟩
  | cons w l ih =>
    rw [value_cons, List.length_cons, radix_pow_succ] at hfits
    have hw := w.toNat_lt
    have hsucc : (w + 1).toNat = (w.toNat + 1) % 2 ^ 32 := UInt32.toNat_add ..
    rw [carryUp, value_cons]
    by_cases hzero : carry = 0
    · rw [if_pos hzero, hzero, value_cons]
      exact ⟨rfl, rfl⟩
    have hone : carry.toNat = 1 := by
      rw [← UInt64.toNat_inj, UInt64.toNat_zero] at hzero
      omega
    rw [if_neg hzero, value_cons, List.length_cons, List.length_cons]
    split_ifs with hwrap
    · rw [hwrap, UInt32.toNat_zero] at hsucc
      obtain ⟨hlen, hvalue⟩ := ih 1 (by decide) (by rw [UInt64.toNat_one]; omega)
      rw [UInt64.toNat_one] at hvalue
      rw [hwrap, UInt32.toNat_zero, hvalue, hlen]
      exact ⟨rfl, by omega⟩
    · rw [← UInt32.toNat_inj, UInt32.toNat_zero] at hwrap
      obtain ⟨hlen, hvalue⟩ := ih 0 (by decide) (value_lt l)
      rw [UInt64.toNat_zero] at hvalue
      rw [hvalue, hlen]
      exact ⟨rfl, by omega⟩

section Private

variable {p q qi m1 m2 : List UInt32}

/-- The difference of the residues, below the first prime. -/
theorem difference_spec (hm1 : m1.length = p.length) (hm2 : m2.length = p.length)
    (h2 : value m2 < value p) {t : List UInt32}
    (ht : t = if (bnSubtract m1 m2 0).2 ≠ 0 then (bnAdd (bnSubtract m1 m2 0).1 p 0).1
      else (bnSubtract m1 m2 0).1) :
    t.length = p.length ∧ value t + value m2 ≡ value m1 [MOD value p] := by
  obtain ⟨hlen, hbit, hsub⟩ := bnSubtract_spec 0 (hm1.trans hm2.symm) (by decide)
  generalize hd : bnSubtract m1 m2 0 = d
  rw [hd] at hlen hbit hsub ht
  rw [UInt64.toNat_zero, Nat.add_zero, hm1] at hsub
  by_cases hborrow : d.2 ≠ 0
  · have hone : d.2.toNat = 1 := by
      rw [Ne, ← UInt64.toNat_inj, UInt64.toNat_zero] at hborrow
      omega
    obtain ⟨hlength, hcarry, hadd⟩ := bnAdd_spec 0 (hlen.trans hm1) (by decide)
    rw [if_pos hborrow] at ht
    rw [← ht] at hlength hadd
    rw [hone, Nat.mul_one] at hsub
    rw [UInt64.toNat_zero, Nat.add_zero, hlen, hm1] at hadd
    have hd1 := value_lt d.1
    have hbound := value_lt t
    rw [hlength, hlen, hm1] at hbound
    have hsum : value t + value m2 = value m1 + value p := by
      rcases Nat.le_one_iff_eq_zero_or_eq_one.1 hcarry with hc | hc
      · rw [hc, Nat.mul_zero] at hadd
        omega
      · rw [hc, Nat.mul_one] at hadd
        omega
    refine ⟨hlength.trans (hlen.trans hm1), ?_⟩
    rw [hsum]
    exact Nat.add_modEq_right
  · rw [if_neg hborrow] at ht
    rw [not_ne_iff.1 hborrow, UInt64.toNat_zero, Nat.mul_zero, Nat.add_zero, ← ht] at hsub
    rw [hsub, ht]
    exact ⟨hlen.trans hm1, rfl⟩

/-- The recombination as a number. -/
theorem recombined_spec (hq : q.length = p.length) (hqi : qi.length = p.length)
    (hm1 : m1.length = p.length) (hm2 : m2.length = p.length) (h2 : value m2 < value q)
    (horder : value q < value p) :
    ∃ t, t + value m2 ≡ value m1 [MOD value p] ∧
      (recombined p q qi m1 m2).length = 2 * p.length ∧
      value (recombined p q qi m1 m2) = t * value qi % value p * value q + value m2 := by
  unfold recombined
  dsimp only
  obtain ⟨t, ht⟩ : ∃ t, t = if (bnSubtract m1 m2 0).2 ≠ 0
      then (bnAdd (bnSubtract m1 m2 0).1 p 0).1 else (bnSubtract m1 m2 0).1 := ⟨_, rfl⟩
  obtain ⟨htlen, hmod⟩ := difference_spec hm1 hm2 (by omega) ht
  rw [← ht]
  obtain ⟨hhlen, hh⟩ := bnMulMod_spec (m := p) (htlen.trans hqi.symm) (by omega)
  obtain ⟨hproductLen, hproduct⟩ := bnMultiply_spec (hhlen.trans hq.symm)
  obtain ⟨product, hdef⟩ : ∃ x, bnMultiply (bnMulMod t qi p) q = x := ⟨_, rfl⟩
  rw [hdef] at hproductLen hproduct
  rw [hdef]
  have htake : (product.take p.length).length = p.length := by
    rw [List.length_take]
    omega
  have hdrop : (product.drop p.length).length = p.length := by
    rw [List.length_drop]
    omega
  have hsplit := value_append (product.take p.length) (product.drop p.length)
  rw [List.take_append_drop, htake, hproduct, hh] at hsplit
  obtain ⟨hlowLen, hbit, hlow⟩ := bnAdd_spec 0 (htake.trans hm2.symm) (by decide)
  rw [htake, UInt64.toNat_zero, Nat.add_zero] at hlow
  rw [htake] at hlowLen
  have hfits : value (product.drop p.length) + (bnAdd (product.take p.length) m2 0).2.toNat <
      (2 ^ 32) ^ (product.drop p.length).length := by
    have hresidue : value t * value qi % value p + 1 ≤ value p := Nat.mod_lt _ (by omega)
    have hbelow : value t * value qi % value p * value q + value m2 < value p * value q := by
      have := Nat.mul_le_mul_right (value q) hresidue
      rw [Nat.succ_mul] at this
      omega
    have hp := value_lt p
    have hpq : value p * value q < (2 ^ 32) ^ p.length * (2 ^ 32) ^ p.length :=
      Nat.mul_lt_mul'' hp (by omega)
    rw [hdrop]
    refine Nat.lt_of_mul_lt_mul_left (a := (2 ^ 32) ^ p.length) ?_
    rw [Nat.mul_add]
    omega
  obtain ⟨hupLen, hup⟩ := carryUp_spec _ hbit hfits
  refine ⟨value t, hmod, ?_, ?_⟩
  · rw [List.length_append, hlowLen, hupLen, hdrop]
    omega
  · rw [value_append, hup, hlowLen, hsplit, Nat.mul_add]
    omega

/-- The power modulo one of the primes. -/
theorem half_spec {key cipher : Memory} (hkey : WellFormed key) {m : Nat}
    (hcipher : value (wordsAt cipher 0 (pkWords key + 1)) =
      m ^ (pkExponent key).toNat % (value (prime1 key) * value (prime2 key)))
    (prime exponent : List UInt32) (hlen : prime.length = pkWords key / 2)
    (hexp : exponent.length = pkWords key / 2) (hprime : (value prime).Prime)
    (hodd : 2 < value prime) (hdvd : value prime ∣ value (prime1 key) * value (prime2 key))
    (hinverse : (pkExponent key).toNat * value exponent ≡ 1 [MOD value prime - 1]) :
    ∃ r, xcpModExp true (bnReduce (wordsAt cipher 0 (pkWords key + 1)) prime) exponent prime
        (pkWords key / 2) = some r ∧ r.length = pkWords key / 2 ∧ value r = m % value prime := by
  obtain ⟨hlo, hhi⟩ := hkey.words
  obtain ⟨r, hrun, hlength, hvalue⟩ := xcpModExp_spec
    (bnReduce (wordsAt cipher 0 (pkWords key + 1)) prime) ⟨by omega, by omega⟩ hexp hlen
    (by omega)
  refine ⟨r, hrun, hlength, hvalue.trans ?_⟩
  rw [(bnReduce_spec hprime.pos).2, hcipher, Nat.mod_mod_of_dvd _ hdvd, ← Nat.pow_mod]
  exact pow_pow_modEq hprime hodd hinverse m

theorem bnIsZero_false {l : List UInt32} (h : 0 < value l) : bnIsZero l = false := by
  refine Bool.eq_false_iff.2 fun hzero => h.ne' (value_eq_zero.2 fun w hw => ?_)
  exact beq_iff_eq.1 (List.all_eq_true.1 hzero w hw)

/-- The private operation gives back what was raised to the public exponent. -/
theorem xcpPKDecPrivate_spec {key cipher : Memory} (hkey : WellFormed key) {m : Nat}
    (hm : m < value (pkModulus key (pkWords key)))
    (hcipher : value (wordsAt cipher 0 (pkWords key + 1)) =
      m ^ (pkExponent key).toNat % value (pkModulus key (pkWords key))) :
    ∃ result, xcpPKDecPrivate (fun _ => true) key cipher = some (answer result) ∧
      result.length = pkWords key ∧ value result = m := by
  obtain ⟨hlo, hhi⟩ := hkey.words
  obtain ⟨hbytes, heven⟩ := hkey.bytes
  have hp := hkey.isPrime1.pos
  have hq := hkey.isPrime2.pos
  have htwo := hkey.isPrime2.two_le
  have hodd := hkey.odd
  have horder := hkey.order
  have hlength : (prime1 key).length = pkWords key / 2 := length_wordsAt ..
  rw [hkey.modulus] at hm hcipher
  obtain ⟨m1, hrun1, hlen1, hvalue1⟩ := half_spec hkey hcipher (prime1 key) (exponent1 key)
    (length_wordsAt ..) (length_wordsAt ..) hkey.isPrime1 (by omega) (Nat.dvd_mul_right _ _)
    hkey.inverse1
  obtain ⟨m2, hrun2, hlen2, hvalue2⟩ := half_spec hkey hcipher (prime2 key) (exponent2 key)
    (length_wordsAt ..) (length_wordsAt ..) hkey.isPrime2 (by omega) (Nat.dvd_mul_left _ _)
    hkey.inverse2
  obtain ⟨t, ht, hlen, hvalue⟩ := recombined_spec (q := prime2 key)
    ((length_wordsAt ..).trans hlength.symm)
    (show (coefficient key).length = (prime1 key).length from (length_wordsAt ..).trans hlength.symm)
    (hlen1.trans hlength.symm) (hlen2.trans hlength.symm)
    (by rw [hvalue2]; exact Nat.mod_lt _ hq) horder
  rw [hvalue1, hvalue2] at ht
  rw [hvalue2] at hvalue
  refine ⟨_, ?_, by omega, hvalue.trans (recombine hkey.isPrime1 hkey.isPrime2 (by omega)
    hkey.inverse hm (ht.trans (Nat.mod_modEq _ _)))⟩
  unfold xcpPKDecPrivate
  dsimp only
  rw [if_neg, if_neg (by decide), bnIsZero_false hp, bnIsZero_false hq, if_neg (by decide), hrun1]
  · rw [hrun2]
  have hwide : (pkModulusBits key / 8).toNat = (pkModulusBits key).toNat / 8 :=
    UInt32.toNat_div ..
  rintro (h | h | h | h | h | h)
  · exact h ((and_mask_eq_zero (k := 3) rfl).2 (by rw [hwide]; exact hkey.width))
  · omega
  · omega
  · rw [UInt32.lt_iff_toNat_lt, hwide] at h
    exact absurd hkey.stride.1 (by omega)
  · exact h ((and_mask_eq_zero (k := 1) rfl).2 hkey.stride.2)
  · exact h hkey.magic

end Private

/-! ## The round trip -/

theorem answer_eq (result : List UInt32) : answer result = (result ++ [0, 0]).flatMap leBytes := by
  rw [List.flatMap_append]
  rfl

/-- A memory that holds an answer holds its words and two zero words. -/
theorem wordsAt_answer {mem : Memory} {result : List UInt32}
    (h : slice mem 0 (answer result).length = answer result) :
    wordsAt mem 0 (result.length + 2) = result ++ [0, 0] := by
  have hlen : (answer result).length = 4 * (result.length + 2) := by
    rw [answer_eq, length_leBytes, List.length_append]
    rfl
  rw [hlen, answer_eq, ← leBytes_wordsAt] at h
  exact leBytes_injective (by rw [length_wordsAt, List.length_append]; rfl) h

/-- For every well-formed private key and its public blob, and every message below the
modulus, decrypting the result of the public operation returns the message. -/
theorem rsa_round_trip (key pub input : Memory) (hkey : WellFormed key) (hpub : PublicOf pub key)
    (hmsg : value (wordsAt input 0 (pkWords key + 2)) < value (pkModulus key (pkWords key))) :
    ∃ out, xcpPKEncPublic (fun _ => true) pub input = some out ∧
      ∀ cipher : Memory, slice cipher 0 out.length = out →
        xcpPKDecPrivate (fun _ => true) key cipher =
          some (slice input 0 (4 * pkWords key + 8)) := by
  obtain ⟨result, hrun, hlen, hvalue⟩ := xcpPKEncPublic_spec hkey hpub hmsg
  refine ⟨_, hrun, fun cipher hcipher => ?_⟩
  have hbase := wordsAt_message hmsg
  have hread := wordsAt_answer hcipher
  rw [hlen] at hread
  have hvalue' : value (wordsAt cipher 0 (pkWords key + 1)) = value result := by
    have htake : wordsAt cipher 0 (pkWords key + 1) = result ++ [0] := by
      rw [wordsAt_add cipher 0 (pkWords key + 1) 1] at hread
      exact (List.append_inj (hread.trans (List.append_assoc result [0] [0]).symm)
        (by rw [length_wordsAt, List.length_append, hlen]; rfl)).1
    rw [htake, value_append, value_cons, value_nil]
    rfl
  have hbelow : value (wordsAt input 0 (pkWords key)) < value (pkModulus key (pkWords key)) := by
    rwa [hbase, value_append] at hmsg
  obtain ⟨message, hback, hlength, hmessage⟩ :=
    xcpPKDecPrivate_spec hkey hbelow (hvalue'.trans hvalue)
  rw [hback, eq_of_value (hlength.trans (length_wordsAt input 0 _).symm) hmessage,
    show 4 * pkWords key + 8 = 4 * (pkWords key + 2) by omega, ← leBytes_wordsAt, hbase,
    answer_eq]

/-- The key of the primes eleven and seven with public exponent seven. -/
def smallKey (magic : UInt8) : Memory := fun i =>
  [0x52, 0x53, 0x41, magic, 16, 0, 0, 0, 64, 0, 0, 0, 7, 0, 0, 0, 7, 0, 0, 0,
    77, 0, 0, 0, 0, 0, 0, 0, 0, 0, 0, 0, 0, 0, 0, 0,
    11, 0, 0, 0, 0, 0, 0, 0, 7, 0, 0, 0, 0, 0, 0, 0, 3, 0, 0, 0, 0, 0, 0, 0,
    1, 0, 0, 0, 0, 0, 0, 0, 8].getD i 0

theorem smallKey_wellFormed : WellFormed (smallKey 0x32) := by
  have hprime1 : value (prime1 (smallKey 0x32)) = 11 := by decide
  have hprime2 : value (prime2 (smallKey 0x32)) = 7 := by decide
  constructor
  case isPrime1 =>
    rw [hprime1]
    norm_num
  case isPrime2 =>
    rw [hprime2]
    norm_num
  all_goals decide

theorem smallKey_public : PublicOf (smallKey 0x31) (smallKey 0x32) := by
  constructor <;> decide

theorem rsa_round_trip_small :
    ∃ out, xcpPKEncPublic (fun _ => true) (smallKey 0x31) (fun i => if i = 0 then 5 else 0) = some out ∧
      ∀ cipher : Memory, slice cipher 0 out.length = out →
        xcpPKDecPrivate (fun _ => true) (smallKey 0x32) cipher =
          some (slice (fun i => if i = 0 then 5 else 0) 0 (4 * pkWords (smallKey 0x32) + 8)) :=
  rsa_round_trip (smallKey 0x32) (smallKey 0x31) _ smallKey_wellFormed smallKey_public
    (by decide)

end Roswell.Ports.Rsa
