import Mathlib.Tactic.IntervalCases
import Roswell.Verified.Sha1
import Roswell.Verified.Word

/-!
# SHA-1 through the title's context

Model of `sha1.c` with `SARCH_XBOX` and of `XcpSHAInit`, `XcpSHAUpdate` and
`XcpSHAFinal`.  The transform works in place on the words of the buffer: the
message schedule is kept in the sixteen words of the block, each word overwritten
sixteen rounds later.

The context belongs to the title and is translated either side of every call.
Only the bytes that are in use go back to its buffer, so the buffer is followed
up to the number of bytes in use and is arbitrary beyond.
-/

namespace Roswell.Ports.Sha

open Function Verified.Absorb Verified.Bytes Verified.Endian Verified.Word Verified
open Verified.Sha1 (Regs)

/-! ## The transform -/

def rol (value bits : UInt32) : UInt32 := (value <<< bits) ||| (value >>> (32 - bits))

/-- `DWORD2BE`. -/
def dword2Be (x : UInt32) : UInt32 :=
  (x >>> 24 &&& (0xff : UInt32)) ||| (x >>> 8 &&& (0xff00 : UInt32)) |||
    (x <<< 8 &&& (0xff0000 : UInt32)) ||| (x <<< 24 &&& (0xff000000 : UInt32))

/-- The byte swap in `blk0`. -/
def swap (w : UInt32) : UInt32 := (rol w 24 &&& 0xFF00FF00) ||| (rol w 8 &&& 0x00FF00FF)

/-- The buffer as `ULONG *Block`. -/
abbrev Block := Vector UInt32 16

/-- `Block[i]`, where the index is below sixteen. -/
def word (block : Block) (i : Nat) : UInt32 := block[i]?.getD 0

def blk0 (block : Block) (i : Nat) : Block := block.setIfInBounds i (swap (word block i))

def blk1 (block : Block) (i : Nat) : Block :=
  block.setIfInBounds (i &&& 15)
    (rol (word block ((i + 13) &&& 15) ^^^ word block ((i + 8) &&& 15) ^^^
      word block ((i + 2) &&& 15) ^^^ word block (i &&& 15)) 1)

def f1 (x y z : UInt32) : UInt32 := z ^^^ (x &&& (y ^^^ z))
def f2 (x y z : UInt32) : UInt32 := x ^^^ y ^^^ z
def f3 (x y z : UInt32) : UInt32 := (x &&& y) ||| (z &&& (x ||| y))
def f4 (x y z : UInt32) : UInt32 := x ^^^ y ^^^ z

/-- The body of the loop. -/
def transformRound (i : Nat) (block : Block) (v : Regs) : Block × Regs :=
  let block := if i < 16 then blk0 block i else blk1 block i
  let w := word block (i &&& 15)
  let (f, k) : UInt32 × UInt32 :=
    if i < 20 then (f1 v.b v.c v.d, 0x5A827999)
    else if i < 40 then (f2 v.b v.c v.d, 0x6ED9EBA1)
    else if i < 60 then (f3 v.b v.c v.d, 0x8F1BBCDC)
    else (f4 v.b v.c v.d, 0xCA62C1D6)
  let t := rol v.a 5 + f + v.e + k + w
  (block, ⟨t, v.a, rol v.b 30, v.c, v.d⟩)

/-- The loop up to `i`. -/
def transformRounds (block : Block) (v : Regs) : Nat → Block × Regs
  | 0 => (block, v)
  | i + 1 =>
    let (block, v) := transformRounds block v i
    transformRound i block v

def sha1Transform (state : Regs) (buffer : Memory) : Regs × Memory :=
  let block : Block := Vector.ofFn fun i => getWord buffer i
  let (block, v) := transformRounds block state 80
  (⟨state.a + v.a, state.b + v.b, state.c + v.c, state.d + v.d, state.e + v.e⟩,
    copy buffer 0 (block.toList.flatMap leBytes))

/-! ## The context -/

structure ShaCtx where
  buffer : Memory
  state : Regs
  count0 : UInt32
  count1 : UInt32

def aShaInit (c : ShaCtx) : ShaCtx :=
  { c with
    state := ⟨0x67452301, 0xEFCDAB89, 0x98BADCFE, 0x10325476, 0xC3D2E1F0⟩
    count0 := 0
    count1 := 0 }

/-- `Count[1] & 63`. -/
def contentSize (count1 : UInt32) : Fin 64 := ⟨count1.toNat % 64, Nat.mod_lt _ (by decide)⟩

/-- The copies and transforms of `A_SHAUpdate`, from `BufferContentSize` on.  The
loop is left, or not entered, with less than a block. -/
def absorbData (transform : Regs → Memory → Regs × Memory) (state : Regs) (buffer : Memory)
    (content : Fin 64) (data : List UInt8) : Regs × Memory :=
  if _h : 64 ≤ wadd content data.length then
    let (state, buffer) := transform state (copy buffer content (data.take (64 - content)))
    absorbData transform state buffer 0 (data.drop (64 - content))
  else (state, copy buffer content data)
termination_by data.length
decreasing_by
  rw [List.length_drop]
  rw [wadd_eq] at _h
  omega

def aShaUpdate (c : ShaCtx) (data : List UInt8) : ShaCtx :=
  let size := UInt32.ofNat data.length
  let content := contentSize c.count1
  let count1 := c.count1 + size
  let count0 := (if count1 < size then c.count0 + 1 else c.count0) + (size >>> 29)
  let (state, buffer) := absorbData sha1Transform c.state c.buffer content data
  ⟨buffer, state, count0, count1⟩

/-- What `A_SHAFinal` hashes after the message. -/
def padding (c : ShaCtx) : List UInt8 :=
  let content : Nat := contentSize c.count1
  let pad := if 56 ≤ content then 56 + 64 - content else 56 - content
  let lengthHi := (c.count0 <<< 3) ||| (c.count1 >>> (32 - 3))
  let lengthLo := c.count1 <<< 3
  0x80 :: List.replicate (pad - 1) 0 ++ leBytes (dword2Be lengthHi) ++ leBytes (dword2Be lengthLo)

/-- The bytes of `Result`, and the context, which is initialised again. -/
def aShaFinal (c : ShaCtx) : List UInt8 × ShaCtx :=
  let c := aShaUpdate c (padding c)
  let result := leBytes (dword2Be c.state.a) ++ leBytes (dword2Be c.state.b) ++
    leBytes (dword2Be c.state.c) ++ leBytes (dword2Be c.state.d) ++ leBytes (dword2Be c.state.e)
  (result, aShaInit { c with buffer := fun _ => 0 })

/-! ## The title's context -/

/-- `XC_SHA_CONTEXT`, but for the reserved bytes. -/
structure XcShaContext where
  state : Regs
  count0 : UInt32
  count1 : UInt32
  buffer : Memory

def xcpShaLoad (xc : XcShaContext) : ShaCtx := ⟨xc.buffer, xc.state, xc.count0, xc.count1⟩

def xcpShaStore (xc : XcShaContext) (c : ShaCtx) (wholeBuffer : Bool) : XcShaContext :=
  ⟨c.state, c.count0, c.count1,
    copy xc.buffer 0 (slice c.buffer 0 (if wholeBuffer then 64 else contentSize c.count1))⟩

/-- The buffer of the context is not written; `junk` is what the stack held. -/
def xcpShaInit (junk : ShaCtx) (xc : XcShaContext) : XcShaContext :=
  let c := aShaInit junk
  { xc with state := c.state, count0 := c.count0, count1 := c.count1 }

def xcpShaUpdate (xc : XcShaContext) (data : List UInt8) : XcShaContext :=
  xcpShaStore xc (aShaUpdate (xcpShaLoad xc) data) false

def xcpShaFinal (xc : XcShaContext) : List UInt8 × XcShaContext :=
  let (digest, c) := aShaFinal (xcpShaLoad xc)
  (digest, xcpShaStore xc c true)

/-! ## Words -/

theorem swap_le32 (b0 b1 b2 b3 : UInt8) : swap (le32 b0 b1 b2 b3) = le32 b3 b2 b1 b0 := by
  apply UInt32.eq_of_toBitVec_eq
  apply BitVec.eq_of_getLsbD_eq
  intro i hi
  simp only [swap, rol, le32, UInt32.toBitVec_or, UInt32.toBitVec_and, UInt32.toBitVec_shiftLeft,
    UInt32.toBitVec_shiftRight, BitVec.getLsbD_or, BitVec.getLsbD_and]
  interval_cases i <;> simp

theorem dword2Be_le32 (b0 b1 b2 b3 : UInt8) : dword2Be (le32 b0 b1 b2 b3) = le32 b3 b2 b1 b0 := by
  apply UInt32.eq_of_toBitVec_eq
  apply BitVec.eq_of_getLsbD_eq
  intro i hi
  simp only [dword2Be, le32, UInt32.toBitVec_or, UInt32.toBitVec_and, UInt32.toBitVec_shiftLeft,
    UInt32.toBitVec_shiftRight, BitVec.getLsbD_or, BitVec.getLsbD_and]
  interval_cases i <;> simp

theorem leBytes_dword2Be (w : UInt32) : leBytes (dword2Be w) = beBytes w := by
  have hbytes := byte_le32 (byte w 3) (byte w 2) (byte w 1) (byte w 0)
  have hswap := dword2Be_le32 (byte w 0) (byte w 1) (byte w 2) (byte w 3)
  rw [le32_byte] at hswap
  rw [leBytes, beBytes, hswap, hbytes.1, hbytes.2.1, hbytes.2.2.1, hbytes.2.2.2]

theorem f1_eq (x y z : UInt32) : f1 x y z = Sha1.ch x y z := by
  apply UInt32.eq_of_toBitVec_eq
  apply BitVec.eq_of_getLsbD_eq
  intro i hi
  simp only [f1, Sha1.ch, UInt32.toBitVec_xor, UInt32.toBitVec_and, UInt32.toBitVec_not,
    BitVec.getLsbD_xor, BitVec.getLsbD_and, BitVec.getLsbD_not, hi, decide_true, Bool.true_and]
  cases x.toBitVec.getLsbD i <;> cases y.toBitVec.getLsbD i <;> cases z.toBitVec.getLsbD i <;> rfl

theorem f3_eq (x y z : UInt32) : f3 x y z = Sha1.maj x y z := by
  apply UInt32.eq_of_toBitVec_eq
  apply BitVec.eq_of_getLsbD_eq
  intro i hi
  simp only [f3, Sha1.maj, UInt32.toBitVec_xor, UInt32.toBitVec_and, UInt32.toBitVec_or,
    BitVec.getLsbD_xor, BitVec.getLsbD_and, BitVec.getLsbD_or]
  cases x.toBitVec.getLsbD i <;> cases y.toBitVec.getLsbD i <;> cases z.toBitVec.getLsbD i <;> rfl

/-! ## The schedule in the buffer -/

/-- At the start of round `i` the words of the last sixteen rounds are in the block,
and the rounds to come of the first sixteen find their word as it was. -/
structure Scheduled (m : Nat → UInt32) (i : Nat) (block : Block) : Prop where
  done : ∀ {t}, t < i → i ≤ t + 16 → word block (t % 16) = Sha1.schedule m t
  ahead : ∀ {j}, i ≤ j → j < 16 → swap (word block j) = m j

theorem word_set (block : Block) {i j : Nat} (hj : j < 16) (w : UInt32) :
    word (block.setIfInBounds i w) j = if j = i then w else word block j := by
  unfold word
  rw [Vector.getElem?_setIfInBounds]
  by_cases heq : i = j
  · subst heq
    rw [if_pos rfl, if_pos hj, if_pos rfl, Option.getD_some]
  · rw [if_neg heq, if_neg (Ne.symm heq)]

theorem and_fifteen (i : Nat) : i &&& 15 = i % 16 := Nat.and_two_pow_sub_one_eq_mod i 4

theorem schedule_first (m : Nat → UInt32) {t : Nat} (h : t < 16) :
    Sha1.schedule m t = m t := by
  interval_cases t <;> rfl

namespace Scheduled

variable {m : Nat → UInt32} {i : Nat} {block : Block}

theorem blk0 (h : Scheduled m i block) (hi : i < 16) :
    Scheduled m (i + 1) (Sha.blk0 block i) ∧
      word (Sha.blk0 block i) (i % 16) = Sha1.schedule m i := by
  have hnew : ∀ {j}, j < 16 → word (Sha.blk0 block i) j =
      if j = i then swap (word block i) else word block j :=
    fun hj => word_set block hj _
  have hword : swap (word block i) = Sha1.schedule m i := by
    rw [h.ahead (Nat.le_refl i) hi, schedule_first m hi]
  refine ⟨⟨fun {t} hlt hle => ?_, fun {j} hle hlt => ?_⟩, ?_⟩
  · rw [hnew (by omega)]
    by_cases ht : t = i
    · rw [ht, if_pos (by omega), hword]
    · rw [if_neg (by omega), h.done (by omega) (by omega)]
  · rw [hnew hlt, if_neg (by omega), h.ahead (by omega) hlt]
  · rw [hnew (by omega), if_pos (by omega), hword]

theorem blk1 (h : Scheduled m i block) (hi : 16 ≤ i) :
    Scheduled m (i + 1) (Sha.blk1 block i) ∧
      word (Sha.blk1 block i) (i % 16) = Sha1.schedule m i := by
  obtain ⟨k, rfl⟩ : ∃ k, i = k + 16 := ⟨i - 16, by omega⟩
  have hword : rol (word block ((k + 16 + 13) &&& 15) ^^^ word block ((k + 16 + 8) &&& 15) ^^^
      word block ((k + 16 + 2) &&& 15) ^^^ word block ((k + 16) &&& 15)) 1 =
      Sha1.schedule m (k + 16) := by
    rw [and_fifteen, and_fifteen, and_fifteen, and_fifteen,
      show (k + 16 + 13) % 16 = (k + 13) % 16 by omega,
      show (k + 16 + 8) % 16 = (k + 8) % 16 by omega,
      show (k + 16 + 2) % 16 = (k + 2) % 16 by omega, show (k + 16) % 16 = k % 16 by omega,
      h.done (t := k + 13) (by omega) (by omega), h.done (t := k + 8) (by omega) (by omega),
      h.done (t := k + 2) (by omega) (by omega), h.done (t := k) (by omega) (by omega),
      Sha1.schedule]
    rfl
  have hnew : ∀ {j}, j < 16 → word (Sha.blk1 block (k + 16)) j =
      if j = k % 16 then Sha1.schedule m (k + 16) else word block j := by
    intro j hj
    rw [Sha.blk1, hword, word_set block hj, and_fifteen, show (k + 16) % 16 = k % 16 by omega]
  refine ⟨⟨fun {t} hlt hle => ?_, fun {j} hle hlt => ?_⟩, ?_⟩
  · rw [hnew (by omega)]
    by_cases ht : t = k + 16
    · rw [ht, if_pos (by omega)]
    · rw [if_neg (by omega), h.done (by omega) (by omega)]
  · omega
  · rw [hnew (by omega), if_pos (by omega)]

/-- One round. -/
theorem step (h : Scheduled m i block) (v : Regs) :
    Scheduled m (i + 1) (transformRound i block v).1 ∧
      (transformRound i block v).2 = Sha1.round i (Sha1.schedule m i) v := by
  obtain ⟨block', hblock⟩ : ∃ b, (if i < 16 then Sha.blk0 block i else Sha.blk1 block i) = b :=
    ⟨_, rfl⟩
  have hnext : Scheduled m (i + 1) block' ∧
      word block' (i % 16) = Sha1.schedule m i := by
    rw [← hblock]
    by_cases hi : i < 16
    · rw [if_pos hi]
      exact h.blk0 hi
    · rw [if_neg hi]
      exact h.blk1 (by omega)
  have hround : ∀ f k, Sha1.function i v.b v.c v.d = f → Sha1.constant i = k →
      (⟨rol v.a 5 + f + v.e + k + word block' (i &&& 15), v.a, rol v.b 30, v.c, v.d⟩ : Regs) =
        Sha1.round i (Sha1.schedule m i) v := by
    rintro f k rfl rfl
    rw [and_fifteen, hnext.2]
    rfl
  unfold transformRound
  rw [hblock]
  refine ⟨hnext.1, hround _ _ ?_ ?_⟩
  · unfold Sha1.function
    split
    · exact (f1_eq ..).symm
    · split
      · rfl
      · split
        · exact (f3_eq ..).symm
        · rfl
  · unfold Sha1.constant
    split
    · rfl
    · split
      · rfl
      · split <;> rfl

/-- The whole loop. -/
theorem rounds (h : Scheduled m 0 block) (v : Regs) (n : Nat) :
    Scheduled m n (transformRounds block v n).1 ∧
      (transformRounds block v n).2 = Sha1.rounds m n v := by
  induction n with
  | zero => exact ⟨h, rfl⟩
  | succ n ih =>
    rw [Sha1.rounds, ← ih.2]
    exact ih.1.step _

end Scheduled

theorem blockWord_slice (buffer : Memory) {j : Nat} (hj : j < 16) :
    Sha1.blockWord (slice buffer 0 64) j = swap (getWord buffer j) := by
  have hget : ∀ i < 64, (slice buffer 0 64).getD i 0 = buffer i := by
    intro i hi
    rw [List.getD_eq_getElem?_getD, List.getElem?_eq_getElem (by rw [length_slice]; exact hi),
      getElem_slice, Option.getD_some, Nat.zero_add]
  rw [Sha1.blockWord, getWord, swap_le32, hget _ (by omega), hget _ (by omega),
    hget _ (by omega), hget _ (by omega)]

theorem sha1Transform_eq (state : Regs) (buffer : Memory) :
    (sha1Transform state buffer).1 = Sha1.compress state (slice buffer 0 64) := by
  have hstart : Scheduled (Sha1.blockWord (slice buffer 0 64)) 0
      (Vector.ofFn fun i => getWord buffer i) := by
    refine ⟨fun hlt => absurd hlt (Nat.not_lt_zero _), fun _ hj => ?_⟩
    rw [blockWord_slice buffer hj, word, Vector.getElem?_eq_getElem hj, Option.getD_some,
      Vector.getElem_ofFn]
  rw [Sha1.compress, ← (hstart.rounds state 80).2]
  rfl

/-! ## The unrolled form -/

/-- The working variables by name. -/
inductive Name
  | a | b | c | d | e
  deriving DecidableEq

/-- The variables that a call of a macro names, in the order of its parameters. -/
structure Names where
  v : Name
  w : Name
  x : Name
  y : Name
  z : Name

/-- From call to call each name moves on by one place. -/
def Names.next (n : Names) : Names := ⟨n.z, n.v, n.w, n.x, n.y⟩

/-- The names in call `i`. -/
def names : Nat → Names
  | 0 => ⟨.a, .b, .c, .d, .e⟩
  | i + 1 => (names i).next

example : names 79 = ⟨.b, .c, .d, .e, .a⟩ := rfl

abbrev Unrolled := Block × (Name → UInt32)

/-- The macros differ in the function, the constant and the schedule. -/
def macroR (f : UInt32 → UInt32 → UInt32 → UInt32) (k : UInt32) (blk : Block → Nat → Block)
    (n : Names) (i : Nat) (s : Unrolled) : Unrolled :=
  let (block, r) := s
  let block := blk block i
  let r := update r n.z
    (r n.z + (f (r n.w) (r n.x) (r n.y) + word block (i &&& 15) + k + rol (r n.v) 5))
  (block, update r n.w (rol (r n.w) 30))

def r0 := macroR f1 0x5A827999 blk0
def r1 := macroR f1 0x5A827999 blk1
def r2 := macroR f2 0x6ED9EBA1 blk1
def r3 := macroR f3 0x8F1BBCDC blk1
def r4 := macroR f4 0xCA62C1D6 blk1

def unrolledCall (i : Nat) : Unrolled → Unrolled :=
  if i < 16 then r0 (names i) i
  else if i < 20 then r1 (names i) i
  else if i < 40 then r2 (names i) i
  else if i < 60 then r3 (names i) i
  else r4 (names i) i

/-- The calls up to `i`. -/
def unrolledCalls (s : Unrolled) : Nat → Unrolled
  | 0 => s
  | i + 1 => unrolledCall i (unrolledCalls s i)

/-- The working variables at the start. -/
def named (state : Regs) : Name → UInt32
  | .a => state.a
  | .b => state.b
  | .c => state.c
  | .d => state.d
  | .e => state.e

/-- `SHA1Transform` without `SARCH_XBOX`. -/
def sha1TransformUnrolled (state : Regs) (buffer : Memory) : Regs × Memory :=
  let block : Block := Vector.ofFn fun i => getWord buffer i
  let (block, r) := unrolledCalls (block, named state) 80
  (⟨state.a + r .a, state.b + r .b, state.c + r .c, state.d + r .d, state.e + r .e⟩,
    copy buffer 0 (block.toList.flatMap leBytes))

/-- The variables of the loop, read by the names of the next call. -/
def Names.regs (n : Names) (r : Name → UInt32) : Regs := ⟨r n.v, r n.w, r n.x, r n.y, r n.z⟩

def Names.Distinct (n : Names) : Prop := [n.v, n.w, n.x, n.y, n.z].Nodup

theorem names_distinct (i : Nat) : (names i).Distinct := by
  induction i with
  | zero =>
    show [Name.a, .b, .c, .d, .e].Nodup
    decide
  | succ i ih =>
    exact (List.perm_append_singleton (names i).z [_, _, _, _]).nodup_iff.1 ih

/-- A call leaves in `z` what the loop puts into `a`, and everything else where the next call
looks for it. -/
theorem macroR_eq {n : Names} (h : n.Distinct) (f : UInt32 → UInt32 → UInt32 → UInt32)
    (k : UInt32) (blk : Block → Nat → Block) (i : Nat) (block : Block) (r : Name → UInt32) :
    Prod.map id n.next.regs (macroR f k blk n i (block, r)) =
      (blk block i, ⟨rol (r n.v) 5 + f (r n.w) (r n.x) (r n.y) + r n.z + k +
        word (blk block i) (i &&& 15), r n.v, rol (r n.w) 30, r n.x, r n.y⟩) := by
  simp only [Names.Distinct, List.nodup_cons, List.mem_cons, List.not_mem_nil, or_false,
    not_or] at h
  obtain ⟨⟨hvw, -, -, hvz⟩, ⟨hwx, hwy, hwz⟩, ⟨-, hxz⟩, hyz, -⟩ := h
  simp only [macroR, Names.next, Names.regs, Prod.map, id, update_self, update_of_ne hvw,
    update_of_ne hvz, update_of_ne (Ne.symm hwx), update_of_ne (Ne.symm hwy), update_of_ne hwz,
    update_of_ne (Ne.symm hwz), update_of_ne hxz, update_of_ne hyz]
  ac_rfl

theorem unrolledCall_eq (i : Nat) (s : Unrolled) :
    Prod.map id (names (i + 1)).regs (unrolledCall i s) =
      transformRound i s.1 ((names i).regs s.2) := by
  have hmacro := fun f k blk => macroR_eq (names_distinct i) f k blk i s.1 s.2
  unfold unrolledCall r0 r1 r2 r3 r4 transformRound
  by_cases h16 : i < 16
  · simp only [h16, show i < 20 by omega, if_true]
    exact hmacro f1 _ blk0
  by_cases h20 : i < 20
  · simp only [h16, h20, if_true, if_false]
    exact hmacro f1 _ blk1
  by_cases h40 : i < 40
  · simp only [h16, h20, h40, if_true, if_false]
    exact hmacro f2 _ blk1
  by_cases h60 : i < 60
  · simp only [h16, h20, h40, h60, if_true, if_false]
    exact hmacro f3 _ blk1
  · simp only [h16, h20, h40, h60, if_false]
    exact hmacro f4 _ blk1

theorem unrolledCalls_eq (s : Unrolled) (i : Nat) :
    Prod.map id (names i).regs (unrolledCalls s i) =
      transformRounds s.1 ((names 0).regs s.2) i := by
  induction i with
  | zero => rfl
  | succ i ih =>
    rw [transformRounds, ← ih]
    exact unrolledCall_eq i _

/-- The unrolled form leaves the same state, and the same schedule in the buffer. -/
theorem sha1Transform_unrolled (state : Regs) (buffer : Memory) :
    sha1TransformUnrolled state buffer = sha1Transform state buffer := by
  have hcalls := unrolledCalls_eq (Vector.ofFn fun i => getWord buffer i, named state) 80
  have hnames : names 80 = names 0 := rfl
  unfold sha1Transform sha1TransformUnrolled
  rw [hnames, show (names 0).regs (named state) = state from rfl] at hcalls
  dsimp only
  rw [← hcalls]
  generalize unrolledCalls (Vector.ofFn fun i => getWord buffer i, named state) 80 = s
  rfl

/-! ## Streaming -/

/-- `A_SHAUpdate` folds what the buffer has in use and the new data block by block. -/
theorem absorbData_eq {state : Regs} {buffer : Memory} {content : Fin 64} {data : List UInt8}
    (hdata : data.length < 2 ^ 29) {r : Regs × List UInt8}
    (hr : absorb Sha1.compress 64 state (slice buffer 0 content ++ data) = r) :
    (absorbData sha1Transform state buffer content data).1 = r.1 ∧
      slice (absorbData sha1Transform state buffer content data).2 0 r.2.length = r.2 := by
  have hcontent := content.isLt
  fun_induction absorbData sha1Transform state buffer content data with
  | case1 state buffer content data h state' buffer' htransform ih =>
    rw [wadd_of_lt (by omega)] at h
    have hfull : slice (copy buffer content (data.take (64 - content))) 0 64 =
        slice buffer 0 content ++ data.take (64 - content) := by
      have happend := slice_copy_append buffer content (data.take (64 - content))
      rwa [List.length_take, Nat.min_eq_left (by omega),
        show (content : Nat) + (64 - content) = 64 by omega] at happend
    have hstate : state' = Sha1.compress state
        (slice buffer 0 content ++ data.take (64 - content)) := by
      rw [← hfull, ← sha1Transform_eq, htransform]
    have hblock : absorb Sha1.compress 64 state (slice buffer 0 content ++ data) =
        absorb Sha1.compress 64 state' (data.drop (64 - content)) := by
      rw [absorb_long (by decide) (by rw [List.length_append, length_slice]; omega),
        List.take_append, List.drop_append, length_slice,
        List.take_of_length_le (by rw [length_slice]; omega),
        List.drop_of_length_le (by rw [length_slice]; omega), ← hstate, List.nil_append]
    exact ih (by rw [List.length_drop]; omega) (hblock.symm.trans hr) (by decide)
  | case2 state buffer content data h =>
    rw [wadd_of_lt (by omega)] at h
    rw [absorb_short (by rw [List.length_append, length_slice]; omega)] at hr
    subst hr
    refine ⟨rfl, ?_⟩
    dsimp only
    rw [List.length_append, length_slice, slice_copy_append]

theorem carry_out (hi : Nat) {lo n : Nat} (hlo : lo < 2 ^ 32) (hn : n < 2 ^ 32) (hwrap : 2 ^ 32 ≤ lo + n) :
    (hi + 1) * 2 ^ 32 + (lo + n) % 2 ^ 32 = hi * 2 ^ 32 + lo + n := by
  omega

/-- The context has taken in a message. -/
structure Follows (c : ShaCtx) (message : List UInt8) : Prop where
  state : c.state = (absorb Sha1.compress 64 Sha1.initial message).1
  rest : slice c.buffer 0 (message.length % 64) =
    (absorb Sha1.compress 64 Sha1.initial message).2
  count : c.count0.toNat * 2 ^ 32 + c.count1.toNat = message.length

namespace Follows

variable {c : ShaCtx} {message data : List UInt8}

theorem content (h : Follows c message) : (contentSize c.count1 : Nat) = message.length % 64 := by
  have hcount := h.count
  show c.count1.toNat % 64 = _
  omega

/-- The state and the bytes in use after more data. -/
theorem taken (h : Follows c message) (hdata : data.length < 2 ^ 29) :
    (aShaUpdate c data).state =
        (absorb Sha1.compress 64 Sha1.initial (message ++ data)).1 ∧
      slice (aShaUpdate c data).buffer 0 ((message ++ data).length % 64) =
        (absorb Sha1.compress 64 Sha1.initial (message ++ data)).2 := by
  have hrest := absorb_rest_length (f := Sha1.compress) (n := 64) (by decide)
    Sha1.initial (message ++ data)
  rw [← hrest]
  refine absorbData_eq hdata ?_
  rw [h.content, h.rest, h.state]
  exact (absorb_append (by decide) _ message data).symm

/-- The count of bytes carries from its low to its high word. -/
theorem update (h : Follows c message) (hdata : data.length < 2 ^ 29)
    (htotal : (message ++ data).length < 2 ^ 61) : Follows (aShaUpdate c data) (message ++ data) := by
  obtain ⟨hstate, hrest⟩ := h.taken hdata
  refine ⟨hstate, hrest, ?_⟩
  have hcount := h.count
  have hlow := c.count1.toNat_lt
  rw [List.length_append] at htotal ⊢
  obtain ⟨size, hsize⟩ : ∃ n, UInt32.ofNat data.length = n := ⟨_, rfl⟩
  have hlen : size.toNat = data.length := by
    rw [← hsize, UInt32.toNat_ofNat']
    exact Nat.mod_eq_of_lt (by omega)
  have hshift : size >>> 29 = 0 := by
    refine UInt32.toNat_inj.1 ?_
    rw [UInt32.toNat_shiftRight, Nat.shiftRight_eq_div_pow, hlen]
    exact Nat.div_eq_of_lt hdata
  show (aShaUpdate c data).count0.toNat * 2 ^ 32 + (c.count1 + UInt32.ofNat data.length).toNat = _
  have hcarry : (aShaUpdate c data).count0 =
      if c.count1 + size < size then c.count0 + 1 else c.count0 := by
    unfold aShaUpdate
    dsimp only
    rw [hsize, hshift]
    exact UInt32.add_zero _
  rw [hcarry, hsize, UInt32.toNat_add, hlen]
  by_cases hwrap : c.count1.toNat + data.length < 2 ^ 32
  · rw [if_neg (by rw [UInt32.lt_iff_toNat_lt, UInt32.toNat_add, hlen]; omega)]
    omega
  · rw [if_pos (by rw [UInt32.lt_iff_toNat_lt, UInt32.toNat_add, hlen]; omega), UInt32.toNat_add,
      UInt32.toNat_one, Nat.mod_eq_of_lt (a := c.count0.toNat + 1) (by omega)]
    have hsum := carry_out c.count0.toNat hlow (show data.length < 2 ^ 32 by omega)
      (Nat.not_lt.1 hwrap)
    rw [hsum, hcount]

/-- What `A_SHAFinal` appends is the padding of the standard. -/
theorem pad (h : Follows c message) (htotal : message.length < 2 ^ 61) :
    message ++ padding c = Sha1.pad message := by
  have hcontent := h.content
  have hcount := h.count
  have hlow := c.count1.toNat_lt
  have hlo : c.count1 <<< 3 = UInt32.ofNat (8 * message.length) := by
    refine UInt32.toNat_inj.1 ?_
    rw [UInt32.toNat_shiftLeft, UInt32.toNat_ofNat', Nat.shiftLeft_eq, ← hcount]
    show c.count1.toNat * 2 ^ 3 % 2 ^ 32 = _
    omega
  have hhi : (c.count0 <<< 3) ||| (c.count1 >>> (32 - 3)) =
      UInt32.ofNat (8 * message.length / 2 ^ 32) := by
    refine UInt32.toNat_inj.1 ?_
    rw [UInt32.toNat_or, UInt32.toNat_shiftLeft, UInt32.toNat_shiftRight, UInt32.toNat_ofNat',
      Nat.shiftLeft_eq, Nat.shiftRight_eq_div_pow, ← hcount]
    show c.count0.toNat * 2 ^ 3 % 2 ^ 32 ||| c.count1.toNat / 2 ^ 29 = _
    rw [Nat.mod_eq_of_lt (by omega), Nat.or_comm, Nat.mul_comm, or_eq_add (by omega)]
    omega
  have hzeros : (if 56 ≤ (contentSize c.count1 : Nat) then 56 + 64 - (contentSize c.count1 : Nat)
      else 56 - (contentSize c.count1 : Nat)) - 1 = Sha1.zeros message.length := by
    unfold Sha1.zeros
    split <;> omega
  unfold padding Sha1.pad
  dsimp only
  rw [hzeros, hhi, hlo, leBytes_dword2Be, leBytes_dword2Be]
  simp only [List.append_assoc]

theorem final (h : Follows c message) (htotal : message.length < 2 ^ 61) :
    (aShaFinal c).1 = Sha1.sha1 message := by
  have hlen : (padding c).length < 2 ^ 29 := by
    unfold padding leBytes
    simp only [List.length_append, List.length_cons, List.length_replicate, List.length_nil]
    split <;> omega
  unfold aShaFinal Sha1.sha1 Sha1.digest
  dsimp only
  rw [leBytes_dword2Be, leBytes_dword2Be, leBytes_dword2Be, leBytes_dword2Be, leBytes_dword2Be,
    (h.taken hlen).1, h.pad htotal]

/-- The bytes in use go back to the title's context, and come from there. -/
theorem store (h : Follows c message) (xc : XcShaContext) :
    Follows (xcpShaLoad (xcpShaStore xc c false)) message := by
  refine ⟨h.state, ?_, h.count⟩
  rw [← h.rest, ← h.content]
  show slice (copy xc.buffer 0 (slice c.buffer 0 (contentSize c.count1))) 0 _ = _
  have hcopy := slice_copy xc.buffer 0 (slice c.buffer 0 (contentSize c.count1))
  rwa [length_slice] at hcopy

end Follows

theorem Follows.start (buffer : Memory) :
    Follows ⟨buffer, Sha1.initial, 0, 0⟩ [] := by
  constructor
  · rw [absorb_short (by decide)]
  · rw [absorb_short (by decide)]
    rfl
  · simp

/-- The calls for the parts of a message, in order. -/
theorem follows_updates {xc : XcShaContext} {message : List UInt8} (chunks : List (List UInt8))
    (h : Follows (xcpShaLoad xc) message) (hchunks : ∀ chunk ∈ chunks, chunk.length < 2 ^ 29)
    (htotal : (message ++ chunks.flatten).length < 2 ^ 61) :
    Follows (xcpShaLoad (chunks.foldl xcpShaUpdate xc)) (message ++ chunks.flatten) := by
  induction chunks generalizing xc message with
  | nil =>
    rw [List.flatten_nil, List.append_nil]
    exact h
  | cons chunk chunks ih =>
    rw [List.flatten_cons, ← List.append_assoc] at htotal ⊢
    have hpart : (message ++ chunk).length < 2 ^ 61 := by
      rw [List.length_append] at htotal
      omega
    have hnext := (h.update (hchunks chunk List.mem_cons_self) hpart).store xc
    exact ih hnext (fun part hpart => hchunks part (List.mem_cons_of_mem chunk hpart)) htotal

/-- However a message is cut, the digest is the SHA-1 digest of the whole. -/
theorem sha_streaming (junk : ShaCtx) (xc : XcShaContext) (chunks : List (List UInt8))
    (hchunks : ∀ chunk ∈ chunks, chunk.length < 2 ^ 29) (htotal : chunks.flatten.length < 2 ^ 61) :
    (xcpShaFinal (chunks.foldl xcpShaUpdate (xcpShaInit junk xc))).1 =
      Sha1.sha1 chunks.flatten := by
  have hstart : Follows (xcpShaLoad (xcpShaInit junk xc)) [] := .start xc.buffer
  have hfollows := follows_updates chunks hstart hchunks htotal
  exact hfollows.final htotal

/-- `abc` in two parts. -/
theorem sha_streaming_abc :
    (xcpShaFinal ([[0x61], [0x62, 0x63]].foldl xcpShaUpdate
        (xcpShaInit ⟨fun _ => 0, ⟨0, 0, 0, 0, 0⟩, 0, 0⟩ ⟨⟨0, 0, 0, 0, 0⟩, 7, 7, fun _ => 0xAA⟩))).1 =
      Sha1.sha1 [0x61, 0x62, 0x63] :=
  sha_streaming _ _ [[0x61], [0x62, 0x63]] (by decide) (by decide)

/-! ## HMAC -/

/-- The key, filled up with zeros and combined word by word with the pattern. -/
def hmacPad (key : List UInt8) (pattern : UInt32) : List UInt8 :=
  ((wordsAt (copy (fun _ => 0) 0 (key.take 64)) 0 16).map (· ^^^ pattern)).flatMap leBytes

/-- `XcpHMAC`; `junk` is what the stack held in its context. -/
def xcpHmac (junk : ShaCtx) (key data1 data2 : List UInt8) : List UInt8 :=
  let c := aShaUpdate (aShaInit junk) (hmacPad key 0x36363636)
  let c := if data1 ≠ [] then aShaUpdate c data1 else c
  let c := if data2 ≠ [] then aShaUpdate c data2 else c
  let (inner, c) := aShaFinal c
  (aShaFinal (aShaUpdate (aShaInit c) (hmacPad key 0x5C5C5C5C ++ inner))).1

def nxkShaResumedPass (start : Regs) (data : List UInt8) : List UInt8 :=
  (aShaFinal (aShaUpdate ⟨fun _ => 0, start, 0, 64⟩ data)).1

def nxkShaResumedHmac (innerState outerState : Regs) (data : List UInt8) : List UInt8 :=
  nxkShaResumedPass outerState (nxkShaResumedPass innerState data)

/-- The block that the standard makes of a short key and the byte of a pad. -/
def keyBlock (key : List UInt8) (x : UInt8) : Memory := fun b => key.getD b 0 ^^^ x

theorem le32_xor (b0 b1 b2 b3 x : UInt8) :
    le32 b0 b1 b2 b3 ^^^ le32 x x x x = le32 (b0 ^^^ x) (b1 ^^^ x) (b2 ^^^ x) (b3 ^^^ x) := by
  apply UInt32.eq_of_toBitVec_eq
  apply BitVec.eq_of_getLsbD_eq
  intro i hi
  simp only [le32, UInt32.toBitVec_or, UInt32.toBitVec_xor, UInt32.toBitVec_shiftLeft,
    BitVec.getLsbD_or, BitVec.getLsbD_xor]
  interval_cases i <;> simp

theorem wordsAt_xor (m : Memory) (x : UInt8) (a n : Nat) :
    (wordsAt m a n).map (· ^^^ le32 x x x x) = wordsAt (fun b => m b ^^^ x) a n := by
  induction n generalizing a with
  | zero => rfl
  | succ n ih =>
    rw [wordsAt, wordsAt, List.map_cons, ih]
    rw [le32_xor]

theorem hmacPad_eq {key : List UInt8} (hkey : key.length ≤ 64) (x : UInt8) :
    hmacPad key (le32 x x x x) = slice (keyBlock key x) 0 64 := by
  have hbytes : copy (fun _ => 0) 0 key = fun b => key.getD b 0 := by
    funext b
    by_cases hb : b < key.length
    · simp [copy, hb]
    · simp [copy, hb]
  rw [hmacPad, List.take_of_length_le hkey, hbytes, wordsAt_xor, leBytes_wordsAt]
  rfl

/-- A context that starts behind a whole block. -/
theorem Follows.resumed (block : Memory) :
    Follows ⟨fun _ => 0, (sha1Transform Sha1.initial block).1, 0, 64⟩
      (slice block 0 64) := by
  have hlen := length_slice block 0 64
  have habsorb : absorb Sha1.compress 64 Sha1.initial (slice block 0 64) =
      (Sha1.compress Sha1.initial (slice block 0 64), []) := by
    rw [absorb_long (by decide) (by omega), List.take_of_length_le (by omega),
      List.drop_of_length_le (by omega), absorb_short (by decide)]
  constructor
  · rw [habsorb, sha1Transform_eq]
  · rw [habsorb, hlen]
    rfl
  · rw [hlen]
    simp

/-- A segment of no bytes is skipped. -/
theorem Follows.segment {c : ShaCtx} {message data : List UInt8} (h : Follows c message)
    (hdata : data.length < 2 ^ 29) (htotal : (message ++ data).length < 2 ^ 61) :
    Follows (if data ≠ [] then aShaUpdate c data else c) (message ++ data) := by
  by_cases hne : data = []
  · rw [if_neg (not_not.2 hne), hne, List.append_nil]
    exact h
  · rw [if_pos hne]
    exact h.update hdata htotal

theorem nxkShaResumedPass_eq (block : Memory) {data : List UInt8} (hdata : data.length < 2 ^ 29) :
    nxkShaResumedPass (sha1Transform Sha1.initial block).1 data =
      Sha1.sha1 (slice block 0 64 ++ data) := by
  have htotal : (slice block 0 64 ++ data).length < 2 ^ 61 := by
    rw [List.length_append, length_slice]
    omega
  exact ((Follows.resumed block).update hdata htotal).final htotal

theorem length_sha1 (message : List UInt8) : (Sha1.sha1 message).length = 20 := rfl

theorem xcpHmac_eq (junk : ShaCtx) {key data1 data2 : List UInt8} (hkey : key.length ≤ 64)
    (h1 : data1.length < 2 ^ 29) (h2 : data2.length < 2 ^ 29) :
    xcpHmac junk key data1 data2 = Sha1.sha1 (slice (keyBlock key 0x5C) 0 64 ++
      Sha1.sha1 (slice (keyBlock key 0x36) 0 64 ++ (data1 ++ data2))) := by
  have hpad : ∀ x, hmacPad key (le32 x x x x) = slice (keyBlock key x) 0 64 := hmacPad_eq hkey
  unfold xcpHmac
  rw [show (0x36363636 : UInt32) = le32 0x36 0x36 0x36 0x36 from rfl,
    show (0x5C5C5C5C : UInt32) = le32 0x5C 0x5C 0x5C 0x5C from rfl, hpad, hpad]
  have hkeyed : Follows (aShaUpdate (aShaInit junk) (slice (keyBlock key 0x36) 0 64)) _ :=
    (Follows.start junk.buffer).update (by simp) (by simp)
  have hinner := ((hkeyed.segment h1 (by simp; omega)).segment h2 (by simp; omega)).final
    (by simp; omega)
  rw [List.nil_append, List.append_assoc] at hinner
  dsimp only
  rw [hinner]
  have hlen : (slice (keyBlock key 0x5C) 0 64 ++ Sha1.sha1
      (slice (keyBlock key 0x36) 0 64 ++ (data1 ++ data2))).length = 84 := by
    rw [List.length_append, length_slice, length_sha1]
  have htotal : ([] ++ (slice (keyBlock key 0x5C) 0 64 ++ Sha1.sha1
      (slice (keyBlock key 0x36) 0 64 ++ (data1 ++ data2)))).length < 2 ^ 61 := by
    rw [List.nil_append, hlen]
    decide
  exact ((Follows.start _).update (by rw [hlen]; decide) htotal).final htotal

/-- The states behind the two key blocks stand for the key. -/
theorem resumed_hmac (junk : ShaCtx) (key data1 data2 : List UInt8) (hkey : key.length ≤ 64)
    (hdata : (data1 ++ data2).length < 2 ^ 29 - 64) :
    nxkShaResumedHmac (sha1Transform Sha1.initial (keyBlock key 0x36)).1
        (sha1Transform Sha1.initial (keyBlock key 0x5C)).1 (data1 ++ data2) =
      xcpHmac junk key data1 data2 := by
  have hlen : (data1 ++ data2).length < 2 ^ 29 := by omega
  have hinner := nxkShaResumedPass_eq (keyBlock key 0x36) hlen
  rw [List.length_append] at hdata
  rw [nxkShaResumedHmac, hinner, nxkShaResumedPass_eq _ (by rw [length_sha1]; decide),
    xcpHmac_eq junk hkey (by omega) (by omega)]

/-- A key and a message of three bytes each. -/
theorem resumed_hmac_abc :
    nxkShaResumedHmac (sha1Transform Sha1.initial (keyBlock [1, 2, 3] 0x36)).1
        (sha1Transform Sha1.initial (keyBlock [1, 2, 3] 0x5C)).1 [0x61, 0x62, 0x63] =
      xcpHmac ⟨fun _ => 0, ⟨0, 0, 0, 0, 0⟩, 0, 0⟩ [1, 2, 3] [0x61] [0x62, 0x63] :=
  resumed_hmac _ [1, 2, 3] [0x61] [0x62, 0x63] (by decide) (by decide)

end Roswell.Ports.Sha
