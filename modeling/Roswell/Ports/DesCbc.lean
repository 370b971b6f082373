import Roswell.Ports.Des

/-!
# Cipher block chaining in memory

Model of `XcpBlockCryptCBC`.  It works from a source to a target buffer, which may
be the same, and keeps the chaining value in the caller's feedback vector, all in
one memory.  The key table is read before the first block is written.

What the loop does to memory (`cbcLoop_spec`) is chaining over the blocks of the
buffer; the rest follows from the laws of chaining.
-/

namespace Roswell.Ports.Des

open Verified Verified.Bytes

/-! ## The model -/

/-- The block at an address. -/
def readBlock (mem : Memory) (a : Nat) : Block := array 8 fun i => mem (a + i)

def writeBlock (mem : Memory) (a : Nat) (b : Block) : Memory := copy mem a b.toList

/-- Where the buffers of a call are. -/
structure Buffers where
  source : Nat
  target : Nat
  feedback : Nat

/-- The body of the loop. -/
def cbcStep (keys : Nat → DesKey) (count op : Nat) (at' : Buffers) (mem : Memory) : Memory :=
  if op ≠ 0 then
    let block := xor (readBlock mem at'.source) (readBlock mem at'.feedback)
    let mem := writeBlock mem at'.target (desCryptBlock block keys count false)
    writeBlock mem at'.feedback (readBlock mem at'.target)
  else
    let block := readBlock mem at'.source
    let mem := writeBlock mem at'.target (desCryptBlock (readBlock mem at'.source) keys count true)
    let mem := writeBlock mem at'.target
      (xor (readBlock mem at'.target) (readBlock mem at'.feedback))
    writeBlock mem at'.feedback block

def cbcLoop (keys : Nat → DesKey) (count op : Nat) (at' : Buffers) (len : Nat) (mem : Memory) :
    Memory :=
  if 8 ≤ len then
    cbcLoop keys count op { at' with source := at'.source + 8, target := at'.target + 8 } (len - 8)
      (cbcStep keys count op at' mem)
  else mem
termination_by len

def xcpBlockCryptCbc (cipher len : Nat) (at' : Buffers) (keyTable : Memory) (op : Nat)
    (mem : Memory) : Memory :=
  if len < 8 then mem
  else cbcLoop (desLoadTable keyTable) (desKeyCount cipher) op at' len mem

/-! ## Blocks of memory -/

section Blocks

variable {mem mem' : Memory} {a b : Nat} {x : Block}

theorem readBlock_getElem (mem : Memory) (a : Nat) {i : Nat} (hi : i < 8) :
    (readBlock mem a)[i] = mem (a + i) := by
  rw [readBlock, array, Vector.getElem_ofFn]

theorem readBlock_congr (h : Keeps mem mem' a 8) : readBlock mem' a = readBlock mem a := by
  refine Vector.ext fun i hi => ?_
  rw [readBlock_getElem _ _ hi, readBlock_getElem _ _ hi, h _ (by omega) (by omega)]

theorem writeBlock_outside {c : Nat} (h : c < a ∨ a + 8 ≤ c) : writeBlock mem a x c = mem c :=
  copy_outside (by rw [Vector.length_toList]; exact h)

theorem readBlock_writeBlock : readBlock (writeBlock mem a x) a = x := by
  refine Vector.ext fun i hi => ?_
  rw [readBlock_getElem _ _ hi, writeBlock, copy, if_pos (by rw [Vector.length_toList]; omega),
    Nat.add_sub_cancel_left, List.getD_eq_getElem?_getD,
    List.getElem?_eq_getElem (by rw [Vector.length_toList]; exact hi), Option.getD_some,
    Vector.getElem_toList]

theorem writeBlock_keeps (h : b + 8 ≤ a ∨ a + 8 ≤ b) : Keeps mem (writeBlock mem a x) b 8 :=
  fun _ _ _ => writeBlock_outside (by omega)

/-- The `n` blocks at an address. -/
def readBlocks (mem : Memory) (a : Nat) : Nat → List Block
  | 0 => []
  | n + 1 => readBlock mem a :: readBlocks mem (a + 8) n

theorem readBlocks_congr {n : Nat} (h : Keeps mem mem' a (8 * n)) :
    readBlocks mem' a n = readBlocks mem a n := by
  induction n generalizing a with
  | zero => rfl
  | succ n ih =>
    rw [readBlocks, readBlocks, readBlock_congr (h.mono (Nat.le_refl a) (by omega)),
      ih (h.mono (by omega) (by omega))]

theorem readBlock_eq_iff :
    readBlock mem' b = readBlock mem a ↔ ∀ i < 8, mem' (b + i) = mem (a + i) := by
  constructor
  · intro h i hi
    rw [← readBlock_getElem mem' b hi, h, readBlock_getElem mem a hi]
  · intro h
    refine Vector.ext fun i hi => ?_
    rw [readBlock_getElem _ _ hi, readBlock_getElem _ _ hi, h i hi]

theorem readBlocks_eq_iff {n : Nat} :
    readBlocks mem' b n = readBlocks mem a n ↔ slice mem' b (8 * n) = slice mem a (8 * n) := by
  rw [slice_eq_iff]
  induction n generalizing a b with
  | zero => exact ⟨fun _ i hi => absurd hi (Nat.not_lt_zero i), fun _ => rfl⟩
  | succ n ih =>
    rw [readBlocks, readBlocks, List.cons.injEq, readBlock_eq_iff, ih]
    constructor
    · rintro ⟨hfirst, hrest⟩ i hi
      by_cases hlow : i < 8
      · exact hfirst i hlow
      · have := hrest (i - 8) (by omega)
        rwa [show b + 8 + (i - 8) = b + i by omega, show a + 8 + (i - 8) = a + i by omega] at this
    · intro h
      refine ⟨fun i hi => h i (by omega), fun i hi => ?_⟩
      rw [Nat.add_assoc, Nat.add_assoc]
      exact h (8 + i) (by omega)

theorem getLastD_readBlocks (mem : Memory) (a : Nat) (x : Block) (n : Nat) :
    (readBlocks mem a (n + 1)).getLastD x = readBlock mem (a + 8 * n) := by
  induction n generalizing a x with
  | zero => rfl
  | succ n ih =>
    rw [readBlocks, List.getLastD_cons, ih, Nat.add_assoc]
    refine congrArg (readBlock mem) ?_
    omega

end Blocks

/-! ## The loop -/

/-- The buffers are one or apart, and the feedback vector is apart from both. -/
structure Buffers.Ok (at' : Buffers) (len : Nat) : Prop where
  buffers : at'.source = at'.target ∨ at'.source + len ≤ at'.target ∨ at'.target + len ≤ at'.source
  source : at'.feedback + 8 ≤ at'.source ∨ at'.source + len ≤ at'.feedback
  target : at'.feedback + 8 ≤ at'.target ∨ at'.target + len ≤ at'.feedback

/-- Chaining in the direction of the operation code. -/
def cbc (keys : Nat → DesKey) (count op : Nat) (chain : Block) (l : List Block) :
    List Block × Block :=
  if op ≠ 0 then BlockCipher.cbcEncrypt xor (fun x => desCryptBlock x keys count false) chain l
  else BlockCipher.cbcDecrypt xor (fun x => desCryptBlock x keys count true) chain l

section Loop

variable {keys : Nat → DesKey} {count op len : Nat} {at' : Buffers} {mem : Memory}

theorem cbcStep_spec (keys : Nat → DesKey) (count op : Nat) (mem : Memory) (h : at'.Ok len) (hlen : 8 ≤ len)
    (l : List Block) :
    cbc keys count op (readBlock mem at'.feedback) (readBlock mem at'.source :: l) =
        (readBlock (cbcStep keys count op at' mem) at'.target ::
            (cbc keys count op (readBlock (cbcStep keys count op at' mem) at'.feedback) l).1,
          (cbc keys count op (readBlock (cbcStep keys count op at' mem) at'.feedback) l).2) ∧
      ∀ c, (c < at'.target ∨ at'.target + 8 ≤ c) → (c < at'.feedback ∨ at'.feedback + 8 ≤ c) →
        cbcStep keys count op at' mem c = mem c := by
  have htarget := h.target
  have hfb : ∀ m x, Keeps m (writeBlock m at'.target x) at'.feedback 8 :=
    fun m x => writeBlock_keeps (by omega)
  have htg : ∀ m x, Keeps m (writeBlock m at'.feedback x) at'.target 8 :=
    fun m x => writeBlock_keeps (by omega)
  unfold cbcStep cbc
  by_cases hop : op ≠ 0
  · simp only [if_pos hop]
    refine ⟨?_, fun c ht hf => ?_⟩
    · rw [readBlock_congr (htg _ _), readBlock_writeBlock, readBlock_writeBlock]
      rfl
    · rw [writeBlock_outside hf, writeBlock_outside ht]
  · simp only [if_neg hop]
    refine ⟨?_, fun c ht hf => ?_⟩
    · rw [readBlock_congr (htg _ _), readBlock_writeBlock, readBlock_writeBlock,
        readBlock_writeBlock, readBlock_congr (hfb _ _)]
      rfl
    · rw [writeBlock_outside hf, writeBlock_outside ht, writeBlock_outside ht]

/-- The loop chains the blocks of the source into the target and leaves the chaining
value in the feedback vector. -/
theorem cbcLoop_spec (keys : Nat → DesKey) (count op : Nat) (mem : Memory) (h : at'.Ok len) {r : List Block × Block}
    (hr : cbc keys count op (readBlock mem at'.feedback) (readBlocks mem at'.source (len / 8)) = r) :
    readBlocks (cbcLoop keys count op at' len mem) at'.target (len / 8) = r.1 ∧
      readBlock (cbcLoop keys count op at' len mem) at'.feedback = r.2 ∧
      ∀ c, (c < at'.target ∨ at'.target + 8 * (len / 8) ≤ c) →
        (c < at'.feedback ∨ at'.feedback + 8 ≤ c) → cbcLoop keys count op at' len mem c = mem c := by
  fun_induction cbcLoop keys count op at' len mem generalizing r with
  | case1 at' len mem hlen ih =>
    obtain ⟨hb, hs, ht⟩ := h
    obtain ⟨n, hn⟩ : ∃ n, len / 8 = n + 1 := ⟨len / 8 - 1, by omega⟩
    have hrest : (len - 8) / 8 = n := by omega
    rw [hn] at hr ⊢
    rw [hrest] at ih
    obtain ⟨hstep, hframe⟩ := cbcStep_spec keys count op mem ⟨hb, hs, ht⟩ hlen
      (readBlocks mem (at'.source + 8) n)
    have hsource : readBlocks (cbcStep keys count op at' mem) (at'.source + 8) n =
        readBlocks mem (at'.source + 8) n :=
      readBlocks_congr fun c hlo hhi => hframe c (by omega) (by omega)
    obtain ⟨hblocks, hchain, hkeep⟩ := ih ⟨by dsimp only; omega, by dsimp only; omega,
      by dsimp only; omega⟩ rfl
    dsimp only at hblocks hchain hkeep
    rw [hsource] at hblocks hchain
    rw [readBlocks, hstep] at hr
    subst hr
    refine ⟨?_, hchain, fun c hct hcf => ?_⟩
    · have hfirst : readBlock (cbcLoop keys count op
          { at' with source := at'.source + 8, target := at'.target + 8 } (len - 8)
          (cbcStep keys count op at' mem)) at'.target =
          readBlock (cbcStep keys count op at' mem) at'.target :=
        readBlock_congr fun c hlo hhi => hkeep c (by omega) (by omega)
      rw [readBlocks, hfirst, hblocks]
    · rw [hkeep c (by omega) hcf, hframe c (by omega) hcf]
  | case2 at' len mem hlen =>
    rw [show len / 8 = 0 by omega] at hr ⊢
    subst hr
    refine ⟨?_, ?_, fun _ _ _ => rfl⟩
    · unfold cbc
      split <;> rfl
    · unfold cbc
      split <;> rfl

end Loop

/-! ## Calls -/

/-- The buffers further on, with the same feedback vector. -/
def Buffers.skip (at' : Buffers) (n : Nat) : Buffers :=
  { at' with source := at'.source + n, target := at'.target + n }

/-- Consecutive calls over one message. -/
def cbcCalls (cipher : Nat) (keyTable : Memory) (op : Nat) : Buffers → List Nat → Memory → Memory
  | _, [], mem => mem
  | at', len :: rest, mem =>
    cbcCalls cipher keyTable op (at'.skip len) rest (xcpBlockCryptCbc cipher len at' keyTable op mem)

section Calls

variable {cipher len op : Nat} {at' : Buffers} {keyTable mem : Memory}

/-- A call of less than a block does nothing, as the loop would. -/
theorem xcpBlockCryptCbc_eq (cipher len : Nat) (at' : Buffers) (keyTable : Memory) (op : Nat)
    (mem : Memory) : xcpBlockCryptCbc cipher len at' keyTable op mem =
      cbcLoop (desLoadTable keyTable) (desKeyCount cipher) op at' len mem := by
  unfold xcpBlockCryptCbc
  split_ifs with hlen
  · rw [cbcLoop, if_neg (by omega)]
  · rfl

/-- The loop may stop at a block boundary and go on. -/
theorem cbcLoop_add {keys : Nat → DesKey} {count : Nat} (n : Nat) (at' : Buffers) (mem : Memory) :
    cbcLoop keys count op at' (8 * n + len) mem =
      cbcLoop keys count op (at'.skip (8 * n)) len (cbcLoop keys count op at' (8 * n) mem) := by
  induction n generalizing at' mem with
  | zero =>
    rw [cbcLoop.eq_def keys count op at' (8 * 0) mem, if_neg (by omega), Nat.mul_zero, Nat.zero_add]
    rfl
  | succ n ih =>
    have hskip : Buffers.skip { at' with source := at'.source + 8, target := at'.target + 8 }
        (8 * n) = at'.skip (8 * (n + 1)) := by
      unfold Buffers.skip
      rw [Nat.add_assoc, Nat.add_assoc, show 8 + 8 * n = 8 * (n + 1) by omega]
    rw [cbcLoop.eq_def keys count op at' (8 * (n + 1) + len) mem, if_pos (by omega),
      cbcLoop.eq_def keys count op at' (8 * (n + 1)) mem, if_pos (by omega),
      show 8 * (n + 1) + len - 8 = 8 * n + len by omega, show 8 * (n + 1) - 8 = 8 * n by omega,
      ih, hskip]

theorem cbcCalls_eq (parts : List Nat) (hparts : ∀ n ∈ parts, n % 8 = 0) (at' : Buffers)
    (mem : Memory) : cbcCalls cipher keyTable op at' (parts ++ [len]) mem =
      xcpBlockCryptCbc cipher (parts.sum + len) at' keyTable op mem := by
  induction parts generalizing at' mem with
  | nil =>
    rw [List.sum_nil, Nat.zero_add]
    rfl
  | cons n parts ih =>
    have hn : n = 8 * (n / 8) := by
      have := hparts n List.mem_cons_self
      omega
    rw [List.cons_append, cbcCalls, ih fun k hk => hparts k (List.mem_cons_of_mem n hk),
      List.sum_cons, Nat.add_assoc, xcpBlockCryptCbc_eq, xcpBlockCryptCbc_eq, xcpBlockCryptCbc_eq,
      hn, cbcLoop_add]

theorem readBlock_eq_iff_slice {mem mem' : Memory} {a b : Nat} :
    readBlock mem' b = readBlock mem a ↔ slice mem' b 8 = slice mem a 8 := by
  rw [readBlock_eq_iff, slice_eq_iff]

theorem cbc_chain (keys : Nat → DesKey) (count op : Nat) (chain : Block) (l : List Block) :
    (cbc keys count op chain l).2 =
      if op ≠ 0 then (cbc keys count op chain l).1.getLastD chain else l.getLastD chain := by
  unfold cbc
  by_cases hop : op ≠ 0
  · simp only [if_pos hop]
    exact BlockCipher.cbcEncrypt_chain _ _
  · simp only [if_neg hop]
    exact BlockCipher.cbcDecrypt_chain _ _

/-- The feedback vector is left with the last block of ciphertext. -/
theorem feedback_left (h : at'.Ok len) (hlen : 8 ≤ len) :
    slice (xcpBlockCryptCbc cipher len at' keyTable op mem) at'.feedback 8 =
      if op ≠ 0 then
        slice (xcpBlockCryptCbc cipher len at' keyTable op mem) (at'.target + 8 * (len / 8 - 1)) 8
      else slice mem (at'.source + 8 * (len / 8 - 1)) 8 := by
  obtain ⟨n, hn⟩ : ∃ n, len / 8 = n + 1 := ⟨len / 8 - 1, by omega⟩
  obtain ⟨hblocks, hchain, -⟩ := cbcLoop_spec (desLoadTable keyTable) (desKeyCount cipher) op
    mem h rfl
  rw [xcpBlockCryptCbc_eq, hn, Nat.add_sub_cancel]
  rw [hn] at hblocks hchain
  rw [cbc_chain] at hchain
  by_cases hop : op ≠ 0
  · rw [if_pos hop, ← hblocks, getLastD_readBlocks] at hchain
    rw [if_pos hop, ← readBlock_eq_iff_slice, hchain]
  · rw [if_neg hop, getLastD_readBlocks] at hchain
    rw [if_neg hop, ← readBlock_eq_iff_slice, hchain]

/-- Decryption, wherever the ciphertext has been moved to, restores the message. -/
theorem decrypt_restores (h : at'.Ok len) (hop : op ≠ 0) {mem₂ : Memory} {at₂ : Buffers}
    (h₂ : at₂.Ok len)
    (hcipher : slice mem₂ at₂.source (8 * (len / 8)) =
      slice (xcpBlockCryptCbc cipher len at' keyTable op mem) at'.target (8 * (len / 8)))
    (hfeedback : slice mem₂ at₂.feedback 8 = slice mem at'.feedback 8) :
    slice (xcpBlockCryptCbc cipher len at₂ keyTable 0 mem₂) at₂.target (8 * (len / 8)) =
      slice mem at'.source (8 * (len / 8)) := by
  obtain ⟨hblocks, -, -⟩ := cbcLoop_spec (desLoadTable keyTable) (desKeyCount cipher) op mem h rfl
  obtain ⟨hback, -, -⟩ := cbcLoop_spec (desLoadTable keyTable) (desKeyCount cipher) 0 mem₂ h₂ rfl
  rw [xcpBlockCryptCbc_eq, ← readBlocks_eq_iff] at hcipher
  rw [xcpBlockCryptCbc_eq, ← readBlocks_eq_iff, hback, hcipher, hblocks,
    readBlock_eq_iff_slice.2 hfeedback, cbc, cbc, if_neg (fun hzero => hzero rfl), if_pos hop]
  exact BlockCipher.cbcDecrypt_cbcEncrypt xor_cancel_right
    (fun x => desCryptBlock_decrypt x _ _) _ _

/-- The chaining mode as callers see it: what a call changes, what it leaves in the
feedback vector, that calls may be split at block boundaries, and that decryption
started from the same feedback restores what was encrypted. -/
theorem cbc_round_trip (cipher len : Nat) (at' : Buffers) (keyTable mem : Memory)
    (h : at'.Ok len) :
    (∀ op,
      (∀ a, (a < at'.target ∨ at'.target + 8 * (len / 8) ≤ a) →
        (a < at'.feedback ∨ at'.feedback + 8 ≤ a) →
        xcpBlockCryptCbc cipher len at' keyTable op mem a = mem a) ∧
      (len < 8 → xcpBlockCryptCbc cipher len at' keyTable op mem = mem) ∧
      (8 ≤ len → slice (xcpBlockCryptCbc cipher len at' keyTable op mem) at'.feedback 8 =
        if op ≠ 0 then
          slice (xcpBlockCryptCbc cipher len at' keyTable op mem) (at'.target + 8 * (len / 8 - 1)) 8
        else slice mem (at'.source + 8 * (len / 8 - 1)) 8) ∧
      (∀ parts last, (∀ n ∈ parts, n % 8 = 0) → parts.sum + last = len →
        cbcCalls cipher keyTable op at' (parts ++ [last]) mem =
          xcpBlockCryptCbc cipher len at' keyTable op mem)) ∧
    ∀ op ≠ 0, ∀ (mem₂ : Memory) (at₂ : Buffers), at₂.Ok len →
      slice mem₂ at₂.source (8 * (len / 8)) =
        slice (xcpBlockCryptCbc cipher len at' keyTable op mem) at'.target (8 * (len / 8)) →
      slice mem₂ at₂.feedback 8 = slice mem at'.feedback 8 →
      slice (xcpBlockCryptCbc cipher len at₂ keyTable 0 mem₂) at₂.target (8 * (len / 8)) =
        slice mem at'.source (8 * (len / 8)) := by
  refine ⟨fun op => ⟨?_, fun hlen => if_pos hlen, feedback_left h, ?_⟩, ?_⟩
  · rw [xcpBlockCryptCbc_eq]
    exact (cbcLoop_spec (desLoadTable keyTable) (desKeyCount cipher) op mem h rfl).2.2
  · rintro parts last hparts rfl
    exact cbcCalls_eq parts hparts at' mem
  · exact fun op hop mem₂ at₂ h₂ hcipher hfeedback => decrypt_restores h hop h₂ hcipher hfeedback

/-- Nineteen bytes in place, the feedback vector behind them. -/
theorem cbc_round_trip_inPlace :
    (⟨0x1000, 0x1000, 0x1020⟩ : Buffers).Ok 19 ∧
      xcpBlockCryptCbc 1 19 ⟨0x1000, 0x1000, 0x1020⟩ (fun _ => 0x5A) 1 (fun a => UInt8.ofNat a) 0x1010 =
        0x10 := by
  have hok : (⟨0x1000, 0x1000, 0x1020⟩ : Buffers).Ok 19 :=
    ⟨Or.inl rfl, Or.inr (by decide), Or.inr (by decide)⟩
  obtain ⟨hdirections, -⟩ := cbc_round_trip 1 19 ⟨0x1000, 0x1000, 0x1020⟩ (fun _ => 0x5A)
    UInt8.ofNat hok
  exact ⟨hok, (hdirections 1).1 0x1010 (Or.inr (by decide)) (Or.inl (by decide))⟩

end Calls

end Roswell.Ports.Des
