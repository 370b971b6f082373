import Roswell.Verified.Bytes

/-!
# Copies of the boot loader

Model of `memcpy` and `memmove` of the loader over its memory.  Addresses are numbers:
a range that does not wrap has every address below `2 ^ 32`, and so has every pointer
the loops use.
-/

namespace Roswell.Ports.LoaderMem

open Function Verified.Bytes

/-- The byte loop of `memcpy`. -/
def copyBytes (m : Memory) (d s : Nat) : Nat → Memory
  | 0 => m
  | count + 1 => copyBytes (update m d (m s)) (d + 1) (s + 1) count

/-- Whole words while both pointers are aligned, bytes from there on. -/
def memcpy (m : Memory) (d s : Nat) : Nat → Memory
  | count + 4 =>
    if d % 4 = 0 ∧ s % 4 = 0 then memcpy (store m d 4 (load m s 4)) (d + 4) (s + 4) count
    else copyBytes m d s (count + 4)
  | count => copyBytes m d s count

/-- The loop of `memmove` that counts down. -/
def copyDown (m : Memory) (d s : Nat) : Nat → Memory
  | 0 => m
  | count + 1 => copyDown (update m (d + count) (m (s + count))) d s count

def memmove (m : Memory) (dest src count : Nat) : Memory :=
  if dest < src then memcpy m dest src count else copyDown m dest src count

variable {d s : Nat}

/-- A copied prefix and then the rest: going up never reads what was written, unless the
destination is above the source. -/
theorem patch_patch (h : d ≤ s) (m : Memory) (k n : Nat) :
    patch (patch m d k fun i => m (s + i)) (d + k) n
        (fun i => patch m d k (fun i => m (s + i)) (s + k + i)) =
      patch m d (n + k) fun i => m (s + i) := by
  funext b
  simp only [patch]
  by_cases hlow : d + k ≤ b ∧ b < d + k + n
  · rw [if_pos hlow, if_neg (by omega), if_pos (by omega)]
    exact congrArg m (by omega)
  · rw [if_neg hlow]
    by_cases hfirst : d ≤ b ∧ b < d + k
    · rw [if_pos hfirst, if_pos (by omega)]
    · rw [if_neg hfirst, if_neg (by omega)]

theorem copyBytes_eq (h : d ≤ s) (m : Memory) (n : Nat) :
    copyBytes m d s n = patch m d n fun i => m (s + i) := by
  induction n generalizing m d s with
  | zero =>
    funext b
    exact (if_neg (by omega)).symm
  | succ n ih =>
    have hfirst : update m d (m s) = patch m d 1 fun i => m (s + i) := by
      funext b
      rw [update_apply, patch]
      by_cases hb : b = d
      · simp [hb]
      · rw [if_neg hb, if_neg (by omega)]
    rw [copyBytes, ih (by omega), hfirst, patch_patch h]

theorem memcpy_eq (h : d ≤ s) (m : Memory) (n : Nat) :
    memcpy m d s n = patch m d n fun i => m (s + i) := by
  fun_induction memcpy m d s n with
  | case1 m d s n haligned ih => rw [ih (by omega), store_load, patch_patch h]
  | case2 m d s n haligned => exact copyBytes_eq h m (n + 4)
  | case3 m d s n hsmall => exact copyBytes_eq h m n

theorem copyDown_eq (h : s ≤ d) (m : Memory) (n : Nat) :
    copyDown m d s n = patch m d n fun i => m (s + i) := by
  induction n generalizing m with
  | zero =>
    funext b
    exact (if_neg (by omega)).symm
  | succ n ih =>
    funext b
    rw [copyDown, ih]
    simp only [patch]
    by_cases hlow : d ≤ b ∧ b < d + n
    · rw [if_pos hlow, if_pos (by omega), update_of_ne (by omega)]
    · rw [if_neg hlow, update_apply]
      by_cases hlast : b = d + n
      · rw [if_pos hlast, if_pos (by omega), hlast, Nat.add_sub_cancel_left]
      · rw [if_neg hlast, if_neg (by omega)]

/-- Whatever the overlap and the alignment, the destination gets the source as it was before
the call and no other byte changes. -/
theorem memmove_eq (m : Memory) (dest src count : Nat) :
    memmove m dest src count =
      fun b => if dest ≤ b ∧ b < dest + count then m (src + (b - dest)) else m b := by
  unfold memmove
  by_cases hup : dest < src
  · rw [if_pos hup]
    exact memcpy_eq (Nat.le_of_lt hup) m count
  · rw [if_neg hup]
    exact copyDown_eq (Nat.le_of_not_lt hup) m count

end Roswell.Ports.LoaderMem
