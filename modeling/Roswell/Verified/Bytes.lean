import Mathlib.Algebra.Group.Nat.Defs
import Mathlib.Data.List.Basic

/-!
# Little-endian fields in byte memory

`load` and `store` read and write a field of any number of bytes.  A field reads
back what was stored in it, modulo its width, and a store changes no byte outside
its field.  `slice` and `copy` do the same for byte strings.
-/

namespace Roswell.Verified.Bytes

open Function

abbrev Memory := Nat → UInt8

/-- The number in the `n` bytes at `a`. -/
def load (m : Memory) : Nat → Nat → Nat
  | _, 0 => 0
  | a, n + 1 => (m a).toNat + 256 * load m (a + 1) n

/-- The lowest `n` bytes of `x` are put at `a`. -/
def store (m : Memory) : Nat → Nat → Nat → Memory
  | _, 0, _ => m
  | a, n + 1, x => update (store m (a + 1) n (x / 256)) a (UInt8.ofNat x)

/-- No byte of the field at `a` changes. -/
def Keeps (m m' : Memory) (a n : Nat) : Prop := ∀ b, a ≤ b → b < a + n → m' b = m b

theorem Keeps.mono {m m' : Memory} {a n b k : Nat} (h : Keeps m m' a n) (hlo : a ≤ b)
    (hhi : b + k ≤ a + n) : Keeps m m' b k :=
  fun c h1 h2 => h c (by omega) (by omega)

theorem load_congr {m m' : Memory} {a n : Nat} (h : Keeps m m' a n) :
    load m' a n = load m a n := by
  induction n generalizing a with
  | zero => rfl
  | succ n ih =>
    have hfirst : m' a = m a := h a (Nat.le_refl a) (by omega)
    have hrest : Keeps m m' (a + 1) n := fun b hlo hhi => h b (by omega) (by omega)
    rw [load, load, hfirst, ih hrest]

variable {m : Memory}

theorem store_outside {a n b : Nat} (x : Nat) (h : b < a ∨ a + n ≤ b) :
    store m a n x b = m b := by
  induction n generalizing a x with
  | zero => rfl
  | succ n ih =>
    rw [store, update_of_ne (by omega), ih (x / 256) (by omega)]

theorem store_keeps {a n b k : Nat} (x : Nat) (h : b + k ≤ a ∨ a + n ≤ b) :
    Keeps m (store m a n x) b k :=
  fun _ hlo hhi => store_outside x (by omega)

theorem load_store (m : Memory) (a n x : Nat) : load (store m a n x) a n = x % 256 ^ n := by
  induction n generalizing a x with
  | zero => rw [Nat.pow_zero, Nat.mod_one, load]
  | succ n ih =>
    have hrest : Keeps (store m (a + 1) n (x / 256)) (store m a (n + 1) x) (a + 1) n := by
      intro b hlo _
      rw [store, update_of_ne (by omega)]
    have hfirst : (store m a (n + 1) x a).toNat = x % 256 := by
      rw [store, update_self, UInt8.toNat_ofNat']
    rw [load, hfirst, load_congr hrest, ih, Nat.pow_succ, Nat.mul_comm (256 ^ n), Nat.mod_mul]

/-! ## Byte strings -/

/-- The `n` bytes at `a`. -/
def slice (m : Memory) (a n : Nat) : List UInt8 := (List.range n).map fun i => m (a + i)

/-- The bytes of `l` are put at `a`. -/
def copy (m : Memory) (a : Nat) (l : List UInt8) : Memory :=
  fun b => if a ≤ b ∧ b < a + l.length then l.getD (b - a) 0 else m b

@[simp] theorem length_slice (m : Memory) (a n : Nat) : (slice m a n).length = n := by
  unfold slice
  rw [List.length_map, List.length_range]

theorem getElem_slice {a n i : Nat} (h : i < (slice m a n).length) :
    (slice m a n)[i] = m (a + i) := by
  simp [slice]

theorem slice_congr {m m' : Memory} {a n : Nat} (h : Keeps m m' a n) : slice m' a n = slice m a n := by
  refine List.map_congr_left fun i hi => ?_
  have := List.mem_range.1 hi
  exact h _ (by omega) (by omega)

theorem slice_eq_iff {m m' : Memory} {a b n : Nat} :
    slice m' b n = slice m a n ↔ ∀ i < n, m' (b + i) = m (a + i) := by
  constructor
  · intro h i hi
    have hget : (slice m' b n)[i]? = (slice m a n)[i]? := by rw [h]
    rw [List.getElem?_eq_getElem (by rw [length_slice]; exact hi),
      List.getElem?_eq_getElem (by rw [length_slice]; exact hi), getElem_slice, getElem_slice] at hget
    exact Option.some.inj hget
  · intro h
    exact List.map_congr_left fun i hi => h i (List.mem_range.1 hi)

theorem slice_append (m : Memory) (a n k : Nat) :
    slice m a (n + k) = slice m a n ++ slice m (a + n) k := by
  unfold slice
  rw [List.range_add, List.map_append, List.map_map]
  refine congrArg _ (List.map_congr_left fun i _ => ?_)
  exact congrArg m (Nat.add_assoc a n i).symm

theorem copy_outside {a b : Nat} {l : List UInt8} (h : b < a ∨ a + l.length ≤ b) :
    copy m a l b = m b :=
  if_neg (by omega)

theorem copy_keeps {a b k : Nat} {l : List UInt8}
    (h : b + k ≤ a ∨ a + l.length ≤ b) : Keeps m (copy m a l) b k :=
  fun _ _ _ => copy_outside (by omega)

theorem slice_copy (m : Memory) (a : Nat) (l : List UInt8) : slice (copy m a l) a l.length = l := by
  refine List.ext_getElem (length_slice ..) fun i hi hl => ?_
  rw [getElem_slice, copy, if_pos (by omega), Nat.add_sub_cancel_left, List.getD_eq_getElem?_getD,
    List.getElem?_eq_getElem hl, Option.getD_some]

theorem slice_copy_append (m : Memory) (a : Nat) (l : List UInt8) :
    slice (copy m a l) 0 (a + l.length) = slice m 0 a ++ l := by
  rw [slice_append, Nat.zero_add, slice_copy, slice_congr (copy_keeps (Or.inl (by omega)))]

/-! ## Byte by byte -/

/-- The `n` bytes at `a` are copied one by one until a transfer fails; the next one is number
`k`.  The flag tells whether all went through. -/
def transfer (src : Memory) (ok : Nat → Bool) : Nat → Nat → Nat → Memory → Memory × Bool
  | 0, _, _, dst => (dst, true)
  | n + 1, k, a, dst =>
    if ok k = true then transfer src ok n (k + 1) (a + 1) (update dst a (src a))
    else (dst, false)

section
variable {src : Memory} {ok : Nat → Bool}

theorem transfer_outside {b : Nat} (n k a : Nat) (dst : Memory) (h : b < a ∨ a + n ≤ b) :
    (transfer src ok n k a dst).1 b = dst b := by
  induction n generalizing k a dst with
  | zero => rfl
  | succ n ih =>
    rw [transfer]
    split
    · rw [ih _ _ _ (by omega), update_of_ne (by omega)]
    · rfl

theorem transfer_inside {b : Nat} (n k a : Nat) (dst : Memory)
    (hok : (transfer src ok n k a dst).2 = true) (hlow : a ≤ b) (hhigh : b < a + n) :
    (transfer src ok n k a dst).1 b = src b := by
  induction n generalizing k a dst with
  | zero => exact absurd hhigh (by omega)
  | succ n ih =>
    rw [transfer] at hok ⊢
    split at hok
    · next hk =>
      rw [if_pos hk]
      by_cases hb : b = a
      · subst hb
        rw [transfer_outside _ _ _ _ (by omega), update_self]
      · exact ih _ _ _ hok (by omega) (by omega)
    · cases hok

theorem transfer_ok (h : ∀ k, ok k = true) (n k a : Nat) (dst : Memory) :
    (transfer src ok n k a dst).2 = true := by
  induction n generalizing k a dst with
  | zero => rfl
  | succ n ih =>
    rw [transfer, if_pos (h k)]
    exact ih _ _ _

end

/-! ## Patches -/

/-- The `n` bytes from `a` on are those `src` gives. -/
def patch (m : Memory) (a n : Nat) (src : Memory) : Memory :=
  fun b => if a ≤ b ∧ b < a + n then src (b - a) else m b

theorem store_load (m src : Memory) (a b n : Nat) :
    store m a n (load src b n) = patch m a n fun i => src (b + i) := by
  induction n generalizing a b with
  | zero =>
    funext c
    exact (if_neg (by omega)).symm
  | succ n ih =>
    have hbyte := (src b).toNat_lt
    funext c
    rw [load, store, Nat.add_mul_div_left _ _ (by decide), Nat.div_eq_of_lt hbyte, Nat.zero_add, ih,
      update_apply, patch, patch]
    by_cases hc : c = a
    · rw [if_pos hc, if_pos (by omega), hc, Nat.sub_self, ← UInt8.toNat_inj, UInt8.toNat_ofNat',
        Nat.add_mul_mod_self_left, Nat.mod_eq_of_lt hbyte]
      rfl
    · rw [if_neg hc]
      by_cases hin : a + 1 ≤ c ∧ c < a + 1 + n
      · rw [if_pos hin, if_pos (by omega), show b + 1 + (c - (a + 1)) = b + (c - a) by omega]
      · rw [if_neg hin, if_neg (by omega)]

end Roswell.Verified.Bytes
