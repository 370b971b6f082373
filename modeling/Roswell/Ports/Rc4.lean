import Mathlib.Logic.Equiv.Basic

/-! # RC4: `rc4_init` and `rc4_crypt`, the masks with `0xff` as byte arithmetic -/

namespace Roswell.Ports.Rc4

open Function

abbrev Table := UInt8 → UInt8
structure Context where
  state : Table
  (x y : UInt8)

variable (key : Nat → UInt8) (len : Nat) {s : Table}

def exchange (s : Table) (i j : UInt8) : Table := update (update s i (s j)) j (s i)

theorem exchange_bij (hs : Bijective s) (i j : UInt8) : Bijective (exchange s i j) := by
  have h : exchange s i j = s ∘ Equiv.swap i j := by
    funext k
    simp only [exchange, update_apply, comp_apply, Equiv.swap_apply_def]
    split_ifs <;> simp_all
  exact h ▸ hs.comp (Equiv.swap i j).bijective

/-- The second loop of `rc4_init`. -/
def initLoop : Nat → UInt8 → Nat → UInt8 → Table → Table
  | 0, _, _, _, s => s
  | n + 1, i, k, j₀, s =>
    let j := j₀ + (key k + s i)
    initLoop n (i + 1) (if k + 1 ≥ len then 0 else k + 1) j (exchange s i j)

def rc4Init : Context := ⟨initLoop key len 256 0 0 0 id, 0, 0⟩

def Context.next (c : Context) : Context :=
  let x := c.x + 1
  let y := c.y + c.state x
  ⟨exchange c.state x y, x, y⟩

def rc4Crypt (c : Context) : List UInt8 → Context × List UInt8
  | [] => (c, [])
  | d :: data =>
    let r := rc4Crypt c.next data
    (r.1, (d ^^^ c.next.state (c.state c.next.x + c.state c.next.y)) :: r.2)

theorem initLoop_bij (n : Nat) (i k j) (hs : Bijective s) :
    Bijective (initLoop key len n i k j s) := by
  induction n generalizing i k j s with
  | zero => exact hs
  | succ n ih => exact ih _ _ _ (exchange_bij hs _ _)

/-- The table stays a permutation, and a second pass restores the data. -/
theorem rc4_restores (data : List UInt8) :
    Bijective (rc4Crypt (rc4Init key len) data).1.state ∧
      (rc4Crypt (rc4Init key len) (rc4Crypt (rc4Init key len) data).2).2 = data := by
  have h : Bijective (rc4Init key len).state := by
    simp only [rc4Init]
    exact initLoop_bij _ _ _ _ _ _ bijective_id
  generalize rc4Init key len = c at h ⊢
  induction data generalizing c with
  | nil => exact ⟨h, rfl⟩
  | cons d data ih =>
    have hr := ih c.next (exchange_bij h _ _)
    exact ⟨hr.1, by simp only [rc4Crypt, hr.2, UInt8.xor_assoc, UInt8.xor_self, UInt8.xor_zero]⟩

end Roswell.Ports.Rc4
