import Mathlib.Algebra.Order.BigOperators.Group.Finset

/-!
# Counting over threads

Finitely many threads, each in a local state, and a weight for each local state.  The
tally is the sum of the weights; when one thread moves it changes by the difference of
two weights.
-/

namespace Roswell.Verified.Tally

open Function

variable {T P : Type} [Fintype T]

/-- The sum of the weights of all threads. -/
def tally (w : P → Nat) (pc : T → P) : Nat := ∑ t, w (pc t)

variable {w : P → Nat} {pc : T → P}

theorem tally_const (w : P → Nat) (p : P) : tally w (fun _ : T => p) = Fintype.card T * w p := by
  unfold tally
  rw [Finset.sum_const_nat fun _ _ => rfl, Finset.card_univ]

theorem le_tally (w : P → Nat) (pc : T → P) (t : T) : w (pc t) ≤ tally w pc :=
  Finset.single_le_sum (f := fun t => w (pc t)) (fun _ _ => Nat.zero_le _) (Finset.mem_univ t)

theorem tally_add (w v : P → Nat) (pc : T → P) :
    tally (fun p => w p + v p) pc = tally w pc + tally v pc := Finset.sum_add_distrib

theorem tally_le_card (h : ∀ p, w p ≤ 1) : tally w pc ≤ Fintype.card T := by
  have hle : tally w pc ≤ ∑ _t : T, 1 := Finset.sum_le_sum fun t _ => h (pc t)
  rwa [Finset.sum_const_nat fun _ _ => rfl, Finset.card_univ, Nat.mul_one] at hle

variable [DecidableEq T]

/-- One thread moves. -/
theorem tally_update (w : P → Nat) (pc : T → P) (t : T) (p : P) :
    tally w (update pc t p) + w (pc t) = tally w pc + w p := by
  unfold tally
  rw [← Finset.add_sum_erase _ _ (Finset.mem_univ t),
    ← Finset.add_sum_erase (Finset.univ) (fun u => w (pc u)) (Finset.mem_univ t)]
  have hrest : ∑ u ∈ Finset.univ.erase t, w (update pc t p u) =
      ∑ u ∈ Finset.univ.erase t, w (pc u) := by
    refine Finset.sum_congr rfl fun u hu => ?_
    rw [update_of_ne (Finset.ne_of_mem_erase hu)]
  rw [hrest, update_self]
  omega

end Roswell.Verified.Tally
