import Mathlib.Data.List.Basic

/-!
# Folding a message block by block

A message is folded into a state in blocks of a fixed length; what is left at the
end is shorter than a block.  A message may be given in parts, each part put behind
what was left of the parts before it (`absorb_append`), which is what makes
streaming possible.
-/

namespace Roswell.Verified.Absorb

variable {α σ : Type}

/-- Fold the whole blocks of `l` into the state; the rest of `l` is returned. -/
def absorb (f : σ → List α → σ) (n : Nat) (s : σ) (l : List α) : σ × List α :=
  if _h : 0 < n ∧ n ≤ l.length then absorb f n (f s (l.take n)) (l.drop n) else (s, l)
termination_by l.length
decreasing_by
  rw [List.length_drop]
  omega

variable {f : σ → List α → σ} {n : Nat} {s : σ} {l : List α}

theorem absorb_short (h : l.length < n) : absorb f n s l = (s, l) := by
  rw [absorb, dif_neg (by omega)]

theorem absorb_long (hn : 0 < n) (h : n ≤ l.length) :
    absorb f n s l = absorb f n (f s (l.take n)) (l.drop n) := by
  rw [absorb, dif_pos ⟨hn, h⟩]

theorem absorb_append (hn : 0 < n) (s : σ) (l m : List α) :
    absorb f n s (l ++ m) = absorb f n (absorb f n s l).1 ((absorb f n s l).2 ++ m) := by
  fun_induction absorb f n s l with
  | case1 s l h ih =>
    rw [absorb_long hn (by rw [List.length_append]; omega), List.take_append_of_le_length h.2,
      List.drop_append_of_le_length h.2, ih]
  | case2 s l h => rfl

theorem absorb_rest_length (hn : 0 < n) (s : σ) (l : List α) :
    (absorb f n s l).2.length = l.length % n := by
  fun_induction absorb f n s l with
  | case1 s l h ih =>
    rw [ih, List.length_drop]
    exact (Nat.mod_eq_sub_mod h.2).symm
  | case2 s l h =>
    have hlt : l.length < n := by omega
    exact (Nat.mod_eq_of_lt hlt).symm

end Roswell.Verified.Absorb
