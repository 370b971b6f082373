import Mathlib.Data.Finset.Card
import Roswell.Verified.Extents

/-!
# Extents over blocks

Disjoint extents of bytes, seen through blocks of a fixed size: a block may be touched by
several extents, but then it is the first or the last block of each of them.  So a count
per block of the extents that begin or end there tells whether anything touches it.
-/

namespace Roswell.Verified.Blocks

open Extents

/-- Block `p` has a slot of the extent. -/
def Touches (B : Nat) (r : Extent) (p : Nat) : Prop :=
  0 < r.count ∧ r.start < (p + 1) * B ∧ p * B < r.start + r.count

/-- The first block of an extent. -/
def first (B : Nat) (r : Extent) : Nat := r.start / B

/-- The last block of an extent that is not empty. -/
def last (B : Nat) (r : Extent) : Nat := (r.start + r.count - 1) / B

/-- Block `p` is the first or the last one of the extent. -/
def Ends (B : Nat) (r : Extent) (p : Nat) : Prop := 0 < r.count ∧ (first B r = p ∨ last B r = p)

instance (B : Nat) (r : Extent) (p : Nat) : Decidable (Ends B r p) :=
  inferInstanceAs (Decidable (_ ∧ _))

section
variable {B : Nat} {a b r : Extent} {p : Nat}

theorem touches_iff (hB : 0 < B) :
    Touches B r p ↔ 0 < r.count ∧ first B r ≤ p ∧ p ≤ last B r := by
  unfold Touches first last
  refine and_congr_right fun hpos => and_congr ?_ ?_
  · rw [← Nat.div_lt_iff_lt_mul hB, Nat.lt_succ_iff]
  · rw [Nat.le_div_iff_mul_le hB]
    omega

theorem first_le_last (B : Nat) (hpos : 0 < r.count) : first B r ≤ last B r :=
  Nat.div_le_div_right (by omega)

theorem Ends.touches (hB : 0 < B) (h : Ends B r p) : Touches B r p := by
  obtain ⟨hpos, hends⟩ := h
  have hle := first_le_last B hpos
  rw [touches_iff hB]
  rcases hends with rfl | rfl
  · exact ⟨hpos, Nat.le_refl _, hle⟩
  · exact ⟨hpos, hle, Nat.le_refl _⟩

/-- An extent that shares a block with another one begins or ends there: it would fill a
block in its middle. -/
theorem ends_of_shared (hB : 0 < B) (hapart : a.Apart b) (ha : Touches B a p)
    (hb : Touches B b p) : Ends B a p := by
  by_contra hends
  obtain ⟨hpos, hlow, hhigh⟩ := (touches_iff hB).1 ha
  have hfirst : first B a < p := by
    refine Nat.lt_of_le_of_ne hlow fun heq => hends ⟨hpos, Or.inl heq⟩
  have hlast : p + 1 ≤ last B a := by
    refine Nat.lt_of_le_of_ne hhigh fun heq => hends ⟨hpos, Or.inr heq.symm⟩
  have hstart : a.start < p * B := (Nat.div_lt_iff_lt_mul hB).1 hfirst
  have hstop : (p + 1) * B ≤ a.start + a.count - 1 := (Nat.le_div_iff_mul_le hB).1 hlast
  obtain ⟨-, hbstart, hbstop⟩ := hb
  rcases hapart with hbefore | hafter <;> omega

end

section
variable {ι : Type} {B : Nat} {f : ι → Extent}

/-- Extents that are not empty do not overlap. -/
def Disjoint (f : ι → Extent) : Prop :=
  ∀ i j, i ≠ j → 0 < (f i).count → 0 < (f j).count → (f i).Apart (f j)

/-- No more disjoint extents than slots touch a block. -/
theorem card_touches_le (hB : 0 < B) (hapart : Disjoint f) {L : Finset ι} {p : Nat}
    (hL : ∀ i ∈ L, Touches B (f i) p) : L.card ≤ B := by
  have hmem : ∀ i ∈ L, max (f i).start (p * B) - p * B ∈ Finset.range B := by
    intro i hi
    obtain ⟨-, hstart, -⟩ := hL i hi
    rw [Nat.add_mul, Nat.one_mul] at hstart
    rw [Finset.mem_range]
    omega
  have hinj : Set.InjOn (fun i => max (f i).start (p * B) - p * B) L := by
    intro i hi j hj heq
    by_contra hij
    obtain ⟨-, -, hi'⟩ := hL i hi
    obtain ⟨-, -, hj'⟩ := hL j hj
    have hpos := (hL i hi).1
    have hpos' := (hL j hj).1
    dsimp only at heq
    rcases hapart i j hij hpos hpos' with hbefore | hafter <;> omega
  calc L.card ≤ (Finset.range B).card := Finset.card_le_card_of_injOn _ hmem hinj
    _ = B := Finset.card_range B

/-- How many of the extents begin or end in block `p`. -/
def endsAt (B : Nat) (f : ι → Extent) (L : Finset ι) (p : Nat) : Nat :=
  (L.filter fun i => Ends B (f i) p).card

variable {L : Finset ι} {i : ι} {p : Nat}

theorem endsAt_le (hB : 0 < B) (hapart : Disjoint f) (L : Finset ι)
    (p : Nat) : endsAt B f L p ≤ B :=
  card_touches_le hB hapart fun _ hi => (Finset.mem_filter.1 hi).2.touches hB

theorem endsAt_insert [DecidableEq ι] (hi : i ∉ L) (p : Nat) :
    endsAt B f (insert i L) p = endsAt B f L p + if Ends B (f i) p then 1 else 0 := by
  unfold endsAt
  rw [Finset.filter_insert]
  split
  · exact Finset.card_insert_of_notMem fun hmem => hi (Finset.mem_filter.1 hmem).1
  · rfl

theorem endsAt_erase [DecidableEq ι] (hi : i ∈ L) (p : Nat) :
    endsAt B f L p = endsAt B f (L.erase i) p + if Ends B (f i) p then 1 else 0 := by
  rw [← endsAt_insert (Finset.notMem_erase i L), Finset.insert_erase hi]

/-- A block in which none of the extents begins or ends, but some other extent does, is
touched by none of them. -/
theorem untouched_of_endsAt (hB : 0 < B) (hapart : Disjoint f)
    (hi : i ∉ L) (htouch : Touches B (f i) p) (hnone : endsAt B f L p = 0) :
    ∀ j ∈ L, ¬Touches B (f j) p := by
  intro j hj hjp
  have hji : j ≠ i := fun heq => hi (heq ▸ hj)
  have hends := ends_of_shared hB (hapart j i hji hjp.1 htouch.1) hjp htouch
  have hmem : j ∈ L.filter fun i => Ends B (f i) p := Finset.mem_filter.2 ⟨hj, hends⟩
  rw [Finset.card_eq_zero.1 hnone] at hmem
  exact absurd hmem (Finset.notMem_empty j)

/-- A block that is touched and in which an extent neither begins nor ends is touched by
this extent alone. -/
theorem untouched_of_not_ends (hB : 0 < B) (hapart : Disjoint f)
    (hi : i ∉ L) (htouch : Touches B (f i) p) (hnot : ¬Ends B (f i) p) :
    ∀ j ∈ L, ¬Touches B (f j) p := by
  intro j hj hjp
  have hij : i ≠ j := fun heq => hi (heq ▸ hj)
  exact hnot (ends_of_shared hB (hapart i j hij htouch.1 hjp.1) htouch hjp)

end

end Roswell.Verified.Blocks
