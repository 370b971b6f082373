import Mathlib.Algebra.Order.Ring.Nat
import Mathlib.Data.List.Nodup
import Mathlib.Data.List.Pairwise
import Mathlib.Data.List.Perm.Subperm

/-!
# Extents and the searches that place them

An allocator of consecutive slots hands out extents.  `Tiles` says that the
extents handed out are disjoint and that a slot is in use exactly when one of
them has it; handing out a hole and taking an extent back preserve this.

Two searches for a hole occur in C code.  `scanUp` tests one starting slot after
another.  `holeScan` walks the slots once and counts the free ones it has seen
in a row; the hole it finds is the lowest there is.
-/

namespace Roswell.Verified.Extents

structure Extent where
  start : Nat
  count : Nat
  deriving DecidableEq, Repr

namespace Extent

def Has (r : Extent) (i : Nat) : Prop := r.start ≤ i ∧ i < r.start + r.count

def Apart (a b : Extent) : Prop := a.start + a.count ≤ b.start ∨ b.start + b.count ≤ a.start

variable {a b : Extent} {i : Nat}

theorem Apart.symm (h : a.Apart b) : b.Apart a := Or.symm h

instance : Std.Symm Apart := ⟨fun _ _ h => h.symm⟩

theorem Apart.not_has (h : a.Apart b) (ha : a.Has i) : ¬b.Has i := by
  rintro ⟨h1, h2⟩
  obtain ⟨h3, h4⟩ := ha
  rcases h with h | h <;> omega

/-- Where neither is empty, the larger of the two starts would lie in both. -/
theorem Apart.of_disjoint (ha : 0 < a.count) (hb : 0 < b.count)
    (h : ∀ i, a.Has i → ¬b.Has i) : a.Apart b := by
  by_contra hc
  unfold Apart at hc
  exact h (max a.start b.start) ⟨by omega, by omega⟩ ⟨by omega, by omega⟩

end Extent

/-- The slots of `live`, pairwise disjoint, are exactly the used ones. -/
structure Tiles (live : List Extent) (used : Nat → Prop) : Prop where
  pos : ∀ r ∈ live, 0 < r.count
  apart : live.Pairwise Extent.Apart
  used_iff : ∀ i, used i ↔ ∃ r ∈ live, r.Has i

namespace Tiles

variable {live : List Extent} {used used' : Nat → Prop} {r : Extent}

theorem congr (h : Tiles live used) (he : ∀ i, used' i ↔ used i) : Tiles live used' :=
  ⟨h.pos, h.apart, fun i => (he i).trans (h.used_iff i)⟩

theorem nil (h : ∀ i, ¬used i) : Tiles [] used := by
  refine ⟨nofun, .nil, fun i => ⟨fun hi => absurd hi (h i), ?_⟩⟩
  rintro ⟨r, hr, -⟩
  contradiction

/-- An extent whose slots are all unused is handed out. -/
theorem cons (h : Tiles live used) (hpos : 0 < r.count) (hfree : ∀ i, r.Has i → ¬used i)
    (he : ∀ i, used' i ↔ r.Has i ∨ used i) : Tiles (r :: live) used' := by
  refine ⟨?_, ?_, ?_⟩
  · intro q hq
    rcases List.mem_cons.1 hq with rfl | hq
    · exact hpos
    · exact h.pos q hq
  · refine List.pairwise_cons.2 ⟨?_, h.apart⟩
    intro q hq
    refine .of_disjoint hpos (h.pos q hq) ?_
    intro i hi hqi
    exact hfree i hi ((h.used_iff i).2 ⟨q, hq, hqi⟩)
  · intro i
    rw [he, h.used_iff]
    simp only [List.mem_cons, exists_eq_or_imp]

theorem nodup (h : Tiles live used) : live.Nodup := by
  refine h.apart.imp_of_mem ?_
  rintro a b ha - hab rfl
  have := h.pos a ha
  unfold Extent.Apart at hab
  omega

theorem apart_of_ne (h : Tiles live used) {a b : Extent} (ha : a ∈ live) (hb : b ∈ live)
    (hne : a ≠ b) : a.Apart b :=
  h.apart.forall ha hb hne

theorem eq_of_has (h : Tiles live used) {a b : Extent} {i : Nat} (ha : a ∈ live) (hb : b ∈ live)
    (hai : a.Has i) (hbi : b.Has i) : a = b := by
  by_contra hne
  exact (h.apart_of_ne ha hb hne).not_has hai hbi

theorem eq_of_start (h : Tiles live used) {a b : Extent} (ha : a ∈ live) (hb : b ∈ live)
    (he : a.start = b.start) : a = b := by
  have h1 := h.pos a ha
  have h2 := h.pos b hb
  exact h.eq_of_has ha hb (i := a.start) ⟨by omega, by omega⟩ ⟨by omega, by omega⟩

theorem perm {live' : List Extent} (h : Tiles live used) (hp : live.Perm live') :
    Tiles live' used := by
  refine ⟨?_, hp.pairwise h.apart Extent.Apart.symm, ?_⟩
  · intro r hr
    exact h.pos r (hp.mem_iff.2 hr)
  · intro i
    rw [h.used_iff]
    simp only [hp.mem_iff]

/-- The first extent is taken back. -/
theorem tail (h : Tiles (r :: live) used) (he : ∀ i, used' i ↔ used i ∧ ¬r.Has i) :
    Tiles live used' := by
  obtain ⟨hfirst, hrest⟩ := List.pairwise_cons.1 h.apart
  refine ⟨fun q hq => h.pos q (List.mem_cons_of_mem r hq), hrest, ?_⟩
  intro i
  rw [he, h.used_iff]
  constructor
  · rintro ⟨⟨q, hq, hqi⟩, hri⟩
    rcases List.mem_cons.1 hq with rfl | hq
    · exact absurd hqi hri
    · exact ⟨q, hq, hqi⟩
  · rintro ⟨q, hq, hqi⟩
    exact ⟨⟨q, List.mem_cons_of_mem r hq, hqi⟩, fun hri => (hfirst q hq).not_has hri hqi⟩

/-- An extent is taken back. -/
theorem erase (h : Tiles live used) (hr : r ∈ live) (he : ∀ i, used' i ↔ used i ∧ ¬r.Has i) :
    Tiles (live.erase r) used' :=
  (h.perm (List.perm_cons_erase hr)).tail he

/-- Disjoint extents below a bound have at most that many slots. -/
theorem sum_le (h : Tiles live used) {n : Nat} (hn : ∀ r ∈ live, r.start + r.count ≤ n) :
    (live.map Extent.count).sum ≤ n := by
  have hslots : ∀ (r : Extent) (i : Nat), i ∈ List.range' r.start r.count ↔ r.Has i := by
    intro r i
    exact List.mem_range'_1
  have hnodup : (live.flatMap fun r => List.range' r.start r.count).Nodup := by
    refine List.nodup_flatMap.2 ⟨fun r _ => List.nodup_range', h.apart.imp ?_⟩
    intro a b hab i hia hib
    exact hab.not_has ((hslots a i).1 hia) ((hslots b i).1 hib)
  have hsub : (live.flatMap fun r => List.range' r.start r.count) ⊆ List.range n := by
    intro i hi
    obtain ⟨r, hr, hir⟩ := List.mem_flatMap.1 hi
    have := ((hslots r i).1 hir).2
    exact List.mem_range.2 (Nat.lt_of_lt_of_le this (hn r hr))
  have hlen := (List.subperm_of_subset hnodup hsub).length_le
  simpa [List.length_flatMap] using hlen

end Tiles

/-! ## Searching -/

/-- All slots of a run are free. -/
def Hole (free : Nat → Bool) (start count : Nat) : Prop :=
  ∀ i, start ≤ i → i < start + count → free i = true

/-- `for (probe = start; go(probe); probe++) if (hit(probe)) return probe;` -/
def scanUp (go hit : Nat → Bool) : Nat → Nat → Option Nat
  | 0, _ => none
  | fuel + 1, probe =>
    if go probe then
      if hit probe then some probe else scanUp go hit fuel (probe + 1)
    else none

theorem scanUp_some {go hit : Nat → Bool} {fuel start p : Nat}
    (h : scanUp go hit fuel start = some p) : go p = true ∧ hit p = true := by
  induction fuel generalizing start with
  | zero => exact absurd h nofun
  | succ fuel ih =>
    rw [scanUp] at h
    by_cases hgo : go start = true
    · rw [if_pos hgo] at h
      split_ifs at h with hhit
      · cases h
        exact ⟨hgo, hhit⟩
      · exact ih h
    · rw [if_neg hgo] at h
      exact absurd h nofun

/-- A scan that finds nothing has tested every slot its guard let it reach. -/
theorem scanUp_none {go hit : Nat → Bool} {fuel start p : Nat}
    (h : scanUp go hit fuel start = none) (hle : start ≤ p) (hlt : p < start + fuel)
    (hgo : ∀ q, start ≤ q → q ≤ p → go q = true) : hit p = false := by
  induction fuel generalizing start with
  | zero => omega
  | succ fuel ih =>
    rw [scanUp, if_pos (hgo start (Nat.le_refl _) hle)] at h
    by_cases hhit : hit start = true
    · rw [if_pos hhit] at h
      exact absurd h nofun
    · rw [if_neg hhit] at h
      by_cases hp : p = start
      · rw [hp]
        simpa using hhit
      · exact ih h (by omega) (by omega) (fun q hq => hgo q (by omega))

/-- Walk the slots, with the length and the start of the current run of free
ones. -/
def holeScan (free : Nat → Bool) (count : Nat) : Nat → Nat → Nat → Nat → Option Nat
  | 0, _, _, _ => none
  | fuel + 1, slot, runStart, run =>
    if free slot then
      let runStart := if run = 0 then slot else runStart
      if run + 1 = count then some runStart else holeScan free count fuel (slot + 1) runStart (run + 1)
    else holeScan free count fuel (slot + 1) runStart 0

/-- A run that has just grown is never empty, so nothing matches a count of
zero. -/
theorem holeScan_zero (free : Nat → Bool) (fuel slot runStart run : Nat) :
    holeScan free 0 fuel slot runStart run = none := by
  induction fuel generalizing slot runStart run with
  | zero => rfl
  | succ fuel ih =>
    rw [holeScan]
    split
    · exact ih _ _ _
    · exact ih _ _ _

/-- The hole found is the lowest from `low` on.  `base` is where the current run
starts; no hole starts below it. -/
theorem holeScan_lowest {free : Nat → Bool} {count low fuel slot runStart run base p : Nat}
    (h : holeScan free count fuel slot runStart run = some p) (hlow : low ≤ base)
    (hslot : base + run = slot) (hstart : run ≠ 0 → runStart = base) (hrun : run < count)
    (hfree : Hole free base run) (hnone : ∀ q, low ≤ q → q < base → ¬Hole free q count) :
    low ≤ p ∧ p + count ≤ slot + fuel ∧ Hole free p count ∧
      ∀ q, low ≤ q → q < p → ¬Hole free q count := by
  induction fuel generalizing slot runStart run base with
  | zero => exact absurd h nofun
  | succ fuel ih =>
    rw [holeScan] at h
    rw [Nat.add_comm fuel 1, ← Nat.add_assoc]
    by_cases hf : free slot = true
    · rw [if_pos hf] at h
      have hbase : (if run = 0 then slot else runStart) = base := by
        split_ifs with h0
        · omega
        · rw [hstart h0]
      have hmore : Hole free base (run + 1) := by
        intro i h1 h2
        by_cases hi : i = slot
        · rw [hi]
          exact hf
        · exact hfree i h1 (by omega)
      rw [hbase] at h
      split_ifs at h with hfit
      · cases h
        rw [hfit] at hmore
        exact ⟨hlow, by omega, hmore, hnone⟩
      · exact ih h hlow (by omega) (fun _ => rfl) (by omega) hmore hnone
    · rw [if_neg hf] at h
      -- a hole from the current run on would have to contain this slot
      have hpast : ∀ q, low ≤ q → q < slot + 1 → ¬Hole free q count := by
        intro q h1 h2 hq
        by_cases hqb : q < base
        · exact hnone q h1 hqb hq
        · exact hf (hq slot (by omega) (by omega))
      exact ih h (show low ≤ slot + 1 by omega) rfl (fun h0 => absurd rfl h0) (by omega)
        (fun i h1 h2 => by omega) hpast

end Roswell.Verified.Extents
