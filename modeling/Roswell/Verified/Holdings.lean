import Mathlib.Logic.Basic

/-!
# Exclusive holdings

A family of holders, each with a set of items.  `Held pinned hold` says that
every held item is `pinned` and that no item has two holders.  The rules below
are the ways such a family changes: the pinned items change but keep the held
ones, a holder is granted items that were not pinned before, the items of one
holder pass to another, and items are given up.
-/

namespace Roswell.Verified.Holdings

universe u v

variable {ι : Type u} {α : Type v}

/-- Every held item is pinned and has one holder. -/
structure Held (pinned : α → Prop) (hold : ι → α → Prop) : Prop where
  pinned : ∀ {i : ι} {a : α}, hold i a → pinned a
  apart : ∀ {i j : ι} {a : α}, hold i a → hold j a → i = j

namespace Held

variable {pinned pinned' : α → Prop} {hold hold' : ι → α → Prop}

/-- Nobody's holding grows, and what is still held is still pinned. -/
theorem shrink (h : Held pinned hold) (hsub : ∀ i a, hold' i a → hold i a)
    (hkeep : ∀ i a, hold' i a → pinned' a) : Held pinned' hold' := by
  refine ⟨fun {i a} hi => hkeep i a hi, ?_⟩
  intro i j a hi hj
  exact h.apart (hsub i a hi) (hsub j a hj)

/-- One holder receives items that were not pinned before. -/
theorem grant (h : Held pinned hold) (k : ι) (new : α → Prop)
    (hkeep : ∀ a, pinned a → pinned' a) (hfresh : ∀ a, new a → ¬pinned a)
    (hnew : ∀ a, new a → pinned' a)
    (hhold : ∀ i a, hold' i a → hold i a ∨ i = k ∧ new a) : Held pinned' hold' := by
  constructor
  · intro i a hi
    rcases hhold i a hi with hold | ⟨-, hn⟩
    · exact hkeep a (h.pinned hold)
    · exact hnew a hn
  intro i j a hi hj
  rcases hhold i a hi with hi | ⟨rfl, hni⟩
  · rcases hhold j a hj with hj | ⟨-, hnj⟩
    · exact h.apart hi hj
    · exact absurd (h.pinned hi) (hfresh a hnj)
  · rcases hhold j a hj with hj | ⟨rfl, -⟩
    · exact absurd (h.pinned hj) (hfresh a hni)
    · rfl

/-- The items of `i₀` pass to `k`. -/
theorem transfer (h : Held pinned hold) (i₀ k : ι)
    (hhold : ∀ i a, hold' i a → (i ≠ i₀ ∧ hold i a) ∨ i = k ∧ hold i₀ a) :
    Held pinned hold' := by
  constructor
  · intro i a hi
    rcases hhold i a hi with ⟨-, hold⟩ | ⟨-, hold⟩
    · exact h.pinned hold
    · exact h.pinned hold
  intro i j a hi hj
  rcases hhold i a hi with ⟨hi₀, hi⟩ | ⟨rfl, hi⟩
  · rcases hhold j a hj with ⟨-, hj⟩ | ⟨-, hj⟩
    · exact h.apart hi hj
    · exact absurd (h.apart hi hj) hi₀
  · rcases hhold j a hj with ⟨hj₀, hj⟩ | ⟨rfl, -⟩
    · exact absurd (h.apart hj hi) hj₀
    · rfl

end Held

end Roswell.Verified.Holdings
