import Mathlib.Data.List.Basic

/-!
# Singly linked lists

A list threaded through a `next` function, with zero for the end.  The list is
determined by its head, and keeps being one when `next` changes away from it.
-/

namespace Roswell.Verified.SingleLink

/-- Following `next` from `head` gives the nodes of the list and then zero. -/
def Linked (next : Nat → Nat) : Nat → List Nat → Prop
  | head, [] => head = 0
  | head, a :: l => head = a ∧ a ≠ 0 ∧ Linked next (next a) l

/-- The nodes met by following `next`, as many as the fuel allows. -/
def walk (next : Nat → Nat) : Nat → Nat → List Nat
  | 0, _ => []
  | fuel + 1, head => if head = 0 then [] else head :: walk next fuel (next head)

variable {next next' : Nat → Nat} {head : Nat} {l : List Nat}

namespace Linked

theorem congr (h : Linked next head l) (he : ∀ a ∈ l, next' a = next a) :
    Linked next' head l := by
  induction l generalizing head with
  | nil => exact h
  | cons a l ih =>
    obtain ⟨rfl, hne, hrest⟩ := h
    refine ⟨rfl, hne, ?_⟩
    rw [he head List.mem_cons_self]
    exact ih hrest fun b hb => he b (List.mem_cons_of_mem head hb)

theorem unique {l' : List Nat} (h : Linked next head l) (h' : Linked next head l') : l = l' := by
  induction l generalizing head l' with
  | nil =>
    cases l' with
    | nil => rfl
    | cons b l' => exact absurd (h'.1.symm.trans h) h'.2.1
  | cons a l ih =>
    cases l' with
    | nil => exact absurd (h.1.symm.trans h') h.2.1
    | cons b l' =>
      obtain ⟨rfl, -, hrest⟩ := h
      obtain ⟨rfl, -, hrest'⟩ := h'
      rw [ih hrest hrest']

/-- A nonzero head is the first node. -/
theorem eq_cons (h : Linked next head l) (hne : head ≠ 0) :
    ∃ rest, l = head :: rest ∧ Linked next (next head) rest := by
  cases l with
  | nil => exact absurd h hne
  | cons a l =>
    obtain ⟨rfl, -, hrest⟩ := h
    exact ⟨l, rfl, hrest⟩

theorem head_mem (h : Linked next head l) (hne : head ≠ 0) : head ∈ l := by
  obtain ⟨rest, rfl, -⟩ := h.eq_cons hne
  exact List.mem_cons_self

/-- With enough fuel the walk meets the whole list. -/
theorem walk_eq (h : Linked next head l) {fuel : Nat} (hfuel : l.length ≤ fuel) :
    walk next fuel head = l := by
  induction l generalizing head fuel with
  | nil =>
    cases fuel with
    | zero => rfl
    | succ fuel => exact if_pos h
  | cons a l ih =>
    obtain ⟨rfl, hne, hrest⟩ := h
    cases fuel with
    | zero => exact absurd hfuel (Nat.not_succ_le_zero _)
    | succ fuel =>
      rw [walk, if_neg hne, ih hrest (Nat.le_of_succ_le_succ hfuel)]

end Linked

end Roswell.Verified.SingleLink
