import Mathlib.Data.List.Nodup

/-!
# Where a moved item is

Items move one after the other, each at most once, to places that are no item's.  `home` is the
place an item has after a list of moves.
-/

namespace Roswell.Verified.Moves

universe u

variable {α : Type u} [DecidableEq α]

/-- The place of `q` after the moves, given as pairs of an item and its new place. -/
def home (moves : List (α × α)) (q : α) : α := (moves.lookup q).getD q

variable {moves : List (α × α)} {q q' d : α}

theorem home_of_mem (h : (q, d) ∈ moves) (hnodup : (moves.map Prod.fst).Nodup) :
    home moves q = d := by
  unfold home
  induction moves with
  | nil => cases h
  | cons m moves ih =>
    obtain ⟨hnot, hnodup⟩ := List.nodup_cons.1 hnodup
    rw [List.lookup_cons]
    rcases List.mem_cons.1 h with rfl | h
    · rw [beq_self_eq_true]
      rfl
    · have hne : (q == m.1) = false := by
        rw [beq_eq_false_iff_ne]
        rintro rfl
        exact hnot (List.mem_map.2 ⟨_, h, rfl⟩)
      rw [hne]
      exact ih h hnodup

theorem home_of_not_mem (h : q ∉ moves.map Prod.fst) : home moves q = q := by
  unfold home
  rw [List.lookup_eq_none_iff.2]
  · rfl
  · intro m hm
    rw [bne_iff_ne]
    rintro rfl
    exact h (List.mem_map_of_mem hm)

/-- An item is where it was, or where one of the moves took it. -/
theorem home_cases (moves : List (α × α)) (hnodup : (moves.map Prod.fst).Nodup) (q : α) :
    (q ∉ moves.map Prod.fst ∧ home moves q = q) ∨ (q, home moves q) ∈ moves := by
  by_cases hmem : q ∈ moves.map Prod.fst
  · obtain ⟨⟨p, d⟩, hm, rfl⟩ := List.mem_map.1 hmem
    right
    rwa [home_of_mem hm hnodup]
  · exact Or.inl ⟨hmem, home_of_not_mem hmem⟩

/-- Two items are never in one place. -/
theorem home_inj (hfrom : (moves.map Prod.fst).Nodup) (hto : (moves.map Prod.snd).Nodup)
    (hq : q ∉ moves.map Prod.snd) (hq' : q' ∉ moves.map Prod.snd)
    (h : home moves q = home moves q') : q = q' := by
  rcases home_cases moves hfrom q with ⟨-, hsame⟩ | hm
  · rcases home_cases moves hfrom q' with ⟨-, hsame'⟩ | hm'
    · rwa [hsame, hsame'] at h
    · rw [← h, hsame] at hm'
      exact absurd (List.mem_map.2 ⟨_, hm', rfl⟩) hq
  · rcases home_cases moves hfrom q' with ⟨-, hsame'⟩ | hm'
    · rw [h, hsame'] at hm
      exact absurd (List.mem_map.2 ⟨_, hm, rfl⟩) hq'
    · exact congrArg Prod.fst (List.inj_on_of_nodup_map hto hm hm' h)

end Roswell.Verified.Moves
