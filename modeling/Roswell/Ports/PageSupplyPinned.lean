import Roswell.Ports.PageSupplyRuns

/-!
# Pages in use that nobody may relocate

A page in use with no owner entry leaves that state only when its holder
returns it or gives it an owner.  No take touches it: takes remove free pages
from the lists, and relocation moves pages that have an owner.
-/

namespace Roswell.Ports.PageSupply

/-- A page of the table that is in use and has no owner entry. -/
def Supply.Pinned (s : Supply) (page : Nat) : Prop :=
  page ≠ 0 ∧ page ≤ s.highestPfn ∧ s.links page = 0

/-- The page an operation writes by name. -/
def Op.Writes (page : Nat) : Op → Prop
  | .giveBack p => p = page
  | .setOwner p _ => p = page
  | _ => False

variable {s t : Supply} {p page : Nat}

namespace Supply.Pinned

theorem not_free (hp : s.Pinned p) : s.free p = false := by
  rw [Supply.free, hp.2.2]
  rfl

theorem not_takeable (hp : s.Pinned p) : ¬s.Takeable p := by
  rintro (hf | hl)
  · rw [hp.not_free] at hf
    contradiction
  · exact hl hp.2.2

end Supply.Pinned

theorem TookRun.pinned {base n : Nat} (h : TookRun s t base n) (hp : s.Pinned p) :
    t.Pinned p := by
  refine ⟨hp.1, ?_, ?_⟩
  · rw [h.highest]
    exact hp.2.1
  · rw [h.links p hp.not_free]
    exact hp.2.2

theorem Relocated.pinned {low high lo hi : Nat} {moves : List Supply.Move}
    (h : Relocated s t low high lo hi moves)
    (htake : ∀ q, lo ≤ q → q < hi → s.Takeable q) (hp : s.Pinned p) : t.Pinned p := by
  refine ⟨hp.1, ?_, ?_⟩
  · rw [h.highest]
    exact hp.2.1
  · rw [h.frame p hp.not_free (fun hin => hp.not_takeable (htake p hin.1 hin.2))]
    exact hp.2.2

namespace Inv

theorem return_pinned (h : Inv s) (h0 : page ≠ 0) (hf : s.free page = false)
    (hp : s.Pinned p) (hne : p ≠ page) : (s.nxkPageSupplyReturn page).Pinned p := by
  refine ⟨hp.1, ?_, ?_⟩
  · rw [return_highestPfn]
    exact hp.2.1
  · rw [h.return_links h0 hf hp.not_free hne]
    exact hp.2.2

/-- Only a return or an owner change that names the page ends the state. -/
theorem apply_pinned (h : Inv s) {op : Op} (hadm : op.Admissible s) (hp : s.Pinned p)
    (hw : ¬op.Writes p) : (op.apply s).Pinned p := by
  rcases h.apply_cases op with ⟨page, rfl⟩ | ⟨page, pteVa, rfl⟩ | hsame | ⟨base, n, htook⟩ |
    ⟨_, _, _, _, _, _, _, -, htake, hreloc⟩
  · exact h.return_pinned (by have := hadm.1; omega) hadm.2.2 hp (fun e => hw e.symm)
  · have hne : p ≠ page := fun e => hw e.symm
    rw [Op.apply, Supply.nxkPageSupplySetOwner]
    split
    · refine ⟨hp.1, hp.2.1, ?_⟩
      rw [Supply.setEntry_links, Function.update_of_ne hne]
      exact hp.2.2
    · exact hp
  · rw [hsame]
    exact hp
  · exact htook.pinned hp
  · exact hreloc.pinned htake hp

end Inv

/-! ## Runs that become pinned -/

/-- `t` is a later supply in which the run at `base` is pinned and was not
before, and every page that was pinned still is. -/
structure PinnedRun (s t : Supply) (base n : Nat) : Prop where
  inv : Inv t
  highest : t.highestPfn = s.highestPfn
  keep : ∀ q, s.Pinned q → t.Pinned q
  fresh : ∀ q, inRun base n q = true → ¬s.Pinned q
  run : ∀ q, inRun base n q = true → t.Pinned q

/-- A free run that was taken is a run in which nothing moved. -/
theorem TookRun.relocated {base n : Nat} (h : TookRun s t base n) :
    Relocated s t base (base + n - 1) base (base + n) [] where
  le := Nat.le_add_right _ _
  inv := h.inv
  highest := h.highest
  free_iff := by
    intro q
    rw [h.free, Bool.and_eq_true, Bool.not_eq_true', ← Bool.not_eq_true, inRun_iff, and_comm]
    simp
  run_links := fun q h1 h2 => h.links_run q (inRun_iff.2 ⟨h1, h2⟩)
  frame := fun q hq _ => h.links q hq
  dest := by simp
  source := by simp
  moved := by
    intro q h1 h2 hq
    rw [h.were_free q (inRun_iff.2 ⟨h1, h2⟩)] at hq
    contradiction
  dest_nodup := by simp
  page_nodup := by simp

/-! ## Returning a run -/

/-- `t` is `s` with the pages of a run back on the free lists. -/
structure Returned (s t : Supply) (base n : Nat) : Prop where
  inv : Inv t
  highest : t.highestPfn = s.highestPfn
  free : ∀ q, t.free q = (inRun base n q || s.free q)
  links : ∀ q, s.free q = false → inRun base n q = false → t.links q = s.links q

namespace Returned

variable {base n : Nat}

theorem keep (h : Returned s t base n) {q : Nat} (hq : s.Pinned q)
    (hout : inRun base n q = false) : t.Pinned q := by
  refine ⟨hq.1, ?_, ?_⟩
  · rw [h.highest]
    exact hq.2.1
  · rw [h.links q hq.not_free hout]
    exact hq.2.2

theorem nil (h : Inv s) (base : Nat) : Returned s s base 0 := by
  refine ⟨h, rfl, ?_, fun _ _ _ => rfl⟩
  intro q
  have hno : inRun base 0 q = false := by simp [inRun]
  rw [hno]
  rfl

/-- One more page at the front of the run. -/
theorem cons (h : Inv s) (hp : s.Pinned base)
    (hrest : Returned (s.nxkPageSupplyReturn base) t (base + 1) n) :
    Returned s t base (n + 1) := by
  have hin : ∀ q, inRun base (n + 1) q = (inRun (base + 1) n q || decide (q = base)) := by
    intro q
    rw [Bool.eq_iff_iff, inRun_iff, Bool.or_eq_true, inRun_iff, decide_eq_true_eq]
    omega
  have hfree : ∀ q, (s.nxkPageSupplyReturn base).free q = (decide (q = base) || s.free q) :=
    h.return_free hp.1 hp.2.1 hp.not_free
  refine ⟨hrest.inv, hrest.highest.trans (Inv.return_highestPfn s base), ?_, ?_⟩
  · intro q
    rw [hrest.free, hfree, hin, Bool.or_assoc]
  · intro q hq hout
    rw [hin, Bool.or_eq_false_iff, decide_eq_false_iff_not] at hout
    have hq' : (s.nxkPageSupplyReturn base).free q = false := by
      rw [hfree, decide_eq_false hout.2, hq]
      rfl
    rw [hrest.links q hq' hout.1, h.return_links hp.1 hp.not_free hq hout.2]

end Returned

end Roswell.Ports.PageSupply
