import Roswell.Ports.PageSupplyRelocate

/-!
# Histories of the page supply

The supply as a state machine: its operations are the labels, its states are
what some history of operations leads to from `NxkPageSupplyInitialize`.  The
only promise a caller makes is about `NxkPageSupplyReturn`, which must be given
a page of the table that is not free; every other operation takes any
arguments.
-/

namespace Roswell.Ports.PageSupply

open Verified.DoubleLink Verified.Runs Supply

/-- The operations of the supply with their arguments. -/
inductive Op where
  | giveBack (page : Nat)
  | takeAny
  | takeAnyOutside (low high : Nat)
  | takeSpecific (page : Nat)
  | takeRun (runPages lowPfn highPfn alignPages : Nat)
  | takeRunRelocate (runPages lowPfn highPfn alignPages : Nat)
  | setOwner (page pteVa : Nat)
  deriving DecidableEq, Repr

namespace Op

/-- What the caller of an operation promises. -/
def Admissible (s : Supply) : Op → Prop
  | giveBack page => 1 ≤ page ∧ page ≤ s.highestPfn ∧ s.free page = false
  | _ => True

instance (s : Supply) : DecidablePred (Admissible s)
  | .giveBack _ => inferInstanceAs (Decidable (_ ∧ _ ∧ _))
  | .takeAny | .takeAnyOutside .. | .takeSpecific .. | .takeRun .. | .takeRunRelocate ..
  | .setOwner .. => isTrue trivial

/-- The state after an operation. -/
def apply (s : Supply) : Op → Supply
  | giveBack page => s.nxkPageSupplyReturn page
  | takeAny => s.nxkPageSupplyTakeAny.1
  | takeAnyOutside low high => (s.nxkPageSupplyTakeAnyOutside low high).1
  | takeSpecific page => (s.nxkPageSupplyTakeSpecific page).1
  | takeRun runPages lowPfn highPfn alignPages =>
    (s.nxkPageSupplyTakeRun runPages lowPfn highPfn alignPages).1
  | takeRunRelocate runPages lowPfn highPfn alignPages =>
    (s.nxkPageSupplyTakeRunRelocate runPages lowPfn highPfn alignPages).1
  | setOwner page pteVa => s.nxkPageSupplySetOwner page pteVa

/-- Every caller of a history from `s` on keeps its promise. -/
def Allowed : Supply → List Op → Prop
  | _, [] => True
  | s, op :: ops => op.Admissible s ∧ Allowed (op.apply s) ops

instance decidableAllowed : ∀ s ops, Decidable (Allowed s ops)
  | _, [] => isTrue trivial
  | s, op :: ops =>
    have := decidableAllowed (op.apply s) ops
    inferInstanceAs (Decidable (_ ∧ _))

end Op

/-- One operation whose caller keeps its promise. -/
def Step (s : Supply) (op : Op) (t : Supply) : Prop :=
  op.Admissible s ∧ t = op.apply s

/-- The states some history leads to, on a machine with `highestPfn` as its
highest page. -/
def Reached (highestPfn : Nat) (retailShaped : Bool) : Supply → Prop :=
  Reachable (· = nxkPageSupplyInitialize highestPfn retailShaped) Step

theorem Reached.ops {highestPfn : Nat} {retailShaped : Bool} {s : Supply}
    (hs : Reached highestPfn retailShaped s) (ops : List Op) (h : Op.Allowed s ops) :
    Reached highestPfn retailShaped (ops.foldl Op.apply s) := by
  induction ops generalizing s with
  | nil => exact hs
  | cons op ops ih => exact ih (.next op hs ⟨h.1, rfl⟩) h.2

namespace Inv

variable {s t : Supply}

/-- The boot state: no page is free, and the hint starts at the first page. -/
theorem boot {highestPfn : Nat} (hfl : nxpGenericFloorPfn ≤ highestPfn)
    (hmax : highestPfn ≤ nxpPfnMask) (retailShaped : Bool) :
    Inv (nxkPageSupplyInitialize highestPfn retailShaped) := by
  have hfree : ∀ p,
      (nxkPageSupplyInitialize highestPfn retailShaped).free p = false := by
    intro p
    exact entryFree_of_lt (show 0 < 2 ^ 30 by decide)
  have hnone : (nxkPageSupplyInitialize highestPfn retailShaped).freePages = ∅ := by
    simp [freePages, hfree]
  refine
    { floor_le := hfl
      highest_lt := Nat.lt_succ_of_le hmax
      lists := ⟨[], [], ?_⟩
      available := ?_
      generic := ?_
      hint_low := ?_
      hint_pos := Nat.le_refl 1
      hint_le := ?_
      owner_lt := ?_
      kernel_floor := ?_ }
  · refine ⟨Threaded.nil _ _, Threaded.nil _ _, ?_, ?_, ?_, ?_⟩
    · simp
    · simp
    · simp [hfree]
    · simp [hfree]
  · rw [hnone]
    rfl
  · rw [genericPages, hnone]
    rfl
  · intro p hp
    rw [hfree] at hp
    contradiction
  · have : 1 ≤ nxpGenericFloorPfn := by decide
    exact Nat.le_trans this hfl
  · intro p _
    exact Nat.two_pow_pos 30
  · intro p hp
    cases retailShaped <;>
      simp [kernelClass, nxkPageSupplyInitialize, nxkHighZoneBasePfn,
        nxkKseg0RamPages] at hp <;>
      rw [nxpGenericFloorPfn] <;> omega

/-- What an operation does that names no page to return or to own: nothing, or a take of free
pages, or a relocation. -/
theorem apply_cases (h : Inv s) (op : Op) :
    (∃ page, op = .giveBack page) ∨ (∃ page pteVa, op = .setOwner page pteVa) ∨ op.apply s = s ∨
      (∃ base n, TookRun s (op.apply s) base n) ∨
      ∃ runPages lowPfn highPfn alignPages base hi moves,
        op = .takeRunRelocate runPages lowPfn highPfn alignPages ∧
        (∀ q, base ≤ q → q < hi → s.Takeable q) ∧
        Relocated s (op.apply s) base (base + runPages - 1) base hi moves := by
  cases op with
  | giveBack page => exact .inl ⟨page, rfl⟩
  | setOwner page pteVa => exact .inr (.inl ⟨page, pteVa, rfl⟩)
  | takeAny =>
    rcases h.takeAny_spec with ⟨-, hnone⟩ | htook
    · exact .inr (.inr (.inl (congrArg Prod.fst hnone)))
    · exact .inr (.inr (.inr (.inl ⟨_, 1, htook.1.run⟩)))
  | takeAnyOutside low high =>
    rcases h.takeAnyOutside_spec low high with ⟨-, hnone⟩ | ⟨page, hpage, htake, -⟩
    · exact .inr (.inr (.inl (congrArg Prod.fst hnone)))
    · rw [Op.apply, htake]
      exact .inr (.inr (.inr (.inl ⟨page, 1, (h.took (h.mem_destinations.1 hpage).1).run⟩)))
  | takeSpecific page =>
    rcases h.takeSpecific_spec page with hno | hyes
    · exact .inr (.inr (.inl (congrArg Prod.fst hno.2)))
    · rw [Op.apply, hyes.1]
      exact .inr (.inr (.inr (.inl ⟨page, 1, hyes.2.run⟩)))
  | takeRun runPages lowPfn highPfn alignPages =>
    rcases h.takeRun_spec runPages lowPfn highPfn alignPages with hnone | hyes
    · exact .inr (.inr (.inl (congrArg Prod.fst hnone)))
    · obtain ⟨t, base, hres, htook, -⟩ := hyes
      rw [Op.apply, hres]
      exact .inr (.inr (.inr (.inl ⟨base, runPages, htook⟩)))
  | takeRunRelocate runPages lowPfn highPfn alignPages =>
    generalize hu : s.nxkPageSupplyTakeRunRelocate runPages lowPfn highPfn alignPages = u
    rw [Op.apply, hu]
    rcases h.takeRunRelocate_spec hu with hnone | ⟨base, hi, -, -, -, hhi, htake, hreloc, -⟩
    · exact .inr (.inr (.inl hnone.1))
    · refine .inr (.inr (.inr (.inr ⟨_, _, _, _, base, hi, _, rfl, fun q h1 h2 => ?_, hreloc⟩)))
      exact htake q (inRun_iff.2 ⟨h1, by omega⟩)

/-- Every operation keeps the invariant. -/
theorem step (h : Inv s) {op : Op} (hst : Step s op t) : Inv t := by
  obtain ⟨hadm, rfl⟩ := hst
  rcases h.apply_cases op with ⟨page, rfl⟩ | ⟨page, pteVa, rfl⟩ | hsame | ⟨base, n, htook⟩ |
    ⟨_, _, _, _, _, _, _, -, -, hreloc⟩
  · exact h.giveBack (by have := hadm.1; omega) hadm.2.1 hadm.2.2
  · exact h.setOwner page pteVa
  · rw [hsame]
    exact h
  · exact htook.inv
  · exact hreloc.inv

/-- The invariant holds after every history. -/
theorem reached {highestPfn : Nat} (hfl : nxpGenericFloorPfn ≤ highestPfn)
    (hmax : highestPfn ≤ nxpPfnMask) {retailShaped : Bool}
    (h : Reached highestPfn retailShaped s) : Inv s := by
  refine Reachable.invariant ?_ (fun _ _ _ hs hst => hs.step hst) h
  rintro _ rfl
  exact boot hfl hmax retailShaped

end Inv

/-- Consistency of the supply after every history of operations.  The two free
lists are doubly linked lists over the table words; together they hold exactly
the free pages, each on the list of its physical-address class; and the two
counters and the spill hint agree with them. -/
theorem supply_consistent {highestPfn : Nat} (hfl : nxpGenericFloorPfn ≤ highestPfn)
    (hmax : highestPfn ≤ nxpPfnMask) {retailShaped : Bool} {s : Supply}
    (h : Reached highestPfn retailShaped s) :
    (∃ kernel title : List Nat,
      Threaded s.prevOf s.nextOf s.freeHeadKernel kernel ∧
      Threaded s.prevOf s.nextOf s.freeHeadTitle title ∧
      (∀ p, p ∈ kernel ↔ s.free p = true ∧ s.kernelClass p = true) ∧
      (∀ p, p ∈ title ↔ s.free p = true ∧ s.kernelClass p = false)) ∧
    s.availablePages = ((Finset.Icc 1 s.highestPfn).filter (fun p => s.free p = true)).card ∧
    s.genericAvail =
      ((Finset.Icc nxpGenericFloorPfn s.highestPfn).filter (fun p => s.free p = true)).card ∧
    ∀ p, s.free p = true → nxpGenericFloorPfn ≤ p → s.spillHint ≤ p := by
  have hinv := Inv.reached hfl hmax h
  refine ⟨?_, ?_, ?_, hinv.hint_low⟩
  · obtain ⟨kernel, title, hl⟩ := hinv.lists
    exact ⟨kernel, title, hl.kernel_list, hl.title_list, fun p => hl.mem (c := true),
      fun p => hl.mem (c := false)⟩
  · rw [hinv.available]
    congr 1
    ext p
    rw [hinv.mem_freePages, Finset.mem_filter, Finset.mem_Icc]
    constructor
    · exact fun hp => ⟨⟨Nat.pos_of_ne_zero (hinv.free_pos hp), hinv.free_le hp⟩, hp⟩
    · exact fun hp => hp.2
  · rw [hinv.generic]
    congr 1
    ext p
    rw [hinv.mem_genericPages, Finset.mem_filter, Finset.mem_Icc]
    constructor
    · exact fun hp => ⟨⟨hp.2, hinv.free_le hp.1⟩, hp.1⟩
    · exact fun hp => ⟨hp.2, hp.1.1⟩

/-- The supply of a two-zone machine after three returns and one relocating
take. -/
def sampleSupply : Supply :=
  [Op.giveBack 0x10, .giveBack 0x3400, .giveBack 5, .takeRunRelocate 1 0x3400 0x3400 1].foldl
    Op.apply (nxkPageSupplyInitialize 0x3FFF true)

theorem supply_consistent_sampleSupply :
    Reached 0x3FFF true sampleSupply ∧
      sampleSupply.genericAvail =
        ((Finset.Icc nxpGenericFloorPfn sampleSupply.highestPfn).filter
          (fun p => sampleSupply.free p = true)).card := by
  have h : Reached 0x3FFF true sampleSupply :=
    Reached.ops (.start rfl) _ (by decide)
  exact ⟨h, (supply_consistent (by decide) (by decide) h).2.2.1⟩

end Roswell.Ports.PageSupply
