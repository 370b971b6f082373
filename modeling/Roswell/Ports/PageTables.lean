import Roswell.Ports.PageSupplyRelocate

/-!
# Page tables over the page supply

One address space, seen through its self map: `pt i` is the page-table entry
at `0xC0000000 + 4 * i`.  The entry of a virtual page is found at the page's
number, and the entry of the page table that covers it, the page directory
entry, at `0xC0000` plus the number of its 4 MiB span.  The owner word of a
page in use is such an index.

A frame number is the entry shifted down by the page size, so the lemmas about
entries only distribute that shift over the masks of the source.
-/

namespace Roswell.Ports.PageTables

open Verified.Word PageSupply Function

def pageSize : Nat := 0x1000

/-- The page tables and the supply their frames come from. -/
structure Machine where
  pt : Nat → Nat
  supply : Supply

/-- Self-map index of the entry that maps `va`. -/
def pteIndex (va : Nat) : Nat := va >>> 12

/-- Self-map index of the page directory entry above `va`. -/
def pdeIndex (va : Nat) : Nat := 0xC0000 + va >>> 22

/-- The frame an entry holds: `entry >> PAGE_SHIFT`. -/
def frame (entry : Nat) : Nat := entry >>> 12

/-- `(Pfn << PAGE_SHIFT) | Bits`. -/
def mkEntry (pfn bits : Nat) : Nat := (pfn <<< 12) ||| bits

/-- `Entry & ~(PAGE_SIZE - 1)`. -/
def frameBits (entry : Nat) : Nat := entry &&& 0xFFFFF000

/-- The valid bit. -/
def present (entry : Nat) : Bool := entry &&& 0x001 != 0

namespace Machine

/-- Write the entry at a self-map index. -/
def setEntry (m : Machine) (index entry : Nat) : Machine :=
  { m with pt := update m.pt index entry }

/-- The page-table side of one relocation: `*Pte` is retargeted to the
destination with its low bits kept. -/
def retarget (pt : Nat → Nat) (move : Supply.Move) : Nat → Nat :=
  update pt move.owner (mkEntry move.dest (pt move.owner &&& 0xFFF))

/-- `NxkPageSupplyTakeRunRelocate` with its page-table writes. -/
def takeRunRelocate (m : Machine) (runPages lowPfn highPfn alignPages : Nat) :
    Machine × Nat :=
  match m.supply.nxkPageSupplyTakeRunRelocate runPages lowPfn highPfn alignPages with
  | (supply, base, moves) => (⟨moves.foldl retarget m.pt, supply⟩, base)

end Machine

/-! ## Entries -/

theorem ne_zero_of_frame {e : Nat} (h : frame e ≠ 0) : e ≠ 0 := by
  rintro rfl
  exact h rfl

theorem frame_mkEntry (pfn : Nat) {bits : Nat} (h : bits < 2 ^ 12) :
    frame (mkEntry pfn bits) = pfn := by
  unfold frame mkEntry
  rw [Nat.shiftRight_or_distrib, Nat.shiftLeft_shiftRight, Nat.shiftRight_eq_zero _ _ h,
    Nat.or_zero]

/-- The valid bit of an entry is that of its low bits. -/
theorem present_mkEntry (pfn bits : Nat) : present (mkEntry pfn bits) = present bits := by
  have hlow : pfn <<< 12 &&& 1 = 0 := by
    rw [Nat.shiftLeft_eq, Nat.and_one_is_mod]
    omega
  unfold present mkEntry
  rw [Nat.and_or_distrib_right, hlow, Nat.zero_or]

/-- A masked entry keeps its frame when the mask covers the frame bits. -/
theorem frame_and {e mask : Nat} (he : e < 2 ^ 32) (hmask : mask >>> 12 = 2 ^ 20 - 1) :
    frame (e &&& mask) = frame e := by
  have hlt : e >>> 12 < 2 ^ 20 := by
    rw [Nat.shiftRight_eq_div_pow]
    omega
  unfold frame
  rw [Nat.shiftRight_and_distrib, hmask, Nat.and_two_pow_sub_one_of_lt_two_pow hlt]

/-- Replacing the low bits of an entry keeps its frame. -/
theorem frame_reprotect {e bits : Nat} (he : e < 2 ^ 32) (h : bits < 2 ^ 12) :
    frame (frameBits e ||| bits) = frame e := by
  have hsplit : frame (frameBits e ||| bits) = frame (frameBits e) ||| bits >>> 12 :=
    Nat.shiftRight_or_distrib
  rw [hsplit, Nat.shiftRight_eq_zero _ _ h, Nat.or_zero]
  exact frame_and he rfl

theorem mkEntry_lt {pfn bits : Nat} (hp : pfn < 2 ^ 20) (hb : bits < 2 ^ 12) :
    mkEntry pfn bits < 2 ^ 32 := by
  refine Nat.or_lt_two_pow ?_ (Nat.lt_trans hb (by decide))
  rw [Nat.shiftLeft_eq]
  omega

theorem reprotect_lt {e bits : Nat} (hb : bits < 2 ^ 12) : frameBits e ||| bits < 2 ^ 32 :=
  Nat.or_lt_two_pow (Nat.and_lt_two_pow _ (by decide)) (Nat.lt_trans hb (by decide))

/-! ## Indices -/

/-- A page-aligned address, as its page number. -/
theorem pteIndex_mul (p : Nat) : pteIndex (p * pageSize) = p := by
  unfold pteIndex pageSize
  rw [Nat.shiftRight_eq_div_pow]
  omega

theorem pdeIndex_mul (p : Nat) : pdeIndex (p * pageSize) = 0xC0000 + p / 1024 := by
  unfold pdeIndex pageSize
  rw [Nat.shiftRight_eq_div_pow]
  omega

/-! ## Owner words -/

theorem ownerPteVa_ne_zero {i : Nat} (h : i < 2 ^ 20) : ownerPteVa i ≠ 0 := by
  unfold ownerPteVa nxpOwnerBase
  rw [wadd_eq, Nat.shiftLeft_eq]
  omega

/-- Recording an owner writes exactly the index of its entry. -/
theorem setOwner_entry {s : Supply} {page i : Nat} (h0 : 0 < page)
    (hle : page ≤ s.highestPfn) (hf : s.free page = false) (hi : i < 2 ^ 20) :
    s.nxkPageSupplySetOwner page (ownerPteVa i) = s.setEntry page i := by
  unfold Supply.nxkPageSupplySetOwner
  rw [if_pos ⟨h0, hle, hf⟩, if_pos (ownerPteVa_ne_zero hi),
    ownerIndex_ownerPteVa (Nat.lt_trans hi (by decide))]

theorem setOwner_none {s : Supply} {page : Nat} (h0 : 0 < page)
    (hle : page ≤ s.highestPfn) (hf : s.free page = false) :
    s.nxkPageSupplySetOwner page 0 = s.setEntry page 0 := by
  unfold Supply.nxkPageSupplySetOwner
  rw [if_pos ⟨h0, hle, hf⟩]
  rfl

/-- Whatever an owner word says, it does not make a page free. -/
theorem setOwner_free (s : Supply) (page pteVa q : Nat) :
    (s.nxkPageSupplySetOwner page pteVa).free q = s.free q := by
  unfold Supply.nxkPageSupplySetOwner
  split
  · rename_i hc
    have hlt : (if pteVa ≠ 0 then ownerIndex pteVa else 0) < 2 ^ 30 := by
      split
      · exact ownerIndex_lt pteVa
      · decide
    by_cases hq : q = page
    · rw [hq, hc.2.2, Supply.free, Supply.setEntry_links, update_self]
      exact entryFree_of_lt hlt
    · rw [Supply.free, Supply.setEntry_links, update_of_ne hq]
      rfl
  · rfl

theorem setOwner_highestPfn (s : Supply) (page pteVa : Nat) :
    (s.nxkPageSupplySetOwner page pteVa).highestPfn = s.highestPfn := by
  unfold Supply.nxkPageSupplySetOwner
  split
  · rfl
  · rfl

end Roswell.Ports.PageTables
