import Roswell.Verified.DoubleLink
import Roswell.Verified.Word

/-!
# The physical page supply

A model of `ntoskrnl/xb/mm/pagesupply.c` in its `NXK_MM_PHYS` configuration.
The per-page table `NxpLinks` is a function from page frame numbers to
thirty-two-bit words.  A word with bit 31 set is a free-list entry, holding the
previous page in bits 15 to 29 and the next page in bits 0 to 14; any other
word is the self-map index of the page-table entry that owns the page, with
zero for a page nobody may relocate.

Functions keep the source's names.  Loops are structurally recursive: an
ascending or descending counted loop recurses on the number of pages left, and
the two run scans carry a fuel argument that starts above the first candidate
base (every iteration lowers the base, so the fuel is never what ends them).

`NxkPageSupplyTakeRunRelocate` copies pages and rewrites page-table entries.
None of its supply decisions reads that memory, so the supply model returns the
relocations it performed, in order, and a memory model replays them.
-/

namespace Roswell.Ports.PageSupply

open Verified.Word

/-! ## Entry encoding -/

def nxpFree : Nat := 0x80000000
def nxpPfnMask : Nat := 0x00007FFF
def nxpPrevShift : Nat := 15

/-- Self-map address of the first page-table entry. -/
def nxpOwnerBase : Nat := 0xC0000000

/-- Pages below 64 KiB are pin-only. -/
def nxpGenericFloorPfn : Nat := 0x10

/-- Memory-map constants of `mm.h`, as page frame numbers. -/
def nxkHighZoneBasePfn : Nat := 0x03400000 / 4096
def nxkHighZoneLimitPfn : Nat := 0x03C00000 / 4096
def nxkKseg0RamPages : Nat := 0x04000000 / 4096

def nxpNext (e : Nat) : Nat := e &&& nxpPfnMask

def nxpPrev (e : Nat) : Nat := (e >>> nxpPrevShift) &&& nxpPfnMask

/-- `e & NXP_FREE` as a condition. -/
def entryFree (e : Nat) : Bool := e &&& nxpFree != 0

/-- `NXP_FREE | (prev << NXP_PREV_SHIFT) | next`. -/
def freeEntry (prev next : Nat) : Nat := nxpFree ||| (prev <<< nxpPrevShift) ||| next

/-- The owner form of a page-table entry address: `(PteVa - NXP_OWNER_BASE) >> 2`. -/
def ownerIndex (pteVa : Nat) : Nat := wsub pteVa nxpOwnerBase >>> 2

/-- The address an owner entry stands for: `NXP_OWNER_BASE + (entry << 2)`. -/
def ownerPteVa (entry : Nat) : Nat := wadd nxpOwnerBase (entry <<< 2 % 2 ^ 32)

/-! ## State -/

/-- The static variables of the supply, with `MmAvailablePages`. -/
structure Supply where
  links : Nat → Nat
  highestPfn : Nat
  freeHeadKernel : Nat
  freeHeadTitle : Nat
  kernelLowPfn : Nat
  kernelHighPfn : Nat
  spillHint : Nat
  genericAvail : Nat
  availablePages : Nat

namespace Supply

/-- `NxpLinks[page] = v`. -/
def setEntry (s : Supply) (page v : Nat) : Supply :=
  { s with links := Function.update s.links page v }

/-- The test of `NxpHeadFor`: the page is of the kernel-preferred class. -/
def kernelClass (s : Supply) (page : Nat) : Bool :=
  decide (s.kernelLowPfn ≤ page ∧ page ≤ s.kernelHighPfn)

/-- `*NxpHeadFor(page)`. -/
def nxpHeadFor (s : Supply) (page : Nat) : Nat :=
  if s.kernelClass page then s.freeHeadKernel else s.freeHeadTitle

/-- `*NxpHeadFor(page) = v`. -/
def setHeadFor (s : Supply) (page v : Nat) : Supply :=
  if s.kernelClass page then { s with freeHeadKernel := v }
  else { s with freeHeadTitle := v }

/-- `MmAvailablePages++`, and `NxpGenericAvail++` at or above the floor. -/
def countIn (s : Supply) (page : Nat) : Supply :=
  { s with
    availablePages := wadd s.availablePages 1
    genericAvail :=
      if nxpGenericFloorPfn ≤ page then wadd s.genericAvail 1 else s.genericAvail }

/-- `MmAvailablePages--`, and `NxpGenericAvail--` at or above the floor. -/
def countOut (s : Supply) (page : Nat) : Supply :=
  { s with
    availablePages := wsub s.availablePages 1
    genericAvail :=
      if nxpGenericFloorPfn ≤ page then wsub s.genericAvail 1 else s.genericAvail }

/-- The page's table word is a free-list entry. -/
def free (s : Supply) (page : Nat) : Bool := entryFree (s.links page)

def nxpPushHead (s : Supply) (page : Nat) : Supply :=
  let head := s.nxpHeadFor page
  let s₁ := s.setEntry page (nxpFree ||| head)
  let s₂ :=
    if head ≠ 0 then s₁.setEntry head (freeEntry page (nxpNext (s₁.links head))) else s₁
  (s₂.setHeadFor page page).countIn page

def nxpUnlink (s : Supply) (page : Nat) : Supply :=
  let prev := nxpPrev (s.links page)
  let next := nxpNext (s.links page)
  let s₁ :=
    if prev ≠ 0 then s.setEntry prev (freeEntry (nxpPrev (s.links prev)) next)
    else s.setHeadFor page next
  let s₂ :=
    if next ≠ 0 then s₁.setEntry next (freeEntry prev (nxpNext (s₁.links next))) else s₁
  (s₂.setEntry page 0).countOut page

/-- `retailShaped` is the answer of `NxkMmRetailShapedMap`.  The list heads and
counters are zero-initialised statics. -/
def nxkPageSupplyInitialize (highestPfn : Nat) (retailShaped : Bool) : Supply where
  links := fun _ => 0
  highestPfn := highestPfn
  freeHeadKernel := 0
  freeHeadTitle := 0
  kernelLowPfn := if retailShaped then nxkHighZoneBasePfn else nxkKseg0RamPages
  kernelHighPfn := if retailShaped then nxkHighZoneLimitPfn - 1 else highestPfn
  spillHint := 1
  genericAvail := 0
  availablePages := 0

/-! ## Single pages -/

/-- The spill scan of `NxkPageSupplyTakeAny`: the first free page at or above
`pfn`, or `0` once `NxpHighestPfn` has been tested. -/
def spillScan (s : Supply) : Nat → Nat → Nat
  | 0, _ => 0
  | fuel + 1, pfn =>
    if s.free pfn then pfn
    else if s.highestPfn ≤ pfn then 0
    else spillScan s fuel (pfn + 1)

def nxkPageSupplyTakeAny (s : Supply) : Supply × Nat :=
  if s.freeHeadKernel ≠ 0 then (s.nxpUnlink s.freeHeadKernel, s.freeHeadKernel)
  else if s.freeHeadTitle = 0 then (s, 0)
  else
    let start :=
      if s.spillHint < nxpGenericFloorPfn then nxpGenericFloorPfn else s.spillHint
    let pfn := s.spillScan (s.highestPfn + 1) start
    if pfn = 0 then (s, 0)
    else ({ s with spillHint := pfn }.nxpUnlink pfn, pfn)

def nxkPageSupplyReturn (s : Supply) (page : Nat) : Supply :=
  let s₁ := s.nxpPushHead page
  if page < s₁.spillHint then { s₁ with spillHint := page } else s₁

def nxkPageSupplySetOwner (s : Supply) (page pteVa : Nat) : Supply :=
  if 0 < page ∧ page ≤ s.highestPfn ∧ s.free page = false then
    s.setEntry page (if pteVa ≠ 0 then ownerIndex pteVa else 0)
  else s

/-- The page lies in `[low, high]`. -/
def inWindow (low high page : Nat) : Bool := decide (low ≤ page ∧ page ≤ high)

/-- The upward scan of `NxkPageSupplyTakeAnyOutside`, over `n` pages from
`pfn`. -/
def outsideScan (s : Supply) (low high : Nat) : Nat → Nat → Nat
  | 0, _ => 0
  | n + 1, pfn =>
    if s.free pfn ∧ inWindow low high pfn = false then pfn
    else outsideScan s low high n (pfn + 1)

/-- Walk one free list to the first page `p` accepts. -/
def walkList (s : Supply) (p : Nat → Bool) (head : Nat) : Nat :=
  Roswell.Verified.DoubleLink.walk (fun x => nxpNext (s.links x)) p
    (s.highestPfn + 1) head

def nxkPageSupplyTakeAnyOutside (s : Supply) (low high : Nat) : Supply × Nat :=
  let headPfn := s.freeHeadKernel
  if headPfn ≠ 0 ∧ inWindow low high headPfn = false then (s.nxpUnlink headPfn, headPfn)
  else
    let scanned := s.outsideScan low high (s.highestPfn + 1 - s.spillHint) s.spillHint
    if scanned ≠ 0 then (s.nxpUnlink scanned, scanned)
    else
      let kernel := s.walkList (fun p => !inWindow low high p) s.freeHeadKernel
      if kernel ≠ 0 then (s.nxpUnlink kernel, kernel)
      else
        let title := s.walkList
          (fun p => decide (nxpGenericFloorPfn ≤ p) && !inWindow low high p)
          s.freeHeadTitle
        if title ≠ 0 then (s.nxpUnlink title, title) else (s, 0)

def nxkPageSupplyIsFree (s : Supply) (page : Nat) : Bool :=
  if page = 0 ∨ s.highestPfn < page then false else s.free page

def nxkPageSupplyTakeSpecific (s : Supply) (page : Nat) : Supply × Bool :=
  if s.nxkPageSupplyIsFree page then (s.nxpUnlink page, true) else (s, false)

/-! ## Runs -/

/-- The window, alignment and first candidate base both run allocators compute
from their arguments; `none` is their early `return 0`. -/
structure RunRequest where
  runPages : Nat
  lowPfn : Nat
  alignPages : Nat
  firstBase : Nat

def runRequest (s : Supply) (runPages lowPfn highPfn alignPages : Nat) :
    Option RunRequest :=
  if runPages = 0 then none
  else
    let align := if alignPages = 0 then 1 else alignPages
    let high := if s.highestPfn < highPfn then s.highestPfn else highPfn
    let low := if lowPfn = 0 then 1 else lowPfn
    if high < low ∨ high - low + 1 < runPages then none
    else some ⟨runPages, low, align, alignDown (high - runPages + 1) align⟩

/-- The high-to-low check of one candidate, over its first `n` pages: the page
that is not free, if any. -/
def runMiss (s : Supply) (base : Nat) : Nat → Option Nat
  | 0 => none
  | i + 1 => if s.nxkPageSupplyIsFree (base + i) then runMiss s base i else some (base + i)

/-- The scan of `NxkPageSupplyTakeRun`: the base whose run is taken. -/
def runScan (s : Supply) (r : RunRequest) : Nat → Nat → Option Nat
  | 0, _ => none
  | fuel + 1, base =>
    if base < r.lowPfn then none
    else
      match s.runMiss base r.runPages with
      | none => some base
      | some failed =>
        if failed < r.runPages then none
        else runScan s r fuel (alignDown (failed - r.runPages) r.alignPages)

/-- `for (i = 0; i < n; i++) NxpUnlink(base + i)`. -/
def unlinkRun (s : Supply) (base : Nat) : Nat → Supply
  | 0 => s
  | n + 1 => (unlinkRun s base n).nxpUnlink (base + n)

def nxkPageSupplyTakeRun (s : Supply) (runPages lowPfn highPfn alignPages : Nat) :
    Supply × Nat :=
  match s.runRequest runPages lowPfn highPfn alignPages with
  | none => (s, 0)
  | some r =>
    match s.runScan r (r.firstBase + 1) r.firstBase with
    | none => (s, 0)
    | some base => (s.unlinkRun base r.runPages, base)

/-! ## Runs with relocation -/

/-- One page moved out of the window: its frame, its new frame, and the owner
entry whose page-table entry is retargeted. -/
structure Move where
  page : Nat
  dest : Nat
  owner : Nat
  deriving DecidableEq, Repr

/-- The high-to-low check of one candidate over its first `n` pages: the
immovable page that stopped it, or the numbers of free and movable pages. -/
def relocCount (s : Supply) (base : Nat) : Nat → Nat → Nat → Except Nat (Nat × Nat)
  | 0, freeInWindow, movable => .ok (freeInWindow, movable)
  | i + 1, freeInWindow, movable =>
    if s.free (base + i) then relocCount s base i (freeInWindow + 1) movable
    else if s.links (base + i) ≠ 0 then relocCount s base i freeInWindow (movable + 1)
    else .error (base + i)

/-- The scan of `NxkPageSupplyTakeRunRelocate`: the base whose run is taken. -/
def relocScan (s : Supply) (r : RunRequest) : Nat → Nat → Option Nat
  | 0, _ => none
  | fuel + 1, base =>
    if base < r.lowPfn then none
    else
      match s.relocCount base r.runPages 0 0 with
      | .error failed =>
        if failed < r.runPages then none
        else relocScan s r fuel (alignDown (failed - r.runPages) r.alignPages)
      | .ok (freeInWindow, movable) =>
        if wsub s.genericAvail freeInWindow < movable then
          if base < r.alignPages then none
          else
            let failed := base - r.alignPages + r.runPages
            if failed < r.runPages then none
            else relocScan s r fuel (alignDown (failed - r.runPages) r.alignPages)
        else some base

/-- The take loop of `NxkPageSupplyTakeRunRelocate` over the last `n` pages of
the run: free pages are unlinked, owned ones move to a page outside the run.
The flag is `false` when no destination was left. -/
def relocPages (base runPages : Nat) : Nat → Supply → Supply × Bool × List Move
  | 0, s => (s, true, [])
  | n + 1, s =>
    let page := base + (runPages - (n + 1))
    if s.free page then relocPages base runPages n (s.nxpUnlink page)
    else
      let pteVa := ownerPteVa (s.links page)
      match s.nxkPageSupplyTakeAnyOutside base (base + runPages - 1) with
      | (s₁, dest) =>
        if dest = 0 then (s₁, false, [])
        else
          let s₂ := (s₁.setEntry dest (ownerIndex pteVa)).setEntry page 0
          match relocPages base runPages n s₂ with
          | (s₃, done, moves) =>
            (s₃, done, ⟨page, dest, ownerIndex pteVa⟩ :: moves)

def nxkPageSupplyTakeRunRelocate (s : Supply)
    (runPages lowPfn highPfn alignPages : Nat) : Supply × Nat × List Move :=
  match s.runRequest runPages lowPfn highPfn alignPages with
  | none => (s, 0, [])
  | some r =>
    match s.relocScan r (r.firstBase + 1) r.firstBase with
    | none => (s, 0, [])
    | some base =>
      match relocPages base r.runPages r.runPages s with
      | (s', done, moves) => (s', if done then base else 0, moves)

end Supply

end Roswell.Ports.PageSupply
