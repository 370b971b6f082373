import Roswell.Ports.PageTables

/-!
# The title virtual-memory manager

A model of `ntoskrnl/xb/mm/vm.c`.  The sorted region list records reservations;
committed state and protection live in the page tables.  Every call holds
`NxvMutex` from its first access to this state to its last, so a call is a
function from state to state.

Addresses and sizes are thirty-two-bit words: sums of caller-supplied values
wrap.  Loops over `[Start, End)` recurse on a count of pages with the source's
own loop test, so an `End` below `Start` runs no iteration.  A page table that
comes off the supply is zero filled; the contents of data pages are not part of
the model, and with them the difference between `NxkPageSupplyTakeZero` and
`NxkPageSupplyTakeAny`.  Translation-buffer invalidations have no counterpart.

The pool allocation of a region record may fail.  Each call makes at most one,
and its outcome is the argument `poolOk`.
-/

namespace Roswell.Ports.TitleVm

open Verified.Word PageSupply PageTables

/-! ## Constants -/

def nxvLowest : Nat := 0x00010000
def nxvHighest : Nat := 0x7FFE0000
def nxvGranularity : Nat := 0x00010000

def nxvPteP : Nat := 0x001
def nxvPteRw : Nat := 0x002
def nxvPtePwt : Nat := 0x008
def nxvPtePcd : Nat := 0x010
def nxvPteSwCommit : Nat := 0x800
def nxvPteFresh : Nat := 0x400

def memCommit : Nat := 0x1000
def memReserve : Nat := 0x2000
def memDecommit : Nat := 0x4000
def memRelease : Nat := 0x8000
def memReset : Nat := 0x80000
def memTopDown : Nat := 0x100000

def pageNoAccess : Nat := 0x01
def pageReadOnly : Nat := 0x02
def pageReadWrite : Nat := 0x04
def pageWriteCopy : Nat := 0x08
def pageExecute : Nat := 0x10
def pageExecuteRead : Nat := 0x20
def pageExecuteReadWrite : Nat := 0x40
def pageExecuteWriteCopy : Nat := 0x80
def pageGuard : Nat := 0x100
def pageNoCache : Nat := 0x200
def pageWriteCombine : Nat := 0x400

/-- A protection without its modifiers. -/
def pageKinds : Nat := 0xFFFFFFFF - (pageNoCache ||| pageWriteCombine ||| pageGuard)

/-- `Flags & Mask` as a condition. -/
def flagOn (flags mask : Nat) : Bool := flags &&& mask != 0

inductive Status where
  | success
  | invalidParameter
  | invalidPageProtection
  | noMemory
  | insufficientResources
  | conflictingAddresses
  | memoryNotAllocated
  | freeVmNotAtBase
  | unableToFreeVm
  | notCommitted
  deriving DecidableEq, Repr

/-! ## State -/

/-- `NXV_REGION`. -/
structure Region where
  base : Nat
  size : Nat
  allocProtect : Nat
  deriving DecidableEq, Repr

/-- `Base + Size`, as the source computes it. -/
def Region.limit (r : Region) : Nat := wadd r.base r.size

structure Vm where
  mem : Machine
  regions : List Region
  committed : Nat
  reserved : Nat

namespace Vm

/-- `NXV_PTE(Va)`. -/
def nxvPte (s : Vm) (va : Nat) : Nat := s.mem.pt (pteIndex va)

/-- `NXV_PDE(Va)`. -/
def nxvPde (s : Vm) (va : Nat) : Nat := s.mem.pt (pdeIndex va)

/-- `NXV_PTE(Va) = entry`. -/
def setPte (s : Vm) (va entry : Nat) : Vm :=
  { s with mem := s.mem.setEntry (pteIndex va) entry }

end Vm

/-! ## Protection mapping -/

def nxvCaching (protect : Nat) : Nat :=
  (if flagOn protect pageNoCache then nxvPtePcd else 0) |||
    (if flagOn protect pageWriteCombine then nxvPtePwt else 0)

/-- The switch of `NxvProtectToPte` on the protection without its modifiers
`PAGE_NOCACHE`, `PAGE_WRITECOMBINE` and `PAGE_GUARD`. -/
def nxvProtectToPte (protect : Nat) : Option Nat :=
  let caching := nxvCaching protect
  if flagOn caching nxvPtePcd ∧ flagOn caching nxvPtePwt then none
  else
    let kind := protect &&& pageKinds
    if kind = pageNoAccess then
      if caching ≠ 0 then none else some nxvPteSwCommit
    else if kind = pageReadOnly ∨ kind = pageExecute ∨ kind = pageExecuteRead then
      some (nxvPteP ||| caching)
    else if kind = pageReadWrite ∨ kind = pageWriteCopy ∨ kind = pageExecuteReadWrite ∨
        kind = pageExecuteWriteCopy then
      some (nxvPteP ||| nxvPteRw ||| caching)
    else none

def nxvPteToProtect (pte : Nat) : Nat :=
  if pte = 0 then 0
  else if flagOn pte nxvPteP = false then pageNoAccess
  else
    (if flagOn pte nxvPteRw then pageReadWrite else pageReadOnly) |||
      (if flagOn pte nxvPtePcd then pageNoCache else 0) |||
      (if flagOn pte nxvPtePwt then pageWriteCombine else 0)

/-! ## Page-table helpers -/

namespace Vm

/-- The flag is the `BOOLEAN` result.  A new page table is a zero-filled page:
every entry of its 4 MiB span reads zero afterwards. -/
def nxvEnsurePageTable (s : Vm) (va : Nat) : Vm × Bool :=
  if present (s.nxvPde va) then (s, true)
  else
    match s.mem.supply.nxkPageSupplyTakeAny with
    | (supply, pfn) =>
      if pfn = 0 then ({ s with mem := { s.mem with supply := supply } }, false)
      else
        let pt := fun i => if i / 1024 = va >>> 22 then 0 else s.mem.pt i
        ({ s with
            mem :=
              { pt := Function.update pt (pdeIndex va) (mkEntry pfn (nxvPteP ||| nxvPteRw))
                supply := supply.nxkPageSupplySetOwner pfn (ownerPteVa (pdeIndex va)) } },
          true)

def nxvFreePageAtPte (s : Vm) (va : Nat) : Vm :=
  let pfn := frame (s.nxvPte va)
  let s₁ := s.setPte va 0
  let supply := s₁.mem.supply.nxkPageSupplySetOwner pfn 0
  { s₁ with mem := { s₁.mem with supply := supply.nxkPageSupplyReturn pfn } }

end Vm

/-! ## Region list -/

/-- The region that holds `va`, with what precedes and follows it. -/
def nxvFindRegion : List Region → Nat → Option (List Region × Region × List Region)
  | [], _ => none
  | r :: rs, va =>
    if va < r.base then none
    else if va < r.limit then some ([], r, rs)
    else
      match nxvFindRegion rs va with
      | none => none
      | some (before, found, after) => some (r :: before, found, after)

def nxvRangeOverlapsRegion : List Region → Nat → Nat → Bool
  | [], _, _ => false
  | r :: rs, start, stop =>
    if stop ≤ r.base then false
    else if start < r.limit then true
    else nxvRangeOverlapsRegion rs start stop

/-- `InsertTailList` in front of the first region with a greater base. -/
def insertByBase (region : Region) : List Region → List Region
  | [] => [region]
  | r :: rs => if region.base < r.base then region :: r :: rs else r :: insertByBase region rs

def Vm.nxvInsertRegion (s : Vm) (region : Region) : Vm :=
  { s with
    regions := insertByBase region s.regions
    reserved := wadd s.reserved region.size }

/-- The bottom-up half of `NxvFindGap`. -/
def findGapUp (size : Nat) : Nat → List Region → Nat
  | cursor, [] => if wadd cursor size ≤ nxvHighest then cursor else 0
  | cursor, r :: rs =>
    if cursor ≤ r.base ∧ size ≤ r.base - cursor then cursor
    else if cursor < r.limit then findGapUp size (roundUp r.limit nxvGranularity) rs
    else findGapUp size cursor rs

/-- The top-down half of `NxvFindGap`, over the regions from the last one. -/
def findGapDown (size : Nat) : Nat → List Region → Nat
  | cursor, [] => if nxvLowest ≤ cursor then cursor else 0
  | cursor, r :: rs =>
    if r.limit ≤ cursor then (if nxvLowest ≤ cursor then cursor else 0)
    else if r.base < wadd size nxvLowest then 0
    else findGapDown size (roundDown (wsub r.base size) nxvGranularity) rs

def nxvFindGap (regions : List Region) (size : Nat) (topDown : Bool) : Nat :=
  if topDown then
    findGapDown size (roundDown (wsub nxvHighest size) nxvGranularity) regions.reverse
  else findGapUp size nxvLowest regions

/-! ## Commit and decommit -/

/-- The number of iterations of a page loop over `[start, stop)`. -/
def pageSpan (start stop : Nat) : Nat := (stop - start + (pageSize - 1)) / pageSize

/-- `(NXV_PTE(Va) & ~(PAGE_SIZE - 1)) | PteBits`. -/
def Vm.reprotect (s : Vm) (va bits : Nat) : Vm :=
  s.setPte va (frameBits (s.nxvPte va) ||| bits)

/-- The commit of one page: `true` to go on with the next page, `false` for
`goto rollback`. -/
def Vm.commitPage (s : Vm) (va bits : Nat) : Vm × Bool :=
  match s.nxvEnsurePageTable va with
  | (s₁, false) => (s₁, false)
  | (s₁, true) =>
    if s₁.nxvPte va ≠ 0 then (s₁.reprotect va bits, true)
    else
      match s₁.mem.supply.nxkPageSupplyTakeAny with
      | (supply, pfn) =>
        if pfn = 0 then ({ s₁ with mem := { s₁.mem with supply := supply } }, false)
        else
          let s₂ := s₁.setPte va (mkEntry pfn (bits ||| nxvPteFresh))
          ({ s₂ with
              committed := wadd s₂.committed pageSize
              mem :=
                { s₂.mem with
                  supply := supply.nxkPageSupplySetOwner pfn (ownerPteVa (pteIndex va)) } },
            true)

/-- The first loop of `NxvCommitRange`.  The address is the one the loop
stopped at, with `false` when it left through `goto rollback`. -/
def commitLoop (stop bits : Nat) : Nat → Vm → Nat → Vm × Nat × Bool
  | 0, s, va => (s, va, true)
  | n + 1, s, va =>
    if va < stop then
      match s.commitPage va bits with
      | (s₁, true) => commitLoop stop bits n s₁ (wadd va pageSize)
      | (s₁, false) => (s₁, va, false)
    else (s, va, true)

/-- The second loop, which takes the `NXV_PTE_FRESH` marks off. -/
def clearFresh (stop : Nat) : Nat → Vm → Nat → Vm
  | 0, s, _ => s
  | n + 1, s, va =>
    if va < stop then
      let s₁ :=
        if flagOn (s.nxvPte va) nxvPteFresh then s.setPte va (s.nxvPte va &&& 0xFFFFFBFF)
        else s
      clearFresh stop n s₁ (wadd va pageSize)
    else s

/-- Give a committed page back: `NxvFreePageAtPte` and `NxvCommitted -= PAGE_SIZE`. -/
def Vm.dropPage (s : Vm) (va : Nat) : Vm :=
  let s₁ := s.nxvFreePageAtPte va
  { s₁ with committed := wsub s₁.committed pageSize }

/-- The rollback loop, downwards over `n` pages below `va`. -/
def rollback : Nat → Vm → Nat → Vm
  | 0, s, _ => s
  | n + 1, s, va =>
    let va₁ := wsub va pageSize
    let s₁ :=
      if present (s.nxvPde va₁) ∧ flagOn (s.nxvPte va₁) nxvPteFresh then s.dropPage va₁
      else s
    rollback n s₁ va₁

def Vm.nxvCommitRange (s : Vm) (start stop bits : Nat) : Vm × Status :=
  match commitLoop stop bits (pageSpan start stop) s start with
  | (s₁, _, true) => (clearFresh stop (pageSpan start stop) s₁ start, .success)
  | (s₁, va, false) => (rollback (pageSpan start va) s₁ va, .noMemory)

/-- The loop of `NxvDecommitRange`, which steps over the 4 MiB spans without a
page table. -/
def decommitLoop (stop : Nat) : Nat → Vm → Nat → Vm
  | 0, s, _ => s
  | n + 1, s, va =>
    if va < stop then
      if present (s.nxvPde va) = false then
        let va₁ := wsub (roundUp (wadd va 1) 0x400000) pageSize
        decommitLoop stop n s (wadd va₁ pageSize)
      else if s.nxvPte va ≠ 0 then decommitLoop stop n (s.dropPage va) (wadd va pageSize)
      else decommitLoop stop n s (wadd va pageSize)
    else s

def Vm.nxvDecommitRange (s : Vm) (start stop : Nat) : Vm :=
  decommitLoop stop (pageSpan start stop) s start

/-! ## Allocate -/

/-- The state after a call, its status, and the values left in
`*BaseAddress` and `*RegionSize`. -/
structure Outcome where
  vm : Vm
  status : Status
  base : Option Nat
  size : Option Nat

/-- Reserve `region`, and commit `[start, stop)` of it when `commit` is set; a
failed commit takes the region out again.  Unlinking the record that was just
inserted leaves the list as it was before. -/
def Vm.reserveRegion (s : Vm) (region : Region) (start stop bits : Nat) (commit poolOk : Bool) :
    Vm × Status :=
  if poolOk = false then (s, .insufficientResources)
  else
    let s₁ := s.nxvInsertRegion region
    if commit = false then (s₁, .success)
    else
      match s₁.nxvCommitRange start stop bits with
      | (s₂, .success) => (s₂, .success)
      | (s₂, status) =>
        ({ s₂ with
            regions := s.regions
            reserved := wsub s₂.reserved region.size }, status)

/-- `*BaseAddress == NULL`. -/
def Vm.allocateAnywhere (s : Vm) (regionSize allocationType protect bits : Nat)
    (poolOk : Bool) : Outcome :=
  let size := roundUp regionSize pageSize
  let start := nxvFindGap s.regions size (flagOn allocationType memTopDown)
  if start = 0 then ⟨s, .noMemory, some 0, some regionSize⟩
  else
    match s.reserveRegion ⟨start, size, protect⟩ start (wadd start size) bits
        (flagOn allocationType memCommit) poolOk with
    | (s₁, .success) => ⟨s₁, .success, some start, some size⟩
    | (s₁, status) => ⟨s₁, status, some 0, some regionSize⟩

/-- `MEM_RESERVE` with an explicit base. -/
def Vm.reserveAt (s : Vm) (base regionSize allocationType protect bits : Nat)
    (poolOk : Bool) : Outcome :=
  let start := roundDown base nxvGranularity
  let stop := roundUp (wadd base regionSize) pageSize
  if nxvRangeOverlapsRegion s.regions start stop then
    ⟨s, .conflictingAddresses, some base, some regionSize⟩
  else
    match s.reserveRegion ⟨start, wsub stop start, protect⟩ start stop bits
        (flagOn allocationType memCommit) poolOk with
    | (s₁, .success) => ⟨s₁, .success, some start, some (wsub stop start)⟩
    | (s₁, status) => ⟨s₁, status, some base, some regionSize⟩

/-- `MEM_COMMIT` with an explicit base: commit inside the region that holds the
base, or reserve the range first when no region does. -/
def Vm.commitAt (s : Vm) (base regionSize protect bits : Nat) (poolOk : Bool) : Outcome :=
  let start := roundDown base pageSize
  let stop := roundUp (wadd base regionSize) pageSize
  let finish := fun s₁ : Vm =>
    match s₁.nxvCommitRange start stop bits with
    | (s₂, .success) => (⟨s₂, .success, some start, some (wsub stop start)⟩ : Outcome)
    | (s₂, status) => ⟨s₂, status, some base, some regionSize⟩
  match nxvFindRegion s.regions start with
  | none =>
    let rStart := roundDown start nxvGranularity
    if nxvRangeOverlapsRegion s.regions rStart stop then
      ⟨s, .conflictingAddresses, some base, some regionSize⟩
    else if poolOk = false then ⟨s, .insufficientResources, some base, some regionSize⟩
    else finish (s.nxvInsertRegion ⟨rStart, wsub stop rStart, protect⟩)
  | some (_, region, _) =>
    if region.limit < stop then ⟨s, .conflictingAddresses, some base, some regionSize⟩
    else finish s

/-- The pointers `BaseAddress` and `RegionSize` are `none` when `NULL`. -/
def Vm.nxVmAllocateVirtualMemory (s : Vm) (baseAddress regionSize : Option Nat)
    (allocationType protect : Nat) (poolOk : Bool) : Outcome :=
  match baseAddress, regionSize with
  | some base, some size =>
    if size = 0 then ⟨s, .invalidParameter, baseAddress, regionSize⟩
    else if flagOn allocationType (memCommit ||| memReserve ||| memReset) = false then
      ⟨s, .invalidParameter, baseAddress, regionSize⟩
    else
      match nxvProtectToPte protect with
      | none => ⟨s, .invalidPageProtection, baseAddress, regionSize⟩
      | some bits =>
        if flagOn allocationType memReset then ⟨s, .success, baseAddress, regionSize⟩
        else if base = 0 then s.allocateAnywhere size allocationType protect bits poolOk
        else if base < nxvLowest ∨ nxvHighest ≤ base then
          ⟨s, .invalidParameter, baseAddress, regionSize⟩
        else if flagOn allocationType memReserve then
          s.reserveAt base size allocationType protect bits poolOk
        else s.commitAt base size protect bits poolOk
  | _, _ => ⟨s, .invalidParameter, baseAddress, regionSize⟩

/-! ## Free -/

/-- Carve `[start, stop)` out of the region between `before` and `after`. -/
def Vm.carve (s : Vm) (before : List Region) (region : Region) (after : List Region)
    (start stop : Nat) (poolOk : Bool) : Vm × Status :=
  let s₁ := { s with reserved := wsub s.reserved (wsub stop start) }
  if start = region.base ∧ stop = region.limit then
    ({ s₁ with regions := before ++ after }, .success)
  else if start = region.base then
    ({ s₁ with
        regions := before ++
          { region with base := stop, size := wsub region.size (wsub stop start) } :: after },
      .success)
  else if stop = region.limit then
    ({ s₁ with
        regions := before ++ { region with size := wsub start region.base } :: after },
      .success)
  else if poolOk = false then
    ({ s₁ with reserved := wadd s₁.reserved (wsub stop start) }, .insufficientResources)
  else
    let tail : Region := ⟨stop, wsub region.limit stop, region.allocProtect⟩
    let s₂ :=
      { s₁ with regions := before ++ { region with size := wsub start region.base } :: after }
    let s₃ := s₂.nxvInsertRegion tail
    ({ s₃ with reserved := wsub s₃.reserved tail.size }, .success)

def Vm.releaseRange (s : Vm) (before : List Region) (region : Region) (after : List Region)
    (base size start stop : Nat) (poolOk : Bool) : Outcome :=
  match (s.nxvDecommitRange start stop).carve before region after start stop poolOk with
  | (s₁, .success) => ⟨s₁, .success, some start, some (wsub stop start)⟩
  | (s₁, status) => ⟨s₁, status, some base, some size⟩

/-- `MEM_RELEASE`. -/
def Vm.release (s : Vm) (before : List Region) (region : Region) (after : List Region)
    (base size : Nat) (poolOk : Bool) : Outcome :=
  if size = 0 then
    if base ≠ region.base then ⟨s, .freeVmNotAtBase, some base, some size⟩
    else s.releaseRange before region after base size region.base region.limit poolOk
  else
    let start := roundDown base pageSize
    let stop := roundUp (wadd base size) pageSize
    if region.limit < stop then ⟨s, .unableToFreeVm, some base, some size⟩
    else s.releaseRange before region after base size start stop poolOk

/-- `MEM_DECOMMIT`. -/
def Vm.decommit (s : Vm) (region : Region) (base size : Nat) : Outcome :=
  let start := roundDown base pageSize
  let stop := if size = 0 then region.limit else roundUp (wadd base size) pageSize
  if region.limit < stop then ⟨s, .unableToFreeVm, some base, some size⟩
  else ⟨s.nxvDecommitRange start stop, .success, some start, some (wsub stop start)⟩

def Vm.nxVmFreeVirtualMemory (s : Vm) (baseAddress regionSize : Option Nat) (freeType : Nat)
    (poolOk : Bool) : Outcome :=
  match baseAddress, regionSize with
  | some base, some size =>
    if freeType &&& (memRelease ||| memDecommit) = 0 ∨
        freeType &&& (memRelease ||| memDecommit) = memRelease ||| memDecommit then
      ⟨s, .invalidParameter, baseAddress, regionSize⟩
    else
      match nxvFindRegion s.regions base with
      | none => ⟨s, .memoryNotAllocated, baseAddress, regionSize⟩
      | some (before, region, after) =>
        if flagOn freeType memRelease then s.release before region after base size poolOk
        else s.decommit region base size
  | _, _ => ⟨s, .invalidParameter, baseAddress, regionSize⟩

/-! ## Protect -/

/-- The validation loop of `NxVmProtectVirtualMemory`. -/
def allCommitted (s : Vm) (stop : Nat) : Nat → Nat → Bool
  | 0, _ => true
  | n + 1, va =>
    if va < stop then
      if present (s.nxvPde va) = false ∨ s.nxvPte va = 0 then false
      else allCommitted s stop n (wadd va pageSize)
    else true

/-- The update loop of `NxVmProtectVirtualMemory`. -/
def protectLoop (stop bits : Nat) : Nat → Vm → Nat → Vm
  | 0, s, _ => s
  | n + 1, s, va =>
    if va < stop then protectLoop stop bits n (s.reprotect va bits) (wadd va pageSize)
    else s

/-- The result carries the old protection, when one is reported. -/
def Vm.nxVmProtectVirtualMemory (s : Vm) (baseAddress regionSize : Option Nat)
    (newProtect : Nat) (oldProtect : Bool) : Outcome × Option Nat :=
  match baseAddress, regionSize with
  | some base, some size =>
    if oldProtect = false then (⟨s, .invalidParameter, baseAddress, regionSize⟩, none)
    else
      match nxvProtectToPte newProtect with
      | none => (⟨s, .invalidPageProtection, baseAddress, regionSize⟩, none)
      | some bits =>
        let start := roundDown base pageSize
        let stop := roundUp (wadd base size) pageSize
        if stop ≤ start then (⟨s, .invalidParameter, baseAddress, regionSize⟩, none)
        else
          match nxvFindRegion s.regions start with
          | none => (⟨s, .conflictingAddresses, baseAddress, regionSize⟩, none)
          | some (_, region, _) =>
            if region.limit < stop then
              (⟨s, .conflictingAddresses, baseAddress, regionSize⟩, none)
            else if allCommitted s stop (pageSpan start stop) start = false then
              (⟨s, .notCommitted, baseAddress, regionSize⟩, none)
            else
              (⟨protectLoop stop bits (pageSpan start stop) s start, .success, some start,
                  some (wsub stop start)⟩,
                some (nxvPteToProtect (s.nxvPte start)))
  | _, _ => (⟨s, .invalidParameter, baseAddress, regionSize⟩, none)

end Roswell.Ports.TitleVm
