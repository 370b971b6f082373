import Roswell.Ports.TitleVm

/-!
# Title memory, one page-table access at a time

`NxvMutex` keeps the title's calls apart, but not the contiguous allocator,
which rewrites page-table entries under the PFN lock alone.  This module is the
model of `vm.c` at the grain at which the two meet: each read or write of a
page-table entry is one step, and so is each section under the PFN lock.

`Pc` says where the call in progress is and what it carries in registers.  The
loops are those of `NxvCommitRange` (with the second pass and the rollback),
`NxvDecommitRange`, `NxVmProtectVirtualMemory` and `NxVmSetAddressProtect`; the
region list is decided before them and needs no entry.  `NxvCommitted` is left
out: nothing here reads it.
-/

namespace Roswell.Ports.VmSteps

open Verified.Word PageSupply PageTables TitleVm

/-- The range a call works on, and the entry bits of its protection. -/
structure Job where
  start : Nat
  stop : Nat
  bits : Nat
  deriving DecidableEq, Repr

/-- Where `NxvFreePageAtPte` returns to. -/
inductive After where
  | rollback (j : Job)
  | decommit (j : Job)
  deriving DecidableEq, Repr

inductive Pc where
  | idle
  /-- `NxvEnsurePageTable` tests the page directory entry. -/
  | ensure (j : Job) (va : Nat)
  | tableTake (j : Job) (va : Nat)
  | tableWrite (j : Job) (va pfn : Nat)
  | tableOwner (j : Job) (va pfn : Nat)
  /-- `NxvCommitRange` tests the entry, and rewrites it or maps a page. -/
  | commitTest (j : Job) (va : Nat)
  | commitRead (j : Job) (va : Nat)
  | commitWrite (j : Job) (va old : Nat)
  | pageTake (j : Job) (va : Nat)
  | pageWrite (j : Job) (va pfn : Nat)
  | pageOwner (j : Job) (va pfn : Nat)
  /-- The second pass of `NxvCommitRange`. -/
  | freshTest (j : Job) (va : Nat)
  | freshRead (j : Job) (va : Nat)
  | freshWrite (j : Job) (va old : Nat)
  /-- The rollback of `NxvCommitRange`. -/
  | undoTable (j : Job) (va : Nat)
  | undoTest (j : Job) (va : Nat)
  /-- `NxvDecommitRange`. -/
  | decommitTable (j : Job) (va : Nat)
  | decommitTest (j : Job) (va : Nat)
  /-- `NxvFreePageAtPte`. -/
  | freeRead (k : After) (va : Nat)
  | freeClear (k : After) (va pfn : Nat)
  | freeReturn (k : After) (va pfn : Nat)
  /-- The two loops of `NxVmProtectVirtualMemory`. -/
  | checkTable (j : Job) (va : Nat)
  | checkTest (j : Job) (va : Nat)
  | oldRead (j : Job)
  | protectRead (j : Job) (va : Nat)
  | protectWrite (j : Job) (va old : Nat)
  /-- `NxVmSetAddressProtect`. -/
  | hintTable (j : Job) (va : Nat)
  | hintTest (j : Job) (va : Nat)
  | hintPresent (j : Job) (va : Nat)
  | hintRead (j : Job) (va : Nat)
  | hintWrite (j : Job) (va old : Nat)
  deriving Repr

/-! ## Loop heads -/

def freshAt (j : Job) (va : Nat) : Pc := if va < j.stop then .freshTest j va else .idle

/-- The head of the commit loop; the second pass follows it. -/
def commitAt (j : Job) (va : Nat) : Pc :=
  if va < j.stop then .ensure j va else freshAt j j.start

/-- The head of the rollback loop, which steps down first. -/
def undoAt (j : Job) (va : Nat) : Pc :=
  if j.start < va then .undoTable j (wsub va pageSize) else .idle

def decommitAt (j : Job) (va : Nat) : Pc := if va < j.stop then .decommitTable j va else .idle

/-- The head of the validation loop; the old protection is read after it. -/
def checkAt (j : Job) (va : Nat) : Pc := if va < j.stop then .checkTable j va else .oldRead j

def protectAt (j : Job) (va : Nat) : Pc := if va < j.stop then .protectRead j va else .idle

def hintAt (j : Job) (va : Nat) : Pc := if va < j.stop then .hintTable j va else .idle

/-- The calls that touch page tables. -/
inductive VmCall where
  | commit (j : Job)
  | decommit (j : Job)
  | protect (j : Job)
  | setAddressProtect (j : Job)
  deriving DecidableEq, Repr

def VmCall.job : VmCall → Job
  | .commit j => j
  | .decommit j => j
  | .protect j => j
  | .setAddressProtect j => j

def VmCall.start : VmCall → Pc
  | .commit j => commitAt j j.start
  | .decommit j => decommitAt j j.start
  | .protect j => checkAt j j.start
  | .setAddressProtect j => hintAt j j.start

def After.job : After → Job
  | .rollback j => j
  | .decommit j => j

/-- Go on after `NxvFreePageAtPte`. -/
def After.resume (k : After) (va : Nat) : Pc :=
  match k with
  | .rollback j => undoAt j va
  | .decommit j => decommitAt j (wadd va pageSize)

/-! ## Steps -/

/-- One step of the call in progress. -/
def vmStep (m : Machine) : Pc → Machine × Pc
  | .idle => (m, .idle)
  | .ensure j va =>
    (m, if present (m.pt (pdeIndex va)) then .commitTest j va else .tableTake j va)
  | .tableTake j va =>
    match m.supply.nxkPageSupplyTakeAny with
    | (supply, pfn) =>
      ({ m with supply := supply }, if pfn = 0 then undoAt j va else .tableWrite j va pfn)
  | .tableWrite j va pfn =>
    -- the page was zero filled: every entry of its span reads zero
    let pt := fun i => if i / 1024 = va >>> 22 then 0 else m.pt i
    ({ m with pt := Function.update pt (pdeIndex va) (mkEntry pfn (nxvPteP ||| nxvPteRw)) },
      .tableOwner j va pfn)
  | .tableOwner j va pfn =>
    ({ m with supply := m.supply.nxkPageSupplySetOwner pfn (ownerPteVa (pdeIndex va)) },
      .commitTest j va)
  | .commitTest j va => (m, if m.pt (pteIndex va) ≠ 0 then .commitRead j va else .pageTake j va)
  | .commitRead j va => (m, .commitWrite j va (m.pt (pteIndex va)))
  | .commitWrite j va old =>
    (m.setEntry (pteIndex va) (frameBits old ||| j.bits), commitAt j (wadd va pageSize))
  | .pageTake j va =>
    match m.supply.nxkPageSupplyTakeAny with
    | (supply, pfn) =>
      ({ m with supply := supply }, if pfn = 0 then undoAt j va else .pageWrite j va pfn)
  | .pageWrite j va pfn =>
    (m.setEntry (pteIndex va) (mkEntry pfn (j.bits ||| nxvPteFresh)), .pageOwner j va pfn)
  | .pageOwner j va pfn =>
    ({ m with supply := m.supply.nxkPageSupplySetOwner pfn (ownerPteVa (pteIndex va)) },
      commitAt j (wadd va pageSize))
  | .freshTest j va =>
    (m, if flagOn (m.pt (pteIndex va)) nxvPteFresh then .freshRead j va
      else freshAt j (wadd va pageSize))
  | .freshRead j va => (m, .freshWrite j va (m.pt (pteIndex va)))
  | .freshWrite j va old =>
    (m.setEntry (pteIndex va) (old &&& 0xFFFFFBFF), freshAt j (wadd va pageSize))
  | .undoTable j va =>
    (m, if present (m.pt (pdeIndex va)) then .undoTest j va else undoAt j va)
  | .undoTest j va =>
    (m, if flagOn (m.pt (pteIndex va)) nxvPteFresh then .freeRead (.rollback j) va
      else undoAt j va)
  | .decommitTable j va =>
    (m, if present (m.pt (pdeIndex va)) then .decommitTest j va
      else decommitAt j (wadd (wsub (roundUp (wadd va 1) 0x400000) pageSize) pageSize))
  | .decommitTest j va =>
    (m, if m.pt (pteIndex va) ≠ 0 then .freeRead (.decommit j) va
      else decommitAt j (wadd va pageSize))
  | .freeRead k va => (m, .freeClear k va (frame (m.pt (pteIndex va))))
  | .freeClear k va pfn => (m.setEntry (pteIndex va) 0, .freeReturn k va pfn)
  | .freeReturn k va pfn =>
    ({ m with supply := (m.supply.nxkPageSupplySetOwner pfn 0).nxkPageSupplyReturn pfn },
      k.resume va)
  | .checkTable j va => (m, if present (m.pt (pdeIndex va)) then .checkTest j va else .idle)
  | .checkTest j va =>
    (m, if m.pt (pteIndex va) ≠ 0 then checkAt j (wadd va pageSize) else .idle)
  | .oldRead j => (m, protectAt j j.start)
  | .protectRead j va => (m, .protectWrite j va (m.pt (pteIndex va)))
  | .protectWrite j va old =>
    (m.setEntry (pteIndex va) (frameBits old ||| j.bits), protectAt j (wadd va pageSize))
  | .hintTable j va =>
    (m, if present (m.pt (pdeIndex va)) then .hintTest j va else hintAt j (wadd va pageSize))
  | .hintTest j va =>
    (m, if m.pt (pteIndex va) ≠ 0 then .hintPresent j va else hintAt j (wadd va pageSize))
  | .hintPresent j va =>
    (m, if present (m.pt (pteIndex va)) then .hintRead j va else hintAt j (wadd va pageSize))
  | .hintRead j va => (m, .hintWrite j va (m.pt (pteIndex va)))
  | .hintWrite j va old =>
    (m.setEntry (pteIndex va) (frameBits old ||| j.bits), hintAt j (wadd va pageSize))

/-! ## What a program counter carries -/

namespace Pc

/-- The page taken off the supply whose owner is not recorded yet. -/
def pinned : Pc → Option Nat
  | .tableWrite _ _ pfn => some pfn
  | .tableOwner _ _ pfn => some pfn
  | .pageWrite _ _ pfn => some pfn
  | .pageOwner _ _ pfn => some pfn
  | _ => none

/-- The entry that already holds that page. -/
def placed : Pc → Option Nat
  | .tableOwner _ va _ => some (pdeIndex va)
  | .pageOwner _ va _ => some (pteIndex va)
  | _ => none

/-- The entry that was cleared before its page is returned, with the page. -/
def cleared : Pc → Option (Nat × Nat)
  | .freeReturn _ va pfn => some (pteIndex va, pfn)
  | _ => none

/-- The frame the call has read from an entry and will still write back or
return. -/
def watched : Pc → Option Nat
  | .commitWrite _ _ old => some (frame old)
  | .freshWrite _ _ old => some (frame old)
  | .protectWrite _ _ old => some (frame old)
  | .hintWrite _ _ old => some (frame old)
  | .freeClear _ _ pfn => some pfn
  | .freeReturn _ _ pfn => some pfn
  | _ => none

end Pc

end Roswell.Ports.VmSteps
