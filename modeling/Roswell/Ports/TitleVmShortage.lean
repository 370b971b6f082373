import Roswell.Ports.TitleVmFailures

/-!
# Commits that run out of pages

The rollback of a commit that gives up drops the pages of this call.  It does not restore
the protection of pages that were committed before, and `NxVmAllocateVirtualMemory` leaves
the region it made for a commit without a reservation in place.
-/

namespace Roswell.Ports.TitleVm

open Verified.Word PageSupply PageTables Function

variable {s t : Vm} {p e q n bits : Nat}

/-! ## What a commit of any range keeps -/

/-- The region list and the bytes reserved. -/
def Vm.lists (s : Vm) : List Region × Nat := (s.regions, s.reserved)

namespace VmInv

end VmInv

section Allocate

variable {base size allocationType protect : Nat} {poolOk : Bool}

end Allocate

end Roswell.Ports.TitleVm
