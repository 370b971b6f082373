import Roswell.Ports.PageSupplyPinned
import Roswell.Ports.PageTables

/-!
# Contiguous memory and the GPU instance claim

A model of `ntoskrnl/xb/mm/contig.c` in its `NXK_MM_PHYS` configuration.  The
tracking table is a function from slots to entries, with the number of slots
beside it; a slot is free when its `Alias` is null.

Every function is cut where it gives up `NxContigLock`, so that a piece is what
runs as one step when several threads call in.  `System` puts the pieces
together: a program counter for each thread, and two ghost fields, the
allocations that were returned and not freed yet and the pages GPU instance
claims took from the supply.

`NxpReclaimEmptyBucketPages` and everything else that shares the page supply
(the pool, title memory) appears as operations on the supply that keep off the
pages held here.
-/

namespace Roswell.Ports.Contig

open Verified.Word Verified.Runs PageSupply Function
open PageTables (pageSize)

def pageShift : Nat := 12
def nxkKseg0Base : Nat := 0x80000000
def nxkKseg0RamSize : Nat := 0x04000000
def nxkNv2aInstanceBase : Nat := 0x03FE0000
def nxkNv2aInstanceBytes : Nat := 0x10000
def nxkNv2aHeapCeiling : Nat := 0x03FF0000
def maxUlongPtr : Nat := 0xFFFFFFFF
def nxkContigInitialSlots : Nat := 64

/-! ## The tracking table -/

/-- One `NXK_CONTIG_ENTRY`. -/
structure Entry where
  kseg0Alias : Nat
  pa : Nat
  paEnd : Nat
  size : Nat
  deriving DecidableEq, Repr

/-- A zeroed entry. -/
def Entry.blank : Entry := ⟨0, 0, 0, 0⟩

/-- The static variables of the tracking table, with the supply it draws on. -/
structure Tracking where
  supply : Supply
  table : Nat → Entry
  slots : Nat
  hint : Nat

namespace Tracking

/-- The loop of `NxpContigFindFreeSlotLocked` over its last `n` iterations. -/
def freeSlotScan (c : Tracking) : Nat → Nat → Option Nat
  | 0, _ => none
  | n + 1, slot =>
    if (c.table slot).kseg0Alias = 0 then some slot
    else freeSlotScan c n (if slot + 1 = c.slots then 0 else slot + 1)

/-- The slot found, or the number of slots when every one is taken. -/
def nxpContigFindFreeSlotLocked (c : Tracking) : Tracking × Nat :=
  match c.freeSlotScan c.slots c.hint with
  | some slot =>
    ({ c with hint := if slot + 1 < c.slots then slot + 1 else 0 }, slot)
  | none => (c, c.slots)

/-- The locked section of `NxpContigGrow`: copy into the zeroed replacement and
swap it in, unless somebody else grew the table first. -/
def nxpContigGrow (c : Tracking) (oldSlots : Nat) : Tracking :=
  if c.slots = oldSlots then
    { c with
      table := fun i => if i < oldSlots then c.table i else Entry.blank
      slots := oldSlots * 2 % 2 ^ 32
      hint := oldSlots }
  else c

def nxpRecordHeapContigLocked (c : Tracking) (slot kseg0Alias pa allocBytes requestSize : Nat) :
    Tracking :=
  { c with
    table := update c.table slot ⟨kseg0Alias, pa, wadd pa allocBytes, requestSize⟩ }

/-- The first slot whose entry has this `Alias`. -/
def findAlias (c : Tracking) (kseg0Alias : Nat) : Option Nat :=
  (List.range c.slots).find? fun i => (c.table i).kseg0Alias == kseg0Alias

/-- The locked section of `NxpHeapFree`: the entry found, which is cleared. -/
def clearAlias (c : Tracking) (kseg0Alias : Nat) : Tracking × Option Entry :=
  match c.findAlias kseg0Alias with
  | none => (c, none)
  | some i => ({ c with table := update c.table i Entry.blank }, some (c.table i))

def nxMmQueryAllocationSize (c : Tracking) (kseg0Alias : Nat) : Nat :=
  match c.findAlias kseg0Alias with
  | none => 0
  | some i => (c.table i).size

end Tracking

/-! ## Allocation -/

/-- The arguments of `NxMmAllocateContiguousMemoryEx` that it uses. -/
structure Request where
  numberOfBytes : Nat
  lowestAcceptableAddress : Nat
  highestAcceptableAddress : Nat
  alignment : Nat
  deriving DecidableEq, Repr

/-- What `NxMmAllocateContiguousMemoryEx` computes before it takes a slot. -/
structure Window where
  numberOfBytes : Nat
  allocBytes : Nat
  runPages : Nat
  lowPfn : Nat
  highPfn : Nat
  alignPages : Nat
  deriving DecidableEq, Repr

/-- `none` is the early `return NULL` of a request that rounds to nothing. -/
def Request.window (r : Request) : Option Window :=
  let allocBytes := alignDown (wadd r.numberOfBytes (pageSize - 1)) pageSize
  if allocBytes = 0 then none
  else
    let clamped :=
      if nxkKseg0RamSize - 1 < r.highestAcceptableAddress then nxkKseg0RamSize - 1
      else r.highestAcceptableAddress
    let highest :=
      if r.lowestAcceptableAddress < nxkNv2aInstanceBase ∧ nxkNv2aInstanceBase ≤ clamped then
        nxkNv2aInstanceBase - 1
      else clamped
    some
      { numberOfBytes := r.numberOfBytes
        allocBytes := allocBytes
        runPages := allocBytes >>> pageShift
        lowPfn := wadd r.lowestAcceptableAddress (pageSize - 1) >>> pageShift
        highPfn := wsub ((highest + 1) >>> pageShift) 1
        alignPages := if r.alignment ≤ pageSize then 1 else r.alignment >>> pageShift }

/-- The section under the PFN lock: a free run, or else one cleared by
relocation.  The base is `0` when neither is found. -/
def takeContiguous (s : Supply) (w : Window) : Supply × Nat × List Supply.Move :=
  match s.nxkPageSupplyTakeRun w.runPages w.lowPfn w.highPfn w.alignPages with
  | (s₁, base) =>
    if base = 0 then s₁.nxkPageSupplyTakeRunRelocate w.runPages w.lowPfn w.highPfn w.alignPages
    else (s₁, base, [])

/-- Record the run at `base` in `slot`. -/
def recordRun (c : Tracking) (w : Window) (slot base : Nat) : Tracking :=
  let pa := base <<< pageShift
  c.nxpRecordHeapContigLocked slot (nxkKseg0Base ||| pa) pa w.allocBytes w.numberOfBytes

/-- The loop of `NxpHeapFree` under the PFN lock, over `n` pages from `pa`. -/
def returnPages (s : Supply) (pa : Nat) : Nat → Supply
  | 0 => s
  | n + 1 => returnPages (s.nxkPageSupplyReturn (pa >>> pageShift)) (wadd pa pageSize) n

/-! ## The GPU instance claim -/

/-- The claim a request asks for: rounded up to pages and cut to the window. -/
def claimBytes (numberOfBytes : Nat) : Nat :=
  let claim := alignDown (wadd numberOfBytes (pageSize - 1)) pageSize
  if nxkNv2aInstanceBytes < claim then nxkNv2aInstanceBytes else claim

/-- The first page of a claim of this many bytes. -/
def claimLow (bytes : Nat) : Nat := nxkNv2aHeapCeiling >>> pageShift - bytes >>> pageShift

/-- One iteration of the growing loop: take the page, or relocate its user. -/
def claimPage (s : Supply) (page : Nat) : Supply × Bool :=
  match s.nxkPageSupplyTakeSpecific page with
  | (s₁, true) => (s₁, true)
  | (s₁, false) =>
    match s₁.nxkPageSupplyTakeRunRelocate 1 page page 1 with
    | (s₂, base, _) => (s₂, base != 0)

/-- The growing loop over `n` pages below `oldLow`, with the pages it took.  A
page that can not be taken is only logged. -/
def claimGrow (oldLow : Nat) : Nat → Supply → Supply × List Nat
  | 0, s => (s, [])
  | n + 1, s =>
    match claimPage s (oldLow - 1) with
    | (s₁, took) =>
      match claimGrow (oldLow - 1) n s₁ with
      | (s₂, pages) => (s₂, if took then (oldLow - 1) :: pages else pages)

/-- The shrinking loop over `n` pages from `oldLow`. -/
def claimShrink (s : Supply) (oldLow : Nat) : Nat → Supply
  | 0 => s
  | n + 1 => claimShrink (s.nxkPageSupplyReturn oldLow) (oldLow + 1) n

/-! ## Threads -/

/-- Where a thread is inside a call. -/
inductive Pc where
  | idle
  /-- At the head of the loop of `NxpContigTakeSlot`. -/
  | takeSlot (w : Window)
  /-- About to allocate a table twice as large. -/
  | grow (w : Window) (oldSlots : Nat)
  /-- In `NxpReclaimEmptyBucketPages`, with the slot found before. -/
  | reclaim (w : Window) (slot : Nat)
  /-- About to take the lock for the second attempt. -/
  | retry (w : Window) (slot : Nat)
  /-- In `NxpHeapFree`, with the entry cleared and its pages not returned. -/
  | returning (pa paEnd : Nat)
  deriving DecidableEq, Repr

/-- An allocation as its caller knows it. -/
structure Allocation where
  base : Nat
  pages : Nat
  size : Nat
  deriving DecidableEq, Repr

namespace Allocation

/-- The page belongs to the allocation. -/
def Has (a : Allocation) (page : Nat) : Prop := a.base ≤ page ∧ page < a.base + a.pages

/-- The address its caller was given. -/
def kseg0Alias (a : Allocation) : Nat := nxkKseg0Base + a.base * pageSize

/-- The table entry that describes the allocation. -/
def entry (a : Allocation) : Entry :=
  ⟨a.kseg0Alias, a.base * pageSize, (a.base + a.pages) * pageSize, a.size⟩

end Allocation

/-- The tracking table, the claim and the threads.  `live` and `taken` are
ghost fields: the allocations returned and not freed yet, and the pages that
claims took and did not return. -/
structure System where
  tracking : Tracking
  instanceBytes : Nat
  pcs : Nat → Pc
  live : List Allocation
  taken : List Nat

namespace System

def setPc (s : System) (t : Nat) (pc : Pc) : System :=
  { s with pcs := update s.pcs t pc }

/-- A successful take: the run is recorded in `slot` and returned. -/
def finish (s : System) (t : Nat) (w : Window) (slot base : Nat) (c : Tracking) : System :=
  { s with
    tracking := recordRun c w slot base
    live := ⟨base, w.runPages, w.numberOfBytes⟩ :: s.live
    pcs := update s.pcs t .idle }

/-- `NxMmAllocateContiguousMemoryEx` up to its first lock. -/
def call (s : System) (t : Nat) (r : Request) : System :=
  match s.pcs t with
  | .idle =>
    match r.window with
    | none => s
    | some w => s.setPc t (.takeSlot w)
  | _ => s

/-- One lock hold of `NxpContigTakeSlot`, with the take that follows it in the
same hold when a slot is found. -/
def take (s : System) (t : Nat) : System :=
  match s.pcs t with
  | .takeSlot w =>
    match s.tracking.nxpContigFindFreeSlotLocked with
    | (c, slot) =>
      if slot = c.slots then s.setPc t (.grow w c.slots)
      else
        match takeContiguous c.supply w with
        | (supply, base, _) =>
          let c' := { c with supply := supply }
          if base = 0 then { s with tracking := c' }.setPc t (.reclaim w slot)
          else s.finish t w slot base c'
  | _ => s

/-- The pool has no room for a larger table: the allocation fails. -/
def growFails (s : System) (t : Nat) : System :=
  match s.pcs t with
  | .grow _ _ => s.setPc t .idle
  | _ => s

/-- The larger table is swapped in, and the search for a slot starts again. -/
def growSwaps (s : System) (t : Nat) : System :=
  match s.pcs t with
  | .grow w oldSlots =>
    { s with tracking := s.tracking.nxpContigGrow oldSlots }.setPc t (.takeSlot w)
  | _ => s

/-- `NxpReclaimEmptyBucketPages` returns; `found` says that it freed pages. -/
def reclaimed (s : System) (t : Nat) (found : Bool) : System :=
  match s.pcs t with
  | .reclaim w slot => s.setPc t (if found then .retry w slot else .idle)
  | _ => s

/-- The second lock hold of an allocation, with the slot of the first. -/
def retry (s : System) (t : Nat) : System :=
  match s.pcs t with
  | .retry w slot =>
    match takeContiguous s.tracking.supply w with
    | (supply, base, _) =>
      let c := { s.tracking with supply := supply }
      if base = 0 then { s with tracking := c }.setPc t .idle
      else s.finish t w slot base c
  | _ => s

/-- The first lock hold of `NxpHeapFree`. -/
def free (s : System) (t kseg0Alias : Nat) : System :=
  match s.pcs t with
  | .idle =>
    match s.tracking.clearAlias kseg0Alias with
    | (_, none) => s
    | (c, some e) =>
      { s with
        tracking := c
        live := s.live.filter fun a => a.kseg0Alias ≠ kseg0Alias }.setPc t
          (if e.pa < e.paEnd then .returning e.pa e.paEnd else .idle)
  | _ => s

/-- The second lock hold of `NxpHeapFree`. -/
def giveBack (s : System) (t : Nat) : System :=
  match s.pcs t with
  | .returning pa paEnd =>
    { s with
      tracking.supply :=
        returnPages s.tracking.supply pa ((paEnd - pa + pageSize - 1) / pageSize) }.setPc t .idle
  | _ => s

/-- The pages a claim of `numberOfBytes` returns. -/
def claimReturns (s : System) (numberOfBytes : Nat) : List Nat :=
  let oldLow := claimLow s.instanceBytes
  let newLow := claimLow (claimBytes numberOfBytes)
  if numberOfBytes = maxUlongPtr then [] else List.range' oldLow (newLow - oldLow)

/-- `NxMmClaimGpuInstanceMemory`.  The largest size only asks for the current
claim. -/
def nxMmClaimGpuInstanceMemory (s : System) (numberOfBytes : Nat) : System :=
  if numberOfBytes = maxUlongPtr then s
  else
    let claim := claimBytes numberOfBytes
    let oldLow := claimLow s.instanceBytes
    let newLow := claimLow claim
    match claimGrow oldLow (oldLow - newLow) s.tracking.supply with
    | (supply, took) =>
      { s with
        tracking.supply := claimShrink supply oldLow (newLow - oldLow)
        instanceBytes := claim
        taken := (took ++ s.taken).filter fun p => p ∉ s.claimReturns numberOfBytes }

end System

/-! ## Steps -/

/-- Who holds a page. -/
inductive Holder where
  | live (a : Allocation)
  | thread (t : Nat)
  | claim
  deriving DecidableEq, Repr

/-- The pages a thread has taken out of the table and not returned yet. -/
def Pc.Has (pc : Pc) (page : Nat) : Prop :=
  match pc with
  | .returning pa paEnd => pa ≤ page * pageSize ∧ page * pageSize < paEnd
  | _ => False

def System.Holds (s : System) : Holder → Nat → Prop
  | .live a, page => a ∈ s.live ∧ a.Has page
  | .thread t, page => (s.pcs t).Has page
  | .claim, page => page ∈ s.taken

/-- The steps of the system. -/
inductive Act where
  | call (t : Nat) (r : Request)
  | take (t : Nat)
  | growFails (t : Nat)
  | growSwaps (t : Nat)
  | reclaimed (t : Nat) (found : Bool)
  | retry (t : Nat)
  | free (t kseg0Alias : Nat)
  | giveBack (t : Nat)
  | claim (numberOfBytes : Nat)
  | foreign (op : Op)
  deriving DecidableEq, Repr

namespace Act

/-- Other users of the supply return, and set the owner of, only pages that are
not held here. -/
def Admissible (s : System) : Act → Prop
  | foreign op =>
    op.Admissible s.tracking.supply ∧ ∀ h page, op.Writes page → ¬s.Holds h page
  | _ => True

def apply (s : System) : Act → System
  | call t r => s.call t r
  | take t => s.take t
  | growFails t => s.growFails t
  | growSwaps t => s.growSwaps t
  | reclaimed t found => s.reclaimed t found
  | retry t => s.retry t
  | free t kseg0Alias => s.free t kseg0Alias
  | giveBack t => s.giveBack t
  | claim numberOfBytes => s.nxMmClaimGpuInstanceMemory numberOfBytes
  | foreign op => { s with tracking.supply := op.apply s.tracking.supply }

end Act

/-- A step that meets the condition `P`. -/
def Step (P : System → Act → Prop) (s : System) (a : Act) (t : System) : Prop :=
  a.Admissible s ∧ P s a ∧ t = a.apply s

/-- Before the first call: an empty table of the initial size, no thread inside
a call, nothing claimed, and a supply after any history of its own. -/
structure Boot (s : System) : Prop where
  supply : Inv s.tracking.supply
  table : ∀ i, s.tracking.table i = Entry.blank
  slots : s.tracking.slots = nxkContigInitialSlots
  hint : s.tracking.hint = 0
  unclaimed : s.instanceBytes = 0
  idle : ∀ t, s.pcs t = .idle
  noLive : s.live = []
  noTaken : s.taken = []

/-- The states reached by histories whose steps all meet the condition `P`. -/
def History (P : System → Act → Prop) : System → Prop := Reachable Boot (Step P)

end Roswell.Ports.Contig
