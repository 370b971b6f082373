import Roswell.Ports.ContigTable
import Roswell.Ports.FrameOwners
import Roswell.Ports.VmSteps
import Roswell.Verified.Holdings

/-!
# Title memory against the contiguous allocator

Title calls run under `NxvMutex` and touch page-table entries without the PFN
lock; a contiguous allocation holds the PFN lock, may move any page that has an
owner entry, and retargets that entry.  `Shared` interleaves the two, with each
page-table access of a title call and each section under the PFN lock as one
step.

A title call reads an entry, and later writes back a value made from it, or
returns the page it found there.  A relocation of that page in between is not
noticed.  `Act.Clear` is the condition that it does not happen: an allocation
asks for a window without the frame the title call is holding.  Title ranges
are also required to lie in the title's part of the address space.
-/

namespace Roswell.Ports.FrameRaces

open Verified.Word Verified.Runs Verified.Holdings PageSupply PageTables TitleVm VmSteps Function
open FrameOwners
open Contig (Request Window Allocation takeContiguous returnPages)

/-! ## The system -/

/-- One address space with the title call in progress.  `live` are the
contiguous allocations returned and not freed, `returning` those whose free has
not returned the pages yet. -/
structure Shared where
  mem : Machine
  pc : Pc
  live : List Allocation
  returning : List Allocation

namespace Shared

/-- The next step of the title call. -/
def vm (s : Shared) : Shared :=
  { s with mem := (vmStep s.mem s.pc).1, pc := (vmStep s.mem s.pc).2 }

/-- `NxMmAllocateContiguousMemoryEx` under the PFN lock, with the page-table
writes of its relocations. -/
def allocate (s : Shared) (r : Request) : Shared :=
  match r.window with
  | none => s
  | some w =>
    match takeContiguous s.mem.supply w with
    | (supply, base, moves) =>
      { s with
        mem := ⟨moves.foldl Machine.retarget s.mem.pt, supply⟩
        live :=
          if base = 0 then s.live else ⟨base, w.runPages, w.numberOfBytes⟩ :: s.live }

/-- The first half of `NxMmFreeContiguousMemory`. -/
def free (s : Shared) (a : Allocation) : Shared :=
  if a ∈ s.live then
    { s with live := s.live.filter (· ≠ a), returning := a :: s.returning }
  else s

/-- The second half: the pages go back under the PFN lock. -/
def giveBack (s : Shared) (a : Allocation) : Shared :=
  if a ∈ s.returning then
    { s with
      mem.supply := returnPages s.mem.supply (a.base * pageSize) a.pages
      returning := s.returning.filter (· ≠ a) }
  else s

end Shared

/-- Who holds a pinned page. -/
inductive Holder where
  | live (a : Allocation)
  | returning (a : Allocation)
  | vm
  deriving DecidableEq, Repr

def Shared.Holds (s : Shared) : Holder → Nat → Prop
  | .live a, p => a ∈ s.live ∧ a.Has p
  | .returning a, p => a ∈ s.returning ∧ a.Has p
  | .vm, p => s.pc.pinned = some p

inductive Act where
  | begin (call : VmCall)
  | vm
  | allocate (r : Request)
  | free (a : Allocation)
  | giveBack (a : Allocation)
  | foreign (op : Op)
  deriving DecidableEq, Repr

/-- A range as the public functions compute it: page aligned, with entry bits
from `NxvProtectToPte`. -/
structure Job.Formed (j : Job) : Prop where
  start : pageSize ∣ j.start
  stop : pageSize ∣ j.stop
  bits : EntryBits j.bits

/-- Other users of the supply relocate nothing, and return or set the owner of
only pages that are not in use here. -/
structure Foreign (s : Shared) (op : Op) : Prop where
  admissible : op.Admissible s.mem.supply
  noRelocation : ∀ runPages lowPfn highPfn alignPages,
    op ≠ .takeRunRelocate runPages lowPfn highPfn alignPages
  held : ∀ k p, op.Writes p → ¬s.Holds k p
  mapped : ∀ i p, TitleEntry i → op.Writes p → s.mem.pt i ≠ 0 → frame (s.mem.pt i) ≠ p
  watched : ∀ p, op.Writes p → s.pc.watched ≠ some p
  owner : ∀ p pteVa, op = .setOwner p pteVa → ¬TitleEntry (ownerIndex pteVa)

namespace Act

def Admissible (s : Shared) : Act → Prop
  | begin call => s.pc = .idle ∧ Job.Formed call.job
  | foreign op => Foreign s op
  | _ => True

def apply (s : Shared) : Act → Shared
  | begin call => { s with pc := call.start }
  | vm => s.vm
  | allocate r => s.allocate r
  | free a => s.free a
  | giveBack a => s.giveBack a
  | foreign op => { s with mem.supply := op.apply s.mem.supply }

/-- The condition on a step and the state before it. -/
def Clear (s : Shared) : Act → Prop
  | begin call => nxvLowest ≤ call.job.start ∧ call.job.stop ≤ nxvHighest
  | allocate r => ∀ w f, r.window = some w → s.pc.watched = some f →
      ¬(w.lowPfn ≤ f ∧ f ≤ w.highPfn)
  | _ => True

end Act

def Step (P : Shared → Act → Prop) (s : Shared) (a : Act) (t : Shared) : Prop :=
  a.Admissible s ∧ P s a ∧ t = a.apply s

/-- No title page mapped, no contiguous allocation, and no page owned by an
entry of the title range. -/
structure Boot (s : Shared) : Prop where
  supply : Inv s.mem.supply
  empty : ∀ i, TitleEntry i → s.mem.pt i = 0
  unowned : ∀ p i, TitleEntry i → ¬OwnedBy s.mem.supply p i
  idle : s.pc = .idle
  noLive : s.live = []
  noReturning : s.returning = []

def History (P : Shared → Act → Prop) : Shared → Prop := Reachable Boot (Step P)

/-! ## Positions in a range -/

/-- A formed range in the title's part of the address space. -/
structure Job.Ok (j : Job) : Prop extends Job.Formed j where
  low : nxvLowest ≤ j.start
  high : j.stop ≤ nxvHighest

/-- A page of the range. -/
structure Job.At (j : Job) (va : Nat) : Prop extends Job.Ok j where
  aligned : pageSize ∣ va
  ge : j.start ≤ va
  lt : va < j.stop

namespace Job.At

variable {j : Job} {va : Nat}

theorem page (h : Job.At j va) : ∃ p, va = p * pageSize ∧ TitlePage p := by
  obtain ⟨p, rfl⟩ := h.aligned
  refine ⟨p, Nat.mul_comm _ _, ?_⟩
  have h1 := h.low
  have h2 := h.high
  have h3 := h.ge
  have h4 := h.lt
  unfold nxvLowest at h1
  unfold nxvHighest at h2
  unfold pageSize at h3 h4
  constructor <;> omega

theorem title (h : Job.At j va) : TitlePage (pteIndex va) := by
  obtain ⟨p, rfl, hp⟩ := h.page
  rw [pteIndex_mul]
  exact hp

theorem pde (h : Job.At j va) : pdeIndex va = 0xC0000 + pteIndex va / 1024 := by
  obtain ⟨p, rfl, -⟩ := h.page
  rw [pteIndex_mul, pdeIndex_mul]

theorem table (h : Job.At j va) : 0xC0000 ≤ pdeIndex va ∧ pdeIndex va < 0xC0200 := by
  have hp := h.title.lt
  rw [h.pde]
  omega

theorem span (h : Job.At j va) : va >>> 22 = pteIndex va / 1024 := by
  obtain ⟨p, rfl, -⟩ := h.page
  rw [pteIndex_mul, Nat.shiftRight_eq_div_pow]
  unfold pageSize
  omega

theorem next (h : Job.At j va) : wadd va pageSize = va + pageSize := by
  have h1 := h.high
  have h2 := h.lt
  unfold nxvHighest at h1
  refine wadd_of_lt ?_
  unfold pageSize
  omega

/-- The next address of the loops is again a position of the range. -/
theorem step (h : Job.At j va) :
    pageSize ∣ wadd va pageSize ∧ j.start ≤ wadd va pageSize := by
  rw [h.next]
  exact ⟨(Nat.dvd_add_self_right).2 h.aligned, Nat.le_add_right_of_le h.ge⟩

/-- Two pages of the range, the first before the second's end. -/
theorem lt_or_eq {u : Nat} (hu : Job.At j u) (h : Job.At j va) (hlt : u < va + pageSize) :
    u < va ∨ u = va := by
  obtain ⟨p, rfl, -⟩ := h.page
  obtain ⟨q, rfl, -⟩ := hu.page
  rw [show pageSize = 4096 from rfl] at *
  omega

end Job.At

/-! ## What the call in progress relies on -/

/-- The pages of the range below `va` are committed. -/
def Committed (m : Machine) (j : Job) (va : Nat) : Prop :=
  ∀ u, Job.At j u → u < va → m.pt (pteIndex u) ≠ 0

/-- What earlier steps of the call established and no other party undoes. -/
def Pc.Ok (m : Machine) : Pc → Prop
  | .idle => True
  | .ensure j va => Job.At j va
  | .tableTake j va => Job.At j va ∧ m.pt (pdeIndex va) = 0
  | .tableWrite j va _ => Job.At j va ∧ m.pt (pdeIndex va) = 0
  | .tableOwner j va pfn => Job.At j va ∧ present (m.pt (pdeIndex va)) = true ∧
      frame (m.pt (pdeIndex va)) = pfn
  | .commitTest j va => Job.At j va ∧ present (m.pt (pdeIndex va)) = true
  | .commitRead j va => Job.At j va ∧ m.pt (pteIndex va) ≠ 0
  | .commitWrite j va old => Job.At j va ∧ old ≠ 0 ∧ m.pt (pteIndex va) = old
  | .pageTake j va => Job.At j va ∧ present (m.pt (pdeIndex va)) = true ∧ m.pt (pteIndex va) = 0
  | .pageWrite j va _ =>
    Job.At j va ∧ present (m.pt (pdeIndex va)) = true ∧ m.pt (pteIndex va) = 0
  | .pageOwner j va pfn => Job.At j va ∧ m.pt (pteIndex va) ≠ 0 ∧ frame (m.pt (pteIndex va)) = pfn
  | .freshTest j va => Job.At j va
  | .freshRead j va => Job.At j va ∧ m.pt (pteIndex va) ≠ 0
  | .freshWrite j va old => Job.At j va ∧ old ≠ 0 ∧ m.pt (pteIndex va) = old
  | .undoTable j va => Job.At j va
  | .undoTest j va => Job.At j va
  | .decommitTable j va => Job.At j va
  | .decommitTest j va => Job.At j va
  | .freeRead k va => Job.At k.job va ∧ m.pt (pteIndex va) ≠ 0
  | .freeClear k va pfn =>
    Job.At k.job va ∧ m.pt (pteIndex va) ≠ 0 ∧ frame (m.pt (pteIndex va)) = pfn
  | .freeReturn k va pfn =>
    Job.At k.job va ∧ m.pt (pteIndex va) = 0 ∧ OwnedBy m.supply pfn (pteIndex va)
  | .checkTable j va => Job.At j va ∧ Committed m j va
  | .checkTest j va => Job.At j va ∧ Committed m j va
  | .oldRead j => Job.Ok j ∧ Committed m j j.stop
  | .protectRead j va => Job.At j va ∧ Committed m j j.stop
  | .protectWrite j va old => Job.At j va ∧ Committed m j j.stop ∧ m.pt (pteIndex va) = old
  | .hintTable j va => Job.At j va
  | .hintTest j va => Job.At j va
  | .hintPresent j va => Job.At j va ∧ m.pt (pteIndex va) ≠ 0
  | .hintRead j va => Job.At j va ∧ m.pt (pteIndex va) ≠ 0
  | .hintWrite j va old => Job.At j va ∧ old ≠ 0 ∧ m.pt (pteIndex va) = old

/-- A point at which the call has no page in hand. -/
structure Next (m : Machine) (pc : Pc) : Prop where
  pinned : pc.pinned = none
  placed : pc.placed = none
  cleared : pc.cleared = none
  ok : Pc.Ok m pc

section

variable {m : Machine} {j : Job} {va : Nat}

theorem freshAt_next (hj : Job.Ok j) (hd : pageSize ∣ va) (hge : j.start ≤ va) :
    Next m (freshAt j va) := by
  unfold freshAt
  split_ifs with hlt
  · exact ⟨rfl, rfl, rfl, hj, hd, hge, hlt⟩
  · exact ⟨rfl, rfl, rfl, trivial⟩

theorem commitAt_next (hj : Job.Ok j) (hd : pageSize ∣ va) (hge : j.start ≤ va) :
    Next m (commitAt j va) := by
  unfold commitAt
  split_ifs with hlt
  · exact ⟨rfl, rfl, rfl, hj, hd, hge, hlt⟩
  · exact freshAt_next hj hj.start (Nat.le_refl _)

theorem undoAt_next (hj : Job.Ok j) (hd : pageSize ∣ va) (hle : va ≤ j.stop) :
    Next m (undoAt j va) := by
  unfold undoAt
  by_cases hlt : j.start < va
  · have hstart := hj.start
    have hhigh := hj.high
    unfold nxvHighest at hhigh
    have hsub : wsub va pageSize = va - pageSize := by
      refine wsub_of_le ?_ ?_
      · exact Nat.le_of_dvd (by omega) hd
      · omega
    have hstep : j.start + pageSize ≤ va := by
      obtain ⟨a, ha⟩ := hstart
      obtain ⟨b, hb⟩ := hd
      rw [show pageSize = 4096 from rfl] at *
      omega
    rw [if_pos hlt, hsub]
    refine ⟨rfl, rfl, rfl, hj, Nat.dvd_sub hd (Nat.dvd_refl _), Nat.le_sub_of_add_le hstep, ?_⟩
    rw [show pageSize = 4096 from rfl] at *
    omega
  · rw [if_neg hlt]
    exact ⟨rfl, rfl, rfl, trivial⟩

theorem decommitAt_next (hj : Job.Ok j) (hd : pageSize ∣ va) (hge : j.start ≤ va) :
    Next m (decommitAt j va) := by
  unfold decommitAt
  split_ifs with hlt
  · exact ⟨rfl, rfl, rfl, hj, hd, hge, hlt⟩
  · exact ⟨rfl, rfl, rfl, trivial⟩

theorem checkAt_next (hj : Job.Ok j) (hd : pageSize ∣ va) (hge : j.start ≤ va)
    (hc : Committed m j va) : Next m (checkAt j va) := by
  unfold checkAt
  split_ifs with hlt
  · exact ⟨rfl, rfl, rfl, ⟨hj, hd, hge, hlt⟩, hc⟩
  · exact ⟨rfl, rfl, rfl, hj, fun u hu hus => hc u hu (by omega)⟩

theorem protectAt_next (hj : Job.Ok j) (hd : pageSize ∣ va) (hge : j.start ≤ va)
    (hc : Committed m j j.stop) : Next m (protectAt j va) := by
  unfold protectAt
  split_ifs with hlt
  · exact ⟨rfl, rfl, rfl, ⟨hj, hd, hge, hlt⟩, hc⟩
  · exact ⟨rfl, rfl, rfl, trivial⟩

theorem hintAt_next (hj : Job.Ok j) (hd : pageSize ∣ va) (hge : j.start ≤ va) :
    Next m (hintAt j va) := by
  unfold hintAt
  split_ifs with hlt
  · exact ⟨rfl, rfl, rfl, hj, hd, hge, hlt⟩
  · exact ⟨rfl, rfl, rfl, trivial⟩

theorem resume_next {k : After} (h : Job.At k.job va) : Next m (k.resume va) := by
  cases k with
  | rollback j => exact undoAt_next h.toOk h.aligned (Nat.le_of_lt h.lt)
  | decommit j =>
    obtain ⟨hd, hge⟩ := h.step
    exact decommitAt_next h.toOk hd hge

theorem start_next {call : VmCall} (h : Job.Ok call.job) : Next m call.start := by
  have hge := Nat.le_refl call.job.start
  cases call with
  | commit j => exact commitAt_next h h.start hge
  | decommit j => exact decommitAt_next h h.start hge
  | protect j =>
    refine checkAt_next h h.start hge ?_
    intro u hu hlt
    exact absurd hu.ge (Nat.not_le.2 hlt)
  | setAddressProtect j => exact hintAt_next h h.start hge

/-- Rewriting an entry keeps what was committed. -/
theorem Committed.setEntry {stop i e : Nat} (h : Committed m j stop) (he : e ≠ 0) :
    Committed (m.setEntry i e) j stop := by
  intro u hu hlt
  by_cases hui : pteIndex u = i
  · rw [hui]
    show update m.pt i e i ≠ 0
    rw [update_self]
    exact he
  · show update m.pt i e (pteIndex u) ≠ 0
    rw [update_of_ne hui]
    exact h u hu hlt

end

/-- The call still relies on the same facts after other parties changed the
machine: no entry became zero, nonzero, absent or present, and the frame the
call carries stayed where it was. -/
theorem Pc.Ok.transfer {m m' : Machine} {pc : Pc} (h : Pc.Ok m pc)
    (hzero : ∀ i, TitleEntry i → (m'.pt i = 0 ↔ m.pt i = 0))
    (hpresent : ∀ i, TitleEntry i → present (m'.pt i) = present (m.pt i))
    (hwatched : ∀ i, TitleEntry i → pc.watched = some (frame (m.pt i)) → m'.pt i = m.pt i)
    (hpinned : ∀ i, TitleEntry i → pc.pinned = some (frame (m.pt i)) → m'.pt i = m.pt i)
    (hcleared : ∀ i p, TitleEntry i → pc.cleared = some (i, p) → OwnedBy m.supply p i →
      OwnedBy m'.supply p i) : Pc.Ok m' pc := by
  have hcommitted : ∀ {j stop}, Committed m j stop → Committed m' j stop := by
    intro j stop hc u hu hlt h0
    exact hc u hu hlt ((hzero _ (.inl hu.title)).1 h0)
  have hne : ∀ {j va}, Job.At j va → m.pt (pteIndex va) ≠ 0 → m'.pt (pteIndex va) ≠ 0 := by
    intro j va hat hne h0
    exact hne ((hzero _ (.inl hat.title)).1 h0)
  have hpde : ∀ {j va}, Job.At j va → present (m.pt (pdeIndex va)) = true →
      present (m'.pt (pdeIndex va)) = true := by
    intro j va hat hp
    rw [hpresent _ (.inr hat.table)]
    exact hp
  have hkept : ∀ {j va}, Job.At j va → pc.watched = some (frame (m.pt (pteIndex va))) →
      m'.pt (pteIndex va) = m.pt (pteIndex va) := fun hat => hwatched _ (.inl hat.title)
  cases pc with
  | idle => trivial
  | ensure j va | freshTest j va | undoTable j va | undoTest j va | decommitTable j va
  | decommitTest j va | hintTable j va | hintTest j va => exact h
  | tableTake j va | tableWrite j va pfn => exact ⟨h.1, (hzero _ (.inr h.1.table)).2 h.2⟩
  | tableOwner j va pfn =>
    obtain ⟨hat, hp, rfl⟩ := h
    exact ⟨hat, hpde hat hp, by rw [hpinned _ (.inr hat.table) rfl]⟩
  | commitTest j va => exact ⟨h.1, hpde h.1 h.2⟩
  | commitRead j va | freshRead j va | freeRead k va | hintPresent j va | hintRead j va =>
    exact ⟨h.1, hne h.1 h.2⟩
  | commitWrite j va old | freshWrite j va old | hintWrite j va old =>
    obtain ⟨hat, h0, rfl⟩ := h
    exact ⟨hat, h0, hkept hat rfl⟩
  | pageTake j va | pageWrite j va pfn =>
    exact ⟨h.1, hpde h.1 h.2.1, (hzero _ (.inl h.1.title)).2 h.2.2⟩
  | pageOwner j va pfn =>
    obtain ⟨hat, h0, rfl⟩ := h
    exact ⟨hat, hne hat h0, by rw [hpinned _ (.inl hat.title) rfl]⟩
  | freeClear k va pfn =>
    obtain ⟨hat, h0, rfl⟩ := h
    exact ⟨hat, hne hat h0, by rw [hkept hat rfl]⟩
  | freeReturn k va pfn =>
    obtain ⟨hat, h0, hown⟩ := h
    exact ⟨hat, (hzero _ (.inl hat.title)).2 h0, hcleared _ _ (.inl hat.title) rfl hown⟩
  | checkTable j va | checkTest j va | oldRead j | protectRead j va => exact ⟨h.1, hcommitted h.2⟩
  | protectWrite j va old =>
    obtain ⟨hat, hc, rfl⟩ := h
    exact ⟨hat, hcommitted hc, hkept hat rfl⟩

end Roswell.Ports.FrameRaces
