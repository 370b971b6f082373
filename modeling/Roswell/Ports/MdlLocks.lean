import Roswell.Ports.PageSupplyPinned
import Roswell.Ports.PoolPages
import Roswell.Ports.TitleVm

/-!
# Frames locked for device transfers

`MmProbeAndLockPages` keeps the relocating allocator off a frame by clearing
its owner word, and `MmUnlockPages` recomputes that word from the page tables.
`NxPoolPagesSetMovable` writes the same words around cache transfers, and
`NxvFreePageAtPte` clears them before it returns a page.  No count stands
behind a cleared word.

Calls of any number of threads interleave where the source lets them.  A probe
of kernel addresses holds the PFN lock over its loop; a probe of title
addresses holds the working-set lock only, so its read of an entry and its
write of the owner word are two steps.  `NxvFreePageAtPte` clears the entry
before it takes the PFN lock.  The reference counts of the locked pages are
empty functions in this kernel and have no counterpart.
-/

namespace Roswell.Ports.MdlLocks

open Verified.Word Verified.Runs PageSupply PageTables Function
open PoolPages (nxppBase nxppPages)
open TitleVm (nxvLowest nxvHighest)

def mmHighestUserAddress : Nat := 0x7FFEFFFF

/-- `LIST_HEAD`, the mark of a page of an MDL that was not locked. -/
def listHead : Nat := 0xFFFFFFFF

/-- A page of an MDL: its address and the word of the page array. -/
structure Listed where
  va : Nat
  frame : Nat
  deriving DecidableEq, Repr

/-- The addresses of `n` pages from `va` up. -/
def pagesFrom (va n : Nat) : List Nat := (List.range n).map fun i => va + i * pageSize

/-- A sequence of `NxkPageSupplySetOwner` calls. -/
def setOwners (s : Supply) (writes : List (Nat × Nat)) : Supply :=
  writes.foldl (fun s w => s.nxkPageSupplySetOwner w.1 w.2) s

section Tables

variable (m : Machine)

def valid (va : Nat) : Bool := present (m.pt (pdeIndex va)) && present (m.pt (pteIndex va))

/-- `MI_IS_PAGE_WRITEABLE`. -/
def writeable (va : Nat) : Bool := m.pt (pteIndex va) &&& 0x002 != 0

/-- `MI_IS_PHYSICAL_ADDRESS`: the page directory entry maps a large page. -/
def physical (va : Nat) : Bool :=
  m.pt (pdeIndex va) &&& 0x080 != 0 && present (m.pt (pdeIndex va))

def frameAt (va : Nat) : Nat := frame (m.pt (pteIndex va))

/-- The test under which `MmUnlockPages` makes a frame movable again. -/
def restores (q : Listed) : Bool :=
  q.frame != listHead && valid m q.va && !physical m q.va && frameAt m q.va == q.frame

/-- The owner words that `MmUnlockPages` writes.  The entries it reads do not
change under the PFN lock. -/
def unlockWrites (pages : List Listed) : List (Nat × Nat) :=
  if pages.head?.any fun q => physical m q.va then []
  else (pages.filter (restores m)).map fun q => (q.frame, ownerPteVa (pteIndex q.va))

/-- The pages that `NxPoolPagesSetMovable` goes through. -/
def movablePages (base bytes : Nat) : List Nat :=
  let va := base - base % pageSize
  if va < nxppBase ∨ nxppBase + nxppPages * pageSize ≤ va then []
  else (pagesFrom va ((wadd base bytes - va + (pageSize - 1)) / pageSize)).filter
    fun va => present (m.pt (pteIndex va))

/-- The owner words that `NxPoolPagesSetMovable` writes. -/
def movableWrites (base bytes : Nat) (movable : Bool) : List (Nat × Nat) :=
  (movablePages m base bytes).map fun va =>
    (frameAt m va, if movable then ownerPteVa (pteIndex va) else 0)

end Tables

/-- `MmProbeAndLockPages` at a page: the next address, the number of pages
left, and the part of the array that is written. -/
structure Probe where
  write : Bool
  va : Nat
  left : Nat
  pages : List Listed
  deriving DecidableEq

namespace Probe

/-- The pages written, the one that failed, and whatever the rest of the array
holds: what `MmUnlockPages` finds after a failed probe. -/
def array (p : Probe) (stale : List Nat) : List Listed :=
  p.pages ++ ⟨p.va, listHead⟩ ::
    ((pagesFrom (p.va + pageSize) (p.left - 1)).zip stale).map fun x => ⟨x.1, x.2⟩

/-- The entries that one hold of the PFN lock goes through: up to the first
that is not valid. -/
def run (p : Probe) (m : Machine) : List Listed :=
  ((pagesFrom p.va p.left).takeWhile (valid m)).map fun va => ⟨va, frameAt m va⟩

def push (p : Probe) (pages : List Listed) : Probe :=
  { p with
    va := p.va + pages.length * pageSize
    left := p.left - pages.length
    pages := p.pages ++ pages }

end Probe

/-- Where a thread is. -/
inductive Pc where
  | idle
  /-- The loop over title addresses, with the working-set lock held. -/
  | probing (p : Probe)
  /-- The entry has been read and the owner word not yet written. -/
  | pinning (p : Probe) (frame : Nat)
  /-- The loop over kernel addresses in `MmAccessFault`, without the PFN lock. -/
  | faulting (p : Probe)
  /-- At `Cleanup`, before `MmUnlockPages`. -/
  | failed (p : Probe)
  | locked (pages : List Listed)
  /-- `NxvFreePageAtPte` with the entry cleared. -/
  | freeing (frame : Nat)
  deriving DecidableEq

namespace Pc

/-- The pages in the array of the thread's MDL. -/
def pages : Pc → List Listed
  | probing p | pinning p _ | faulting p | failed p => p.pages
  | locked pages => pages
  | _ => []

def holdsWorkingSet : Pc → Prop
  | probing _ | pinning _ _ => True
  | _ => False

end Pc

structure State (T : Type*) where
  mem : Machine
  pc : T → Pc

variable {T : Type*} [DecidableEq T]

namespace State

def goto (s : State T) (t : T) (pc : Pc) : State T := { s with pc := update s.pc t pc }

def setOwners (s : State T) (writes : List (Nat × Nat)) : State T :=
  { s with mem := { s.mem with supply := MdlLocks.setOwners s.mem.supply writes } }

/-- One hold of the PFN lock by a probe of kernel addresses. -/
def probeRun (s : State T) (t : T) (p : Probe) : State T :=
  let run := p.run s.mem
  let p' := p.push run
  (s.setOwners (run.map fun q => (q.frame, 0))).goto t
    (if p'.left = 0 then .locked p'.pages else .faulting p')

/-- The next step of the call a thread is in.  `MmAccessFault` succeeds only
where it has synchronised a page directory entry; `stale` is what the array
held before the call. -/
def advance (s : State T) (t : T) (synced : Option Nat) (stale : List Nat) : State T :=
  match s.pc t with
  | .probing p =>
    if p.left = 0 then s.goto t (.locked p.pages)
    else if !valid s.mem p.va || p.write && !writeable s.mem p.va then s.goto t (.failed p)
    else s.goto t (.pinning p (frameAt s.mem p.va))
  | .pinning p f => (s.setOwners [(f, 0)]).goto t (.probing (p.push [⟨p.va, f⟩]))
  | .faulting p =>
    match synced with
    | some pde => { s with mem := s.mem.setEntry (pdeIndex p.va) pde }.probeRun t p
    | none => s.goto t (.failed p)
  | .failed p => (s.setOwners (unlockWrites s.mem (p.array stale))).goto t .idle
  | .freeing f =>
    { s with mem := { s.mem with
        supply := (s.mem.supply.nxkPageSupplySetOwner f 0).nxkPageSupplyReturn f } }.goto t
      .idle
  | _ => s

end State

inductive Act (T : Type*) where
  | probeAndLock (t : T) (va pages : Nat) (write : Bool)
  | advance (t : T) (synced : Option Nat) (stale : List Nat)
  | unlock (t : T)
  | setMovable (base bytes : Nat) (movable : Bool)
  | decommit (t : T) (va : Nat)
  | relocate (runPages lowPfn highPfn alignPages : Nat)

namespace Act

/-- When a call can begin.  An MDL covers title addresses or addresses of the
pool window, and no part of either is mapped by a large page. -/
def Enabled (s : State T) : Act T → Prop
  | probeAndLock t va pages _ => s.pc t = .idle ∧ 0 < pages ∧ physical s.mem va = false ∧
      ((nxvLowest ≤ va ∧ va + pages * pageSize ≤ nxvHighest ∧ ∀ u, ¬(s.pc u).holdsWorkingSet) ∨
        (nxppBase ≤ va ∧ va + pages * pageSize ≤ nxppBase + nxppPages * pageSize))
  | unlock t => ∃ pages, s.pc t = .locked pages
  | decommit t va => s.pc t = .idle ∧ nxvLowest ≤ va ∧ va < nxvHighest ∧
      present (s.mem.pt (pdeIndex va)) = true ∧ s.mem.pt (pteIndex va) ≠ 0
  | _ => True

def apply (s : State T) : Act T → State T
  | probeAndLock t va pages write =>
    if mmHighestUserAddress < va then s.probeRun t ⟨false, va, pages, []⟩
    else s.goto t (.probing ⟨write, va, pages, []⟩)
  | advance t synced stale => s.advance t synced stale
  | unlock t => (s.setOwners (unlockWrites s.mem (s.pc t).pages)).goto t .idle
  | setMovable base bytes movable => s.setOwners (movableWrites s.mem base bytes movable)
  | decommit t va =>
    { s with mem := s.mem.setEntry (pteIndex va) 0 }.goto t (.freeing (frameAt s.mem va))
  | relocate runPages lowPfn highPfn alignPages =>
    { s with mem := (s.mem.takeRunRelocate runPages lowPfn highPfn alignPages).1 }

end Act

def Step (s : State T) (a : Act T) (s' : State T) : Prop := a.Enabled s ∧ s' = a.apply s

/-! ## The condition on a step -/

/-- A page of the table that is not free. -/
def InUse (s : Supply) (page : Nat) : Prop :=
  page ≠ 0 ∧ page ≤ s.highestPfn ∧ s.free page = false

/-- The MDL of a thread lists a frame. -/
def State.Lists (s : State T) (t : T) (page : Nat) : Prop := ∃ q ∈ (s.pc t).pages, q.frame = page

/-- The frames that a step pins are in use, and a frame that it makes movable
or returns is on no MDL but the one it unlocks. -/
def Act.Apart (s : State T) : Act T → Prop
  | probeAndLock _ va pages _ => mmHighestUserAddress < va →
      ∀ q ∈ Probe.run ⟨false, va, pages, []⟩ s.mem, InUse s.mem.supply q.frame
  | advance t synced stale =>
    match s.pc t with
    | .pinning _ f => InUse s.mem.supply f
    | .faulting p => ∀ pde, synced = some pde →
        ∀ q ∈ p.run (s.mem.setEntry (pdeIndex p.va) pde), InUse s.mem.supply q.frame
    | .failed p => ∀ q ∈ p.array stale, restores s.mem q = true →
        ∀ u, u ≠ t → ¬s.Lists u q.frame
    | .freeing f => InUse s.mem.supply f ∧ ∀ u, ¬s.Lists u f
    | _ => True
  | unlock t => ∀ q ∈ (s.pc t).pages, restores s.mem q = true → ∀ u, u ≠ t → ¬s.Lists u q.frame
  | setMovable base bytes movable => movable = true → ∀ va ∈ movablePages s.mem base bytes,
      ∀ u, ¬s.Lists u (frameAt s.mem va)
  | _ => True

/-! ## Owner words -/

section Owners

variable {s : Supply} {page : Nat} {writes : List (Nat × Nat)}

theorem setOwners_cons (s : Supply) (w : Nat × Nat) (ws : List (Nat × Nat)) :
    setOwners s (w :: ws) = setOwners (s.nxkPageSupplySetOwner w.1 w.2) ws := rfl

theorem setOwners_inv (h : Inv s) (writes : List (Nat × Nat)) : Inv (setOwners s writes) := by
  induction writes generalizing s with
  | nil => exact h
  | cons w ws ih => exact ih (h.setOwner w.1 w.2)

theorem InUse.setOwner (h : InUse s page) (other pteVa : Nat) :
    InUse (s.nxkPageSupplySetOwner other pteVa) page := by
  refine ⟨h.1, ?_, ?_⟩
  · rw [setOwner_highestPfn]
    exact h.2.1
  · rw [setOwner_free]
    exact h.2.2

theorem InUse.pin (h : InUse s page) : (s.nxkPageSupplySetOwner page 0).Pinned page := by
  rw [setOwner_none (Nat.pos_of_ne_zero h.1) h.2.1 h.2.2]
  refine ⟨h.1, h.2.1, ?_⟩
  rw [Supply.setEntry_links, update_self]

theorem pinned_inUse (h : s.Pinned page) : InUse s page := ⟨h.1, h.2.1, h.not_free⟩

/-- A pinned frame stays pinned when no write gives it an owner. -/
theorem setOwners_pinned (hinv : Inv s) (hp : s.Pinned page)
    (hw : ∀ w ∈ writes, w.1 = page → w.2 = 0) : (setOwners s writes).Pinned page := by
  induction writes generalizing s with
  | nil => exact hp
  | cons w ws ih =>
    rw [setOwners_cons]
    have hws : ∀ x ∈ ws, x.1 = page → x.2 = 0 := fun x hx => hw x (List.mem_cons_of_mem w hx)
    have hone : (s.nxkPageSupplySetOwner w.1 w.2).Pinned page := by
      by_cases he : w.1 = page
      · rw [he, hw w List.mem_cons_self he]
        exact (pinned_inUse hp).pin
      · exact @Inv.apply_pinned s page hinv (.setOwner w.1 w.2) trivial hp he
    exact ih (hinv.setOwner w.1 w.2) hone hws

/-- Clearing the owner words of pages in use pins them. -/
theorem setOwners_pins (hinv : Inv s) {pages : List Listed} {q : Listed} (hq : q ∈ pages)
    (hu : InUse s q.frame) :
    (setOwners s (pages.map fun q => (q.frame, 0))).Pinned q.frame := by
  induction pages generalizing s with
  | nil => cases hq
  | cons r rs ih =>
    rw [List.map_cons, setOwners_cons]
    rcases List.mem_cons.1 hq with rfl | hq
    · exact setOwners_pinned (hinv.setOwner q.frame 0) hu.pin (by simp)
    · exact ih (hinv.setOwner r.frame 0) hq (hu.setOwner r.frame 0)

end Owners

/-! ## The invariant -/

/-- Every frame in the array of an MDL is pinned. -/
structure Safe (s : State T) : Prop where
  inv : Inv s.mem.supply
  pinned : ∀ t, ∀ q ∈ (s.pc t).pages, s.mem.supply.Pinned q.frame

namespace Safe

variable {s : State T} {t : T}

omit [DecidableEq T] in
theorem lists (h : Safe s) {page : Nat} (hl : s.Lists t page) : s.mem.supply.Pinned page := by
  obtain ⟨q, hq, rfl⟩ := hl
  exact h.pinned t q hq

/-- The memory changes, and the frames on every MDL but that of `t` are pinned
in it. -/
theorem change {m : Machine} {pc : Pc} (hinv : Inv m.supply)
    (hkeep : ∀ u, u ≠ t → ∀ page, s.Lists u page → m.supply.Pinned page)
    (hpc : ∀ q ∈ pc.pages, m.supply.Pinned q.frame) :
    Safe ({ s with mem := m }.goto t pc) := by
  refine ⟨hinv, ?_⟩
  intro u q hq
  simp only [State.goto, update_apply] at hq
  split at hq
  · exact hpc q hq
  · rename_i hu
    exact hkeep u hu _ ⟨q, hq, rfl⟩

theorem goto (h : Safe s) {pc : Pc} (hpc : ∀ q ∈ pc.pages, s.mem.supply.Pinned q.frame) :
    Safe (s.goto t pc) :=
  change h.inv (fun _ _ _ hl => h.lists hl) hpc

/-- A call that makes frames movable which no other MDL lists. -/
theorem release (h : Safe s) {writes : List (Nat × Nat)}
    (hw : ∀ w ∈ writes, ∀ u, u ≠ t → ¬s.Lists u w.1) :
    Safe ((s.setOwners writes).goto t .idle) := by
  refine change (setOwners_inv h.inv writes) ?_ (by simp [Pc.pages])
  intro u hu page hl
  refine setOwners_pinned h.inv (h.lists hl) ?_
  rintro w hmem rfl
  exact absurd hl (hw w hmem u hu)

/-- A call that pins pages in use and adds them to its array. -/
theorem pin (h : Safe s) {pages : List Listed} {pc : Pc}
    (hu : ∀ q ∈ pages, InUse s.mem.supply q.frame)
    (hpc : ∀ q ∈ pc.pages, q ∈ (s.pc t).pages ∨ q ∈ pages) :
    Safe ((s.setOwners (pages.map fun q => (q.frame, 0))).goto t pc) := by
  have hkeep : ∀ page, s.mem.supply.Pinned page →
      (setOwners s.mem.supply (pages.map fun q => (q.frame, 0))).Pinned page := by
    intro page hp
    exact setOwners_pinned h.inv hp (by simp)
  refine change (setOwners_inv h.inv _) (fun _ _ page hl => hkeep page (h.lists hl)) ?_
  intro q hq
  rcases hpc q hq with hold | hnew
  · exact hkeep _ (h.pinned t q hold)
  · exact setOwners_pins h.inv hnew (hu q hnew)

theorem unlock (h : Safe s) {pages : List Listed}
    (hap : ∀ q ∈ pages, restores s.mem q = true → ∀ u, u ≠ t → ¬s.Lists u q.frame) :
    Safe ((s.setOwners (unlockWrites s.mem pages)).goto t .idle) := by
  refine h.release ?_
  intro w hw
  unfold unlockWrites at hw
  split at hw
  · cases hw
  · obtain ⟨q, hq, rfl⟩ := List.mem_map.1 hw
    obtain ⟨hmem, hres⟩ := List.mem_filter.1 hq
    exact hap q hmem hres

theorem probeRun (h : Safe s) {p : Probe} (hp : ∀ q ∈ p.pages, q ∈ (s.pc t).pages)
    (hu : ∀ q ∈ p.run s.mem, InUse s.mem.supply q.frame) : Safe (s.probeRun t p) := by
  refine h.pin hu ?_
  have hpush : ∀ q ∈ (p.push (p.run s.mem)).pages, q ∈ (s.pc t).pages ∨ q ∈ p.run s.mem := by
    intro q hq
    exact (List.mem_append.1 hq).imp_left (hp q)
  split
  · exact hpush
  · exact hpush

/-- The second half of `NxvFreePageAtPte`. -/
theorem free (h : Safe s) {f : Nat} (hu : InUse s.mem.supply f) (hl : ∀ u, ¬s.Lists u f) :
    Safe ({ s with mem := { s.mem with
      supply := (s.mem.supply.nxkPageSupplySetOwner f 0).nxkPageSupplyReturn f } }.goto t
        .idle) := by
  have hinv := h.inv.setOwner f 0
  have hu' := hu.setOwner f 0
  refine change (hinv.giveBack hu'.1 hu'.2.1 hu'.2.2) ?_ (by simp [Pc.pages])
  intro u _ page hlist
  have hne : page ≠ f := fun he => hl u (he ▸ hlist)
  have hp : (s.mem.supply.nxkPageSupplySetOwner f 0).Pinned page :=
    @setOwners_pinned _ _ [(f, 0)] h.inv (h.lists hlist) (by simp)
  exact hinv.return_pinned hu'.1 hu'.2.2 hp hne

/-- The next step of a call. -/
theorem advance (h : Safe s) {synced : Option Nat} {stale : List Nat}
    (hap : (Act.advance t synced stale).Apart s) : Safe (s.advance t synced stale) := by
  have hpc := h.pinned t
  unfold State.advance
  unfold Act.Apart at hap
  cases he : s.pc t with
  | idle => exact h
  | locked pages => exact h
  | probing p =>
    rw [he] at hpc
    dsimp only
    split_ifs
    · exact h.goto hpc
    · exact h.goto hpc
    · exact h.goto hpc
  | pinning p f =>
    simp only [he] at hap
    refine @Safe.pin _ _ s t h [⟨p.va, f⟩] _ (by simpa using hap) ?_
    intro q hq
    rw [he]
    exact List.mem_append.1 hq
  | faulting p =>
    simp only [he] at hap
    cases synced with
    | none =>
      rw [he] at hpc
      exact h.goto hpc
    | some pde =>
      have h' : Safe { s with mem := s.mem.setEntry (pdeIndex p.va) pde } := ⟨h.inv, h.pinned⟩
      refine h'.probeRun ?_ (hap pde rfl)
      intro q hq
      rw [he]
      exact hq
  | failed p =>
    simp only [he] at hap
    exact h.unlock hap
  | freeing f =>
    simp only [he] at hap
    exact h.free hap.1 hap.2

theorem step (h : Safe s) {a : Act T} {s' : State T} (hap : a.Apart s) (hst : Step s a s') :
    Safe s' := by
  obtain ⟨-, rfl⟩ := hst
  cases a with
  | probeAndLock t va pages write =>
    rw [Act.apply]
    by_cases hva : mmHighestUserAddress < va
    · rw [if_pos hva]
      exact h.probeRun (by simp) (hap hva)
    · rw [if_neg hva]
      exact h.goto (by simp [Pc.pages])
  | advance t synced stale => exact h.advance hap
  | unlock t => exact h.unlock hap
  | setMovable base bytes movable =>
    refine ⟨setOwners_inv h.inv _, ?_⟩
    intro u q hq
    refine setOwners_pinned h.inv (h.pinned u q hq) ?_
    intro w hw hwq
    obtain ⟨va, hva, rfl⟩ := List.mem_map.1 hw
    cases movable with
    | false => rfl
    | true => exact absurd ⟨q, hq, hwq.symm⟩ (hap rfl va hva u)
  | decommit t va => exact change h.inv (fun _ _ _ hl => h.lists hl) (by simp [Pc.pages])
  | relocate runPages lowPfn highPfn alignPages =>
    let op := Op.takeRunRelocate runPages lowPfn highPfn alignPages
    have hst : PageSupply.Step s.mem.supply op (op.apply s.mem.supply) := ⟨trivial, rfl⟩
    have hkeep : ∀ f, s.mem.supply.Pinned f → (op.apply s.mem.supply).Pinned f :=
      fun f hp => h.inv.apply_pinned trivial hp id
    exact ⟨h.inv.step hst, fun u q hq => hkeep _ (h.pinned u q hq)⟩

end Safe

/-! ## Locked frames -/

/-- A relocating allocation moves no pinned frame. -/
theorem pinned_not_moved {s : Supply} (h : Inv s) {page : Nat} (hp : s.Pinned page)
    (runPages lowPfn highPfn alignPages : Nat) :
    ∀ move ∈ (s.nxkPageSupplyTakeRunRelocate runPages lowPfn highPfn alignPages).2.2,
      move.page ≠ page := by
  rintro move hmem rfl
  generalize hu : s.nxkPageSupplyTakeRunRelocate runPages lowPfn highPfn alignPages = u
  rw [hu] at hmem
  rcases h.takeRunRelocate_spec hu with hnone | hrun
  · rw [hnone.2.2] at hmem
    cases hmem
  · obtain ⟨base, hi, -, -, -, hhi, htake, hreloc, -⟩ := hrun
    obtain ⟨h1, h2, -, -⟩ := hreloc.source move hmem
    refine hp.not_takeable (htake move.page ?_)
    rw [inRun_iff]
    omega

/-- In every run whose steps are all apart, from a consistent supply and no
call in progress: a frame of a locked MDL is in use and has no owner, and a
relocating allocation does not move it. -/
theorem locked_frames_stay {s₀ s : State T} (hinv : Inv s₀.mem.supply)
    (hidle : ∀ t, s₀.pc t = .idle)
    (h : Reachable (· = s₀) (fun s a s' => a.Apart s ∧ Step s a s') s) {t : T}
    {pages : List Listed} (hlocked : s.pc t = .locked pages) :
    ∀ q ∈ pages, s.mem.supply.free q.frame = false ∧ s.mem.supply.links q.frame = 0 ∧
      ∀ runPages lowPfn highPfn alignPages, ∀ move ∈
        (s.mem.supply.nxkPageSupplyTakeRunRelocate runPages lowPfn highPfn alignPages).2.2,
        move.page ≠ q.frame := by
  have hsafe : Safe s := by
    refine Reachable.invariant ?_ (fun _ _ _ hs hst => hs.step hst.1 hst.2) h
    rintro _ rfl
    refine ⟨hinv, ?_⟩
    intro u q hq
    rw [hidle u] at hq
    cases hq
  intro q hq
  have hp : s.mem.supply.Pinned q.frame := by
    refine hsafe.pinned t q ?_
    rw [hlocked]
    exact hq
  exact ⟨hp.not_free, hp.2.2, pinned_not_moved hsafe.inv hp⟩

/-! ## A page of the window -/

/-- The first page of the pool window maps a frame that its entry owns, and one
more page is free. -/
def oneBuffer : State Bool where
  mem :=
    { pt := fun i => if i = 0xC0304 then 0x3000003 else if i = 0xC1000 then 0x3400003 else 0
      supply := [Op.giveBack 0x3401, .setOwner 0x3400 (ownerPteVa 0xC1000)].foldl Op.apply
        (Supply.nxkPageSupplyInitialize 0x3FFF true) }
  pc := fun _ => .idle

def bufferPage : Listed := ⟨0xC1000000, 0x3400⟩

theorem oneBuffer_inv : Inv oneBuffer.mem.supply :=
  Inv.reached (by decide) (by decide) (Reached.ops (.start rfl) _ (by decide))

/-- A driver locks the page. -/
def lockBuffer (t : Bool) : Act Bool := .probeAndLock t 0xC1000000 1 false

/-- One MDL over the page. -/
theorem locked_frames_stay_oneBuffer :
    ((lockBuffer false).apply oneBuffer).mem.supply.links 0x3400 = 0 := by
  have hap : (lockBuffer false).Apart oneBuffer := by
    intro _ q hq
    have hrun : Probe.run ⟨false, 0xC1000000, 1, []⟩ oneBuffer.mem = [bufferPage] := by
      decide +kernel
    rw [hrun, List.mem_singleton] at hq
    subst hq
    exact ⟨by decide, by decide +kernel, by decide +kernel⟩
  have hen : (lockBuffer false).Enabled oneBuffer :=
    ⟨rfl, by decide, by decide +kernel, .inr (by decide)⟩
  have hpc : ((lockBuffer false).apply oneBuffer).pc false = .locked [bufferPage] := by
    decide +kernel
  exact (locked_frames_stay oneBuffer_inv (fun _ => rfl)
    (.next (lockBuffer false) (.start rfl) ⟨hap, hen, rfl⟩) hpc bufferPage
    List.mem_cons_self).2.1

/-- Two MDLs over the page.  Unlocking the first gives the frame its owner word
back, and a relocating allocation then moves it while the second is locked. -/
theorem overlapping_lock_moved :
    ∃ s : State Bool, Reachable (· = oneBuffer) Step s ∧ s.pc true = .locked [bufferPage] ∧
      (s.mem.supply.nxkPageSupplyTakeRunRelocate 1 0x3400 0x3400 1).2 =
        (0x3400, [⟨0x3400, 0x3401, 0xC1000⟩]) := by
  let s₁ := (lockBuffer false).apply oneBuffer
  let s₂ := (lockBuffer true).apply s₁
  have h₁ : Reachable (· = oneBuffer) Step s₁ :=
    .next (lockBuffer false) (.start rfl)
      ⟨⟨rfl, by decide, by decide +kernel, .inr (by decide)⟩, rfl⟩
  have h₂ : Reachable (· = oneBuffer) Step s₂ :=
    .next (lockBuffer true) h₁
      ⟨⟨rfl, by decide, by decide +kernel, .inr (by decide)⟩, rfl⟩
  have hpc : s₂.pc false = .locked [bufferPage] := by decide +kernel
  refine ⟨(Act.unlock false).apply s₂, .next (.unlock false) h₂ ⟨⟨_, hpc⟩, rfl⟩, ?_, ?_⟩
  · decide +kernel
  · decide +kernel

end Roswell.Ports.MdlLocks
