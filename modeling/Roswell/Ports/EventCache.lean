import Roswell.Verified.Runs

/-!
# The pulse-event handle cache

Model of `XeTrackEvent`, `XeUntrackEvent`, `XeLookupEvent` and `XeNtPulseEvent` over the handle
table they shadow.  The cache compares handle values; the table finds an entry through
`ExMapHandleToPointer`, which drops the two tag bits, and `ObpCloseHandle` drops the kernel
handle flag before that.  So one table entry answers to several handle values, and the cache
entry is only evicted by the one that was handed out.

The title runs in the system process, whose table is the kernel handle table.  A pulse changes
neither structure, so it is stated about each state instead of being a step.

## Main results

* `pulse_hits_designated`: if closes name cached handles by the values handed out, a hit always
  yields the object the handle designates.
* `pulse_hits_closed`: the handle closed as `5` stays cached as `4`, and `4` then names another
  event.
-/

namespace Roswell.Ports.EventCache

open Verified.Runs Function

/-! ## The handle table -/

def ntCurrentProcess : Nat := 0xFFFFFFFF
def ntCurrentThread : Nat := 0xFFFFFFFE
def kernelHandleFlag : Nat := 0x80000000
def lowLevelEntries : Nat := 512
def maxHandles : Nat := 16777216

/-- The flag is the top bit of a 32-bit handle. -/
def obpIsKernelHandle (h : Nat) : Bool :=
  kernelHandleFlag ≤ h && h != ntCurrentProcess && h != ntCurrentThread

def obKernelHandleToHandle (h : Nat) : Nat := h % kernelHandleFlag

def obMarkHandleAsKernelHandle (h : Nat) : Nat := h % kernelHandleFlag + kernelHandleFlag

/-- The index of the entry a handle value leads to. -/
def handleIndex (h : Nat) : Nat :=
  (if obpIsKernelHandle h = true then obKernelHandleToHandle h else h) / 4

/-- The handle value of an entry. -/
def indexToHandle (i : Nat) (kernel : Bool) : Nat :=
  if kernel = true then obMarkHandleAsKernelHandle (4 * i) else 4 * i

/-- Entries hold the address of an object. -/
abbrev HandleTable := Nat → Option Nat

/-- The first entry of each low-level table is not used. -/
def exMapHandleToPointer (table : HandleTable) (h : Nat) : Option Nat :=
  if handleIndex h % lowLevelEntries = 0 then none else table (handleIndex h)

/-! ## The cache -/

structure Entry where
  handle : Nat
  event : Nat
  deriving DecidableEq, Repr

def Entry.empty : Entry := ⟨0, 0⟩

def eventSlots : Nat := 64

/-- The static table, all of whose slots are always there. -/
structure EventTable where
  entries : List Entry
  length : entries.length = eventSlots

/-- The entry is put into the first free slot, if there is one. -/
def fillFirst (x : Entry) : List Entry → List Entry
  | [] => []
  | y :: ys => if y.handle = 0 then x :: ys else y :: fillFirst x ys

theorem length_fillFirst (x : Entry) (l : List Entry) : (fillFirst x l).length = l.length := by
  induction l with
  | nil => rfl
  | cons y ys ih =>
    rw [fillFirst]
    split
    · rfl
    · rw [List.length_cons, List.length_cons, ih]

theorem mem_fillFirst {x y : Entry} {l : List Entry} (h : y ∈ fillFirst x l) : y = x ∨ y ∈ l := by
  induction l with
  | nil => cases h
  | cons z zs ih =>
    rw [fillFirst] at h
    split at h
    · rcases List.mem_cons.1 h with rfl | h
      · exact Or.inl rfl
      · exact Or.inr (List.mem_cons_of_mem z h)
    · rcases List.mem_cons.1 h with rfl | h
      · exact Or.inr List.mem_cons_self
      · exact (ih h).imp_right (List.mem_cons_of_mem z)

structure State where
  table : HandleTable
  events : EventTable
  fullReported : Bool

namespace State

/-- The object a handle value designates. -/
def designated (s : State) (h : Nat) : Option Nat := exMapHandleToPointer s.table h

def xeTrackEvent (s : State) (h event : Nat) : State :=
  { s with
    events := ⟨fillFirst ⟨h, event⟩ s.events.entries,
      (length_fillFirst _ _).trans s.events.length⟩
    fullReported := s.fullReported || s.events.entries.all (·.handle != 0) }

def xeUntrackEvent (s : State) (h : Nat) : State :=
  { s with
    events := ⟨s.events.entries.map fun x => if x.handle = h then Entry.empty else x,
      (List.length_map _).trans s.events.length⟩
    fullReported := s.fullReported && s.events.entries.all (·.handle != h) }

/-- `NULL` when no slot has the handle. -/
def xeLookupEvent (s : State) (h : Nat) : Nat :=
  match s.events.entries.find? (·.handle == h) with
  | some x => x.event
  | none => 0

/-- The event that is pulsed through the cache, or `none` when the call takes the NT path. -/
def xeNtPulseEvent (s : State) (h : Nat) : Option Nat :=
  if s.xeLookupEvent h = 0 then none else some (s.xeLookupEvent h)

def setEntry (s : State) (i : Nat) (object : Option Nat) : State :=
  { s with table := update s.table i object }

/-- `refused` is a handle protected from closing. -/
def obpCloseHandle (s : State) (h : Nat) (refused : Bool) : State :=
  if h = ntCurrentProcess then s
  else
    let s₁ := s.xeUntrackEvent h
    match s₁.designated h with
    | none => s₁
    | some _ => if refused = true then s₁ else s₁.setEntry (handleIndex h) none

/-- A handle for an event is made in entry `i`, and cached. -/
def xeNtCreateEvent (s : State) (i : Nat) (kernel : Bool) (event : Nat) : State :=
  let s₁ := s.setEntry i (some event)
  match s₁.designated (indexToHandle i kernel) with
  | some object => s₁.xeTrackEvent (indexToHandle i kernel) object
  | none => s₁

end State

/-! ## Steps -/

/-- Calls that succeed far enough to change something.  `insert` is any other call that makes
a handle; a duplication closes its source before it takes the entry for the new handle. -/
inductive Act where
  | create (i : Nat) (kernel : Bool) (event : Nat)
  | insert (i object : Nat)
  | close (h : Nat) (refused : Bool)
  | duplicate (source : Nat) (closeSource refused : Bool) (target : Option Nat)
  deriving DecidableEq, Repr

namespace State

/-- The source of a duplication is closed, if that was asked for. -/
def closedSource (s : State) (source : Nat) (closeSource refused : Bool) : State :=
  if closeSource = true then s.obpCloseHandle source refused else s

def apply (s : State) : Act → State
  | .create i kernel event => s.xeNtCreateEvent i kernel event
  | .insert i object => s.setEntry i (some object)
  | .close h refused => s.obpCloseHandle h refused
  | .duplicate source closeSource refused target =>
    match s.designated source with
    | none => s
    | some object =>
      let s₁ := s.closedSource source closeSource refused
      match target with
      | none => s₁
      | some i => s₁.setEntry i (some object)

/-- An entry that `ExCreateHandle` may hand out. -/
def Free (s : State) (i : Nat) : Prop :=
  i < maxHandles ∧ i % lowLevelEntries ≠ 0 ∧ s.table i = none

def Allowed (s : State) : Act → Prop
  | .create i _ event => s.Free i ∧ event ≠ 0
  | .insert i _ => s.Free i
  | .close _ _ => True
  | .duplicate source closeSource refused target =>
    ∀ i, target = some i → (s.closedSource source closeSource refused).Free i

/-- No cached handle is another name of the same entry. -/
def Named (s : State) (h : Nat) : Prop :=
  ∀ x ∈ s.events.entries, x.handle ≠ 0 → handleIndex x.handle = handleIndex h → x.handle = h

/-- A handle is closed by the value it is cached under. -/
def Careful (s : State) : Act → Prop
  | .close h _ => s.Named h
  | .duplicate source closeSource _ _ => closeSource = true → s.Named source
  | _ => True

end State

def Step (s : State) (a : Act) (s' : State) : Prop := s.Allowed a ∧ s.apply a = s'

def CarefulStep (s : State) (a : Act) (s' : State) : Prop := s.Careful a ∧ Step s a s'

/-- The cache starts empty, over any handle table. -/
def Start (s : State) : Prop := ∀ x ∈ s.events.entries, x = Entry.empty

/-! ## The invariant -/

/-- Each slot is free or holds the object its handle designates. -/
def Coherent (s : State) : Prop :=
  ∀ x ∈ s.events.entries, x = Entry.empty ∨ s.designated x.handle = some x.event

section
variable {s s' : State} {a : Act} {h i object : Nat}

theorem State.designated_eq_some (hd : s.designated h = some object) :
    s.table (handleIndex h) = some object := by
  unfold State.designated exMapHandleToPointer at hd
  split at hd
  · cases hd
  · exact hd

/-- An entry that changes concerns no handle that leads elsewhere. -/
theorem State.designated_setEntry (hne : handleIndex h ≠ i) (o : Option Nat) :
    (s.setEntry i o).designated h = s.designated h := by
  unfold State.designated State.setEntry exMapHandleToPointer
  dsimp only
  rw [update_of_ne hne]

theorem Coherent.setEntry (hc : Coherent s) (hfree : s.Free i) :
    Coherent (s.setEntry i (some object)) := by
  intro x hx
  rcases hc x hx with rfl | hd
  · exact Or.inl rfl
  · have hne : handleIndex x.handle ≠ i := by
      rintro rfl
      exact nomatch hfree.2.2.symm.trans (State.designated_eq_some hd)
    exact Or.inr ((State.designated_setEntry hne _).trans hd)

theorem Coherent.track (hc : Coherent s) (hd : s.designated h = some object) :
    Coherent (s.xeTrackEvent h object) := by
  intro x hx
  rcases mem_fillFirst hx with rfl | hx
  · exact Or.inr hd
  · exact hc x hx

theorem Coherent.create (hc : Coherent s) (hfree : s.Free i) (kernel : Bool) (event : Nat) :
    Coherent (s.xeNtCreateEvent i kernel event) := by
  unfold State.xeNtCreateEvent
  dsimp only
  split
  · next o hd => exact (hc.setEntry hfree).track hd
  · exact hc.setEntry hfree

theorem mem_untrack {x : Entry} (hx : x ∈ (s.xeUntrackEvent h).events.entries) :
    x = Entry.empty ∨ (x ∈ s.events.entries ∧ x.handle ≠ h) := by
  obtain ⟨y, hy, rfl⟩ := List.mem_map.1 hx
  split
  · exact Or.inl rfl
  · next hne => exact Or.inr ⟨hy, hne⟩

theorem Coherent.untrack (hc : Coherent s) : Coherent (s.xeUntrackEvent h) := by
  intro x hx
  rcases mem_untrack hx with rfl | ⟨hx, _⟩
  · exact Or.inl rfl
  · exact hc x hx

theorem Coherent.close (hc : Coherent s) (hnamed : s.Named h) (refused : Bool) :
    Coherent (s.obpCloseHandle h refused) := by
  unfold State.obpCloseHandle
  split
  · exact hc
  dsimp only
  split
  · exact hc.untrack
  split
  · exact hc.untrack
  -- the entry is gone, and with it every slot that led to it
  intro x hx
  rcases mem_untrack hx with rfl | ⟨hx, hne⟩
  · exact Or.inl rfl
  rcases hc x hx with rfl | hd
  · exact Or.inl rfl
  · refine Or.inr ((State.designated_setEntry ?_ none).trans hd)
    intro hindex
    refine hne (hnamed x hx ?_ hindex)
    intro hzero
    rw [hzero] at hd
    exact nomatch hd

theorem Coherent.apply (hc : Coherent s) (hcareful : s.Careful a) (hallowed : s.Allowed a) :
    Coherent (s.apply a) := by
  cases a with
  | create i kernel event => exact hc.create hallowed.1 kernel event
  | insert i object => exact hc.setEntry hallowed
  | close h refused => exact hc.close hcareful refused
  | duplicate source closeSource refused target =>
    have hsource : Coherent (s.closedSource source closeSource refused) := by
      unfold State.closedSource
      split
      · next hclose => exact hc.close (hcareful hclose) refused
      · exact hc
    unfold State.apply
    dsimp only
    split
    · exact hc
    · cases target with
      | none => exact hsource
      | some i => exact hsource.setEntry (hallowed i rfl)

/-- A hit comes from a slot that has the handle. -/
theorem State.mem_of_pulse {event : Nat} (hhit : s.xeNtPulseEvent h = some event) :
    ⟨h, event⟩ ∈ s.events.entries ∧ event ≠ 0 := by
  unfold State.xeNtPulseEvent at hhit
  split at hhit
  · cases hhit
  · next hne =>
    cases hhit
    refine ⟨?_, hne⟩
    unfold State.xeLookupEvent at hne ⊢
    cases hfind : s.events.entries.find? (·.handle == h) with
    | none =>
      rw [hfind] at hne
      exact absurd rfl hne
    | some x =>
      have hhandle : x.handle = h := by simpa using List.find?_some hfind
      rw [← hhandle]
      exact List.mem_of_find?_eq_some hfind

/-- In every run whose closes name cached handles by the values they are cached under, a pulse
that hits the cache yields the object its handle designates. -/
theorem pulse_hits_designated (hrun : Reachable Start CarefulStep s) {event : Nat}
    (hhit : s.xeNtPulseEvent h = some event) : s.designated h = some event := by
  have hc : Coherent s := by
    refine Reachable.invariant (P := Coherent) ?_ ?_ hrun
    · exact fun u hu x hx => Or.inl (hu x hx)
    · rintro u b v hu ⟨hcareful, hallowed, rfl⟩
      exact hu.apply hcareful hallowed
  obtain ⟨hmem, hne⟩ := State.mem_of_pulse hhit
  rcases hc _ hmem with hempty | hd
  · cases hempty
    exact absurd rfl hne
  · exact hd

end

/-! ## A handle closed by another of its values -/

def unused : State :=
  ⟨fun _ => none, ⟨List.replicate eventSlots Entry.empty, List.length_replicate⟩, false⟩

theorem unused_start : Start unused := fun _ hx => (List.mem_replicate.1 hx).2

/-- An event is created in the first entry. -/
def oneEvent : State := unused.apply (.create 1 false 0x100)

/-- Closed by the value it is cached under, the entry is taken for a second event. -/
def reissued : State := (oneEvent.apply (.close 4 false)).apply (.create 1 false 0x200)

theorem oneEvent_named : oneEvent.Named 4 := by
  unfold State.Named
  decide

theorem reissued_reachable : Reachable Start CarefulStep reissued := by
  have hone : Reachable Start CarefulStep oneEvent :=
    .next (.create 1 false 0x100) (.start unused_start)
      ⟨trivial, ⟨⟨by decide, by decide, rfl⟩, by decide⟩, rfl⟩
  exact .next (.create 1 false 0x200) (.next (.close 4 false) hone ⟨oneEvent_named, trivial, rfl⟩)
    ⟨trivial, ⟨⟨by decide, by decide, by decide⟩, by decide⟩, rfl⟩

theorem pulse_hits_created :
    reissued.xeNtPulseEvent 4 = some 0x200 ∧ reissued.designated 4 = some 0x200 :=
  ⟨by decide, pulse_hits_designated reissued_reachable (by decide)⟩

/-- Closed as `5`, the entry is free and taken for a second event. -/
def reused : State := (oneEvent.apply (.close 5 false)).apply (.create 1 false 0x200)

/-- The cache still has the first event under the handle that designates the second. -/
theorem pulse_hits_closed : ∃ s, Reachable Start Step s ∧
    s.xeNtPulseEvent 4 = some 0x100 ∧ s.designated 4 = some 0x200 := by
  have hfirst : Reachable Start Step oneEvent :=
    .next (.create 1 false 0x100) (.start unused_start)
      ⟨⟨⟨by decide, by decide, rfl⟩, by decide⟩, rfl⟩
  have hclosed : Reachable Start Step (oneEvent.apply (.close 5 false)) :=
    .next (.close 5 false) hfirst ⟨trivial, rfl⟩
  refine ⟨reused, .next (.create 1 false 0x200) hclosed ⟨⟨⟨by decide, by decide, ?_⟩, by decide⟩, rfl⟩,
    by decide, by decide⟩
  decide

end Roswell.Ports.EventCache
