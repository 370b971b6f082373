import Roswell.Verified.Runs
import Roswell.Verified.Tally
import Roswell.Verified.Word

/-!
# The read/write lock

Model of `ERWLOCK` on one processor: a section with interrupts disabled is one step, and
the waits and signals behind it are steps of their own.  A thread that acquires the lock
again while it holds it counts as another thread.

Between the decision to hand the lock on and the end of a wait nobody knows which thread
is meant, so the hand-offs that are still under way are counted: those whose signal has
not been given, and those whose signal nobody has taken.
-/

namespace Roswell.Ports.RwLock

open Verified.Runs Verified.Tally Verified.Word Function

/-! ## The lock -/

/-- `ERWLOCK`; the event is a synchronisation event. -/
structure Erwlock where
  lockCount : Int32
  writersWaitingCount : UInt32
  readersWaitingCount : UInt32
  readersEntryCount : UInt32
  writerEvent : Bool
  readerSemaphore : Nat
  deriving DecidableEq, Repr

/-- `ExInitializeReadWriteLock`. -/
def exInitializeReadWriteLock : Erwlock := ⟨-1, 0, 0, 0, false, 0⟩

/-- Where a thread is: outside, waiting, inside, or about to give a signal. -/
inductive Pc where
  | idle
  | waitExclusive
  | waitShared
  | exclusive
  | shared
  | signalReaders (waiting : UInt32)
  | signalWriter
  deriving DecidableEq, Repr

/-- The section of `ExAcquireReadWriteLockExclusive`. -/
def exAcquireReadWriteLockExclusive (l : Erwlock) : Erwlock × Pc :=
  let l := { l with lockCount := l.lockCount + 1 }
  if l.lockCount ≠ 0 then
    ({ l with writersWaitingCount := l.writersWaitingCount + 1 }, .waitExclusive)
  else (l, .exclusive)

/-- The section of `ExAcquireReadWriteLockShared`. -/
def exAcquireReadWriteLockShared (l : Erwlock) : Erwlock × Pc :=
  let mustWait := l.readersEntryCount = 0 ∨ l.writersWaitingCount ≠ 0
  let l := { l with lockCount := l.lockCount + 1 }
  if l.lockCount ≠ 0 ∧ mustWait then
    ({ l with readersWaitingCount := l.readersWaitingCount + 1 }, .waitShared)
  else ({ l with readersEntryCount := l.readersEntryCount + 1 }, .shared)

/-- The end of a release that hands the lock to a writer. -/
def handToWriter (l : Erwlock) : Erwlock × Pc :=
  ({ l with writersWaitingCount := l.writersWaitingCount - 1 }, .signalWriter)

/-- The section of `ExReleaseReadWriteLock`. -/
def exReleaseReadWriteLock (l : Erwlock) : Erwlock × Pc :=
  let l := { l with lockCount := l.lockCount - 1 }
  if l.lockCount = -1 then ({ l with readersEntryCount := 0 }, .idle)
  else if l.readersEntryCount = 0 then
    if l.readersWaitingCount ≠ 0 then
      ({ l with readersEntryCount := l.readersWaitingCount, readersWaitingCount := 0 },
        .signalReaders l.readersWaitingCount)
    else handToWriter l
  else
    let l := { l with readersEntryCount := l.readersEntryCount - 1 }
    if l.readersEntryCount ≠ 0 then (l, .idle) else handToWriter l

/-- `KeReleaseSemaphore`, which raises an exception behind the limit. -/
def keReleaseSemaphore (l : Erwlock) (adjustment : UInt32) : Erwlock :=
  if l.readerSemaphore + adjustment.toNat < 2 ^ 31 then
    { l with readerSemaphore := l.readerSemaphore + adjustment.toNat }
  else l

def keSetEvent (l : Erwlock) : Erwlock := { l with writerEvent := true }

/-! ## Threads -/

/-- Hand-offs decided, signals given for them and waits that have ended. -/
structure Ledger where
  decided : Nat
  given : Nat
  woken : Nat
  deriving DecidableEq, Repr

/-- The lock, the threads, and the history of hand-offs to writers and to readers. -/
structure State (T : Type) where
  lock : Erwlock
  pc : T → Pc
  writers : Ledger
  readers : Ledger

inductive Act (T : Type) where
  | acquireExclusive (t : T)
  | acquireShared (t : T)
  | release (t : T)
  | signal (t : T)
  | wake (t : T)

/-- The hand-offs of a section that ends in a place. -/
def Pc.writerHandOff : Pc → Nat
  | .signalWriter => 1
  | _ => 0

def Pc.readerHandOff : Pc → Nat
  | .signalReaders waiting => waiting.toNat
  | _ => 0

variable {T : Type} [DecidableEq T]

namespace State

/-- A section has been run by a thread. -/
def after (s : State T) (t : T) (run : Erwlock × Pc) : State T :=
  { s with
    lock := run.1
    pc := update s.pc t run.2
    writers := { s.writers with decided := s.writers.decided + run.2.writerHandOff }
    readers := { s.readers with decided := s.readers.decided + run.2.readerHandOff } }

/-- A thread that is not where the act begins does nothing, nor does one whose wait has
not ended. -/
def apply (s : State T) : Act T → State T
  | .acquireExclusive t =>
    match s.pc t with
    | .idle => s.after t (exAcquireReadWriteLockExclusive s.lock)
    | _ => s
  | .acquireShared t =>
    match s.pc t with
    | .idle => s.after t (exAcquireReadWriteLockShared s.lock)
    | _ => s
  | .release t =>
    match s.pc t with
    | .exclusive => s.after t (exReleaseReadWriteLock s.lock)
    | .shared => s.after t (exReleaseReadWriteLock s.lock)
    | _ => s
  | .signal t =>
    match s.pc t with
    | .signalReaders waiting =>
      { s with
        lock := keReleaseSemaphore s.lock waiting
        pc := update s.pc t .idle
        readers := { s.readers with given := s.readers.given + waiting.toNat } }
    | .signalWriter =>
      { s with
        lock := keSetEvent s.lock
        pc := update s.pc t .idle
        writers := { s.writers with given := s.writers.given + 1 } }
    | _ => s
  | .wake t =>
    match s.pc t with
    | .waitExclusive =>
      if s.lock.writerEvent then
        { s with
          lock := { s.lock with writerEvent := false }
          pc := update s.pc t .exclusive
          writers := { s.writers with woken := s.writers.woken + 1 } }
      else s
    | .waitShared =>
      if 0 < s.lock.readerSemaphore then
        { s with
          lock := { s.lock with readerSemaphore := s.lock.readerSemaphore - 1 }
          pc := update s.pc t .shared
          readers := { s.readers with woken := s.readers.woken + 1 } }
      else s
    | _ => s

/-- No thread has called yet. -/
def initial : State T := ⟨exInitializeReadWriteLock, fun _ => .idle, ⟨0, 0, 0⟩, ⟨0, 0, 0⟩⟩

end State

def Step (s : State T) (a : Act T) (t : State T) : Prop := s.apply a = t

/-! ## Owners and waiters -/

namespace Pc

def waitsExclusive : Pc → Nat
  | .waitExclusive => 1
  | _ => 0

def waitsShared : Pc → Nat
  | .waitShared => 1
  | _ => 0

def ownsExclusive : Pc → Nat
  | .exclusive => 1
  | _ => 0

def ownsShared : Pc → Nat
  | .shared => 1
  | _ => 0

end Pc

variable [Fintype T]

namespace State

/-- Hand-offs under way: the signal is still to be given, or has not been taken. -/
def grantedWriters (s : State T) : Nat :=
  tally Pc.writerHandOff s.pc + s.lock.writerEvent.toNat

def grantedReaders (s : State T) : Nat := tally Pc.readerHandOff s.pc + s.lock.readerSemaphore

/-- The owners, with those the lock has been handed to. -/
def writerOwners (s : State T) : Nat := tally Pc.ownsExclusive s.pc + s.grantedWriters

def readerOwners (s : State T) : Nat := tally Pc.ownsShared s.pc + s.grantedReaders

/-- The waiters the lock has not been handed to. -/
def waitingWriters (s : State T) : Nat := tally Pc.waitsExclusive s.pc - s.grantedWriters

def waitingReaders (s : State T) : Nat := tally Pc.waitsShared s.pc - s.grantedReaders

end State

/-- What the lock promises: a writer owns it alone, the counts are those of the owners and
waiters, each hand-off is signalled once and taken once, and where somebody waits somebody
owns it. -/
structure Orderly (s : State T) : Prop where
  alone : s.writerOwners ≤ 1 ∧ (s.writerOwners = 1 → s.readerOwners = 0)
  lockCount : s.lock.lockCount.toInt + 1 =
    s.writerOwners + s.readerOwners + s.waitingWriters + s.waitingReaders
  writersWaiting : s.lock.writersWaitingCount.toNat = s.waitingWriters
  readersWaiting : s.lock.readersWaitingCount.toNat = s.waitingReaders
  writersGranted : s.grantedWriters ≤ tally Pc.waitsExclusive s.pc
  readersGranted : s.grantedReaders ≤ tally Pc.waitsShared s.pc
  writerSignals : s.writers.given + tally Pc.writerHandOff s.pc = s.writers.decided ∧
    s.writers.woken + s.lock.writerEvent.toNat = s.writers.given
  readerSignals : s.readers.given + tally Pc.readerHandOff s.pc = s.readers.decided ∧
    s.readers.woken + s.lock.readerSemaphore = s.readers.given
  owned : 0 < s.waitingWriters + s.waitingReaders → 0 < s.writerOwners + s.readerOwners

/-! ## The invariant -/

/-- The counts of the threads, without the threads. -/
structure Counts where
  waitsExclusive : Nat
  waitsShared : Nat
  ownsExclusive : Nat
  ownsShared : Nat
  writerHandOff : Nat
  readerHandOff : Nat

def counts (pc : T → Pc) : Counts :=
  ⟨tally Pc.waitsExclusive pc, tally Pc.waitsShared pc, tally Pc.ownsExclusive pc,
    tally Pc.ownsShared pc, tally Pc.writerHandOff pc, tally Pc.readerHandOff pc⟩

/-- All threads that hold the lock or wait for it. -/
def Counts.occupied (c : Counts) : Nat :=
  c.ownsExclusive + c.ownsShared + c.waitsExclusive + c.waitsShared

/-- The invariant of the lock and the counts, with the count of readers, and why a reader
that leaves last finds a writer. -/
structure Inv (l : Erwlock) (c : Counts) : Prop where
  alone : c.ownsExclusive + c.writerHandOff + l.writerEvent.toNat ≤ 1
  apart : c.ownsExclusive + c.writerHandOff + l.writerEvent.toNat = 0 ∨
    c.ownsShared + c.readerHandOff + l.readerSemaphore = 0
  lockCount : l.lockCount.toInt + 1 = c.occupied
  readersEntry : l.readersEntryCount.toNat = c.ownsShared + c.readerHandOff + l.readerSemaphore
  writersWaiting : l.writersWaitingCount.toNat + c.writerHandOff + l.writerEvent.toNat =
    c.waitsExclusive
  readersWaiting : l.readersWaitingCount.toNat + c.readerHandOff + l.readerSemaphore = c.waitsShared
  owned : 0 < c.occupied → 0 < c.ownsExclusive + c.writerHandOff + l.writerEvent.toNat +
    (c.ownsShared + c.readerHandOff + l.readerSemaphore)
  behind : 0 < l.readersEntryCount.toNat → 0 < l.readersWaitingCount.toNat →
    0 < l.writersWaitingCount.toNat

/-- Each hand-off is signalled once, and each signal taken once. -/
structure Booked (l : Erwlock) (c : Counts) (writers readers : Ledger) : Prop where
  writerSignals : writers.given + c.writerHandOff = writers.decided ∧
    writers.woken + l.writerEvent.toNat = writers.given
  readerSignals : readers.given + c.readerHandOff = readers.decided ∧
    readers.woken + l.readerSemaphore = readers.given

variable {s : State T} {l : Erwlock} {c c' : Counts} {writers readers : Ledger}

omit [DecidableEq T] in
theorem Inv.orderly (h : Inv s.lock (counts s.pc))
    (hbooked : Booked s.lock (counts s.pc) s.writers s.readers) : Orderly s := by
  have halone := h.alone
  have hapart := h.apart
  have hcount := h.lockCount
  have hwriters := h.writersWaiting
  have hreaders := h.readersWaiting
  have howned := h.owned
  constructor <;>
    simp only [State.writerOwners, State.readerOwners, State.waitingWriters,
      State.waitingReaders, State.grantedWriters, State.grantedReaders, counts,
      Counts.occupied] at *
  case writerSignals => exact hbooked.writerSignals
  case readerSignals => exact hbooked.readerSignals
  all_goals omega

omit [DecidableEq T] in
theorem occupied_le (pc : T → Pc) : (counts pc).occupied ≤ Fintype.card T := by
  unfold Counts.occupied counts
  rw [← tally_add, ← tally_add, ← tally_add]
  refine tally_le_card fun p => ?_
  cases p <;> simp [Pc.ownsExclusive, Pc.ownsShared, Pc.waitsExclusive, Pc.waitsShared]

/-! ## The sections -/

/-- How the counts change when a thread goes from one place to another. -/
structure Moved (c c' : Counts) (p q : Pc) : Prop where
  waitsExclusive : c'.waitsExclusive + p.waitsExclusive = c.waitsExclusive + q.waitsExclusive
  waitsShared : c'.waitsShared + p.waitsShared = c.waitsShared + q.waitsShared
  ownsExclusive : c'.ownsExclusive + p.ownsExclusive = c.ownsExclusive + q.ownsExclusive
  ownsShared : c'.ownsShared + p.ownsShared = c.ownsShared + q.ownsShared
  writerHandOff : c'.writerHandOff + p.writerHandOff = c.writerHandOff + q.writerHandOff
  readerHandOff : c'.readerHandOff + p.readerHandOff = c.readerHandOff + q.readerHandOff

theorem moved {pc : T → Pc} {t : T} {p : Pc} (hpc : pc t = p) (q : Pc) :
    Moved (counts pc) (counts (update pc t q)) p q := by
  subst hpc
  exact ⟨tally_update _ pc t q, tally_update _ pc t q, tally_update _ pc t q,
    tally_update _ pc t q, tally_update _ pc t q, tally_update _ pc t q⟩

/-- The counts after the move. -/
theorem Moved.eq {p q : Pc} (h : Moved c c' p q) : c' =
    ⟨c.waitsExclusive + q.waitsExclusive - p.waitsExclusive,
      c.waitsShared + q.waitsShared - p.waitsShared,
      c.ownsExclusive + q.ownsExclusive - p.ownsExclusive,
      c.ownsShared + q.ownsShared - p.ownsShared,
      c.writerHandOff + q.writerHandOff - p.writerHandOff,
      c.readerHandOff + q.readerHandOff - p.readerHandOff⟩ := by
  rw [← h.1, ← h.2, ← h.3, ← h.4, ← h.5, ← h.6]
  simp only [Nat.add_sub_cancel]

/-- A section gives no signal and ends no wait. -/
theorem Booked.run (h : Booked l c writers readers) {l' : Erwlock} {p q : Pc}
    (hmoved : Moved c c' p q) (hp : p.writerHandOff = 0 ∧ p.readerHandOff = 0)
    (hevent : l'.writerEvent = l.writerEvent) (hsemaphore : l'.readerSemaphore = l.readerSemaphore) :
    Booked l' c' { writers with decided := writers.decided + q.writerHandOff }
      { readers with decided := readers.decided + q.readerHandOff } := by
  have hwriters := h.writerSignals
  have hreaders := h.readerSignals
  have hw := hmoved.writerHandOff
  have hr := hmoved.readerHandOff
  refine ⟨⟨?_, ?_⟩, ?_, ?_⟩ <;> dsimp only <;> (try rw [hevent]) <;> (try rw [hsemaphore]) <;> omega

attribute [local simp] Pc.waitsExclusive Pc.waitsShared Pc.ownsExclusive Pc.ownsShared
  Pc.writerHandOff Pc.readerHandOff

theorem Inv.acquireExclusive (h : Inv l c)
    (hmoved : Moved c c' .idle (exAcquireReadWriteLockExclusive l).2) (hroom : c'.occupied ≤ 2 ^ 31) :
    Inv (exAcquireReadWriteLockExclusive l).1 c' := by
  obtain ⟨halone, hapart, hcount, hentry, hwriters, hreaders, howned, hbehind⟩ := h
  obtain rfl := hmoved.eq
  simp only [Counts.occupied] at *
  unfold exAcquireReadWriteLockExclusive at *
  by_cases hfree : l.lockCount + 1 = 0
  · rw [if_neg (not_not.2 hfree)] at *
    rw [long_eq_zero] at hfree
    dsimp at hroom
    have hsucc := long_add_one (x := l.lockCount) (by omega)
    constructor <;> dsimp [Counts.occupied] <;> omega
  · rw [if_pos hfree] at *
    rw [long_eq_zero] at hfree
    dsimp at hroom
    have hsucc := long_add_one (x := l.lockCount) (by omega)
    have hplus := ulong_add_one (x := l.writersWaitingCount) (by omega)
    constructor <;> dsimp [Counts.occupied] <;> omega

theorem Inv.acquireShared (h : Inv l c)
    (hmoved : Moved c c' .idle (exAcquireReadWriteLockShared l).2) (hroom : c'.occupied ≤ 2 ^ 31) :
    Inv (exAcquireReadWriteLockShared l).1 c' := by
  obtain ⟨halone, hapart, hcount, hentry, hwriters, hreaders, howned, hbehind⟩ := h
  obtain rfl := hmoved.eq
  simp only [Counts.occupied] at *
  unfold exAcquireReadWriteLockShared at *
  dsimp only at *
  split_ifs at * with hwait <;> dsimp at hroom
  · rw [ne_eq, long_eq_zero, ne_eq, ulong_eq_zero, ulong_eq_zero] at hwait
    have hsucc := long_add_one (x := l.lockCount) (by omega)
    have hplus := ulong_add_one (x := l.readersWaitingCount) (by omega)
    constructor <;> dsimp [Counts.occupied] <;> omega
  · rw [ne_eq, long_eq_zero, ne_eq, ulong_eq_zero, ulong_eq_zero] at hwait
    have hsucc := long_add_one (x := l.lockCount) (by omega)
    have hplus := ulong_add_one (x := l.readersEntryCount) (by omega)
    constructor <;> dsimp [Counts.occupied] <;> omega

theorem Inv.release (h : Inv l c) {p : Pc}
    (hp : p = .exclusive ∧ 0 < c.ownsExclusive ∨ p = .shared ∧ 0 < c.ownsShared)
    (hmoved : Moved c c' p (exReleaseReadWriteLock l).2) : Inv (exReleaseReadWriteLock l).1 c' := by
  obtain ⟨halone, hapart, hcount, hentry, hwriters, hreaders, howned, hbehind⟩ := h
  obtain rfl := hmoved.eq
  simp only [Counts.occupied] at *
  have hpred := long_sub_one (x := l.lockCount) (by omega)
  unfold exReleaseReadWriteLock
  dsimp only
  by_cases hfree : l.lockCount - 1 = -1
  · rw [if_pos hfree]
    rw [long_eq_neg_one] at hfree
    rcases hp with ⟨rfl, hsome⟩ | ⟨rfl, hsome⟩ <;> constructor <;>
      dsimp [Counts.occupied] <;> omega
  rw [if_neg hfree]
  rw [long_eq_neg_one] at hfree
  rcases hp with ⟨rfl, hsome⟩ | ⟨rfl, hsome⟩
  · rw [if_pos (ulong_eq_zero.2 (by omega))]
    by_cases hwaiting : l.readersWaitingCount = 0
    · rw [if_neg (not_not.2 hwaiting)]
      rw [ulong_eq_zero] at hwaiting
      have hminus := ulong_sub_one (x := l.writersWaitingCount) (by omega)
      constructor <;> dsimp [Counts.occupied, RwLock.handToWriter] <;> omega
    · rw [if_pos hwaiting]
      rw [ulong_eq_zero] at hwaiting
      constructor <;> dsimp [Counts.occupied] <;> omega
  · have hminus := ulong_sub_one (x := l.readersEntryCount) (by omega)
    rw [if_neg (mt ulong_eq_zero.1 (by omega))]
    by_cases hlast : l.readersEntryCount - 1 = 0
    · rw [if_neg (not_not.2 hlast)]
      rw [ulong_eq_zero] at hlast
      have hless := ulong_sub_one (x := l.writersWaitingCount) (by omega)
      constructor <;> dsimp [Counts.occupied, RwLock.handToWriter] <;> omega
    · rw [if_pos hlast]
      rw [ulong_eq_zero] at hlast
      constructor <;> dsimp [Counts.occupied] <;> omega

/-! ## Runs -/

/-- The invariant of the whole state. -/
structure Sound (s : State T) : Prop where
  inv : Inv s.lock (counts s.pc)
  booked : Booked s.lock (counts s.pc) s.writers s.readers

namespace Sound

/-- A section leaves event and semaphore alone. -/
theorem after (h : Sound s) {t : T} {p : Pc} (hpc : s.pc t = p)
    (hp : p.writerHandOff = 0 ∧ p.readerHandOff = 0) {run : Erwlock × Pc}
    (hinv : Inv run.1 (counts (update s.pc t run.2)))
    (hsame : run.1.writerEvent = s.lock.writerEvent ∧
      run.1.readerSemaphore = s.lock.readerSemaphore) : Sound (s.after t run) :=
  ⟨hinv, h.booked.run (moved hpc run.2) hp hsame.1 hsame.2⟩

theorem acquireExclusive (h : Sound s) (hcard : Fintype.card T ≤ 2 ^ 31) (t : T) :
    Sound (s.apply (.acquireExclusive t)) := by
  dsimp only [State.apply]
  split
  · next hpc =>
    refine h.after hpc ⟨rfl, rfl⟩ (h.inv.acquireExclusive (moved hpc _) ?_) ?_
    · exact (occupied_le _).trans hcard
    · unfold exAcquireReadWriteLockExclusive
      dsimp only
      split <;> exact ⟨rfl, rfl⟩
  · exact h

theorem acquireShared (h : Sound s) (hcard : Fintype.card T ≤ 2 ^ 31) (t : T) :
    Sound (s.apply (.acquireShared t)) := by
  dsimp only [State.apply]
  split
  · next hpc =>
    refine h.after hpc ⟨rfl, rfl⟩ (h.inv.acquireShared (moved hpc _) ?_) ?_
    · exact (occupied_le _).trans hcard
    · unfold exAcquireReadWriteLockShared
      dsimp only
      split <;> exact ⟨rfl, rfl⟩
  · exact h

omit [DecidableEq T] [Fintype T] in
theorem release_same (l : Erwlock) :
    (exReleaseReadWriteLock l).1.writerEvent = l.writerEvent ∧
      (exReleaseReadWriteLock l).1.readerSemaphore = l.readerSemaphore := by
  unfold exReleaseReadWriteLock handToWriter
  dsimp only
  split
  · exact ⟨rfl, rfl⟩
  · split
    · split <;> exact ⟨rfl, rfl⟩
    · split <;> exact ⟨rfl, rfl⟩

theorem release (h : Sound s) (t : T) : Sound (s.apply (.release t)) := by
  dsimp only [State.apply]
  split
  · next hpc =>
    have hsome := le_tally Pc.ownsExclusive s.pc t
    rw [hpc] at hsome
    exact h.after hpc ⟨rfl, rfl⟩ (h.inv.release (.inl ⟨rfl, hsome⟩) (moved hpc _)) (release_same _)
  · next hpc =>
    have hsome := le_tally Pc.ownsShared s.pc t
    rw [hpc] at hsome
    exact h.after hpc ⟨rfl, rfl⟩ (h.inv.release (.inr ⟨rfl, hsome⟩) (moved hpc _)) (release_same _)
  · exact h

/-- A thread that signals does not wait itself, so fewer threads wait than exist. -/
theorem waitsShared_lt {k : Nat} (hcard : Fintype.card T ≤ k) {t : T} {waiting : UInt32}
    (hpc : s.pc t = .signalReaders waiting) : (counts s.pc).waitsShared < k := by
  have hmoved := moved hpc .waitShared
  have hone := hmoved.waitsShared
  have hle := (occupied_le (update s.pc t .waitShared)).trans hcard
  simp only [Pc.waitsShared, Nat.add_zero, Counts.occupied] at hone hle
  omega

theorem signal (h : Sound s) (hcard : Fintype.card T ≤ 2 ^ 31) (t : T) :
    Sound (s.apply (.signal t)) := by
  have hsound := h
  obtain ⟨⟨halone, hapart, hcount, hentry, hwriters, hreaders, howned, hbehind⟩,
    ⟨hwrite, hread⟩⟩ := h
  dsimp only [State.apply]
  cases hpc : s.pc t with
  | signalReaders waiting =>
    have hroom := waitsShared_lt hcard hpc
    have hhas := (moved hpc .idle).readerHandOff
    simp only [Counts.occupied, keReleaseSemaphore, Pc.readerHandOff] at *
    rw [if_pos (by omega)]
    constructor <;> dsimp only <;> rw [(moved hpc .idle).eq] <;> constructor <;>
      dsimp [Counts.occupied] <;> omega
  | signalWriter =>
    -- The event is not set when a signal is given to a writer, so none is lost.
    have hhas := (moved hpc .idle).writerHandOff
    simp only [Counts.occupied, keSetEvent, Pc.writerHandOff] at *
    constructor <;> dsimp only <;> rw [(moved hpc .idle).eq] <;> constructor <;>
      dsimp [Counts.occupied] <;> omega
  | _ => exact hsound

theorem wake (h : Sound s) (t : T) : Sound (s.apply (.wake t)) := by
  have hsound := h
  obtain ⟨⟨halone, hapart, hcount, hentry, hwriters, hreaders, howned, hbehind⟩,
    ⟨hwrite, hread⟩⟩ := h
  dsimp only [State.apply]
  split
  · next hpc =>
    split
    · next hevent =>
      simp only [Counts.occupied, hevent, Bool.toNat_true] at *
      constructor <;> dsimp only <;> rw [(moved hpc .exclusive).eq] <;> constructor <;>
        dsimp [Counts.occupied] <;> omega
    · exact hsound
  · next hpc =>
    split
    · next hsome =>
      simp only [Counts.occupied] at *
      constructor <;> dsimp only <;> rw [(moved hpc .shared).eq] <;> constructor <;>
        dsimp [Counts.occupied] <;> omega
    · exact hsound
  · exact hsound

theorem step (h : Sound s) (hcard : Fintype.card T ≤ 2 ^ 31) (a : Act T) : Sound (s.apply a) := by
  cases a with
  | acquireExclusive t => exact h.acquireExclusive hcard t
  | acquireShared t => exact h.acquireShared hcard t
  | release t => exact h.release t
  | signal t => exact h.signal hcard t
  | wake t => exact h.wake t

omit [DecidableEq T] in
theorem initial : Sound (State.initial : State T) := by
  have hzero : counts (fun _ : T => Pc.idle) = ⟨0, 0, 0, 0, 0, 0⟩ := by
    unfold counts
    simp only [tally_const, Pc.waitsExclusive, Pc.waitsShared, Pc.ownsExclusive, Pc.ownsShared,
      Pc.writerHandOff, Pc.readerHandOff, Nat.mul_zero]
  unfold State.initial
  constructor <;> dsimp only <;> rw [hzero]
  · constructor <;> decide
  · constructor <;> decide

end Sound

/-- With at most `2 ^ 31` threads the lock keeps its promises in every run. -/
theorem rwlock_orderly (hcard : Fintype.card T ≤ 2 ^ 31)
    (hrun : Reachable (· = State.initial) Step s) : Orderly s := by
  have hsound : Sound s := by
    refine Reachable.invariant ?_ ?_ hrun
    · rintro _ rfl
      exact Sound.initial
    · rintro u a _ hu rfl
      exact hu.step hcard a
  exact hsound.inv.orderly hsound.booked

theorem rwlock_orderly_two : Fintype.card (Fin 2) ≤ 2 ^ 31 ∧
    Orderly (((State.initial : State (Fin 2)).apply (.acquireExclusive 0)).apply (.acquireShared 1)) :=
  ⟨by decide, rwlock_orderly (by decide) (.next _ (.next _ (.start rfl) rfl) rfl)⟩

/-! ## More threads than the lock can count -/

/-- The first of `n` threads have acquired the lock for reading. -/
def crowd {n : Nat} (k : Nat) : State (Fin n) where
  lock := ⟨Int32.ofNat k - 1, 0, 0, UInt32.ofNat k, false, 0⟩
  pc := fun t => if t.val < k then .shared else .idle
  writers := ⟨0, 0, 0⟩
  readers := ⟨0, 0, 0⟩

theorem crowd_succ {n k : Nat} (hk : k < n) (hlow : k < 2 ^ 32) :
    (crowd k : State (Fin n)).apply (.acquireShared ⟨k, hk⟩) = crowd (k + 1) := by
  have hidle : (crowd k : State (Fin n)).pc ⟨k, hk⟩ = .idle := if_neg (Nat.lt_irrefl k)
  have hcount : Int32.ofNat k - 1 + 1 = Int32.ofNat (k + 1) - 1 := by
    rw [Int32.ofNat_add, Int32.sub_add_cancel]
    exact (Int32.add_sub_cancel _ _).symm
  have hgoes : ¬(Int32.ofNat k - 1 + 1 ≠ 0 ∧ (UInt32.ofNat k = 0 ∨ (0 : UInt32) ≠ 0)) := by
    rintro ⟨hne, hwait⟩
    have hzero := (ulong_eq_zero.1 (hwait.resolve_right (absurd rfl)))
    rw [UInt32.toNat_ofNat_of_lt' hlow] at hzero
    rw [hzero] at hne
    exact hne rfl
  have hpc : update (crowd k : State (Fin n)).pc ⟨k, hk⟩ .shared = (crowd (k + 1)).pc := by
    funext t
    by_cases ht : t = ⟨k, hk⟩
    · rw [ht, update_self]
      exact (if_pos (Nat.lt_succ_self k)).symm
    · rw [update_of_ne ht]
      have hne : t.val ≠ k := fun heq => ht (Fin.ext heq)
      exact if_congr (by omega) rfl rfl
  have hrun : exAcquireReadWriteLockShared (crowd k : State (Fin n)).lock =
      ((crowd (k + 1) : State (Fin n)).lock, .shared) := by
    unfold exAcquireReadWriteLockShared crowd
    rw [if_neg hgoes, hcount, UInt32.ofNat_add]
    rfl
  dsimp only [State.apply]
  rw [hidle]
  dsimp only [State.after]
  rw [hrun, hpc]
  rfl

theorem crowd_reachable {n k : Nat} (hk : k ≤ n) (hlow : k ≤ 2 ^ 32) :
    Reachable (· = State.initial) Step (crowd k : State (Fin n)) := by
  induction k with
  | zero => exact .start rfl
  | succ k ih => exact .next _ (ih (by omega) (by omega)) (crowd_succ hk (by omega))

/-- One reader more, and the count of the lock is negative. -/
theorem rwlock_overflow : ∃ s : State (Fin (2 ^ 31 + 1)),
    Reachable (· = State.initial) Step s ∧ s.lock.lockCount.toInt = -2 ^ 31 ∧ ¬Orderly s := by
  have hcount : (crowd (2 ^ 31 + 1) : State (Fin (2 ^ 31 + 1))).lock.lockCount.toInt = -2 ^ 31 := by
    decide
  refine ⟨crowd (2 ^ 31 + 1), crowd_reachable (Nat.le_refl _) (by decide), hcount, ?_⟩
  intro horderly
  have heq := horderly.lockCount
  omega

end Roswell.Ports.RwLock
