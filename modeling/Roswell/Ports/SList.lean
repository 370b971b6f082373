import Mathlib.Data.List.Count
import Roswell.Verified.Runs
import Roswell.Verified.SingleLink
import Roswell.Verified.Word

/-!
# The interlocked singly linked list

Model of `XeInterlockedPopEntrySList`, `XeInterlockedPushEntrySList` and
`ExInterlockedFlushSList`, one memory access at a time.  The 64-bit head is loaded as two
32-bit halves, in either order in push and pop and with the high half first in the flush;
only the compare-exchange sees it whole.

A pop counts in the sequence number of the head, a flush does not.  So a popper whose head
was flushed and built up again, with the same first entry and the same depth, does not
notice, and links in the entry that used to be second.

## Main results

* `slist_sound`: every entry is on the list once or owned by one caller, as long as no
  flush completes between a popper's head load and its compare-exchange.
* `slist_flushed`: a run with one flush after which one entry is on the list and owned, and
  another is lost.
-/

namespace Roswell.Ports.SList

open Verified.Runs Verified.SingleLink Verified.Word Function

/-! ## The calls -/

/-- `SLIST_HEADER`: `Next`, `Depth` and `Sequence`. -/
structure Head where
  first : Nat
  depth : UInt16
  sequence : UInt16
  deriving DecidableEq, Repr

/-- How many calls have completed with a compare-exchange. -/
@[ext]
structure History where
  pops : Nat
  pushes : Nat
  flushes : Nat
  deriving DecidableEq, Repr

/-- The high half of a head, and what had completed when it was loaded. -/
structure High where
  depth : UInt16
  sequence : UInt16
  since : History
  deriving DecidableEq, Repr

/-- What has been loaded of the head. -/
inductive Half where
  | neither
  | low (first : Nat)
  | high (h : High)
  deriving DecidableEq, Repr

/-- Both halves of a head, and whether the low one was loaded first. -/
structure Copy where
  first : Nat
  high : High
  lowFirst : Bool
  deriving DecidableEq, Repr

def Copy.head (c : Copy) : Head := ⟨c.first, c.high.depth, c.high.sequence⟩

inductive Op where
  | pop
  | push (e : Nat)
  | flush
  deriving DecidableEq, Repr

/-- Where a thread is, by the access it makes next. -/
inductive Pc where
  | outside
  | load (op : Op) (half : Half)
  | popNext (c : Copy)
  | popSwap (c : Copy) (next : Nat)
  | pushLink (e : Nat) (c : Copy)
  | pushSwap (e : Nat) (c : Copy)
  | flushSwap (old : Head)
  deriving DecidableEq, Repr

/-- What a call does with the head it has loaded. -/
def Op.loaded (op : Op) (c : Copy) : Pc :=
  match op with
  | .pop => if c.first = 0 then .outside else .popNext c
  | .push e => .pushLink e c
  | .flush => if c.first = 0 then .outside else .flushSwap c.head

/-- The head, the `Next` of every entry, and the callers each entry has been returned to and
not been pushed by since. -/
structure Memory (T : Type) where
  head : Head
  next : Nat → Nat
  owners : Nat → List T
  history : History

structure State (T : Type) where
  memory : Memory T
  pc : T → Pc

inductive Act (T : Type) where
  | pop (t : T)
  | push (t : T) (e : Nat)
  | flush (t : T)
  /-- The next access of a thread that is inside a call. -/
  | access (t : T) (low : Bool)
  /-- An owner uses its entry for something else. -/
  | write (t : T) (e value : Nat)
  /-- An owner hands its entry to another thread. -/
  | give (t u : T) (e : Nat)

variable {T : Type} [DecidableEq T]

namespace Memory

def link (m : Memory T) (e value : Nat) : Memory T :=
  { m with next := update m.next e value }

def give (m : Memory T) (t u : T) (e : Nat) : Memory T :=
  { m with owners := update m.owners e (u :: (m.owners e).erase t) }

/-- The exchange of a pop: `Depth` goes down and `Sequence` up. -/
def pop (m : Memory T) (t : T) (c : Copy) (next : Nat) : Memory T where
  head := ⟨next, c.high.depth - 1, c.high.sequence + 1⟩
  next := m.next
  owners := update m.owners c.first (t :: m.owners c.first)
  history := { m.history with pops := m.history.pops + 1 }

/-- The exchange of a push: `Depth` goes up and `Sequence` stays. -/
def push (m : Memory T) (t : T) (e : Nat) (c : Copy) : Memory T where
  head := ⟨e, c.high.depth + 1, c.high.sequence⟩
  next := m.next
  owners := update m.owners e ((m.owners e).erase t)
  history := { m.history with pushes := m.history.pushes + 1 }

/-- The exchange of a flush: `Next` and `Depth` become zero and `Sequence` stays.  The
caller gets every entry the first one leads to. -/
def flush (m : Memory T) (t : T) (old : Head) : Memory T where
  head := ⟨0, 0, old.sequence⟩
  next := m.next
  owners := fun e =>
    if e ∈ walk m.next m.history.pushes old.first then t :: m.owners e else m.owners e
  history := { m.history with flushes := m.history.flushes + 1 }

end Memory

namespace State

def put (s : State T) (m : Memory T) (t : T) (p : Pc) : State T := ⟨m, update s.pc t p⟩

def goto (s : State T) (t : T) (p : Pc) : State T := s.put s.memory t p

def access (s : State T) (t : T) (low : Bool) : State T :=
  match s.pc t with
  | .outside => s
  | .load op .neither =>
    if low = true ∧ op ≠ .flush then s.goto t (.load op (.low s.memory.head.first))
    else s.goto t (.load op (.high
      ⟨s.memory.head.depth, s.memory.head.sequence, s.memory.history⟩))
  | .load op (.low first) =>
    s.goto t (op.loaded
      ⟨first, ⟨s.memory.head.depth, s.memory.head.sequence, s.memory.history⟩, true⟩)
  | .load op (.high h) => s.goto t (op.loaded ⟨s.memory.head.first, h, false⟩)
  | .popNext c => s.goto t (.popSwap c (s.memory.next c.first))
  | .popSwap c next =>
    if s.memory.head = c.head then s.put (s.memory.pop t c next) t .outside
    else s.goto t (.load .pop .neither)
  | .pushLink e c => s.put (s.memory.link e c.first) t (.pushSwap e c)
  | .pushSwap e c =>
    if s.memory.head = c.head then s.put (s.memory.push t e c) t .outside
    else s.goto t (.load (.push e) .neither)
  | .flushSwap old =>
    if s.memory.head = old then s.put (s.memory.flush t old) t .outside
    -- a failed exchange has loaded the head as it is now
    else if s.memory.head.first = 0 then s.goto t .outside
    else s.goto t (.flushSwap s.memory.head)

/-- A thread calls from outside, and pushes, uses and hands on only what it owns. -/
def apply (s : State T) : Act T → State T
  | .pop t => if s.pc t = .outside then s.goto t (.load .pop .neither) else s
  | .push t e =>
    if s.pc t = .outside ∧ e ≠ 0 ∧ t ∈ s.memory.owners e then
      s.goto t (.load (.push e) .neither)
    else s
  | .flush t => if s.pc t = .outside then s.goto t (.load .flush .neither) else s
  | .access t low => s.access t low
  | .write t e value =>
    if s.pc t = .outside ∧ e ≠ 0 ∧ t ∈ s.memory.owners e then
      s.put (s.memory.link e value) t .outside
    else s
  | .give t u e =>
    if s.pc t = .outside ∧ e ≠ 0 ∧ t ∈ s.memory.owners e then
      s.put (s.memory.give t u e) t .outside
    else s

end State

/-- Fewer than `2 ^ 16` removals complete between a popper's head load and its exchange. -/
def Act.Bounded (s : State T) : Act T → Prop
  | .access t _ => ∀ c next, s.pc t = .popSwap c next →
      s.memory.history.pops + s.memory.history.flushes <
        c.high.since.pops + c.high.since.flushes + 2 ^ 16
  | _ => True

/-- A popper's exchange that finds the head it has loaded: no flush has completed since
the load of the high half, and, if the low half was loaded before it, not `2 ^ 16` pushes. -/
def Act.Careful (s : State T) : Act T → Prop
  | .access t _ => ∀ c next, s.pc t = .popSwap c next → s.memory.head = c.head →
      s.memory.history.flushes = c.high.since.flushes ∧
        (c.lowFirst = true → s.memory.history.pushes < c.high.since.pushes + 2 ^ 16)
  | _ => True

/-- The copy a popper is about to exchange. -/
def Pc.swapping : Pc → Option Copy
  | .popSwap c _ => some c
  | _ => none

theorem Pc.forall_swapping {p : Pc} {P : Copy → Prop} :
    (∀ c ∈ p.swapping, P c) ↔ ∀ c next, p = .popSwap c next → P c := by
  cases p <;> simp [swapping]

instance (s : State T) : (a : Act T) → Decidable (a.Bounded s)
  | .access _ _ => decidable_of_iff _ Pc.forall_swapping
  | .pop _ | .push _ _ | .flush _ | .write _ _ _ | .give _ _ _ => inferInstanceAs (Decidable True)

instance (s : State T) : (a : Act T) → Decidable (a.Careful s)
  | .access _ _ => decidable_of_iff _ Pc.forall_swapping
  | .pop _ | .push _ _ | .flush _ | .write _ _ _ | .give _ _ _ => inferInstanceAs (Decidable True)

def Step (s : State T) (a : Act T) (s' : State T) : Prop := a.Bounded s ∧ s.apply a = s'

def CarefulStep (s : State T) (a : Act T) (s' : State T) : Prop := a.Careful s ∧ Step s a s'

/-- An empty list, with every entry owned by some thread and no call going on. -/
structure Start (s : State T) : Prop where
  head : s.memory.head = ⟨0, 0, 0⟩
  history : s.memory.history = ⟨0, 0, 0⟩
  owners : ∀ e, e ≠ 0 → (s.memory.owners e).length = 1
  pc : ∀ t, s.pc t = .outside

/-- The entries form a list; each is on it once and owned by nobody, or owned by one caller;
and `Depth` is their number modulo `2 ^ 16`. -/
def Sound (m : Memory T) : Prop :=
  ∃ l, Linked m.next m.head.first l ∧ (∀ e, e ≠ 0 → l.count e + (m.owners e).length = 1) ∧
    m.head.depth = UInt16.ofNat l.length

/-! ## The invariant -/

structure History.Le (a b : History) : Prop where
  pops : a.pops ≤ b.pops
  pushes : a.pushes ≤ b.pushes
  flushes : a.flushes ≤ b.flushes

/-- No removal has completed in between. -/
def History.Quiet (a b : History) : Prop := a.pops = b.pops ∧ a.flushes = b.flushes

structure Good (m : Memory T) (l : List Nat) : Prop where
  linked : Linked m.next m.head.first l
  once : ∀ e, e ≠ 0 → l.count e + (m.owners e).length = 1
  depth : m.head.depth = UInt16.ofNat l.length
  sequence : m.head.sequence = UInt16.ofNat m.history.pops
  pushes : l.length ≤ m.history.pushes

/-- The sequence number counts the pops; while there is no removal, the depth counts the
pushes. -/
structure High.Knows (m : Memory T) (l : List Nat) (h : High) : Prop where
  le : h.since.Le m.history
  sequence : h.sequence = UInt16.ofNat h.since.pops
  depth : h.since.Quiet m.history →
    ∃ k, h.depth = UInt16.ofNat k ∧ l.length + h.since.pushes = k + m.history.pushes

def Half.Knows (m : Memory T) (l : List Nat) : Half → Prop
  | .high h => h.Knows m l
  | _ => True

def Op.Knows (m : Memory T) (t : T) : Op → Prop
  | .push e => e ≠ 0 ∧ t ∈ m.owners e
  | _ => True

def Pc.Knows (m : Memory T) (l : List Nat) (t : T) : Pc → Prop
  | .outside => True
  | .load op half => op.Knows m t ∧ half.Knows m l
  | .popNext c =>
    c.first ≠ 0 ∧ c.high.Knows m l ∧
      (c.lowFirst = false → c.high.since.Quiet m.history → c.first ∈ l)
  | .popSwap c next =>
    c.first ≠ 0 ∧ c.high.Knows m l ∧
      (c.lowFirst = false → c.high.since.Quiet m.history → c.first ∈ l ∧ m.next c.first = next) ∧
      (c.lowFirst = true → m.history = c.high.since → m.head.first = c.first →
        m.next c.first = next)
  | .pushLink e _ => e ≠ 0 ∧ t ∈ m.owners e
  | .pushSwap e c => (e ≠ 0 ∧ t ∈ m.owners e) ∧ m.next e = c.first
  | .flushSwap _ => True

def Inv (s : State T) : Prop :=
  ∃ l, Good s.memory l ∧ ∀ t, (s.pc t).Knows s.memory l t

/-- What a step of another thread keeps, as one thread sees it. -/
structure Moved (u : T) (m : Memory T) (l : List Nat) (m' : Memory T) (l' : List Nat) : Prop where
  le : m.history.Le m'.history
  owned : ∀ e, e ≠ 0 → u ∈ m.owners e → u ∈ m'.owners e ∧ m'.next e = m.next e
  listed : ∀ e ∈ l, m'.next e = m.next e
  quiet : m.history.Quiet m'.history →
    l ⊆ l' ∧ l'.length + m.history.pushes = l.length + m'.history.pushes
  still : m'.history = m.history → m'.head = m.head

section
variable {m m' : Memory T} {l l' : List Nat} {t u : T} {s s' : State T}

theorem History.Le.refl (a : History) : a.Le a := ⟨le_rfl, le_rfl, le_rfl⟩

theorem History.Le.trans {a b c : History} (hab : a.Le b) (hbc : b.Le c) : a.Le c :=
  ⟨hab.pops.trans hbc.pops, hab.pushes.trans hbc.pushes, hab.flushes.trans hbc.flushes⟩

theorem History.Le.antisymm {a b : History} (hab : a.Le b) (hba : b.Le a) : a = b := by
  ext
  · exact le_antisymm hab.pops hba.pops
  · exact le_antisymm hab.pushes hba.pushes
  · exact le_antisymm hab.flushes hba.flushes

/-- A quiet time is quiet in both its parts. -/
theorem History.Quiet.split {a b c : History} (h : a.Quiet c) (hab : a.Le b) (hbc : b.Le c) :
    a.Quiet b ∧ b.Quiet c := by
  obtain ⟨hpops, hflushes⟩ := h
  have := hab.pops
  have := hab.flushes
  have := hbc.pops
  have := hbc.flushes
  exact ⟨⟨by omega, by omega⟩, by omega, by omega⟩

omit [DecidableEq T] in
theorem High.Knows.moved {h : High} (hknows : h.Knows m l) (hmoved : Moved u m l m' l') :
    h.Knows m' l' where
  le := hknows.le.trans hmoved.le
  sequence := hknows.sequence
  depth hquiet := by
    obtain ⟨hbefore, hafter⟩ := hquiet.split hknows.le hmoved.le
    obtain ⟨k, hk, hlength⟩ := hknows.depth hbefore
    have hmore := (hmoved.quiet hafter).2
    exact ⟨k, hk, by omega⟩

variable {c : Copy} {e : Nat} {p : Pc}

omit [DecidableEq T] in
theorem Pc.Knows.moved (h : p.Knows m l u) (hgood : Good m l)
    (hmoved : Moved u m l m' l') : p.Knows m' l' u := by
  cases p with
  | outside => trivial
  | load op half =>
    refine ⟨?_, ?_⟩
    · cases op with
      | push e => exact ⟨h.1.1, (hmoved.owned e h.1.1 h.1.2).1⟩
      | pop => trivial
      | flush => trivial
    · cases half with
      | high g => exact High.Knows.moved h.2 hmoved
      | neither => trivial
      | low first => trivial
  | popNext c =>
    obtain ⟨hne, hhigh, hmem⟩ := h
    refine ⟨hne, hhigh.moved hmoved, ?_⟩
    intro horder hquiet
    obtain ⟨hbefore, hafter⟩ := hquiet.split hhigh.le hmoved.le
    exact (hmoved.quiet hafter).1 (hmem horder hbefore)
  | popSwap c next =>
    obtain ⟨hne, hhigh, hmem, hfirst⟩ := h
    refine ⟨hne, hhigh.moved hmoved, ?_, ?_⟩
    · intro horder hquiet
      obtain ⟨hbefore, hafter⟩ := hquiet.split hhigh.le hmoved.le
      obtain ⟨hlisted, hnext⟩ := hmem horder hbefore
      exact ⟨(hmoved.quiet hafter).1 hlisted, (hmoved.listed _ hlisted).trans hnext⟩
    · intro horder hsame hhead
      have hle : m'.history.Le m.history := hsame ▸ hhigh.le
      have hhistory : m'.history = m.history := hle.antisymm hmoved.le
      rw [hmoved.still hhistory] at hhead
      have hlisted : c.first ∈ l := hhead ▸ hgood.linked.head_mem (hhead ▸ hne)
      rw [hmoved.listed _ hlisted]
      exact hfirst horder (hhistory.symm.trans hsame) hhead
  | pushLink e c => exact ⟨h.1, (hmoved.owned e h.1 h.2).1⟩
  | pushSwap e c =>
    obtain ⟨⟨hne, howned⟩, hnext⟩ := h
    obtain ⟨hkept, hsame⟩ := hmoved.owned e hne howned
    exact ⟨⟨hne, hkept⟩, hsame.trans hnext⟩
  | flushSwap old => trivial

/-- A step of one thread: what it knows afterwards is shown, and the others keep what they
know. -/
theorem Inv.of_thread (hknows : ∀ u, (s.pc u).Knows s.memory l u)
    (hgood : Good s.memory l) (hgood' : Good m' l')
    (hmoved : ∀ u, u ≠ t → Moved u s.memory l m' l') (hself : p.Knows m' l' t) :
    Inv (s.put m' t p) := by
  refine ⟨l', hgood', ?_⟩
  intro u
  by_cases hu : u = t
  · subst hu
    rw [show (s.put m' u p).pc u = p from update_self ..]
    exact hself
  · rw [show (s.put m' t p).pc u = s.pc u from update_of_ne hu ..]
    exact (hknows u).moved hgood (hmoved u hu)

omit [DecidableEq T] in
theorem Moved.refl (u : T) (m : Memory T) (l : List Nat) : Moved u m l m l where
  le := .refl _
  owned _ _ h := ⟨h, rfl⟩
  listed _ _ := rfl
  quiet _ := ⟨List.Subset.refl l, rfl⟩
  still _ := rfl

theorem Inv.goto (hknows : ∀ u, (s.pc u).Knows s.memory l u)
    (hgood : Good s.memory l) (hself : p.Knows s.memory l t) : Inv (s.goto t p) :=
  Inv.of_thread hknows hgood hgood (fun u _ => .refl u _ _) hself

/-! ## The entries -/

omit [DecidableEq T] in
/-- An owned entry has no other owner and is not on the list. -/
theorem Good.owned (h : Good m l) (hne : e ≠ 0) (howned : t ∈ m.owners e) :
    m.owners e = [t] ∧ e ∉ l := by
  have honce := h.once e hne
  have hpos := List.length_pos_of_mem howned
  refine ⟨?_, ?_⟩
  · obtain ⟨u, hu⟩ := List.length_eq_one_iff.1 (show (m.owners e).length = 1 by omega)
    rw [hu] at howned ⊢
    rw [List.mem_singleton.1 howned]
  · exact List.count_eq_zero.1 (by omega)

omit [DecidableEq T] in
/-- A thread keeps what it owns when another thread's entry changes. -/
theorem Good.ne_of_owned (h : Good m l) {e d : Nat} (hne : e ≠ 0) (howned : t ∈ m.owners e)
    (hu : u ≠ t) (hother : u ∈ m.owners d) : d ≠ e := by
  rintro rfl
  rw [(h.owned hne howned).1] at hother
  exact hu (List.mem_singleton.1 hother)

omit [DecidableEq T] in
theorem Good.link (h : Good m l) (value : Nat) (hne : e ≠ 0) (howned : t ∈ m.owners e) :
    Good (m.link e value) l ∧ ∀ u, u ≠ t → Moved u m l (m.link e value) l := by
  have hkeep : ∀ d ∈ l, (m.link e value).next d = m.next d := by
    intro d hd
    refine update_of_ne ?_ ..
    rintro rfl
    exact (h.owned hne howned).2 hd
  refine ⟨⟨h.linked.congr hkeep, h.once, h.depth, h.sequence, h.pushes⟩, ?_⟩
  intro u hu
  refine ⟨.refl _, ?_, hkeep, fun _ => ⟨List.Subset.refl l, rfl⟩, fun _ => rfl⟩
  intro d _ hd
  exact ⟨hd, update_of_ne (h.ne_of_owned hne howned hu hd) ..⟩

theorem Good.give (h : Good m l) (v : T) (hne : e ≠ 0) (howned : t ∈ m.owners e) :
    Good (m.give t v e) l ∧ ∀ u, u ≠ t → Moved u m l (m.give t v e) l := by
  have hone := (h.owned hne howned).1
  refine ⟨⟨h.linked, ?_, h.depth, h.sequence, h.pushes⟩, ?_⟩
  · intro d hd
    have honce := h.once d hd
    by_cases hde : d = e
    · subst hde
      rw [show (m.give t v d).owners d = v :: (m.owners d).erase t from update_self ..]
      rw [hone] at honce ⊢
      simpa using honce
    · rw [show (m.give t v e).owners d = m.owners d from update_of_ne hde ..]
      exact honce
  · intro u hu
    refine ⟨.refl _, ?_, fun _ _ => rfl, fun _ => ⟨List.Subset.refl l, rfl⟩, fun _ => rfl⟩
    intro d _ hd
    refine ⟨?_, rfl⟩
    rw [show (m.give t v e).owners d = m.owners d from
      update_of_ne (h.ne_of_owned hne howned hu hd) ..]
    exact hd

theorem Good.push (h : Good m l) (hne : e ≠ 0) (howned : t ∈ m.owners e)
    (hnext : m.next e = c.first) (hhead : m.head = c.head) :
    Good (m.push t e c) (e :: l) ∧ ∀ u, u ≠ t → Moved u m l (m.push t e c) (e :: l) := by
  obtain ⟨hone, hnot⟩ := h.owned hne howned
  have hfirst : m.head.first = c.first := by rw [hhead]; rfl
  have hdepth : c.high.depth = UInt16.ofNat l.length := by rw [← h.depth, hhead]; rfl
  have hsequence : c.high.sequence = UInt16.ofNat m.history.pops := by rw [← h.sequence, hhead]; rfl
  refine ⟨⟨⟨rfl, hne, ?_⟩, ?_, ?_, hsequence, Nat.succ_le_succ h.pushes⟩, ?_⟩
  · show Linked m.next (m.next e) l
    rw [hnext, ← hfirst]
    exact h.linked
  · intro d hd
    have honce := h.once d hd
    by_cases hde : d = e
    · subst hde
      rw [show (m.push t d c).owners d = (m.owners d).erase t from update_self ..,
        hone, List.count_cons_self, List.count_eq_zero.2 hnot]
      simp
    · rw [show (m.push t e c).owners d = m.owners d from update_of_ne hde ..,
        List.count_cons_of_ne (Ne.symm hde)]
      exact honce
  · show c.high.depth + 1 = UInt16.ofNat (l.length + 1)
    rw [hdepth, UInt16.ofNat_add]
    rfl
  · intro u hu
    refine ⟨⟨le_rfl, Nat.le_succ _, le_rfl⟩, ?_, fun _ _ => rfl, ?_, ?_⟩
    · intro d _ hd
      refine ⟨?_, rfl⟩
      rw [show (m.push t e c).owners d = m.owners d from
        update_of_ne (h.ne_of_owned hne howned hu hd) ..]
      exact hd
    · intro _
      refine ⟨List.subset_cons_self e l, ?_⟩
      show l.length + 1 + m.history.pushes = l.length + (m.history.pushes + 1)
      omega
    · intro hsame
      have : m.history.pushes + 1 = m.history.pushes := congrArg History.pushes hsame
      omega

omit [DecidableEq T] in
theorem Good.pop {rest : List Nat} {next : Nat} (h : Good m (c.first :: rest))
    (hrest : Linked m.next next rest) (hhead : m.head = c.head) :
    Good (m.pop t c next) rest ∧ ∀ u, u ≠ t → Moved u m (c.first :: rest) (m.pop t c next) rest := by
  have hdepth : c.high.depth = UInt16.ofNat (rest.length + 1) := by
    rw [← List.length_cons, ← h.depth, hhead]; rfl
  have hsequence : c.high.sequence = UInt16.ofNat m.history.pops := by rw [← h.sequence, hhead]; rfl
  have hpushes : rest.length + 1 ≤ m.history.pushes := h.pushes
  refine ⟨⟨hrest, ?_, ?_, ?_, by exact Nat.le_of_succ_le hpushes⟩, ?_⟩
  · intro d hd
    have honce := h.once d hd
    by_cases hde : d = c.first
    · subst hde
      rw [List.count_cons_self] at honce
      rw [show (m.pop t c next).owners c.first = t :: m.owners c.first from
        update_self .., List.length_cons]
      omega
    · rw [List.count_cons_of_ne (Ne.symm hde)] at honce
      rw [show (m.pop t c next).owners d = m.owners d from update_of_ne hde ..]
      exact honce
  · show c.high.depth - 1 = UInt16.ofNat rest.length
    rw [hdepth, UInt16.ofNat_add]
    exact UInt16.add_sub_cancel ..
  · show c.high.sequence + 1 = UInt16.ofNat (m.history.pops + 1)
    rw [hsequence, UInt16.ofNat_add]
    rfl
  · intro u hu
    refine ⟨⟨Nat.le_succ _, le_rfl, le_rfl⟩, ?_, fun _ _ => rfl, ?_, ?_⟩
    · intro d _ hd
      refine ⟨?_, rfl⟩
      by_cases hde : d = c.first
      · subst hde
        rw [show (m.pop t c next).owners c.first = t :: m.owners c.first from
          update_self ..]
        exact List.mem_cons_of_mem t hd
      · rw [show (m.pop t c next).owners d = m.owners d from update_of_ne hde ..]
        exact hd
    · intro hquiet
      have : m.history.pops = m.history.pops + 1 := hquiet.1
      omega
    · intro hsame
      have : m.history.pops + 1 = m.history.pops := congrArg History.pops hsame
      omega

omit [DecidableEq T] in
theorem Good.flush (h : Good m l) :
    Good (m.flush t m.head) [] ∧ ∀ u, u ≠ t → Moved u m l (m.flush t m.head) [] := by
  have howners : ∀ e, (m.flush t m.head).owners e =
      if e ∈ l then t :: m.owners e else m.owners e := by
    intro e
    rw [← h.linked.walk_eq h.pushes]
    rfl
  refine ⟨⟨rfl, ?_, rfl, h.sequence, Nat.zero_le _⟩, ?_⟩
  · intro e he
    have honce := h.once e he
    rw [howners, List.count_nil]
    split
    · next hmem =>
      have hpos := List.count_pos_iff.2 hmem
      rw [List.length_cons]
      omega
    · next hnot =>
      rw [List.count_eq_zero.2 hnot] at honce
      exact honce
  · intro u hu
    refine ⟨⟨le_rfl, le_rfl, Nat.le_succ _⟩, ?_, fun _ _ => rfl, ?_, ?_⟩
    · intro d _ hd
      refine ⟨?_, rfl⟩
      rw [howners]
      split
      · exact List.mem_cons_of_mem t hd
      · exact hd
    · intro hquiet
      have : m.history.flushes = m.history.flushes + 1 := hquiet.2
      omega
    · intro hsame
      have : m.history.flushes + 1 = m.history.flushes := congrArg History.flushes hsame
      omega

omit [DecidableEq T] in
/-- A popper that finds the head it has loaded, with no flush in between, has loaded the
second entry of the list. -/
theorem Good.popped (h : Good m l) {next : Nat}
    (hknows : (Pc.popSwap c next).Knows m l t) (hhead : m.head = c.head)
    (hbounded : m.history.pops + m.history.flushes <
      c.high.since.pops + c.high.since.flushes + 2 ^ 16)
    (hflushes : m.history.flushes = c.high.since.flushes)
    (hpushes : c.lowFirst = true → m.history.pushes < c.high.since.pushes + 2 ^ 16) :
    ∃ rest, l = c.first :: rest ∧ Linked m.next next rest := by
  obtain ⟨hne, hhigh, hmem, hsame⟩ := hknows
  have hfirst : m.head.first = c.first := by rw [hhead]; rfl
  have hpops : m.history.pops = c.high.since.pops := by
    refine ushort_ofNat_inj ?_ hhigh.le.pops (by omega)
    rw [← h.sequence, ← hhigh.sequence, hhead]
    rfl
  have hquiet : c.high.since.Quiet m.history := ⟨hpops.symm, hflushes.symm⟩
  have hnext : m.next c.first = next := by
    cases horder : c.lowFirst with
    | false => exact (hmem horder hquiet).2
    | true =>
      refine hsame horder ?_ hfirst
      obtain ⟨k, hk, hlength⟩ := hhigh.depth hquiet
      have hle := hhigh.le.pushes
      have hlt := hpushes horder
      have hdepth : l.length = k := by
        refine ushort_ofNat_inj ?_ (by omega) (by omega)
        rw [← h.depth, ← hk, hhead]
        rfl
      refine History.Le.antisymm ⟨?_, ?_, ?_⟩ hhigh.le <;> omega
  obtain ⟨rest, hl, hrest⟩ := h.linked.eq_cons (hfirst ▸ hne)
  rw [hfirst] at hl hrest
  rw [hnext] at hrest
  exact ⟨rest, hl, hrest⟩

/-! ## The steps -/

omit [DecidableEq T] in
/-- A high half loaded now. -/
theorem Good.high (h : Good m l) :
    (High.mk m.head.depth m.head.sequence m.history).Knows m l :=
  ⟨.refl _, h.sequence, fun _ => ⟨l.length, h.depth, rfl⟩⟩

omit [DecidableEq T] in
theorem Op.Knows.loaded {op : Op} (h : op.Knows m t) (hhigh : c.high.Knows m l)
    (hmem : c.first ≠ 0 → c.lowFirst = false → c.first ∈ l) : (op.loaded c).Knows m l t := by
  cases op with
  | pop =>
    dsimp only [Op.loaded]
    split
    · trivial
    · next hne => exact ⟨hne, hhigh, fun horder _ => hmem hne horder⟩
  | push e => exact h
  | flush =>
    dsimp only [Op.loaded]
    split <;> trivial

theorem Inv.access (h : Inv s) {low : Bool} (hcareful : (Act.access t low).Careful s)
    (hbounded : (Act.access t low).Bounded s) : Inv (s.access t low) := by
  have hinv := h
  obtain ⟨l, hgood, hknows⟩ := h
  have hself := hknows t
  unfold State.access
  cases hpc : s.pc t with
  | outside => exact hinv
  | load op half =>
    rw [hpc] at hself
    obtain ⟨hop, hhalf⟩ := hself
    cases half with
    | neither =>
      dsimp only
      split
      · exact Inv.goto hknows hgood ⟨hop, trivial⟩
      · exact Inv.goto hknows hgood ⟨hop, hgood.high⟩
    | low first => exact Inv.goto hknows hgood (hop.loaded hgood.high nofun)
    | high g =>
      exact Inv.goto hknows hgood (hop.loaded hhalf fun hne _ => hgood.linked.head_mem hne)
  | popNext c =>
    rw [hpc] at hself
    obtain ⟨hne, hhigh, hmem⟩ := hself
    refine Inv.goto hknows hgood ⟨hne, hhigh, ?_, fun _ _ _ => rfl⟩
    exact fun horder hquiet => ⟨hmem horder hquiet, rfl⟩
  | popSwap c next =>
    rw [hpc] at hself
    dsimp only
    split
    · next hhead =>
      obtain ⟨hflushes, hpushes⟩ := hcareful c next hpc hhead
      obtain ⟨rest, rfl, hrest⟩ :=
        hgood.popped hself hhead (hbounded c next hpc) hflushes hpushes
      obtain ⟨hgood', hmoved⟩ := hgood.pop (t := t) hrest hhead
      exact Inv.of_thread hknows hgood hgood' hmoved trivial
    · exact Inv.goto hknows hgood ⟨trivial, trivial⟩
  | pushLink e c =>
    rw [hpc] at hself
    obtain ⟨hgood', hmoved⟩ := hgood.link c.first hself.1 hself.2
    exact Inv.of_thread hknows hgood hgood' hmoved ⟨hself, update_self ..⟩
  | pushSwap e c =>
    rw [hpc] at hself
    obtain ⟨howned, hnext⟩ := hself
    dsimp only
    split
    · next hhead =>
      obtain ⟨hgood', hmoved⟩ := hgood.push howned.1 howned.2 hnext hhead
      exact Inv.of_thread hknows hgood hgood' hmoved trivial
    · exact Inv.goto hknows hgood ⟨howned, trivial⟩
  | flushSwap old =>
    dsimp only
    split
    · next hhead =>
      subst hhead
      obtain ⟨hgood', hmoved⟩ := hgood.flush (t := t)
      exact Inv.of_thread hknows hgood hgood' hmoved trivial
    · split
      · exact Inv.goto hknows hgood trivial
      · exact Inv.goto hknows hgood trivial

theorem Inv.step (h : Inv s) {a : Act T} (hstep : CarefulStep s a s') : Inv s' := by
  obtain ⟨hcareful, hbounded, rfl⟩ := hstep
  have hinv := h
  obtain ⟨l, hgood, hknows⟩ := h
  cases a with
  | pop t | flush t =>
    dsimp only [State.apply]
    split
    · exact Inv.goto hknows hgood ⟨trivial, trivial⟩
    · exact hinv
  | push t e =>
    dsimp only [State.apply]
    split
    · next hcall => exact Inv.goto hknows hgood ⟨hcall.2, trivial⟩
    · exact hinv
  | access t low => exact hinv.access hcareful hbounded
  | write t e value =>
    dsimp only [State.apply]
    split
    · next hcall =>
      obtain ⟨hgood', hmoved⟩ := hgood.link value hcall.2.1 hcall.2.2
      exact Inv.of_thread hknows hgood hgood' hmoved trivial
    · exact hinv
  | give t u e =>
    dsimp only [State.apply]
    split
    · next hcall =>
      obtain ⟨hgood', hmoved⟩ := hgood.give u hcall.2.1 hcall.2.2
      exact Inv.of_thread hknows hgood hgood' hmoved trivial
    · exact hinv

omit [DecidableEq T] in
theorem Start.inv (h : Start s) : Inv s := by
  refine ⟨[], ⟨?_, ?_, ?_, ?_, Nat.zero_le _⟩, ?_⟩
  · rw [h.head]
    rfl
  · intro e he
    rw [h.owners e he, List.count_nil]
  · rw [h.head]
    rfl
  · rw [h.head, h.history]
    rfl
  · intro t
    rw [h.pc t]
    trivial

/-- In every run in which no popper's exchange succeeds after a flush since its head load,
every entry is on the list or owned, once. -/
theorem slist_sound (hrun : Reachable Start CarefulStep s) : Sound s.memory := by
  have hinv : Inv s := by
    refine Reachable.invariant (P := Inv) ?_ ?_ hrun
    · exact fun u hu => hu.inv
    · intro u a v hu hstep
      exact hu.step hstep
  obtain ⟨l, hgood, -⟩ := hinv
  exact ⟨l, hgood.linked, hgood.once, hgood.depth⟩

/-! ## A flush between load and exchange -/

def Memory.removals (m : Memory T) : Nat := m.history.pops + m.history.flushes

end

/-- One thread owns every entry. -/
def fresh : State Bool := ⟨⟨⟨0, 0, 0⟩, fun _ => 0, fun _ => [false], ⟨0, 0, 0⟩⟩, fun _ => .outside⟩

theorem fresh_start : Start fresh := ⟨rfl, rfl, fun _ _ => rfl, fun _ => rfl⟩

/-- A whole push of one thread. -/
def pushed (t : Bool) (e : Nat) : List (Act Bool) := .push t e :: List.replicate 4 (.access t true)

/-- Two pushes, a pop whose second load falls between them and has to start over, and a flush
of what is left. -/
def flushedAfter : List (Act Bool) :=
  pushed false 2 ++ .pop true :: .access true false :: pushed false 1 ++
    List.replicate 7 (.access true false) ++ .flush false :: List.replicate 3 (.access false false)

theorem slist_sound_flushed :
    (flushedAfter.foldl State.apply fresh).memory.history = ⟨1, 2, 1⟩ ∧
      (flushedAfter.foldl State.apply fresh).memory.owners 1 = [true] ∧
      (flushedAfter.foldl State.apply fresh).memory.owners 2 = [false] ∧
      Sound (flushedAfter.foldl State.apply fresh).memory := by
  have hallowed : Allowed (fun s a => a.Careful s ∧ a.Bounded s) State.apply fresh
      flushedAfter := by decide
  refine ⟨by decide, by decide, by decide, slist_sound ?_⟩
  exact Reachable.allowed (.start fresh_start) flushedAfter
    (fun _ _ h => ⟨h.1, h.2, rfl⟩) hallowed

/-- The list is 1, 2.  A popper loads both; the other thread flushes, and pushes 3 and 1; the
popper's exchange finds 1 with depth 2 and the old sequence number. -/
def flushedUnder : List (Act Bool) :=
  pushed false 2 ++ pushed false 1 ++ .pop true :: List.replicate 3 (.access true true) ++
    .flush false :: List.replicate 3 (.access false true) ++
    pushed false 3 ++ pushed false 1 ++ [.access true true]

/-- Entry 2 is on the list and owned by the thread that flushed; entry 3 is lost. -/
theorem slist_flushed : ∃ s : State Bool, Reachable Start Step s ∧
    s.memory.removals < 2 ^ 16 ∧ s.memory.head.first = 2 ∧ s.memory.owners 2 = [false] ∧
      s.memory.owners 3 = [] ∧ ¬Sound s.memory := by
  refine ⟨flushedUnder.foldl State.apply fresh,
    Reachable.allowed (.start fresh_start) flushedUnder (fun _ _ h => ⟨h, rfl⟩) (by decide),
    by decide, by decide, by decide,
    by decide, ?_⟩
  rintro ⟨l, hlinked, honce, -⟩
  have hl : l = [2] := by
    refine hlinked.unique ⟨by decide, by decide, ?_⟩
    show (flushedUnder.foldl State.apply fresh).memory.next 2 = 0
    decide
  have hlost := honce 3 (by decide)
  rw [hl, show (flushedUnder.foldl State.apply fresh).memory.owners 3 = [] by decide] at hlost
  exact absurd hlost (by decide)

end Roswell.Ports.SList
