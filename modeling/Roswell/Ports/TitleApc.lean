import Mathlib
import Roswell.Verified.Runs

/-!
# Queueing of a title APC

Model of `XeKeInsertQueueApc`, `XeApcKernelTrampoline` and `XeApcRundownTrampoline` for one
title APC, one memory access at a time.  Each insert allocates a shadow KAPC; the queue
itself is worked under its lock, by `KeInsertQueueApc`, by delivery (`KiDeliverApc`,
`KiDeliverUserApcs`) and by the rundown of the exiting thread (`KeFlushQueueApc`).

`Inserted` is checked first and set much later, so two inserts that overlap both find it
clear and queue a shadow each.  It is reset by the trampoline, after the kernel has taken
the shadow off the queue, so in between it is set with nothing queued.

## Main results

* `apc_shadows`: in every run a shadow is freed once and not used afterwards; and in every
  run without overlapping inserts at most one shadow is queued, and `Inserted` is set while
  one is queued, waits for its trampoline's mark, or is about to be queued.
* `apc_overlap`: two shadows queued by overlapping inserts, and a dequeued shadow with
  `Inserted` still set.
-/

namespace Roswell.Ports.TitleApc

open Verified.Runs Function

/-! ## The calls -/

/-- What `ApcListEntry.Flink` or `Blink` holds; `other` is what the title left there. -/
inductive Link where
  | null
  | other
  | shadow (x : Nat)
  deriving DecidableEq, Repr

/-- The title's KAPC: the fields that inserting and delivering use. -/
structure Title where
  inserted : Bool
  flink : Link
  blink : Link
  argument1 : Nat
  argument2 : Nat
  deriving DecidableEq, Repr

/-- The store a trampoline makes next. -/
inductive Stage where
  | inserted
  | flink
  | blink
  | argument1
  | argument2
  | release
  deriving DecidableEq, Repr

/-- Where a shadow is.  A shadow that is leaving the queue carries the arguments it is
delivered with, or none if it is run down. -/
inductive Place where
  | unused
  | preparing
  | queued
  | leaving (arguments : Option (Nat × Nat)) (stage : Stage)
  | freed
  deriving DecidableEq, Repr

/-- The arguments of an insert, and whether a shadow was queued when it looked. -/
structure Call where
  arguments : Nat × Nat
  sawQueued : Bool
  deriving DecidableEq, Repr

/-- Where a thread is in an insert, by the access it makes next. -/
inductive Pc where
  | outside
  | readInserted (arguments : Nat × Nat)
  | refuse (c : Call)
  | stamp1 (c : Call)
  | stamp2 (c : Call)
  | resolve (c : Call)
  | allocate (c : Call)
  | setFlink (c : Call) (x : Nat)
  | setBlink (c : Call) (x : Nat)
  | setInserted (c : Call) (x : Nat)
  | insertQueue (c : Call) (x : Nat)
  | clearInserted (c : Call) (x : Nat)
  | clearFlink (c : Call) (x : Nat)
  | clearBlink (c : Call) (x : Nat)
  | free (c : Call) (x : Nat)
  deriving DecidableEq, Repr

/-- The title's KAPC, whether its thread still takes APCs, the shadows (`count` have been
allocated), whether a freed one has been touched, the threads, and for each insert that has
returned what it saw and its result. -/
structure State (T : Type) where
  title : Title
  queueable : Bool
  count : Nat
  place : Nat → Place
  arguments : Nat → Nat × Nat
  frees : Nat → Nat
  touched : Bool
  pc : T → Pc
  results : List (Bool × Bool)

inductive Act (T : Type) where
  | insert (t : T) (arguments : Nat × Nat)
  /-- The next access of a thread; `ok` is the outcome of resolving the thread and of the
  allocation. -/
  | access (t : T) (ok : Bool)
  /-- The target thread dequeues a shadow. -/
  | deliver (x : Nat)
  /-- The next access of a trampoline. -/
  | trampoline (x : Nat)
  /-- The target thread exits: it no longer takes APCs. -/
  | disable
  /-- The exiting thread flushes its queue. -/
  | flush

variable {T : Type}

section
variable [DecidableEq T]

namespace State

def goto (s : State T) (t : T) (p : Pc) : State T := { s with pc := update s.pc t p }

/-- An insert returns. -/
def finish (s : State T) (t : T) (c : Call) (result : Bool) : State T :=
  { s.goto t .outside with results := (c.sawQueued, result) :: s.results }

def setPlace (s : State T) (x : Nat) (p : Place) : State T :=
  { s with place := update s.place x p }

def touch (s : State T) (x : Nat) : State T :=
  { s with touched := s.touched || s.place x == .freed }

/-- `ExFreePoolWithTag(Shadow)`. -/
def release (s : State T) (x : Nat) : State T :=
  { s.setPlace x .freed with frees := update s.frees x (s.frees x + 1) }

def anyQueued (s : State T) : Bool := (List.range s.count).any fun x => s.place x == .queued

/-- The refused insert, at `DISPATCH_LEVEL`: the arguments go to the title's KAPC, and to the
shadow if there still is one. -/
def rearm (s : State T) (arguments : Nat × Nat) : State T :=
  let s := { s with
    title := { s.title with argument1 := arguments.1, argument2 := arguments.2 } }
  if s.title.inserted = true then
    match s.title.flink with
    | .null => s
    | .other => { s with touched := true }
    | .shadow x => { s.touch x with arguments := update s.arguments x arguments }
  else s

def access (s : State T) (t : T) (ok : Bool) : State T :=
  match s.pc t with
  | .outside => s
  | .readInserted arguments =>
    if s.title.inserted = true then s.goto t (.refuse ⟨arguments, s.anyQueued⟩)
    else s.goto t (.stamp1 ⟨arguments, s.anyQueued⟩)
  | .refuse c => (s.rearm c.arguments).finish t c false
  | .stamp1 c => { s with title := { s.title with argument1 := c.arguments.1 } }.goto t (.stamp2 c)
  | .stamp2 c => { s with title := { s.title with argument2 := c.arguments.2 } }.goto t (.resolve c)
  | .resolve c => if ok = true then s.goto t (.allocate c) else s.finish t c false
  | .allocate c =>
    if ok = true then
      { s.setPlace s.count .preparing with count := s.count + 1 }.goto t (.setFlink c s.count)
    else s.finish t c false
  | .setFlink c x =>
    { s with title := { s.title with flink := .shadow x } }.goto t (.setBlink c x)
  | .setBlink c x =>
    { s with title := { s.title with blink := .shadow x } }.goto t (.setInserted c x)
  | .setInserted c x =>
    { s with title := { s.title with inserted := true } }.goto t (.insertQueue c x)
  | .insertQueue c x =>
    -- `KeInsertQueueApc`, under the lock of the queue
    let s := s.touch x
    if s.queueable = true ∧ s.place x ≠ .queued then
      { s.setPlace x .queued with
        arguments := update s.arguments x c.arguments }.finish t c true
    else s.goto t (.clearInserted c x)
  | .clearInserted c x =>
    { s with title := { s.title with inserted := false } }.goto t (.clearFlink c x)
  | .clearFlink c x =>
    { s with title := { s.title with flink := .null } }.goto t (.clearBlink c x)
  | .clearBlink c x => { s with title := { s.title with blink := .null } }.goto t (.free c x)
  | .free c x => (s.release x).finish t c false

/-- `XeApcKernelTrampoline`, or `XeApcRundownTrampoline` where there are no arguments. -/
def trampoline (s : State T) (x : Nat) : State T :=
  match s.place x with
  | .leaving arguments .inserted =>
    { s with title := { s.title with inserted := false } }.setPlace x (.leaving arguments .flink)
  | .leaving arguments .flink =>
    { s with title := { s.title with flink := .null } }.setPlace x (.leaving arguments .blink)
  | .leaving (some arguments) .blink =>
    { s with title := { s.title with blink := .null } }.setPlace x
      (.leaving (some arguments) .argument1)
  | .leaving none .blink =>
    { s with title := { s.title with blink := .null } }.setPlace x (.leaving none .release)
  | .leaving (some arguments) .argument1 =>
    { s with title := { s.title with argument1 := arguments.1 } }.setPlace x
      (.leaving (some arguments) .argument2)
  | .leaving (some arguments) .argument2 =>
    { s with title := { s.title with argument2 := arguments.2 } }.setPlace x
      (.leaving (some arguments) .release)
  | .leaving _ .release => s.release x
  | _ => s

def apply (s : State T) : Act T → State T
  | .insert t arguments => if s.pc t = .outside then s.goto t (.readInserted arguments) else s
  | .access t ok => s.access t ok
  | .deliver x =>
    if s.place x = .queued then s.setPlace x (.leaving (some (s.arguments x)) .inserted) else s
  | .trampoline x => s.trampoline x
  | .disable => { s with queueable := false }
  | .flush =>
    if s.queueable = false then
      { s with place := fun x =>
          if s.place x = .queued then .leaving none .inserted else s.place x }
    else s

end State

/-- The insert has found `Inserted` clear and not set it yet. -/
def Pc.Pending : Pc → Prop
  | .stamp1 _ | .stamp2 _ | .resolve _ | .allocate _ => True
  | .setFlink _ _ | .setBlink _ _ | .setInserted _ _ => True
  | _ => False

/-- No insert finds `Inserted` clear while another one is pending. -/
def Act.Careful (s : State T) : Act T → Prop
  | .access t _ => ∀ arguments, s.pc t = .readInserted arguments → s.title.inserted = false →
      ∀ u, ¬(s.pc u).Pending
  | _ => True

def Step (s : State T) (a : Act T) (s' : State T) : Prop := s.apply a = s'

def CarefulStep (s : State T) (a : Act T) (s' : State T) : Prop := a.Careful s ∧ Step s a s'

end

/-- The title's KAPC as `XeKeInitializeApc` leaves it, and no insert yet. -/
structure Start (s : State T) : Prop where
  inserted : s.title.inserted = false
  flink : ∀ x, s.title.flink ≠ .shadow x
  count : s.count = 0
  place : ∀ x, s.place x = .unused
  frees : ∀ x, s.frees x = 0
  touched : s.touched = false
  pc : ∀ t, s.pc t = .outside
  results : s.results = []

/-- The insert has allocated this shadow and neither queued nor freed it yet. -/
def Pc.shadow : Pc → Option Nat
  | .setFlink _ x | .setBlink _ x | .setInserted _ x | .insertQueue _ x => some x
  | .clearInserted _ x | .clearFlink _ x | .clearBlink _ x | .free _ x => some x
  | _ => none

/-- No shadow is touched after it was freed, none is freed twice, and each one that has not
been freed is queued, in its trampoline, or in the hands of one insert. -/
structure Lifetimes (s : State T) : Prop where
  untouched : s.touched = false
  once : ∀ x, s.frees x ≤ 1
  accounted : ∀ x, x < s.count → s.frees x = 0 →
    s.place x = .queued ∨ (∃ arguments stage, s.place x = .leaving arguments stage) ∨
      ∃ t, (s.pc t).shadow = some x ∧ ∀ u, (s.pc u).shadow = some x → u = t

/-- `Inserted` has been set for a shadow that is not queued yet, or could not be queued. -/
def Pc.marked : Pc → Bool
  | .insertQueue _ _ | .clearInserted _ _ => true
  | _ => false

/-- At most one shadow is queued; `Inserted` is set exactly while one is queued, or has left
the queue without its trampoline's mark, or an insert is about to queue one; and an insert
that found one queued has returned `FALSE`. -/
structure Queueing (s : State T) : Prop where
  one : ∀ x y, s.place x = .queued → s.place y = .queued → x = y
  inserted : s.title.inserted = true ↔
    (∃ x, s.place x = .queued ∨ ∃ arguments, s.place x = .leaving arguments .inserted) ∨
      ∃ t, (s.pc t).marked = true
  refused : ∀ r ∈ s.results, r.1 = true → r.2 = false

/-! ## Lifetimes -/

/-- `Flink` may still lead to such a shadow. -/
def Place.Pointed : Place → Prop
  | .preparing | .queued | .leaving _ .inserted | .leaving _ .flink => True
  | _ => False

/-- An insert that failed has cleared `Flink` of its shadow. -/
def Pc.cleared : Pc → Option Nat
  | .clearBlink _ x | .free _ x => some x
  | _ => none

/-- The insert has set `Flink` and will set `Inserted`. -/
def Pc.Pointing : Pc → Prop
  | .setBlink _ _ | .setInserted _ _ => True
  | _ => False

/-- The shadow is past its insert. -/
def Place.Out : Place → Prop
  | .unused | .preparing => False
  | _ => True

theorem Pc.shadow_of_cleared {p : Pc} {x : Nat} (h : p.cleared = some x) : p.shadow = some x := by
  cases p <;> first | exact h | cases h

structure Alive (s : State T) : Prop where
  fresh : ∀ x, s.place x = .unused ↔ s.count ≤ x
  frees : ∀ x, s.frees x = if s.place x = .freed then 1 else 0
  untouched : s.touched = false
  working : ∀ t x, (s.pc t).shadow = some x → s.place x = .preparing
  alone : ∀ t u x, (s.pc t).shadow = some x → (s.pc u).shadow = some x → u = t
  worked : ∀ x, s.place x = .preparing → ∃ t, (s.pc t).shadow = some x
  pointed : ∀ x, s.title.flink = .shadow x → (s.place x).Pointed
  cleared : ∀ t x, (s.pc t).cleared = some x → s.title.flink ≠ .shadow x
  other : s.title.flink = .other → s.title.inserted = false ∧ ∀ t, ¬(s.pc t).Pointing

section
variable {s s' : State T} {t : T} {p : Pc} {x : Nat}

/-- Shadows that are past their insert move on. -/
theorem Alive.settled (h : Alive s) (hpc : s'.pc = s.pc) (hcount : s'.count = s.count)
    (htouched : s'.touched = false)
    (hplace : ∀ y, s'.place y = s.place y ∨ (s.place y).Out ∧ (s'.place y).Out)
    (hfrees : ∀ y, s'.frees y = if s'.place y = .freed then 1 else 0)
    (hpointed : ∀ y, s'.title.flink = .shadow y →
      s.title.flink = .shadow y ∧ (s'.place y).Pointed)
    (hother : s'.title.flink = .other → s.title.flink = .other ∧
      (s.title.inserted = false → s'.title.inserted = false)) : Alive s' := by
  have hout : ∀ {q r : Place}, q.Out → ¬r.Out → q ≠ r := by
    rintro q r hq hr rfl
    exact hr hq
  refine ⟨?_, hfrees, htouched, ?_, ?_, ?_, fun y hy => (hpointed y hy).2, ?_, ?_⟩
  · intro y
    rw [hcount, ← h.fresh y]
    rcases hplace y with hsame | ⟨hbefore, hafter⟩
    · rw [hsame]
    · exact iff_of_false (hout hafter id) (hout hbefore id)
  · intro u y hu
    rw [hpc] at hu
    have hprep := h.working u y hu
    rcases hplace y with hsame | ⟨hbefore, -⟩
    · exact hsame.trans hprep
    · exact absurd hprep (hout hbefore id)
  · rw [hpc]
    exact h.alone
  · intro y hy
    rw [hpc]
    rcases hplace y with hsame | ⟨-, hafter⟩
    · exact h.worked y (hsame.symm.trans hy)
    · exact absurd hy (hout hafter id)
  · intro u y hu hflink
    rw [hpc] at hu
    exact h.cleared u y hu (hpointed y hflink).1
  · intro hlink
    obtain ⟨hbefore, hinserted⟩ := hother hlink
    rw [hpc]
    exact ⟨hinserted (h.other hbefore).1, (h.other hbefore).2⟩

/-- A shadow that is not freed may be touched. -/
theorem State.touch_eq (hx : s.place x ≠ .freed) : s.touch x = s := by
  unfold State.touch
  rw [beq_false_of_ne hx, Bool.or_false]

/-- The refused insert touches no freed shadow. -/
theorem Alive.rearm (h : Alive s) (arguments : Nat × Nat) :
    (s.rearm arguments).touched = false := by
  unfold State.rearm
  dsimp only
  split
  · next hinserted =>
    cases hflink : s.title.flink with
    | null => exact h.untouched
    | other =>
      rw [(h.other hflink).1] at hinserted
      cases hinserted
    | shadow x =>
      have hpointed := h.pointed x hflink
      dsimp only [State.touch]
      rw [h.untouched, Bool.false_or]
      refine beq_false_of_ne ?_
      intro hfreed
      rw [hfreed] at hpointed
      exact hpointed
  · exact h.untouched

theorem State.rearm_frame (s : State T) (arguments : Nat × Nat) :
    (s.rearm arguments).pc = s.pc ∧ (s.rearm arguments).count = s.count ∧
      (s.rearm arguments).place = s.place ∧ (s.rearm arguments).frees = s.frees ∧
      (s.rearm arguments).title.flink = s.title.flink ∧
      (s.rearm arguments).title.inserted = s.title.inserted ∧
      (s.rearm arguments).results = s.results := by
  unfold State.rearm
  dsimp only
  split
  · cases s.title.flink <;> exact ⟨rfl, rfl, rfl, rfl, rfl, rfl, rfl⟩
  · exact ⟨rfl, rfl, rfl, rfl, rfl, rfl, rfl⟩

/-- One shadow past its insert moves on, and is not freed by that. -/
theorem Alive.onward (h : Alive s) {q r : Place} {title : Title} (hx : s.place x = q)
    (hq : q.Out ∧ r.Out) (hfree : q ≠ .freed ∧ r ≠ .freed)
    (hpointed : ∀ y, title.flink = .shadow y →
      s.title.flink = .shadow y ∧ (update s.place x r y).Pointed)
    (hother : title.flink = .other → s.title.flink = .other ∧
      (s.title.inserted = false → title.inserted = false)) :
    Alive ({ s with title := title }.setPlace x r) := by
  subst hx
  refine h.settled rfl rfl h.untouched ?_ ?_ hpointed hother
  · exact (forall_update_iff s.place fun y r => r = s.place y ∨ (s.place y).Out ∧ r.Out).2
      ⟨Or.inr hq, fun _ _ => Or.inl rfl⟩
  · refine (forall_update_iff s.place fun y r =>
      s.frees y = if r = .freed then 1 else 0).2 ⟨?_, fun y _ => h.frees y⟩
    rw [h.frees, if_neg hfree.1, if_neg hfree.2]

/-- A store of a trampoline. -/
theorem Alive.stage (h : Alive s) {arguments : Option (Nat × Nat)} {before after : Stage}
    {title : Title} (hx : s.place x = .leaving arguments before)
    (hflink : title.flink = .null ∨ title.flink = s.title.flink ∧
      ((Place.leaving arguments before).Pointed → (Place.leaving arguments after).Pointed))
    (hinserted : s.title.inserted = false → title.inserted = false) :
    Alive ({ s with title := title }.setPlace x (.leaving arguments after)) := by
  have hnot : ∀ link, link ≠ Link.null → title.flink = link → s.title.flink = link := by
    intro link hne hlink
    rcases hflink with hnull | ⟨hsame, -⟩
    · exact absurd (hlink.symm.trans hnull) hne
    · exact hsame.symm.trans hlink
  refine h.onward hx ⟨trivial, trivial⟩ ⟨nofun, nofun⟩ ?_ ?_
  · intro y hy
    have hbefore := hnot (.shadow y) nofun hy
    refine ⟨hbefore, ?_⟩
    have hpointed := h.pointed y hbefore
    by_cases hyx : y = x
    · subst hyx
      rw [update_self]
      rw [hx] at hpointed
      rcases hflink with hnull | ⟨-, hkeep⟩
      · cases hnull.symm.trans hy
      · exact hkeep hpointed
    · rw [update_of_ne hyx]
      exact hpointed
  · intro hother
    exact ⟨hnot .other nofun hother, hinserted⟩

theorem Alive.trampoline (h : Alive s) (x : Nat) : Alive (s.trampoline x) := by
  unfold State.trampoline
  split
  · next hx => exact h.stage hx (Or.inr ⟨rfl, id⟩) fun _ => rfl
  · next hx => exact h.stage hx (Or.inl rfl) id
  · next hx => exact h.stage hx (Or.inr ⟨rfl, id⟩) id
  · next hx => exact h.stage hx (Or.inr ⟨rfl, id⟩) id
  · next hx => exact h.stage hx (Or.inr ⟨rfl, id⟩) id
  · next hx => exact h.stage hx (Or.inr ⟨rfl, id⟩) id
  · next hx =>
    have hfree : s.frees x = 0 := by rw [h.frees, hx]; rfl
    refine h.settled rfl rfl h.untouched ?_ ?_ ?_ fun hother => ⟨hother, id⟩
    · refine (forall_update_iff s.place fun y r =>
        r = s.place y ∨ (s.place y).Out ∧ r.Out).2 ⟨Or.inr ?_, fun _ _ => Or.inl rfl⟩
      rw [hx]
      exact ⟨trivial, trivial⟩
    · refine (forall_update_iff s.place fun y r =>
        update s.frees x (s.frees x + 1) y = if r = .freed then 1 else 0).2 ⟨?_, ?_⟩
      · rw [update_self, hfree]
        rfl
      · intro y hy
        rw [update_of_ne hy]
        exact h.frees y
    · intro y hy
      refine ⟨hy, ?_⟩
      have hpointed := h.pointed y hy
      dsimp only [State.release, State.setPlace]
      rw [update_of_ne]
      · exact hpointed
      · rintro rfl
        rw [hx] at hpointed
        exact hpointed
  · exact h

theorem Start.alive (h : Start s) : Alive s where
  fresh x := by simp [h.place, h.count]
  frees x := by simp [h.place, h.frees]
  untouched := h.touched
  working t x hx := by rw [h.pc] at hx; cases hx
  alone t u x hx := by rw [h.pc] at hx; cases hx
  worked x hx := by rw [h.place] at hx; cases hx
  pointed x hx := absurd hx (h.flink x)
  cleared t x hx := by rw [h.pc] at hx; cases hx
  other _ := ⟨h.inserted, fun t ht => by rw [h.pc] at ht; exact ht⟩

theorem Alive.lifetimes (h : Alive s) : Lifetimes s where
  untouched := h.untouched
  once x := by
    rw [h.frees]
    split <;> decide
  accounted x hx hfree := by
    rw [h.frees] at hfree
    cases hplace : s.place x with
    | unused => exact absurd ((h.fresh x).1 hplace) (Nat.not_le.2 hx)
    | preparing =>
      obtain ⟨t, ht⟩ := h.worked x hplace
      exact Or.inr (Or.inr ⟨t, ht, fun u hu => h.alone t u x ht hu⟩)
    | queued => exact Or.inl rfl
    | leaving arguments stage => exact Or.inr (Or.inl ⟨arguments, stage, rfl⟩)
    | freed =>
      rw [hplace] at hfree
      cases hfree

variable [DecidableEq T]

/-- A thread goes on with the shadow it has, and the title's KAPC may change. -/
theorem Alive.moved (h : Alive s) (hpc : s'.pc = update s.pc t p)
    (hcount : s'.count = s.count) (hplace : s'.place = s.place) (hfrees : s'.frees = s.frees)
    (htouched : s'.touched = false) (hshadow : p.shadow = (s.pc t).shadow)
    (hpointed : ∀ x, s'.title.flink = .shadow x → s.title.flink = .shadow x ∨
      p.shadow = some x)
    (hcleared : ∀ x, p.cleared = some x → s'.title.flink ≠ .shadow x)
    (hother : s'.title.flink = .other →
      s'.title.inserted = false ∧ ¬p.Pointing ∧ s.title.flink = .other) : Alive s' := by
  have hsame : ∀ u, (s'.pc u).shadow = (s.pc u).shadow := by
    rw [hpc]
    exact update_same Pc.shadow hshadow
  refine ⟨?_, ?_, htouched, ?_, ?_, ?_, ?_, ?_, ?_⟩
  · rw [hplace, hcount]
    exact h.fresh
  · rw [hplace, hfrees]
    exact h.frees
  · intro u x hu
    rw [hsame] at hu
    rw [hplace]
    exact h.working u x hu
  · intro u v x hu hv
    rw [hsame] at hu hv
    exact h.alone u v x hu hv
  · intro x hx
    rw [hplace] at hx
    obtain ⟨u, hu⟩ := h.worked x hx
    exact ⟨u, (hsame u).trans hu⟩
  · intro x hx
    rw [hplace]
    rcases hpointed x hx with hbefore | hmine
    · exact h.pointed x hbefore
    · rw [h.working t x (hshadow.symm.trans hmine)]
      trivial
  · rw [hpc, forall_update_iff s.pc
      fun _ q => ∀ x, q.cleared = some x → s'.title.flink ≠ .shadow x]
    refine ⟨hcleared, ?_⟩
    intro u hu x hx hflink
    rcases hpointed x hflink with hbefore | hmine
    · exact h.cleared u x hx hbefore
    · exact hu (h.alone t u x (hshadow.symm.trans hmine) (Pc.shadow_of_cleared hx))
  · intro hflink
    obtain ⟨hinserted, hself, hbefore⟩ := hother hflink
    refine ⟨hinserted, ?_⟩
    rw [hpc, forall_update_iff s.pc fun _ q => ¬q.Pointing]
    exact ⟨hself, fun u _ => (h.other hbefore).2 u⟩

/-- A thread goes on without touching `Inserted` or `Flink`. -/
theorem Alive.plain (h : Alive s) (hpc : s'.pc = update s.pc t p) {q : Pc} (hat : s.pc t = q)
    (hpointing : p.Pointing → q.Pointing) (hcount : s'.count = s.count := by rfl)
    (hplace : s'.place = s.place := by rfl) (hfrees : s'.frees = s.frees := by rfl)
    (htouched : s'.touched = s.touched := by rfl)
    (hflink : s'.title.flink = s.title.flink := by rfl)
    (hinserted : s'.title.inserted = s.title.inserted := by rfl)
    (hshadow : p.shadow = q.shadow := by rfl) (hcleared : p.cleared = q.cleared := by rfl) :
    Alive s' := by
  subst hat
  refine h.moved hpc hcount hplace hfrees (htouched.trans h.untouched) hshadow ?_ ?_ ?_
  · intro x hx
    exact Or.inl (hflink.symm.trans hx)
  · intro x hx
    rw [hflink]
    exact h.cleared t x (hcleared.symm.trans hx)
  · intro hother
    rw [hflink] at hother
    obtain ⟨hclear, hnot⟩ := h.other hother
    exact ⟨hinserted.trans hclear, fun hp => hnot t (hpointing hp), hother⟩

/-- A shadow comes into the hands of a thread, or leaves them. -/
theorem Alive.exchange (h : Alive s) {q : Place} (hpc : s'.pc = update s.pc t p)
    (hplace : s'.place = update s.place x q) (htitle : s'.title = s.title)
    (htouched : s'.touched = false) (hmine : ∀ y, (s.pc t).shadow = some y → y = x)
    (hothers : ∀ u, u ≠ t → (s.pc u).shadow ≠ some x)
    (hshadow : ∀ y, p.shadow = some y ↔ y = x ∧ q = .preparing)
    (hfresh : ∀ y, update s.place x q y = .unused ↔ s'.count ≤ y)
    (hfrees : ∀ y, s'.frees y = if update s.place x q y = .freed then 1 else 0)
    (hpointed : s.title.flink = .shadow x → q.Pointed) (hcleared : p.cleared = none)
    (hpointing : ¬p.Pointing) : Alive s' := by
  have hholds : ∀ u y, (update s.pc t p u).shadow = some y →
      u = t ∧ y = x ∧ q = .preparing ∨ y ≠ x ∧ (s.pc u).shadow = some y := by
    refine (forall_update_iff s.pc fun u r => ∀ y, r.shadow = some y →
      u = t ∧ y = x ∧ q = .preparing ∨ y ≠ x ∧ (s.pc u).shadow = some y).2 ⟨?_, ?_⟩
    · exact fun y hy => Or.inl ⟨rfl, (hshadow y).1 hy⟩
    · exact fun u hu y hy => Or.inr ⟨fun heq => hothers u hu (heq ▸ hy), hy⟩
  constructor
  · rwa [hplace]
  · rwa [hplace]
  · exact htouched
  · intro u y hu
    rw [hpc] at hu
    rw [hplace]
    rcases hholds u y hu with ⟨-, rfl, hq⟩ | ⟨hy, hbefore⟩
    · rw [update_self, hq]
    · rw [update_of_ne hy]
      exact h.working u y hbefore
  · intro u v y hu hv
    rw [hpc] at hu hv
    rcases hholds u y hu with ⟨hut, hyx, -⟩ | ⟨hy, hbefore⟩
    · rcases hholds v y hv with ⟨hvt, -⟩ | ⟨hy, -⟩
      · exact hvt.trans hut.symm
      · exact absurd hyx hy
    · rcases hholds v y hv with ⟨-, hyx, -⟩ | ⟨-, hbefore'⟩
      · exact absurd hyx hy
      · exact h.alone u v y hbefore hbefore'
  · rw [hplace, hpc]
    refine (forall_update_iff s.place fun y r => r = .preparing →
      ∃ u, (update s.pc t p u).shadow = some y).2 ⟨?_, ?_⟩
    · exact fun hq => ⟨t, by rw [update_self, (hshadow x).2 ⟨rfl, hq⟩]⟩
    intro y hy hprep
    obtain ⟨u, hu⟩ := h.worked y hprep
    refine ⟨u, ?_⟩
    rw [update_of_ne]
    · exact hu
    · rintro rfl
      exact hy (hmine y hu)
  · rw [hplace, htitle]
    exact (forall_update_iff s.place fun y r => s.title.flink = .shadow y → r.Pointed).2
      ⟨hpointed, fun y _ => h.pointed y⟩
  · rw [hpc, htitle]
    refine (forall_update_iff s.pc fun _ r => ∀ y, r.cleared = some y →
      s.title.flink ≠ .shadow y).2 ⟨fun y hy => ?_, fun u _ => h.cleared u⟩
    cases hcleared.symm.trans hy
  · rw [hpc, htitle]
    intro hother
    exact ⟨(h.other hother).1, (forall_update_iff s.pc fun _ r => ¬r.Pointing).2
      ⟨hpointing, fun u _ => (h.other hother).2 u⟩⟩

/-- An insert allocates the next shadow. -/
theorem Alive.allocated (h : Alive s) (hnone : (s.pc t).shadow = none) (c : Call) :
    Alive ({ s.setPlace s.count .preparing with count := s.count + 1 }.goto t
      (.setFlink c s.count)) := by
  have hunused : s.place s.count = .unused := (h.fresh s.count).2 (Nat.le_refl _)
  refine h.exchange (x := s.count) rfl rfl rfl h.untouched ?_ ?_ ?_ ?_ ?_
    (fun _ => trivial) rfl id
  · intro y hy
    cases hnone.symm.trans hy
  · intro u _ hu
    cases hunused.symm.trans (h.working u _ hu)
  · exact fun y => ⟨fun hy => ⟨(Option.some.inj hy).symm, rfl⟩, fun hy => congrArg some hy.1.symm⟩
  · refine (forall_update_iff s.place fun y q => q = .unused ↔ s.count + 1 ≤ y).2 ⟨by simp, ?_⟩
    intro y hy
    rw [h.fresh y]
    omega
  · refine (forall_update_iff s.place fun y q =>
      s.frees y = if q = .freed then 1 else 0).2 ⟨?_, fun y _ => h.frees y⟩
    rw [h.frees, hunused]
    rfl

/-- An insert is done with its shadow, which is on the queue or freed. -/
theorem Alive.handed (h : Alive s) {q : Place} (hx : (s.pc t).shadow = some x)
    (hpc : s'.pc = update s.pc t .outside) (hcount : s'.count = s.count)
    (hplace : s'.place = update s.place x q) (htouched : s'.touched = false)
    (htitle : s'.title = s.title)
    (hq : q = .queued ∧ s'.frees = s.frees ∨
      q = .freed ∧ s'.frees = update s.frees x (s.frees x + 1) ∧
        s.title.flink ≠ .shadow x) : Alive s' := by
  have hprep := h.working t x hx
  have hfree : s.frees x = 0 := by
    rw [h.frees, hprep]
    rfl
  have hnot : q ≠ .preparing ∧ q ≠ .unused := by
    rcases hq with ⟨rfl, -⟩ | ⟨rfl, -⟩ <;> exact ⟨nofun, nofun⟩
  refine h.exchange hpc hplace htitle htouched ?_ (fun u hu hux => hu (h.alone t u x hx hux))
    (fun y => iff_of_false nofun fun hy => hnot.1 hy.2) ?_ ?_ ?_ rfl id
  · exact fun y hy => Option.some.inj (hy.symm.trans hx)
  · rw [hcount]
    refine (forall_update_iff s.place fun y r => r = .unused ↔ s.count ≤ y).2
      ⟨⟨fun hu => absurd hu hnot.2, fun hle => ?_⟩, fun y _ => h.fresh y⟩
    cases hprep.symm.trans ((h.fresh x).2 hle)
  · refine (forall_update_iff s.place fun y r =>
      s'.frees y = if r = .freed then 1 else 0).2 ⟨?_, ?_⟩
    · rcases hq with ⟨rfl, hfrees⟩ | ⟨rfl, hfrees, -⟩
      · rw [hfrees, hfree]
        rfl
      · rw [hfrees, update_self, hfree]
        rfl
    · intro y hy
      rcases hq with ⟨-, hfrees⟩ | ⟨-, hfrees, -⟩
      · rw [hfrees]
        exact h.frees y
      · rw [hfrees, update_of_ne hy]
        exact h.frees y
  · intro hflink
    rcases hq with ⟨rfl, -⟩ | ⟨-, -, hne⟩
    · trivial
    · exact absurd hflink hne

theorem Alive.access (h : Alive s) (t : T) (ok : Bool) : Alive (s.access t ok) := by
  unfold State.access
  cases hpc : s.pc t with
  | outside => exact h
  | readInserted arguments | resolve c =>
    dsimp only
    split <;> exact h.plain rfl hpc nofun
  | refuse c =>
    obtain ⟨hpc', hcount, hplace, hfrees, hflink, hinserted, -⟩ := s.rearm_frame c.arguments
    exact h.plain (p := .outside) (by rw [← hpc']; rfl) hpc nofun hcount hplace hfrees
      ((h.rearm c.arguments).trans h.untouched.symm) hflink hinserted
  | stamp1 c | stamp2 c | clearBlink c x => exact h.plain rfl hpc nofun
  | allocate c =>
    dsimp only
    split
    · exact h.allocated (by rw [hpc]; rfl) c
    · exact h.plain rfl hpc nofun
  | setFlink c x =>
    refine h.moved rfl rfl rfl rfl h.untouched (by rw [hpc]; rfl) ?_ nofun nofun
    intro y hy
    exact Or.inr (congrArg some (Link.shadow.inj hy))
  | setBlink c x => exact h.plain rfl hpc fun _ => trivial
  | setInserted c x =>
    refine h.moved rfl rfl rfl rfl h.untouched (by rw [hpc]; rfl) (fun y hy => Or.inl hy) nofun ?_
    intro hother
    refine absurd ?_ ((h.other hother).2 t)
    rw [hpc]
    trivial
  | insertQueue c x =>
    have hshadow : (s.pc t).shadow = some x := by rw [hpc]; rfl
    have hprep := h.working t x hshadow
    dsimp only
    rw [State.touch_eq (by rw [hprep]; nofun)]
    split
    · exact h.handed hshadow rfl rfl rfl h.untouched rfl (Or.inl ⟨rfl, rfl⟩)
    · exact h.plain rfl hpc nofun
  | clearInserted c x =>
    refine h.moved rfl rfl rfl rfl h.untouched (by rw [hpc]; rfl) (fun y hy => Or.inl hy) nofun ?_
    exact fun hother => ⟨rfl, id, hother⟩
  | clearFlink c x =>
    exact h.moved rfl rfl rfl rfl h.untouched (by rw [hpc]; rfl) nofun (fun y _ => nofun) nofun
  | free c x =>
    have hcleared := h.cleared t x (by rw [hpc]; rfl)
    exact h.handed (by rw [hpc]; rfl) rfl rfl rfl h.untouched rfl
      (Or.inr ⟨rfl, rfl, hcleared⟩)

theorem Alive.step (h : Alive s) {a : Act T} (hstep : Step s a s') : Alive s' := by
  obtain rfl := hstep
  cases a with
  | insert t arguments =>
    dsimp only [State.apply]
    split
    · next hpc => exact h.plain rfl hpc nofun
    · exact h
  | access t ok => exact h.access t ok
  | deliver x =>
    dsimp only [State.apply]
    split
    · next hx =>
      refine h.onward hx ⟨trivial, trivial⟩ ⟨nofun, nofun⟩ ?_ fun hother => ⟨hother, id⟩
      exact (forall_update_iff s.place fun y r =>
        s.title.flink = .shadow y → s.title.flink = .shadow y ∧ r.Pointed).2
        ⟨fun hy => ⟨hy, trivial⟩, fun y _ hy => ⟨hy, h.pointed y hy⟩⟩
    · exact h
  | trampoline x => exact h.trampoline x
  | disable => exact { h with }
  | flush =>
    dsimp only [State.apply]
    split
    · refine h.settled rfl rfl h.untouched ?_ ?_ ?_ fun hother => ⟨hother, id⟩
      · intro y
        dsimp only
        split
        · next hy =>
          rw [hy]
          exact Or.inr ⟨trivial, trivial⟩
        · exact Or.inl rfl
      · intro y
        dsimp only
        have hfrees := h.frees y
        split
        · next hy =>
          rw [hy] at hfrees
          exact hfrees
        · exact hfrees
      · intro y hy
        refine ⟨hy, ?_⟩
        dsimp only
        split
        · trivial
        · exact h.pointed y hy
    · exact h

end

/-! ## Queueing -/

/-- Who may queue a shadow, or has one queued. -/
inductive Holder (T : Type) where
  | caller (t : T)
  | shadow (x : Nat)

/-- The call of an insert that has found `Inserted` clear, until its shadow is queued or
`Inserted` is cleared again. -/
def Pc.granted : Pc → Option Call
  | .stamp1 c | .stamp2 c | .resolve c | .allocate c => some c
  | .setFlink c _ | .setBlink c _ | .setInserted c _ => some c
  | .insertQueue c _ | .clearInserted c _ => some c
  | _ => none

/-- The shadow is queued, or its trampoline has not cleared `Inserted` yet. -/
def Place.Holding : Place → Prop
  | .queued | .leaving _ .inserted => True
  | _ => False

/-- What `Inserted` is, by the holder. -/
def State.marks (s : State T) : Option (Holder T) → Bool
  | none => false
  | some (.caller t) => (s.pc t).marked
  | some (.shadow _) => true

/-- There is at most one holder. -/
structure Token (s : State T) (o : Option (Holder T)) : Prop where
  caller : ∀ t, (s.pc t).granted ≠ none ↔ o = some (.caller t)
  shadow : ∀ x, (s.place x).Holding ↔ o = some (.shadow x)
  inserted : s.title.inserted = s.marks o
  saw : ∀ t c, (s.pc t).granted = some c → c.sawQueued = false
  refused : ∀ r ∈ s.results, r.1 = true → r.2 = false

section
variable {s s' : State T} {t : T} {p : Pc} {x : Nat} {o : Option (Holder T)}

/-- A step that leaves the holder and `Inserted` alone. -/
theorem Token.kept (h : Token s o) (hgranted : ∀ u, (s'.pc u).granted = (s.pc u).granted)
    (hmarked : ∀ u, (s'.pc u).marked = (s.pc u).marked)
    (hholding : ∀ y, (s'.place y).Holding ↔ (s.place y).Holding)
    (hinserted : s'.title.inserted = s.title.inserted)
    (hresults : ∀ r ∈ s'.results, r.1 = true → r.2 = false) : Token s' o where
  caller u := by
    rw [hgranted]
    exact h.caller u
  shadow y := (hholding y).trans (h.shadow y)
  inserted := by
    rw [hinserted, h.inserted]
    cases o with
    | none => rfl
    | some holder =>
      cases holder with
      | caller u => exact (hmarked u).symm
      | shadow y => rfl
  saw u c hc := h.saw u c ((hgranted u).symm.trans hc)
  refused := hresults

/-- Another thread is no holder while one is. -/
theorem Token.other (h : Token s (some (.caller t))) {u : T} (hu : u ≠ t) :
    (s.pc u).granted = none := by
  by_contra hne
  exact hu (Holder.caller.inj (Option.some.inj ((h.caller u).1 hne))).symm

/-- A thread that has found `Inserted` clear is the holder. -/
theorem Token.of_granted (h : Token s o) {c : Call} (hc : (s.pc t).granted = some c) :
    o = some (.caller t) := (h.caller t).1 (by rw [hc]; nofun)

theorem Token.shadow_none (h : Token s (some (.caller t))) (y : Nat) : ¬(s.place y).Holding := by
  intro hy
  cases (h.shadow y).1 hy

/-- One shadow moves on, as the holder or not as before. -/
theorem Token.placed (h : Token s o) {q r : Place} (hplace : s'.place = update s.place x q)
    (hat : s.place x = r) (hpc : s'.pc = s.pc := by rfl)
    (hinserted : s'.title.inserted = s.title.inserted := by rfl)
    (hresults : s'.results = s.results := by rfl)
    (hq : q.Holding ↔ r.Holding := by exact Iff.rfl) : Token s' o := by
  subst hat
  refine h.kept (fun u => by rw [hpc]) (fun u => by rw [hpc]) ?_ hinserted
    (by rw [hresults]; exact h.refused)
  rw [hplace]
  exact (forall_update_iff s.place fun y q => q.Holding ↔ (s.place y).Holding).2
    ⟨hq, fun _ _ => Iff.rfl⟩

theorem Token.trampoline (h : Token s o) (x : Nat) : ∃ o', Token (s.trampoline x) o' := by
  unfold State.trampoline
  split
  · next hx =>
    -- the mark: the shadow is no longer the holder
    obtain rfl := (h.shadow x).1 (by rw [hx]; trivial)
    refine ⟨none, ⟨?_, ?_, rfl, h.saw, h.refused⟩⟩
    · intro u
      refine iff_of_false ?_ nofun
      intro hu
      cases (h.caller u).1 hu
    · refine (forall_update_iff s.place fun y q =>
        q.Holding ↔ none = some (Holder.shadow y)).2 ⟨iff_of_false id nofun, ?_⟩
      intro y hy
      refine iff_of_false ?_ nofun
      intro hholding
      exact hy (Holder.shadow.inj (Option.some.inj ((h.shadow y).1 hholding))).symm
  · next hx => exact ⟨o, h.placed rfl hx⟩
  · next hx => exact ⟨o, h.placed rfl hx⟩
  · next hx => exact ⟨o, h.placed rfl hx⟩
  · next hx => exact ⟨o, h.placed rfl hx⟩
  · next hx => exact ⟨o, h.placed rfl hx⟩
  · next hx => exact ⟨o, h.placed rfl hx⟩
  · exact ⟨o, h⟩

theorem Start.token (h : Start s) : Token s none where
  caller t := by simp [h.pc, Pc.granted]
  shadow x := by simp [h.place, Place.Holding]
  inserted := h.inserted
  saw t c hc := by rw [h.pc] at hc; cases hc
  refused := by rw [h.results]; nofun

theorem Token.queueing (h : Token s o) : Queueing s where
  one x y hx hy := by
    have hx' := (h.shadow x).1 (by rw [hx]; trivial)
    have hy' := (h.shadow y).1 (by rw [hy]; trivial)
    exact Holder.shadow.inj (Option.some.inj (hx'.symm.trans hy'))
  inserted := by
    have hholding : ∀ x, (s.place x).Holding ↔
        s.place x = .queued ∨ ∃ arguments, s.place x = .leaving arguments .inserted := by
      intro x
      cases s.place x with
      | leaving arguments stage => cases stage <;> simp [Place.Holding]
      | _ => simp [Place.Holding]
    have hgranted : ∀ u, (s.pc u).marked = true → (s.pc u).granted ≠ none := by
      intro u
      cases s.pc u <;> simp [Pc.marked, Pc.granted]
    simp only [← hholding, h.shadow, h.inserted]
    constructor
    · intro hmarks
      cases o with
      | none => cases hmarks
      | some holder =>
        cases holder with
        | caller u => exact Or.inr ⟨u, hmarks⟩
        | shadow x => exact Or.inl ⟨x, rfl⟩
    · rintro (⟨x, rfl⟩ | ⟨u, hu⟩)
      · rfl
      · rw [(h.caller u).1 (hgranted u hu)]
        exact hu
  refused := h.refused

variable [DecidableEq T]

/-- A thread goes on, as the holder or not as before. -/
theorem Token.moved (h : Token s o) (hpc : s'.pc = update s.pc t p) {q : Pc} (hat : s.pc t = q)
    (hholding : ∀ y, (s'.place y).Holding ↔ (s.place y).Holding := by exact fun _ => Iff.rfl)
    (hinserted : s'.title.inserted = s.title.inserted := by rfl)
    (hresults : s'.results = s.results := by rfl) (hgranted : p.granted = q.granted := by rfl)
    (hmarked : p.marked = q.marked := by rfl) : Token s' o := by
  subst hat
  refine h.kept ?_ ?_ hholding hinserted ?_
  · rw [hpc]
    exact update_same Pc.granted hgranted
  · rw [hpc]
    exact update_same Pc.marked hmarked
  · rw [hresults]
    exact h.refused

/-- A thread that holds nothing takes the free token. -/
theorem Token.taken (h : Token s none) (hpc : s'.pc = update s.pc t p)
    (hplace : s'.place = s.place) {c : Call} (hp : p.granted = some c) (hc : c.sawQueued = false)
    (hmarked : p.marked = false) (hinserted : s'.title.inserted = s.title.inserted)
    (hresults : s'.results = s.results) : Token s' (some (.caller t)) := by
  have hnone : ∀ u, (s.pc u).granted = none := by
    intro u
    by_contra hne
    cases (h.caller u).1 hne
  have hself : s'.pc t = p := by rw [hpc, update_self]
  refine ⟨?_, ?_, ?_, ?_, by rw [hresults]; exact h.refused⟩
  · rw [hpc]
    refine (forall_update_iff s.pc fun u q =>
      q.granted ≠ none ↔ some (.caller t) = some (Holder.caller u)).2 ⟨?_, ?_⟩
    · rw [hp]
      exact iff_of_true nofun rfl
    · intro u hu
      rw [hnone]
      refine iff_of_false (fun hne => hne rfl) ?_
      intro heq
      exact hu (Holder.caller.inj (Option.some.inj heq)).symm
  · intro y
    rw [hplace]
    refine iff_of_false ?_ nofun
    intro hy
    cases (h.shadow y).1 hy
  · rw [hinserted, h.inserted]
    exact ((congrArg Pc.marked hself).trans hmarked).symm
  · rw [hpc]
    refine (forall_update_iff s.pc fun _ q =>
      ∀ d, q.granted = some d → d.sawQueued = false).2 ⟨?_, fun u _ => h.saw u⟩
    intro d hd
    rw [← Option.some.inj (hp.symm.trans hd)]
    exact hc

/-- The holding thread gives the token up, to the shadow it has queued or to nobody. -/
theorem Token.passed (h : Token s (some (.caller t))) (hpc : s'.pc = update s.pc t p)
    (hp : p.granted = none) {o : Option (Holder T)} (ho : ∀ u, o ≠ some (.caller u))
    (hshadow : ∀ y, (s'.place y).Holding ↔ o = some (.shadow y))
    (hinserted : s'.title.inserted = s'.marks o)
    (hresults : ∀ r ∈ s'.results, r.1 = true → r.2 = false) : Token s' o where
  caller := by
    rw [hpc]
    refine (forall_update_iff s.pc fun u q =>
      q.granted ≠ none ↔ o = some (Holder.caller u)).2 ⟨?_, ?_⟩
    · exact iff_of_false (fun hne => hne hp) (ho t)
    · intro u hu
      exact iff_of_false (fun hne => hne (h.other hu)) (ho u)
  shadow := hshadow
  inserted := hinserted
  saw := by
    rw [hpc]
    refine (forall_update_iff s.pc fun _ q =>
      ∀ d, q.granted = some d → d.sawQueued = false).2 ⟨?_, fun u _ => h.saw u⟩
    intro d hd
    rw [hp] at hd
    cases hd
  refused := hresults

theorem refused_cons {results : List (Bool × Bool)} {c : Call} {result : Bool}
    (h : ∀ r ∈ results, r.1 = true → r.2 = false) (hc : c.sawQueued = true → result = false) :
    ∀ r ∈ (c.sawQueued, result) :: results, r.1 = true → r.2 = false := by
  intro r hr
  rcases List.mem_cons.1 hr with rfl | hr
  · exact hc
  · exact h r hr

/-- An insert gives up before it has set `Inserted`. -/
theorem Token.failed (h : Token s o) {c : Call} (hat : s.pc t = p) (hgranted : p.granted = some c)
    (hmarked : p.marked = false) : Token (s.finish t c false) none := by
  subst hat
  obtain rfl := h.of_granted hgranted
  exact h.passed rfl rfl nofun (fun y => iff_of_false (h.shadow_none y) nofun)
    (h.inserted.trans hmarked) (refused_cons h.refused fun _ => rfl)

theorem Token.access (h : Token s o) (halive : Alive s) {ok : Bool}
    (hcareful : (Act.access t ok).Careful s) : ∃ o', Token (s.access t ok) o' := by
  unfold State.access
  cases hpc : s.pc t with
  | outside => exact ⟨o, h⟩
  | readInserted arguments =>
    dsimp only
    split
    · exact ⟨o, h.moved rfl hpc⟩
    · next hclear =>
      rw [Bool.not_eq_true] at hclear
      have hnone : o = none := by
        have hinserted := h.inserted
        rw [hclear] at hinserted
        cases o with
        | none => rfl
        | some holder =>
          cases holder with
          | shadow y => cases hinserted
          | caller u =>
            -- the holder would be pending
            have hgranted := (h.caller u).2 rfl
            have hpending := hcareful arguments hpc hclear u
            have hmarked : (s.pc u).marked = false := hinserted.symm
            revert hgranted hpending hmarked
            cases s.pc u <;> simp [Pc.granted, Pc.Pending, Pc.marked]
      subst hnone
      have hqueued : s.anyQueued = false := by
        refine List.any_eq_false.2 ?_
        intro y _ hy
        have hplace : (s.place y).Holding := by rw [beq_iff_eq.1 hy]; trivial
        cases (h.shadow y).1 hplace
      exact ⟨_, h.taken rfl rfl rfl hqueued rfl rfl rfl⟩
  | refuse c =>
    obtain ⟨hpc', -, hplace, -, -, hinserted, hresults⟩ := s.rearm_frame c.arguments
    refine ⟨o, h.kept ?_ ?_ ?_ hinserted ?_⟩
    · intro u
      dsimp only [State.finish, State.goto]
      rw [hpc']
      exact update_same Pc.granted (by rw [hpc]; rfl) u
    · intro u
      dsimp only [State.finish, State.goto]
      rw [hpc']
      exact update_same Pc.marked (by rw [hpc]; rfl) u
    · intro y
      dsimp only [State.finish, State.goto]
      rw [hplace]
    · dsimp only [State.finish]
      rw [hresults]
      exact refused_cons h.refused fun _ => rfl
  | stamp1 c | stamp2 c | setFlink c x | setBlink c x | clearFlink c x | clearBlink c x =>
    exact ⟨o, h.moved rfl hpc⟩
  | resolve c =>
    dsimp only
    split
    · exact ⟨o, h.moved rfl hpc⟩
    · exact ⟨none, h.failed hpc rfl rfl⟩
  | allocate c =>
    dsimp only
    split
    · refine ⟨o, h.moved rfl hpc ?_⟩
      refine (forall_update_iff s.place fun y q =>
        q.Holding ↔ (s.place y).Holding).2 ⟨?_, fun _ _ => Iff.rfl⟩
      rw [(halive.fresh s.count).2 (Nat.le_refl _)]
      exact Iff.rfl
    · exact ⟨none, h.failed hpc rfl rfl⟩
  | setInserted c x =>
    obtain rfl := h.of_granted (c := c) (by rw [hpc]; rfl)
    have hgranted : ∀ u, (update s.pc t (Pc.insertQueue c x) u).granted =
        (s.pc u).granted :=
      update_same Pc.granted (by rw [hpc]; rfl)
    refine ⟨some (.caller t), ⟨?_, h.shadow, ?_, ?_, h.refused⟩⟩
    · intro u
      dsimp only [State.goto]
      rw [hgranted]
      exact h.caller u
    · exact (congrArg Pc.marked (update_self t (Pc.insertQueue c x) s.pc)).symm
    · intro u d hd
      exact h.saw u d ((hgranted u).symm.trans hd)
  | insertQueue c x =>
    have hprep := halive.working t x (by rw [hpc]; rfl)
    obtain rfl := h.of_granted (c := c) (by rw [hpc]; rfl)
    dsimp only
    split
    · have hset : s.title.inserted = true := by
        rw [h.inserted]
        exact congrArg Pc.marked hpc
      have hsaw := h.saw t c (by rw [hpc]; rfl)
      refine ⟨some (.shadow x), h.passed rfl rfl nofun ?_ hset (refused_cons h.refused ?_)⟩
      · refine (forall_update_iff s.place fun y q =>
          q.Holding ↔ some (.shadow x) = some (Holder.shadow y)).2 ⟨iff_of_true trivial rfl, ?_⟩
        intro y hy
        refine iff_of_false (h.shadow_none y) ?_
        intro heq
        exact hy (Holder.shadow.inj (Option.some.inj heq)).symm
      · intro hqueued
        rw [hsaw] at hqueued
        cases hqueued
    · exact ⟨_, h.moved rfl hpc⟩
  | clearInserted c x =>
    obtain rfl := h.of_granted (c := c) (by rw [hpc]; rfl)
    exact ⟨none, h.passed rfl rfl nofun (fun y => iff_of_false (h.shadow_none y) nofun) rfl
      h.refused⟩
  | free c x =>
    have hprep := halive.working t x (by rw [hpc]; rfl)
    refine ⟨o, h.kept ?_ ?_ ?_ rfl (refused_cons h.refused fun _ => rfl)⟩
    · exact update_same Pc.granted (congrArg Pc.granted hpc).symm
    · exact update_same Pc.marked (congrArg Pc.marked hpc).symm
    · refine (forall_update_iff s.place fun y q =>
        q.Holding ↔ (s.place y).Holding).2 ⟨?_, fun _ _ => Iff.rfl⟩
      rw [hprep]
      exact Iff.rfl

theorem Token.step (h : Token s o) (halive : Alive s) {a : Act T} (hstep : CarefulStep s a s') :
    ∃ o', Token s' o' := by
  obtain ⟨hcareful, rfl⟩ := hstep
  cases a with
  | insert t arguments =>
    dsimp only [State.apply]
    split
    · next hpc => exact ⟨o, h.moved rfl hpc⟩
    · exact ⟨o, h⟩
  | access t ok => exact h.access halive hcareful
  | deliver x =>
    dsimp only [State.apply]
    split
    · next hx => exact ⟨o, h.placed rfl hx⟩
    · exact ⟨o, h⟩
  | trampoline x => exact h.trampoline x
  | disable => exact ⟨o, { h with }⟩
  | flush =>
    dsimp only [State.apply]
    split
    · refine ⟨o, h.kept (fun _ => rfl) (fun _ => rfl) ?_ rfl h.refused⟩
      intro y
      dsimp only
      split
      · next hy =>
        rw [hy]
        exact Iff.rfl
      · exact Iff.rfl
    · exact ⟨o, h⟩

/-- Shadows are freed once and not used afterwards in every run; and at most one is queued in
every run in which no insert finds `Inserted` clear while another one is pending. -/
theorem apc_shadows (s : State T) : (Reachable Start Step s → Lifetimes s) ∧
    (Reachable Start CarefulStep s → Lifetimes s ∧ Queueing s) := by
  refine ⟨?_, ?_⟩
  · intro hrun
    have halive : Alive s := by
      refine Reachable.invariant ?_ ?_ hrun
      · exact fun u hu => hu.alive
      · exact fun u a v hu hstep => hu.step hstep
    exact halive.lifetimes
  · intro hrun
    obtain ⟨halive, o, htoken⟩ : Alive s ∧ ∃ o, Token s o := by
      refine Reachable.invariant (P := fun u => Alive u ∧ ∃ o, Token u o) ?_ ?_ hrun
      · exact fun u hu => ⟨hu.alive, none, hu.token⟩
      · rintro u a v ⟨hu, o, ho⟩ hstep
        exact ⟨hu.step hstep.2, ho.step hu hstep⟩
    exact ⟨halive.lifetimes, htoken.queueing⟩

end

/-! ## Overlapping inserts -/

/-- An APC that has been initialised, for two threads. -/
def fresh : State Bool where
  title := ⟨false, .null, .null, 0, 0⟩
  queueable := true
  count := 0
  place := fun _ => .unused
  arguments := fun _ => (0, 0)
  frees := fun _ => 0
  touched := false
  pc := fun _ => .outside
  results := []

theorem fresh_start : Start fresh :=
  ⟨rfl, nofun, rfl, fun _ => rfl, fun _ => rfl, rfl, fun _ => rfl, rfl⟩

theorem run_reachable (acts : List (Act Bool)) :
    Reachable Start Step (acts.foldl State.apply fresh) :=
  Reachable.foldl (.start fresh_start) acts fun _ _ _ => rfl

/-- A whole insert of one thread. -/
def inserts (t : Bool) : List (Act Bool) := .insert t (1, 2) :: List.replicate 9 (.access t true)

instance : (p : Pc) → Decidable p.Pending
  | .stamp1 _ | .stamp2 _ | .resolve _ | .allocate _ => inferInstanceAs (Decidable True)
  | .setFlink _ _ | .setBlink _ _ | .setInserted _ _ => inferInstanceAs (Decidable True)
  | .outside | .readInserted _ | .refuse _ | .insertQueue _ _ => inferInstanceAs (Decidable False)
  | .clearInserted _ _ | .clearFlink _ _ | .clearBlink _ _ => inferInstanceAs (Decidable False)
  | .free _ _ => inferInstanceAs (Decidable False)

/-- The insert is about to look at `Inserted`. -/
def Pc.looking : Pc → Bool
  | .readInserted _ => true
  | _ => false

instance (s : State Bool) : (a : Act Bool) → Decidable (a.Careful s)
  | .access t _ => decidable_of_iff
      ((s.pc t).looking = true → s.title.inserted = false → ∀ u, ¬(s.pc u).Pending) <| by
    cases hp : s.pc t <;> simp [Pc.looking, Act.Careful, hp]
  | .insert _ _ | .deliver _ | .trampoline _ | .disable | .flush => inferInstanceAs (Decidable True)

/-- An insert, its delivery up to the free, an insert that is queued, and one by another thread
that finds it queued. -/
def reinserted : List (Act Bool) :=
  inserts true ++ .deliver 0 :: List.replicate 6 (.trampoline 0) ++ inserts true ++
    [.insert false (3, 4), .access false true, .access false true]

theorem apc_shadows_reinserted :
    (reinserted.foldl State.apply fresh).results = [(true, false), (false, true), (false, true)] ∧
      (reinserted.foldl State.apply fresh).place 0 = .freed ∧
      (reinserted.foldl State.apply fresh).place 1 = .queued ∧
      Lifetimes (reinserted.foldl State.apply fresh) ∧
      Queueing (reinserted.foldl State.apply fresh) := by
  have hallowed : Allowed (fun s a => a.Careful s) State.apply fresh reinserted := by decide
  refine ⟨by decide, by decide, by decide, (apc_shadows _).2 ?_⟩
  exact Reachable.allowed (.start fresh_start) reinserted (fun _ _ h => ⟨h, rfl⟩) hallowed

/-- Two inserts that both look before either sets `Inserted` queue two shadows; and a
delivered shadow leaves `Inserted` set with none queued and no insert going on. -/
theorem apc_overlap :
    (∃ s : State Bool, Reachable Start Step s ∧ s.place 0 = .queued ∧ s.place 1 = .queued) ∧
      ∃ s : State Bool, Reachable Start Step s ∧ s.title.inserted = true ∧
        (∀ x, s.place x ≠ .queued) ∧ ∀ t, s.pc t = .outside := by
  refine ⟨⟨_, run_reachable (.insert true (1, 2) :: .access true true :: inserts false ++
    List.replicate 8 (.access true true)), by decide, by decide⟩,
    ⟨_, run_reachable (inserts true ++ [.deliver 0]), by decide, ?_, by decide⟩⟩
  intro x
  cases x with
  | zero => decide
  | succ x => nofun

end Roswell.Ports.TitleApc
