import Roswell.Verified.Runs
import Roswell.Verified.Word

/-!
# Title critical sections

Model of `XeRtlEnterCriticalSection`, `XeRtlTryEnterCriticalSection` and
`XeRtlLeaveCriticalSection`, one memory access at a time.  Only `RecursionCount` and
`OwningThread` are used by them.

A thread's steps never touch what another owner has read: `OwningThread` changes to and
from a thread by that thread's own steps only, and `RecursionCount` is written by the
owner only.  The count is a 32-bit `LONG`, so a thread may not nest `2 ^ 31` enters.
-/

namespace Roswell.Ports.CriticalSection

open Verified.Runs Verified.Word Function

/-! ## The calls -/

/-- Where a thread is, by the access it makes next.  `wait` tells an enter from a try. -/
inductive Pc where
  | outside
  | readOwner (wait : Bool)
  | readCount
  | writeCount (value : Int32)
  | compareExchange (wait : Bool)
  | setCount
  | leaveRead
  | leaveWrite (value : Int32)
  | leaveExchange
  deriving DecidableEq, Repr

/-- The section, and for each thread its place and the enters minus leaves that have
returned. -/
structure State (T : Type) where
  recursionCount : Int32
  owningThread : Option T
  pc : T → Pc
  depth : T → Nat

inductive Act (T : Type) where
  | enter (t : T)
  | tryEnter (t : T)
  | leave (t : T)
  /-- The next access of a thread that is inside a call. -/
  | access (t : T)

variable {T : Type} [DecidableEq T]

namespace State

def goto (s : State T) (t : T) (p : Pc) : State T := { s with pc := update s.pc t p }

/-- A call returns. -/
def finish (s : State T) (t : T) (depth : Nat) : State T :=
  { s.goto t .outside with depth := update s.depth t depth }

/-- `XeRtlInitializeCriticalSection`. -/
def initial : State T := ⟨0, none, fun _ => .outside, fun _ => 0⟩

def access (s : State T) (t : T) : State T :=
  match s.pc t with
  | .outside => s
  | .readOwner wait =>
    if s.owningThread = some t then s.goto t .readCount else s.goto t (.compareExchange wait)
  | .readCount => s.goto t (.writeCount s.recursionCount)
  | .writeCount value => { s with recursionCount := value + 1 }.finish t (s.depth t + 1)
  | .compareExchange wait =>
    if s.owningThread = none then { s with owningThread := some t }.goto t .setCount
    else if wait then s
    else s.goto t .outside
  | .setCount => { s with recursionCount := 1 }.finish t (s.depth t + 1)
  | .leaveRead => s.goto t (.leaveWrite s.recursionCount)
  | .leaveWrite value =>
    if value - 1 = 0 then { s with recursionCount := value - 1 }.goto t .leaveExchange
    else { s with recursionCount := value - 1 }.finish t (s.depth t - 1)
  | .leaveExchange => { s with owningThread := none }.finish t (s.depth t - 1)

/-- A thread calls from outside, and leaves only what it has entered. -/
def apply (s : State T) : Act T → State T
  | .enter t => if s.pc t = .outside then s.goto t (.readOwner true) else s
  | .tryEnter t => if s.pc t = .outside then s.goto t (.readOwner false) else s
  | .leave t => if s.pc t = .outside ∧ 0 < s.depth t then s.goto t .leaveRead else s
  | .access t => s.access t

end State

/-- The depth a call would lead to can be counted. -/
def Act.Shallow (s : State T) : Act T → Prop
  | .enter t => s.depth t + 1 < 2 ^ 31
  | .tryEnter t => s.depth t + 1 < 2 ^ 31
  | _ => True

def Step (s : State T) (a : Act T) (s' : State T) : Prop := s.apply a = s'

def ShallowStep (s : State T) (a : Act T) (s' : State T) : Prop := a.Shallow s ∧ Step s a s'

/-- A thread holds the section if it has entered it more often than left, or has taken it
in an enter that has not returned. -/
def Holds (s : State T) (t : T) : Prop := 0 < s.depth t ∨ s.pc t = .setCount

/-- At most one thread holds the section; its count is the owner's depth when the owner is
not inside a call; and it is unowned exactly when no enter is unmatched. -/
structure Exclusive (s : State T) : Prop where
  one : ∀ t u, Holds s t → Holds s u → t = u
  count : ∀ t, s.owningThread = some t → s.pc t = .outside → s.recursionCount.toInt = s.depth t
  unowned : s.owningThread = none ↔ ∀ t, ¬Holds s t

/-! ## The invariant -/

/-- What a thread knows at its place: whether it is the owner, and the count if it is. -/
def Pc.Knows (owner : Prop) (count : Int32) (depth : Nat) : Pc → Prop
  | .outside => (owner → count.toInt = depth ∧ 0 < depth) ∧ (¬owner → depth = 0) ∧ depth < 2 ^ 31
  | .readOwner _ =>
    (owner → count.toInt = depth ∧ 0 < depth) ∧ (¬owner → depth = 0) ∧ depth + 1 < 2 ^ 31
  | .readCount => owner ∧ count.toInt = depth ∧ 0 < depth ∧ depth + 1 < 2 ^ 31
  | .writeCount value =>
    owner ∧ count.toInt = depth ∧ value = count ∧ 0 < depth ∧ depth + 1 < 2 ^ 31
  | .compareExchange _ => ¬owner ∧ depth = 0
  | .setCount => owner ∧ depth = 0
  | .leaveRead => owner ∧ count.toInt = depth ∧ 0 < depth ∧ depth < 2 ^ 31
  | .leaveWrite value =>
    owner ∧ count.toInt = depth ∧ value = count ∧ 0 < depth ∧ depth < 2 ^ 31
  | .leaveExchange => owner ∧ depth = 1

def Inv (s : State T) : Prop :=
  ∀ t, (s.pc t).Knows (s.owningThread = some t) s.recursionCount (s.depth t)

/-- What a thread that is not the owner knows does not depend on the count. -/
theorem Pc.Knows.frame {p : Pc} {owner owner' : Prop} {count count' : Int32} {depth : Nat}
    (h : p.Knows owner count depth) (hbefore : ¬owner) (hafter : ¬owner') :
    p.Knows owner' count' depth := by
  cases p <;> simp_all [Pc.Knows]

variable {s s' : State T} {t : T}

/-- A step of one thread: what it knows afterwards is shown, and the others keep what they
know, since none of them is the owner where owner or count change. -/
theorem Inv.of_thread (h : Inv s)
    (hself : (s'.pc t).Knows (s'.owningThread = some t) s'.recursionCount (s'.depth t))
    (hpc : ∀ u, u ≠ t → s'.pc u = s.pc u) (hdepth : ∀ u, u ≠ t → s'.depth u = s.depth u)
    (hshared : (s'.owningThread = s.owningThread ∧ s'.recursionCount = s.recursionCount) ∨
      ∀ u, u ≠ t → s.owningThread ≠ some u ∧ s'.owningThread ≠ some u) : Inv s' := by
  intro u
  by_cases hu : u = t
  · rw [hu]
    exact hself
  · have hknows := h u
    rw [hpc u hu, hdepth u hu]
    rcases hshared with ⟨howner, hcount⟩ | hnone
    · rw [howner, hcount]
      exact hknows
    · exact hknows.frame (hnone u hu).1 (hnone u hu).2

/-- A thread goes on to another place, and nothing else changes. -/
theorem Inv.goto (h : Inv s) {p : Pc}
    (hself : p.Knows (s.owningThread = some t) s.recursionCount (s.depth t)) : Inv (s.goto t p) := by
  refine h.of_thread (t := t) ?_ ?_ (fun _ _ => rfl) (Or.inl ⟨rfl, rfl⟩)
  · rw [show (s.goto t p).pc t = p from update_self ..]
    exact hself
  · intro u hu
    exact update_of_ne hu ..

/-- A step of the owner, or of a thread that becomes the owner. -/
theorem Inv.owner (h : Inv s) {owner : Option T} (p : Pc) (count : Int32) (depth : Nat)
    (hbefore : s.owningThread = some t ∨ s.owningThread = none) (hafter : owner = some t ∨ owner = none)
    (hself : p.Knows (owner = some t) count depth) :
    Inv ⟨count, owner, update s.pc t p, update s.depth t depth⟩ := by
  have hother : ∀ {o : Option T}, o = some t ∨ o = none → ∀ u, u ≠ t → o ≠ some u := by
    rintro o (rfl | rfl) u hu heq
    · exact hu (Option.some.inj heq).symm
    · cases heq
  refine h.of_thread (t := t) ?_ ?_ ?_ (Or.inr fun u hu => ⟨hother hbefore u hu, hother hafter u hu⟩)
  · dsimp only
    rw [update_self, update_self]
    exact hself
  · exact fun u hu => update_of_ne hu ..
  · exact fun u hu => update_of_ne hu ..

theorem Inv.access (h : Inv s) (t : T) : Inv (s.access t) := by
  have hknows := h t
  unfold State.access
  generalize s.pc t = p at hknows ⊢
  cases p with
  | outside => exact h
  | readOwner wait =>
    obtain ⟨howner, hnot, hroom⟩ := hknows
    dsimp only
    split
    · next hme =>
      obtain ⟨hcount, hpos⟩ := howner hme
      exact h.goto ⟨hme, hcount, hpos, hroom⟩
    · next hother => exact h.goto ⟨hother, hnot hother⟩
  | readCount | leaveRead =>
    obtain ⟨hme, hcount, hpos, hroom⟩ := hknows
    exact h.goto ⟨hme, hcount, rfl, hpos, hroom⟩
  | writeCount value =>
    obtain ⟨hme, hcount, rfl, hpos, hroom⟩ := hknows
    have hsucc := long_add_one (x := s.recursionCount) (by omega)
    exact h.owner .outside (s.recursionCount + 1) (s.depth t + 1) (Or.inl hme) (Or.inl hme)
      ⟨fun _ => ⟨by omega, by omega⟩, fun hn => absurd hme hn, hroom⟩
  | compareExchange wait =>
    obtain ⟨hother, hzero⟩ := hknows
    dsimp only
    split
    · next hfree =>
      have howner := h.owner (t := t) .setCount s.recursionCount (s.depth t) (Or.inr hfree)
        (Or.inl rfl) ⟨rfl, hzero⟩
      rw [update_eq_self_iff.2 rfl] at howner
      exact howner
    · split
      · exact h
      · exact h.goto ⟨fun hme => absurd hme hother, fun _ => hzero, by omega⟩
  | setCount =>
    obtain ⟨hme, hzero⟩ := hknows
    refine h.owner .outside 1 (s.depth t + 1) (Or.inl hme) (Or.inl hme)
      ⟨fun _ => ⟨?_, by omega⟩, fun hn => absurd hme hn, by omega⟩
    rw [hzero]
    rfl
  | leaveWrite value =>
    obtain ⟨hme, hcount, rfl, hpos, hroom⟩ := hknows
    have hpred := long_sub_one (x := s.recursionCount) (by omega)
    dsimp only
    split
    · next hlast =>
      rw [long_eq_zero] at hlast
      have howner := h.owner .leaveExchange (s.recursionCount - 1) (s.depth t) (Or.inl hme)
        (Or.inl hme) ⟨hme, by omega⟩
      rw [update_eq_self_iff.2 rfl] at howner
      exact howner
    · next hmore =>
      rw [long_eq_zero] at hmore
      exact h.owner .outside (s.recursionCount - 1) (s.depth t - 1) (Or.inl hme) (Or.inl hme)
        ⟨fun _ => ⟨by omega, by omega⟩, fun hn => absurd hme hn, by omega⟩
  | leaveExchange =>
    obtain ⟨hme, hone⟩ := hknows
    exact h.owner .outside s.recursionCount (s.depth t - 1) (Or.inl hme) (Or.inr rfl)
      ⟨nofun, fun _ => by omega, by omega⟩

theorem Inv.step (h : Inv s) {a : Act T} (hstep : ShallowStep s a s') : Inv s' := by
  obtain ⟨hshallow, rfl⟩ := hstep
  cases a with
  | enter t | tryEnter t =>
    dsimp only [State.apply]
    split
    · next hpc =>
      have hknows := h t
      rw [hpc] at hknows
      exact h.goto ⟨hknows.1, hknows.2.1, hshallow⟩
    · exact h
  | leave t =>
    dsimp only [State.apply]
    split
    · next hcall =>
      have hknows := h t
      rw [hcall.1] at hknows
      obtain ⟨howner, hnot, hroom⟩ := hknows
      have hme : s.owningThread = some t := by
        by_contra hother
        have := hnot hother
        omega
      obtain ⟨hcount, hpos⟩ := howner hme
      exact h.goto ⟨hme, hcount, hpos, hroom⟩
    · exact h
  | access t => exact h.access t

/-- The thread that holds the section is the owner. -/
theorem Inv.holds_iff (h : Inv s) (t : T) : Holds s t ↔ s.owningThread = some t := by
  have hknows := h t
  unfold Holds
  cases hpc : s.pc t <;> rw [hpc] at hknows <;> simp only [Pc.Knows] at hknows <;>
    by_cases howner : s.owningThread = some t <;> simp_all

theorem Inv.exclusive (h : Inv s) : Exclusive s where
  one t u ht hu :=
    Option.some.inj (((h.holds_iff t).1 ht).symm.trans ((h.holds_iff u).1 hu))
  count t howner hpc := by
    have hknows := h t
    rw [hpc] at hknows
    exact (hknows.1 howner).1
  unowned := by
    simp only [h.holds_iff]
    exact Option.eq_none_iff_forall_ne_some

omit [DecidableEq T] in
theorem initial_inv : Inv (State.initial : State T) := fun _ =>
  ⟨nofun, fun _ => rfl, Nat.two_pow_pos 31⟩

/-- As long as no thread nests `2 ^ 31` enters, the section is exclusive in every run. -/
theorem criticalSection_exclusive (hrun : Reachable (· = State.initial) ShallowStep s) :
    Exclusive s := by
  have hinv : Inv s := by
    refine Reachable.invariant (P := Inv) ?_ ?_ hrun
    · rintro _ rfl
      exact initial_inv
    · intro u a v hu hstep
      exact hu.step hstep
  exact hinv.exclusive

instance (s : State T) (a : Act T) : Decidable (a.Shallow s) :=
  match a with
  | .enter _ | .tryEnter _ => inferInstanceAs (Decidable (_ < _))
  | .leave _ | .access _ => inferInstanceAs (Decidable True)

/-- One thread enters twice; between the two, the other tries. -/
def enteredTwice : List (Act Bool) :=
  .enter true :: List.replicate 3 (.access true) ++ .tryEnter false ::
    List.replicate 2 (.access false) ++ .enter true :: List.replicate 3 (.access true)

theorem criticalSection_exclusive_enter :
    (enteredTwice.foldl State.apply State.initial).depth true = 2 ∧
      Exclusive (enteredTwice.foldl State.apply State.initial) := by
  have hallowed : Allowed (fun s a => a.Shallow s) State.apply State.initial enteredTwice := by
    decide
  have hstart : Reachable (· = State.initial) ShallowStep (State.initial : State Bool) := .start rfl
  exact ⟨by decide, criticalSection_exclusive
    (hstart.allowed enteredTwice (fun _ _ h => ⟨h, rfl⟩) hallowed)⟩

/-! ## Too many enters -/

/-- One thread has entered the section so many times. -/
def nested (n : Nat) : State Unit where
  recursionCount := Int32.ofNat n
  owningThread := some ()
  pc := fun _ => .outside
  depth := fun _ => n

/-- One more enter of the owner: it sees itself as the owner and adds one to the count. -/
theorem nested_succ (n : Nat) :
    ((((nested n).apply (.enter ())).apply (.access ())).apply (.access ())).apply (.access ()) =
      nested (n + 1) := by
  have hcount : Int32.ofNat n + 1 = Int32.ofNat (n + 1) := (Int32.ofNat_add n 1).symm
  unfold nested
  rw [← hcount]
  rfl

theorem nested_reachable (n : Nat) :
    Reachable (· = (State.initial : State Unit)) Step (nested (n + 1)) := by
  induction n with
  | zero =>
    refine .next (.access ()) (.next (.access ()) (.next (.access ()) (.next (.enter ())
      (.start rfl) rfl) rfl) rfl) ?_
    rfl
  | succ n ih =>
    exact .next (.access ()) (.next (.access ()) (.next (.access ()) (.next (.enter ()) ih rfl)
      rfl) rfl) (nested_succ (n + 1))

/-- After `2 ^ 31` enters the count is negative. -/
theorem criticalSection_overflow : ∃ s : State Unit,
    Reachable (· = State.initial) Step s ∧ s.depth () = 2 ^ 31 ∧
      s.recursionCount.toInt = -2 ^ 31 ∧ ¬Exclusive s := by
  have hcount : (nested (2 ^ 31)).recursionCount.toInt = -2 ^ 31 := by decide
  refine ⟨nested (2 ^ 31), nested_reachable (2 ^ 31 - 1), rfl, hcount, ?_⟩
  intro hexclusive
  have heq := hexclusive.count () rfl rfl
  rw [hcount] at heq
  omega

end Roswell.Ports.CriticalSection
