import Roswell.Ports.TitleObjects

/-!
# The handle count of a title object

`XeObInsertObject` adds one to the count in the header, and the shim's close procedure takes one
away.  The shim has no open procedure: a handle the object manager makes by itself, on an open by
name or a duplication, is never added.

## Main results

* `handles_counted`: the count is the number of open handles as long as every handle comes from an
  insertion or an open by pointer, and the shim behind a name that was taken can be looked up or
  stands for the inserted object.
* `handles_duplicated`: a handle, its duplicate and two closes leave the count at minus one.
-/

namespace Roswell.Ports.TitleObjects

open Verified.Runs Function

/-- The open handles for `o` a place in the list of shims accounts for. -/
def handlesFor (o : Nat) : Option Shim → Nat
  | none => 0
  | some y => if y.object = o then y.handles else 0

/-- The open handles that designate an object. -/
def State.handles (s : State) (o : Nat) : Nat := (s.shims.map (handlesFor o)).sum

/-- The objects that exist count `n o` handles each. -/
def Matched (objects : Objects) (n : Nat → Nat) : Prop :=
  ∀ ⦃o x⦄, objects o = some x → x.handleCount = Int32.ofNat (n o)

def Balanced (s : State) : Prop := Matched s.objects s.handles

/-- No handle is made by the object manager alone, and the count that is raised is that of the
object the handle leads to. -/
def State.Counted (s : State) : Act → Prop
  | .handle i => s.shim i = none
  | .insert o _ _ _ (.taken i false) | .openObject o _ (.taken i false) =>
    ∀ y, s.shim i = some y → y.object = o
  | _ => True

def CountedStep (s : State) (a : Act) (s' : State) : Prop := BoundedStep s a s' ∧ s.Counted a

section
variable {s : State} {objects : Objects} {n m : Nat → Nat} {o i : Nat} {y : Shim}

theorem sum_set {l : List (Option Shim)} {x : Option Shim} (h : l[i]? = some x)
    (z : Option Shim) (o : Nat) :
    ((l.set i z).map (handlesFor o)).sum + handlesFor o x =
      (l.map (handlesFor o)).sum + handlesFor o z := by
  induction l generalizing i with
  | nil => simp at h
  | cons a l ih =>
    cases i with
    | zero =>
      cases Option.some.inj h
      simp
      omega
    | succ i =>
      have hrest := ih (i := i) h
      simp only [List.set_cons_succ, List.map_cons, List.sum_cons]
      omega

/-- A shim changes its object's handles alone. -/
theorem State.handles_set (h : s.shim i = some y) (z : Option Shim) (o : Nat) :
    ((s.shims.set i z).map (handlesFor o)).sum + handlesFor o (some y) =
      s.handles o + handlesFor o z :=
  sum_set (State.shim_eq_some h) z o

theorem handlesFor_eq_zero {l : List (Option Shim)} (h : l.countP (standsFor o) = 0) :
    (l.map (handlesFor o)).sum = 0 := by
  induction l with
  | nil => rfl
  | cons x l ih =>
    cases x with
    | none => simpa [handlesFor, standsFor] using ih (by simpa [standsFor] using h)
    | some y =>
      by_cases hy : y.object = o
      · simp [standsFor, hy] at h
      · simpa [handlesFor, hy] using ih (by simpa [standsFor, hy] using h)

/-- One object changes along with its handles. -/
theorem Matched.modify (h : Matched objects n) {f : Object → Object}
    (ho : ∀ x : Object, x.handleCount = Int32.ofNat (n o) →
      (f x).handleCount = Int32.ofNat (m o))
    (hm : ∀ p ≠ o, m p = n p) : Matched (TitleObjects.modify objects o f) m := by
  intro p x hx
  unfold TitleObjects.modify at hx
  by_cases hp : p = o
  · subst hp
    rw [update_self] at hx
    obtain ⟨y, hy, rfl⟩ := Option.map_eq_some_iff.1 hx
    exact ho y (h hy)
  · rw [update_of_ne hp] at hx
    rw [hm p hp]
    exact h hx

theorem Matched.reference (h : Matched objects n) (o : Nat) :
    Matched (xobReferenceObject objects o) n :=
  h.modify (fun _ hx => hx) fun _ _ => rfl

theorem Matched.dereference (h : Matched objects n) (o : Nat) :
    Matched (xobDereferenceObject objects o) n := by
  refine h.modify (fun x hx => ?_) fun _ _ => rfl
  fun_cases Object.dereference x <;> exact hx

theorem Matched.inserted (h : Matched objects n) (bias : Nat) (named permanent : Bool)
    (hm : ∀ p, m p = n p + if p = o then 1 else 0) :
    Matched (TitleObjects.modify objects o (·.inserted bias named permanent)) m := by
  refine h.modify (fun x hx => ?_) fun p hp => by simp [hm p, hp]
  rw [hm o, if_pos rfl, Int32.ofNat_add, ← hx]
  rfl

/-! ## Each call keeps the balance -/

/-- A shim is left with as many handles as it had. -/
theorem Balanced.setShim (h : Balanced s) (hshim : s.shim i = some y) {z : Shim}
    (hobject : z.object = y.object) (hhandles : z.handles = y.handles) :
    Balanced (s.setShim i z) := by
  have heq : (s.setShim i z).handles = s.handles := by
    funext p
    have hset := State.handles_set hshim (some z) p
    simp only [handlesFor, hobject, hhandles] at hset
    exact Nat.add_right_cancel hset
  unfold Balanced
  rw [heq]
  exact h

/-- A shim is deleted when it has no handles. -/
theorem Balanced.release (h : Balanced s) : Balanced (s.release i) := by
  fun_cases State.release s i with
  | case1 | case3 => exact h
  | case2 y hshim hunused =>
    have heq : (fun p => ((s.shims.set i none).map (handlesFor p)).sum) = s.handles := by
      funext p
      have hset := State.handles_set hshim none p
      simpa [handlesFor, hunused.1] using hset
    refine Matched.dereference (n := fun p => ((s.shims.set i none).map _).sum) ?_ y.object
    rw [heq]
    exact h

theorem Balanced.hold (h : Balanced s) (o : Nat) : Balanced (s.hold o) :=
  Matched.reference h o

theorem Balanced.insert (h : Balanced s) (o bias : Nat) (named permanent : Bool)
    {outcome : Outcome} (hled : s.Counted (.insert o bias named permanent outcome)) :
    Balanced (s.insert o bias named permanent outcome) := by
  show Balanced (s.xeObInsertObject o bias named permanent outcome)
  fun_cases State.xeObInsertObject s o bias named permanent outcome with
  | case1 => exact Matched.dereference h o
  | case2 => exact ((Matched.reference h o).dereference o).dereference o
  | case3 =>
    refine ((Matched.reference h o).inserted bias named permanent fun p => ?_).dereference o
    simp [State.handles, handlesFor, eq_comm]
  | case4 => exact h
  | case5 i found y hshim =>
    have hy : (if found = true then y.object else o) = y.object := by
      cases found with
      | true => rfl
      | false => exact (hled y hshim).symm
    have hpassed := (Matched.reference h o).dereference o
    refine Matched.dereference (Matched.inserted hpassed bias named permanent fun p => ?_) o
    have hset := State.handles_set hshim (some { y with handles := y.handles + 1 }) p
    show ((s.shims.set i _).map _).sum =
      s.handles p + if p = (if found = true then y.object else o) then 1 else 0
    simp only [hy, handlesFor, eq_comm (a := y.object)] at hset ⊢
    split_ifs at hset ⊢ <;> omega

/-- The close procedure and the object manager each take one handle away. -/
theorem Balanced.close (h : Balanced s) (hpos : ∀ y, s.shim i = some y → 0 < y.handles) :
    Balanced (s.closeHandle i) := by
  fun_cases State.closeHandle s i with
  | case1 => exact h
  | case2 y hshim =>
    refine Balanced.release (Matched.modify h (fun x hx => ?_) fun p hp => ?_)
    · have hset := State.handles_set hshim (some { y with handles := y.handles - 1 }) y.object
      have hy := hpos y hshim
      simp only [handlesFor, if_true] at hset
      have hone : s.handles y.object = ((s.shims.set i
          (some { y with handles := y.handles - 1 })).map (handlesFor y.object)).sum + 1 := by omega
      rw [hx, hone, Int32.ofNat_add]
      exact Int32.add_sub_cancel _ _
    · have hset := State.handles_set hshim (some { y with handles := y.handles - 1 }) p
      simp only [handlesFor, if_neg (Ne.symm hp)] at hset
      exact hset

theorem Balanced.apply {a : Act} (h : Balanced s) (hsound : Sound s) (hallowed : s.Allowed a)
    (hcounted : s.Counted a) : Balanced (s.apply a) := by
  fun_cases State.apply s a with
  | case1 | case4 | case7 | case9 | case11 | case12 | case15 => exact h
  | case2 o type name base remembered x hx =>
    have hnone := hsound o
    rw [show s.objects o = none from hallowed] at hnone
    have hzero : s.handles o = 0 := handlesFor_eq_zero (Nat.add_eq_zero_iff.1 hnone).2
    intro p z hz
    dsimp only at hz
    by_cases hp : p = o
    · subst hp
      rw [update_self] at hz
      rw [← Option.some.inj hz, (Object.create_counts hx).2]
      exact congrArg Int32.ofNat hzero.symm
    · rw [update_of_ne hp] at hz
      exact h hz
  | case3 o bias named permanent outcome => exact h.insert o bias named permanent hcounted
  | case5 o type outcome =>
    refine (h.hold o).insert o 0 false false ?_
    cases outcome with
    | taken i found => cases found <;> exact hcounted
    | _ => trivial
  | case6 o => exact h.hold o
  | case8 o => exact Matched.dereference h o
  | case10 o => exact Matched.modify h (fun _ hx => hx) fun _ _ => rfl
  | case13 i y hshim => exact h.setShim hshim rfl rfl
  | case14 i type =>
    fun_cases State.xobUnwrapShim s i type with
    | case1 => exact h
    | case2 y hshim =>
      refine Balanced.release ?_
      show Balanced (State.setShim (if s.mismatch y.object type = true then s else _) i _)
      split
      · exact h.setShim hshim rfl rfl
      · exact (h.hold _).setShim hshim rfl rfl
  | case16 i y hshim => cases hshim.symm.trans hcounted
  | case17 i => exact h.close hallowed

/-- In every run in which no object has `2 ^ 31` references and each step is counted, the handle
count of an object is the number of open handles that designate it. -/
theorem handles_counted (hrun : Reachable (· = start) CountedStep s) {x : Object}
    (hx : s.objects o = some x) (hfew : s.handles o < 2 ^ 31) :
    x.handleCount.toInt = s.handles o := by
  have hinv : (Sound s ∧ Bounded s) ∧ Balanced s := by
    refine Reachable.invariant (P := fun s => (Sound s ∧ Bounded s) ∧ Balanced s) ?_ ?_ hrun
    · rintro u rfl
      exact ⟨⟨fun _ => rfl, fun _ => Nat.two_pow_pos 31⟩, nofun⟩
    · rintro u a v ⟨⟨hsound, hbounded⟩, hbal⟩ ⟨⟨⟨⟨hallowed, rfl⟩, hknown⟩, hfinal⟩, hcounted⟩
      exact ⟨⟨hsound.apply hbounded hallowed hknown hfinal, hfinal⟩,
        hbal.apply hsound hallowed hcounted⟩
  rw [hinv.2 hx, Int32.toInt_ofNat_of_lt hfew]

end

/-! ## Runs -/

/-- A handle and a reference of the title's own. -/
def opened : State := created.apply (.insert 0 1 false false .inserted)

theorem opened_bounded : Bounded opened := by
  intro o
  have hcreated : update (fun _ => 0) 0 1 o ≤ 1 := by
    rw [update_apply]
    split <;> decide
  have hout := State.outstanding_insert_inserted created 0 1 false false (by decide) o
  have hzero : created.outstanding o = update (fun _ => 0) 0 1 o := rfl
  show (created.insert 0 1 false false .inserted).outstanding o < 2 ^ 31
  split at hout <;> omega

theorem handles_counted_opened : ∃ x, opened.objects 0 = some x ∧ x.handleCount.toInt = 1 := by
  have hcreated : Reachable (· = start) CountedStep created :=
    .next (.create 0 plainType none 0x2000 true) (.start rfl)
      ⟨⟨⟨⟨rfl, rfl⟩, trivial⟩, created_bounded⟩, trivial⟩
  have hrun : Reachable (· = start) CountedStep opened :=
    .next (.insert 0 1 false false .inserted) hcreated
      ⟨⟨⟨⟨⟨by decide, by decide, trivial⟩, rfl⟩, trivial⟩, opened_bounded⟩, trivial⟩
  exact ⟨_, rfl, handles_counted hrun (o := 0) rfl (by decide)⟩

/-- The handle is duplicated, and both are closed. -/
def duplicated : State := ((opened.apply (.handle 0)).apply (.close 0)).apply (.close 0)

/-- Two closes for one insertion: the count of an object that is still referenced is negative. -/
theorem handles_duplicated : ∃ x, Reachable (· = start) Step duplicated ∧
    duplicated.objects 0 = some x ∧ x.handleCount = -1 ∧ duplicated.handles 0 = 0 ∧
    x.pointerCount = 1 := by
  have hcreated : Reachable (· = start) Step created :=
    .next (.create 0 plainType none 0x2000 true) (.start rfl) ⟨rfl, rfl⟩
  have hopened : Reachable (· = start) Step opened :=
    .next (.insert 0 1 false false .inserted) hcreated ⟨⟨by decide, by decide, trivial⟩, rfl⟩
  have hhandle : Reachable (· = start) Step (opened.apply (.handle 0)) :=
    .next (.handle 0) hopened ⟨trivial, rfl⟩
  have hclose : Reachable (· = start) Step ((opened.apply (.handle 0)).apply (.close 0)) := by
    refine .next (.close 0) hhandle ⟨?_, rfl⟩
    rintro x ⟨⟩
    decide
  refine ⟨_, .next (.close 0) hclose ⟨?_, rfl⟩, rfl, ?_⟩
  · rintro x ⟨⟩
    decide
  · decide +kernel

end Roswell.Ports.TitleObjects
