import Mathlib.Data.List.TakeWhile
import Roswell.Verified.Runs
import Roswell.Verified.Word

/-!
# Objects a title owns

Model of `obcreate.c`: a title object carries its own reference count, and each insertion stands
it behind a shim, an object of the object manager that holds one reference on it until the shim
is deleted.

The object manager is taken at its word: it deletes a shim when the last handle, the last pointer
and the permanent name are gone.  Beside the code's own data the state keeps the references the
title holds (`refs`): the creator's, those taken, and those granted through `PointerBias`.  An
object's identity is one incarnation of its memory.

## Main results

* `objects_counted`: as long as no object has `2 ^ 31` references and the types of the objects in
  use are remembered, the pointer count is the number
  of outstanding references, and the delete routine and the free procedure have run exactly once
  if that number is zero and not at all otherwise.
* `objects_overbiased`: with `PointerBias = 0xFFFFFFFF` the insertion frees the object while its
  shim is alive.
-/

namespace Roswell.Ports.TitleObjects

open Verified.Runs Verified.Word Function

/-! ## Names -/

def separator : UInt8 := 0x5C

/-- The first element of a path and what is left after its separator. -/
def xobDissectName (path : List UInt8) : List UInt8 × List UInt8 :=
  let path := if path.head? = some separator then path.tail else path
  (path.takeWhile (· != separator), (path.dropWhile (· != separator)).tail)

variable {path : List UInt8}

theorem length_dissect_lt (h : path ≠ []) :
    (xobDissectName path).2.length < path.length := by
  have hpos : 0 < path.length := List.length_pos_iff.2 h
  have hdrop : ∀ l : List UInt8, (l.dropWhile (· != separator)).length ≤ l.length :=
    fun l => (List.dropWhile_sublist _).length_le
  unfold xobDissectName
  dsimp only
  split
  · have htail := hdrop path.tail
    rw [List.length_tail] at htail ⊢
    omega
  · have hall := hdrop path
    rw [List.length_tail]
    omega

/-- The loop of `XobLeafName`: the last element, unless one between two separators is empty. -/
def leafLoop (leaf : List UInt8) : List UInt8 → Option (List UInt8)
  | [] => some leaf
  | c :: path =>
    if (xobDissectName (c :: path)).2.head? = some separator then none
    else leafLoop (xobDissectName (c :: path)).1 (xobDissectName (c :: path)).2
termination_by path => path.length
decreasing_by exact length_dissect_lt (List.cons_ne_nil c path)

def xobLeafName (path : List UInt8) : Option (List UInt8) :=
  match leafLoop [] path with
  | some (c :: leaf) => some (c :: leaf)
  | _ => none

/-- Without a last element that is empty. -/
def absorbLast (l : List (List UInt8)) : List (List UInt8) :=
  if l.getLast? = some [] then l.dropLast else l

/-- What lies between the separators of a path; one separator at either end is absorbed. -/
def elements (path : List UInt8) : List (List UInt8) :=
  let l := path.splitOn separator
  absorbLast (if l.head? = some [] then l.tail else l)

/-- The last of some elements, none of which may be empty. -/
def lastOf (l : List (List UInt8)) : Option (List UInt8) := if [] ∈ l then none else l.getLast?

theorem absorbLast_splitOn (a path : List UInt8) :
    absorbLast (a :: path.splitOn separator) = a :: absorbLast (path.splitOn separator) := by
  have hne : path.splitOn separator ≠ [] := List.splitOnP_ne_nil _ _
  obtain ⟨b, l, hl⟩ := List.exists_cons_of_ne_nil hne
  unfold absorbLast
  rw [hl, List.getLast?_cons_cons]
  split <;> rfl

theorem splitOn_separator (path : List UInt8) :
    (separator :: path).splitOn separator = [] :: path.splitOn separator :=
  List.splitOn_append_cons_self_of_not_mem List.not_mem_nil path

theorem leafLoop_of_ne_nil (h : path ≠ []) (leaf : List UInt8) :
    leafLoop leaf path = if (xobDissectName path).2.head? = some separator then none
      else leafLoop (xobDissectName path).1 (xobDissectName path).2 := by
  cases path with
  | nil => exact absurd rfl h
  | cons c path => rw [leafLoop]

/-- A path that does not begin with a separator: its first element and what the loop goes on to. -/
theorem dissect_cases (hne : path ≠ []) (h : path.head? ≠ some separator) :
    ∃ first ≠ [], (path.splitOn separator = [first] ∧ xobDissectName path = (first, [])) ∨
      ∃ rest, path.splitOn separator = first :: rest.splitOn separator ∧
        xobDissectName path = (first, rest) := by
  have hpass : ∀ {l : List UInt8}, separator ∉ l → ∀ c ∈ l, (c != separator) = true :=
    fun hnot c hc => bne_iff_ne.2 fun heq => hnot (heq ▸ hc)
  rw [xobDissectName, if_neg h]
  by_cases hmem : separator ∈ path
  · obtain ⟨first, rest, rfl, hnot⟩ := List.eq_append_cons_of_mem hmem
    refine ⟨first, ?_, Or.inr ⟨rest, List.splitOn_append_cons_self_of_not_mem hnot rest, ?_⟩⟩
    · rintro rfl
      exact h rfl
    · rw [List.takeWhile_append_of_pos (hpass hnot), List.dropWhile_append_of_pos (hpass hnot)]
      simp
  · refine ⟨path, hne, Or.inl ⟨List.splitOnP_eq_singleton fun c hc => ?_, ?_⟩⟩
    · simpa using hpass hmem c hc
    · simp [List.takeWhile_eq_self_iff.2 (hpass hmem), List.dropWhile_eq_nil_iff.2 (hpass hmem)]

/-- The loop on a path that does not begin with a separator. -/
theorem leafLoop_eq (hne : path ≠ []) (hhead : path.head? ≠ some separator)
    (leaf : List UInt8) :
    leafLoop leaf path = lastOf (absorbLast (path.splitOn separator)) := by
  induction hlen : path.length using Nat.strong_induction_on generalizing leaf path with
  | _ n ih =>
  have hlt := length_dissect_lt hne
  obtain ⟨first, hfirst, ⟨hsplit, hdissect⟩ | ⟨rest, hsplit, hdissect⟩⟩ := dissect_cases hne hhead
  · rw [leafLoop_of_ne_nil hne, hdissect, hsplit]
    simp [leafLoop, absorbLast, lastOf, hfirst, hfirst.symm]
  · rw [hdissect] at hlt
    rw [leafLoop_of_ne_nil hne, hdissect, hsplit, absorbLast_splitOn]
    cases rest with
    | nil => simp [leafLoop, absorbLast, lastOf, hfirst.symm]
    | cons c rest =>
      by_cases hc : (c :: rest).head? = some separator
      · cases Option.some.inj hc
        rw [if_pos hc, splitOn_separator, absorbLast_splitOn]
        simp [lastOf]
      · rw [if_neg hc, ih _ (hlen ▸ hlt) (List.cons_ne_nil c rest) hc first rfl]
        obtain ⟨a, ha, ⟨hsplit, -⟩ | ⟨l, hsplit, -⟩⟩ := dissect_cases (List.cons_ne_nil c rest) hc
        · simp [hsplit, absorbLast, lastOf, ha, ha.symm, hfirst.symm]
        · rw [hsplit, absorbLast_splitOn]
          simp [lastOf, hfirst.symm]

theorem elements_separator (path : List UInt8) :
    elements (separator :: path) = absorbLast (path.splitOn separator) := by
  simp [elements, splitOn_separator]

theorem xobLeafName_of_lastOf {l : List (List UInt8)}
    (h : leafLoop [] path = lastOf l) : xobLeafName path = lastOf l := by
  rw [xobLeafName, h, lastOf]
  by_cases hempty : [] ∈ l
  · simp [hempty]
  · cases hlast : l.getLast? with
    | none => simp
    | some leaf =>
      cases leaf with
      | nil => exact absurd (List.mem_of_getLast? hlast) hempty
      | cons c leaf => simp [hempty]

theorem xobLeafName_plain (h : path.head? ≠ some separator) :
    xobLeafName path = lastOf (elements path) := by
  cases path with
  | nil => simp [xobLeafName, leafLoop, elements, absorbLast, lastOf]
  | cons c path =>
    have hne := List.cons_ne_nil c path
    have hsplit : elements (c :: path) = absorbLast ((c :: path).splitOn separator) := by
      obtain ⟨a, ha, ⟨hsplit, -⟩ | ⟨l, hsplit, -⟩⟩ := dissect_cases hne h
      · simp [elements, hsplit, ha]
      · simp [elements, hsplit, ha]
    exact xobLeafName_of_lastOf (hsplit ▸ leafLoop_eq hne h [])

/-- One separator in front is absorbed. -/
theorem xobLeafName_absorbed (h : path.head? ≠ some separator) :
    xobLeafName (separator :: path) = lastOf (elements (separator :: path)) := by
  rw [elements_separator]
  by_cases hne : path = []
  · simp [hne, xobLeafName, xobDissectName, leafLoop, absorbLast, lastOf]
  · refine xobLeafName_of_lastOf ?_
    have hdissect : xobDissectName (separator :: path) = xobDissectName path := by
      simp [xobDissectName, h]
    rw [leafLoop, hdissect, ← leafLoop_of_ne_nil hne [], leafLoop_eq hne h]

/-- Of two separators in front the second is passed over with the empty element before it. -/
theorem xobLeafName_doubled (path : List UInt8) :
    xobLeafName (separator :: separator :: path) =
      if path.head? = some separator then none else lastOf (elements path) := by
  rw [xobLeafName, leafLoop]
  by_cases h : path.head? = some separator
  · simp [xobDissectName, h]
  · rw [if_neg h, ← xobLeafName_plain h]
    simp [xobDissectName, h, xobLeafName]

/-- The code takes the last element exactly, but for two separators in front of a path that has
one. -/
theorem xobLeafName_iff (path : List UInt8) :
    xobLeafName path = lastOf (elements path) ↔
      ¬∃ rest, path = separator :: separator :: rest ∧ rest.head? ≠ some separator ∧
        lastOf (elements rest) ≠ none := by
  by_cases h : path.head? = some separator
  · obtain ⟨path, rfl⟩ := List.head?_eq_some_iff.1 h
    by_cases h : path.head? = some separator
    · obtain ⟨rest, rfl⟩ := List.head?_eq_some_iff.1 h
      have hempty : lastOf (elements (separator :: separator :: rest)) = none := by
        rw [elements_separator, splitOn_separator, absorbLast_splitOn]
        simp [lastOf]
      rw [hempty, xobLeafName_doubled]
      simp
    · refine iff_of_true (xobLeafName_absorbed h) ?_
      rintro ⟨rest, heq, -⟩
      simp [(List.cons.inj heq).2] at h
  · refine iff_of_true (xobLeafName_plain h) ?_
    rintro ⟨rest, rfl, -⟩
    exact h rfl

theorem xobLeafName_doubled_accepted :
    xobLeafName [separator, separator, 0x61] = some [0x61] ∧
      lastOf (elements [separator, separator, 0x61]) = none := by
  rw [xobLeafName_doubled]
  decide

/-! ## Objects -/

/-- The type a title supplies: where it lies, and which of its procedures are set. -/
structure ObjectType where
  address : Nat
  allocateProcedure : Bool
  freeProcedure : Bool
  deleteProcedure : Bool
  deriving DecidableEq, Repr

def sizeofNameInfo : Nat := 16

/-- A header with its flags.  `base` is what the allocate procedure returned; `deletes` counts the
calls of the delete procedure and `frees` lists the arguments of the free procedure. -/
structure Object where
  base : Nat
  header : Nat
  type : ObjectType
  pointerCount : Int32
  handleCount : Int32
  named : Bool
  permanent : Bool
  attached : Bool
  deletes : Nat
  frees : List Nat
  deriving DecidableEq, Repr

namespace Object

def reference (x : Object) : Object := { x with pointerCount := x.pointerCount + 1 }

def dereference (x : Object) : Object :=
  let count := x.pointerCount - 1
  if count ≠ 0 then { x with pointerCount := count }
  else
    { x with
      pointerCount := count
      deletes := if x.type.deleteProcedure = true then x.deletes + 1 else x.deletes
      frees := (if x.named = true then x.header - sizeofNameInfo else x.header) :: x.frees }

/-- What a successful insertion does to the object its handle leads to. -/
def inserted (x : Object) (bias : Nat) (named permanent : Bool) : Object :=
  { x with
    handleCount := x.handleCount + 1
    pointerCount := x.pointerCount + Int32.ofNat bias
    attached := x.attached || named
    permanent := x.permanent || permanent }

/-- `XeObCreateObject`; `base` is zero when the allocation fails. -/
def create (type : ObjectType) (name : Option (List UInt8)) (base : Nat) : Option Object :=
  if type.allocateProcedure = false ∨ type.freeProcedure = false then none
  else
    match name with
    | none => if base = 0 then none else some ⟨base, base, type, 1, 0, false, false, false, 0, []⟩
    | some path =>
      match xobLeafName path with
      | none => none
      | some _ =>
        if base = 0 then none
        else some ⟨base, base + sizeofNameInfo, type, 1, 0, true, false, false, 0, []⟩

end Object

abbrev Objects := Nat → Option Object

def modify (objects : Objects) (o : Nat) (f : Object → Object) : Objects :=
  update objects o ((objects o).map f)

def xobReferenceObject (objects : Objects) (o : Nat) : Objects :=
  modify objects o Object.reference

def xobDereferenceObject (objects : Objects) (o : Nat) : Objects :=
  modify objects o Object.dereference

/-! ## Shims -/

/-- A live shim, with what keeps it alive. -/
structure Shim where
  object : Nat
  handles : Nat
  pointers : Nat
  permanent : Bool
  deriving DecidableEq, Repr

def Shim.Unused (x : Shim) : Prop := x.handles = 0 ∧ x.pointers = 0 ∧ x.permanent = false

instance (x : Shim) : Decidable x.Unused := inferInstanceAs (Decidable (_ ∧ _ ∧ _))

/-- Shims that were deleted are `none`; `types` has the addresses in `XobTitleTypes`. -/
structure State where
  objects : Objects
  shims : List (Option Shim)
  refs : Nat → Nat
  types : List Nat

def standsFor (o : Nat) (x : Option Shim) : Bool := x.any (·.object == o)

namespace State

/-- The references on an object: those the title holds and one for each live shim. -/
def outstanding (s : State) (o : Nat) : Nat := s.refs o + s.shims.countP (standsFor o)

def shim (s : State) (i : Nat) : Option Shim := (s.shims[i]?).join

def setShim (s : State) (i : Nat) (x : Shim) : State := { s with shims := s.shims.set i (some x) }

/-- `XobShimDelete`, called by the object manager when nothing keeps the shim. -/
def release (s : State) (i : Nat) : State :=
  match s.shim i with
  | none => s
  | some x =>
    if x.Unused then
      { s with
        shims := s.shims.set i none
        objects := xobDereferenceObject s.objects x.object }
    else s

end State

/-! ## Insertion -/

/-- How far an insertion gets: there is no shim type or no shim; the object manager refuses the
shim; it is inserted; or the name is taken, and the handle is for the shim that has it, which can
then be looked up or not. -/
inductive Outcome where
  | noShim
  | refused
  | inserted
  | taken (i : Nat) (found : Bool)
  deriving DecidableEq, Repr

namespace State

/-- The object the handle leads to. -/
def target (s : State) (o : Nat) : Outcome → Option Nat
  | .noShim | .refused => none
  | .inserted => some o
  | .taken i found =>
    match s.shim i with
    | some x => some (if found = true then x.object else o)
    | none => none

def xeObInsertObject (s : State) (o bias : Nat) (named permanent : Bool) (outcome : Outcome) :
    State :=
  match outcome with
  | .noShim => { s with objects := xobDereferenceObject s.objects o }
  | .refused =>
    -- the shim takes its reference with it
    let objects := xobDereferenceObject (xobReferenceObject s.objects o) o
    { s with objects := xobDereferenceObject objects o }
  | .inserted =>
    let objects := modify (xobReferenceObject s.objects o) o (·.inserted bias named permanent)
    { s with
      shims := s.shims ++ [some ⟨o, 1, 0, permanent⟩]
      objects := xobDereferenceObject objects o }
  | .taken i found =>
    match s.shim i with
    | none => s
    | some x =>
      let objects := xobDereferenceObject (xobReferenceObject s.objects o) o
      let led := if found = true then x.object else o
      let objects := modify objects led (·.inserted bias named permanent)
      { s with
        shims := s.shims.set i (some { x with handles := x.handles + 1 })
        objects := xobDereferenceObject objects o }

/-- The reference the caller gives up, and those it is granted. -/
def inserting (s : State) (o bias : Nat) (led : Option Nat) : Nat → Nat :=
  let refs := update s.refs o (s.refs o - 1)
  match led with
  | none => refs
  | some t => update refs t (refs t + bias)

/-- A reference the title takes, or gives up. -/
def hold (s : State) (o : Nat) : State :=
  { s with objects := xobReferenceObject s.objects o, refs := update s.refs o (s.refs o + 1) }

def giveUp (s : State) (o : Nat) : State :=
  { s with
    objects := xobDereferenceObject s.objects o
    refs := update s.refs o (s.refs o - 1) }

def insert (s : State) (o bias : Nat) (named permanent : Bool) (outcome : Outcome) : State :=
  { s.xeObInsertObject o bias named permanent outcome with
    refs := s.inserting o bias (s.target o outcome) }

def typeOf (s : State) (o : Nat) : Option ObjectType := (s.objects o).map Object.type

def xobIsTitleObject (s : State) (o : Nat) : Bool :=
  (s.typeOf o).any fun type => s.types.contains type.address

/-- The object has another type than the one asked for. -/
def mismatch (s : State) (o : Nat) (type : Option ObjectType) : Bool :=
  type.isSome && s.typeOf o != type

/-- `XobUnwrapShim`: the pointer to the shim becomes a reference on the object. -/
def xobUnwrapShim (s : State) (i : Nat) (type : Option ObjectType) : State :=
  match s.shim i with
  | none => s
  | some x =>
    let s₁ := if s.mismatch x.object type = true then s else s.hold x.object
    (s₁.setShim i { x with pointers := x.pointers - 1 }).release i

/-- A handle is closed: `XobShimClose`, and the object manager's reference. -/
def closeHandle (s : State) (i : Nat) : State :=
  match s.shim i with
  | none => s
  | some x =>
    let objects := modify s.objects x.object fun y => { y with handleCount := y.handleCount - 1 }
    ({ s with objects := objects }.setShim i { x with handles := x.handles - 1 }).release i

end State

/-! ## Steps -/

/-- `lookup` is the object manager's half of a lookup by handle or name, `unwrap` the other one;
`handle` makes one more handle for a shim.  A creation tells whether `XobRememberType` finds room
for its record; its failure is ignored. -/
inductive Act where
  | create (o : Nat) (type : ObjectType) (name : Option (List UInt8)) (base : Nat)
      (remembered : Bool)
  | insert (o bias : Nat) (named permanent : Bool) (outcome : Outcome)
  | openObject (o : Nat) (type : Option ObjectType) (outcome : Outcome)
  | reference (o : Nat)
  | dereference (o : Nat)
  | makeTemporary (o : Nat)
  | lookup (i : Nat)
  | unwrap (i : Nat) (type : Option ObjectType)
  | handle (i : Nat)
  | close (i : Nat)

namespace State

/-- A call on an object whose type is not known goes to the object manager, which takes the
memory before it for a header of its own and leaves the object's alone. -/
def apply (s : State) : Act → State
  | .create o type name base remembered =>
    match Object.create type name base with
    | none => s
    | some x =>
      { s with
        objects := update s.objects o (some x)
        refs := update s.refs o 1
        types := if remembered = true then type.address :: s.types else s.types }
  | .insert o bias named permanent outcome => s.insert o bias named permanent outcome
  | .openObject o type outcome =>
    if s.xobIsTitleObject o = false ∨ s.mismatch o type = true then s
    else (s.hold o).insert o 0 false false outcome
  | .reference o =>
    if s.xobIsTitleObject o = true then s.hold o
    else { s with refs := update s.refs o (s.refs o + 1) }
  | .dereference o =>
    if s.xobIsTitleObject o = true then s.giveUp o
    else { s with refs := update s.refs o (s.refs o - 1) }
  | .makeTemporary o =>
    if s.xobIsTitleObject o = true then
      { s with objects := modify s.objects o fun x => { x with permanent := false } }
    else s
  | .lookup i =>
    match s.shim i with
    | none => s
    | some x => s.setShim i { x with pointers := x.pointers + 1 }
  | .unwrap i type => s.xobUnwrapShim i type
  | .handle i =>
    match s.shim i with
    | none => s
    | some x => s.setShim i { x with handles := x.handles + 1 }
  | .close i => s.closeHandle i

/-- A name is taken by a live shim. -/
def Possible (s : State) : Outcome → Prop
  | .taken i _ => s.shim i ≠ none
  | _ => True

/-- A reference is given up by one who holds it, and objects are used while they have one. -/
def Allowed (s : State) : Act → Prop
  | .create o _ _ _ _ => s.objects o = none
  | .insert o bias _ _ outcome => 0 < s.refs o ∧ bias < 2 ^ 32 ∧ s.Possible outcome
  | .openObject o _ outcome => 0 < s.outstanding o ∧ s.Possible outcome
  | .reference o | .makeTemporary o => 0 < s.outstanding o
  | .dereference o => 0 < s.refs o
  | .unwrap i _ => ∀ x, s.shim i = some x → 0 < x.pointers
  | .close i => ∀ x, s.shim i = some x → 0 < x.handles
  | .lookup _ | .handle _ => True

end State

def Step (s : State) (a : Act) (s' : State) : Prop := s.Allowed a ∧ s.apply a = s'

/-- No object has more references than its count can hold. -/
def Bounded (s : State) : Prop := ∀ o, s.outstanding o < 2 ^ 31

/-- A call on an object finds its type among those remembered. -/
def State.Remembers (s : State) : Act → Prop
  | .openObject o _ _ | .reference o | .dereference o | .makeTemporary o =>
    s.xobIsTitleObject o = true
  | _ => True

def BoundedStep (s : State) (a : Act) (s' : State) : Prop :=
  (Step s a s' ∧ s.Remembers a) ∧ Bounded s'

/-- Before the first title object. -/
def start : State := ⟨fun _ => none, [], fun _ => 0, []⟩

/-! ## What the objects say about the references -/

/-- An object with `n` references. -/
structure Object.Counts (x : Object) (n : Nat) : Prop where
  pointerCount : x.pointerCount = Int32.ofNat n
  deletes : x.deletes = if n = 0 ∧ x.type.deleteProcedure = true then 1 else 0
  frees : x.frees = if n = 0 then [x.base] else []
  header : x.header = x.base + if x.named = true then sizeofNameInfo else 0

/-- The objects that exist have `n o` references each. -/
def Ledger (objects : Objects) (n : Nat → Nat) : Prop :=
  ∀ o, match objects o with
    | none => n o = 0
    | some x => x.Counts (n o)

section
variable {s s' : State} {objects : Objects} {n m : Nat → Nat} {o i : Nat} {x : Object}

theorem Object.Counts.grant {k c : Nat} (h : x.Counts c) (hpos : 0 < c) {y : Object}
    (hcount : y.pointerCount = x.pointerCount + Int32.ofNat k)
    (hrest : y.base = x.base ∧ y.header = x.header ∧ y.type = x.type ∧ y.named = x.named ∧
      y.deletes = x.deletes ∧ y.frees = x.frees) : y.Counts (c + k) := by
  obtain ⟨hbase, hheader, htype, hnamed, hdeletes, hfrees⟩ := hrest
  refine ⟨?_, ?_, ?_, ?_⟩
  · rw [hcount, h.pointerCount, Int32.ofNat_add]
  · rw [hdeletes, h.deletes, if_neg (by omega), if_neg (by omega)]
  · rw [hfrees, h.frees, if_neg (by omega), if_neg (by omega)]
  · rw [hheader, hbase, hnamed, h.header]

theorem Object.Counts.dereference {c : Nat} (h : x.Counts (c + 1)) (hc : c < 2 ^ 32) :
    x.dereference.Counts c := by
  have hcount : x.pointerCount - 1 = Int32.ofNat c := by
    rw [h.pointerCount, Int32.ofNat_add]
    exact Int32.add_sub_cancel _ _
  have hdeletes : x.deletes = 0 := by rw [h.deletes, if_neg (by omega)]
  have hfrees : x.frees = [] := by rw [h.frees, if_neg (by omega)]
  unfold Object.dereference
  dsimp only
  rw [hcount]
  by_cases hzero : c = 0
  · subst hzero
    rw [if_neg (by decide)]
    refine ⟨rfl, ?_, ?_, h.header⟩
    · dsimp only
      rw [hdeletes]
      simp only [true_and]
    · dsimp only
      rw [hfrees, h.header]
      split <;> rfl
  · rw [if_pos (fun hcast => hzero ((long_ofNat_eq_zero hc).1 hcast))]
    refine ⟨rfl, ?_, ?_, h.header⟩
    · dsimp only
      rw [hdeletes, if_neg (by omega)]
    · dsimp only
      rw [hfrees, if_neg hzero]

theorem Ledger.congr (h : Ledger objects n) (heq : ∀ p, n p = m p) : Ledger objects m := by
  rw [← funext heq]
  exact h

theorem Ledger.exists_of_pos (h : Ledger objects n) (hpos : 0 < n o) :
    ∃ x, objects o = some x ∧ x.Counts (n o) := by
  have ho := h o
  split at ho
  · omega
  · next x hx => exact ⟨x, hx, ho⟩

/-- One object changes along with its number of references. -/
theorem Ledger.modify (h : Ledger objects n) {f : Object → Object} {k : Nat} (hpos : 0 < n o)
    (hf : ∀ x : Object, x.Counts (n o) → (f x).Counts k) :
    Ledger (modify objects o f) (update n o k) := by
  obtain ⟨x, hx, hcounts⟩ := h.exists_of_pos hpos
  intro p
  unfold TitleObjects.modify
  by_cases hp : p = o
  · subst hp
    rw [update_self, update_self, hx]
    exact hf x hcounts
  · rw [update_of_ne hp, update_of_ne hp]
    exact h p

theorem update_add (n : Nat → Nat) (o k p : Nat) :
    update n o (n o + k) p = n p + if p = o then k else 0 := by
  rw [update_apply]
  split <;> simp [*]

theorem update_sub (n : Nat → Nat) (o k p : Nat) :
    update n o (n o - k) p = n p - if p = o then k else 0 := by
  rw [update_apply]
  split <;> simp [*]

/-- One object is granted references. -/
theorem Ledger.grant (h : Ledger objects n) (hpos : 0 < n o) {f : Object → Object} {k : Nat}
    (hf : ∀ x : Object, x.Counts (n o) → (f x).Counts (n o + k)) :
    Ledger (TitleObjects.modify objects o f) (fun p => n p + if p = o then k else 0) :=
  (h.modify hpos hf).congr fun p => update_add n o k p

theorem Ledger.reference (h : Ledger objects n) (hpos : 0 < n o) :
    Ledger (xobReferenceObject objects o) (fun p => n p + if p = o then 1 else 0) :=
  h.grant hpos fun _ hx => hx.grant hpos rfl ⟨rfl, rfl, rfl, rfl, rfl, rfl⟩

theorem Ledger.inserted (h : Ledger objects n) (hpos : 0 < n o) (bias : Nat) (named permanent : Bool) :
    Ledger (TitleObjects.modify objects o (·.inserted bias named permanent))
      (fun p => n p + if p = o then bias else 0) :=
  h.grant hpos fun _ hx => hx.grant hpos rfl ⟨rfl, rfl, rfl, rfl, rfl, rfl⟩

theorem Ledger.dereference (h : Ledger objects n) (hpos : 0 < n o) (hmax : n o ≤ 2 ^ 32) :
    Ledger (xobDereferenceObject objects o) (fun p => n p - if p = o then 1 else 0) := by
  have hone : Ledger (xobDereferenceObject objects o) (update n o (n o - 1)) := by
    refine h.modify hpos fun x hx => ?_
    obtain ⟨c, hc⟩ : ∃ c, n o = c + 1 := ⟨n o - 1, by omega⟩
    rw [hc] at hx ⊢
    exact hx.dereference (by omega)
  exact hone.congr fun p => update_sub n o 1 p

end

section
variable {s s' : State} {objects : Objects} {n : Nat → Nat} {o i : Nat}

/-! ## Shims and their objects -/

theorem State.shim_eq_some {y : Shim} (h : s.shim i = some y) : s.shims[i]? = some (some y) := by
  unfold State.shim at h
  exact Option.join_eq_some_iff.1 h

theorem State.countP_set {y : Shim} (h : s.shim i = some y) (z : Option Shim) (o : Nat) :
    (s.shims.set i z).countP (standsFor o) + (if y.object = o then 1 else 0) =
      s.shims.countP (standsFor o) + if standsFor o z = true then 1 else 0 := by
  obtain ⟨hlt, hget⟩ := List.getElem?_eq_some_iff.1 (State.shim_eq_some h)
  have hstands : standsFor o s.shims[i] = decide (y.object = o) := by
    rw [hget]
    unfold standsFor
    rw [Option.any_some]
    rfl
  have hle : (if y.object = o then 1 else 0) ≤ s.shims.countP (standsFor o) := by
    split
    · next ho => exact List.countP_pos_iff.2 ⟨_, List.getElem_mem hlt, by rw [hstands, decide_eq_true ho]⟩
    · exact Nat.zero_le _
  rw [List.countP_set hlt, hstands]
  simp only [decide_eq_true_eq]
  omega

theorem State.countP_setShim {y z : Shim} (h : s.shim i = some y) (hobject : z.object = y.object)
    (o : Nat) : (s.shims.set i (some z)).countP (standsFor o) = s.shims.countP (standsFor o) := by
  have hcount := State.countP_set h (some z) o
  simp only [standsFor, Option.any_some, beq_iff_eq, hobject] at hcount
  exact Nat.add_right_cancel hcount

/-- A live shim is an outstanding reference. -/
theorem State.outstanding_pos {y : Shim} (h : s.shim i = some y) : 0 < s.outstanding y.object := by
  have hcount := State.countP_set h none y.object
  rw [if_pos rfl, show standsFor y.object none = false from rfl, if_neg Bool.false_ne_true] at hcount
  unfold State.outstanding
  omega

/-! ## Each call keeps the count -/

theorem State.outstanding_pos_of_held (hheld : 0 < s.refs o) : 0 < s.outstanding o := by
  unfold State.outstanding
  omega

/-- The objects count their outstanding references. -/
def Sound (s : State) : Prop := Ledger s.objects s.outstanding

theorem Sound.modify (h : Sound s) {f : Object → Object}
    (hf : ∀ (x : Object) (k : Nat), x.Counts k → (f x).Counts k) (o : Nat) :
    Sound { s with objects := TitleObjects.modify s.objects o f } := by
  intro p
  have hp := h p
  show match TitleObjects.modify s.objects o f p with
    | none => s.outstanding p = 0
    | some x => x.Counts (s.outstanding p)
  unfold TitleObjects.modify
  by_cases hpo : p = o
  · subst hpo
    rw [update_self]
    cases hx : s.objects p with
    | none => rwa [hx] at hp
    | some x =>
      rw [hx] at hp
      exact hf x _ hp
  · rwa [update_of_ne hpo]

theorem Sound.setShim (h : Sound s) {y z : Shim} (hshim : s.shim i = some y)
    (hobject : z.object = y.object) : Sound (s.setShim i z) := by
  refine Ledger.congr (n := s.outstanding) h fun p => ?_
  unfold State.outstanding State.setShim
  dsimp only
  rw [State.countP_setShim hshim hobject]

theorem State.outstanding_hold (s : State) (o p : Nat) :
    (s.hold o).outstanding p = s.outstanding p + if p = o then 1 else 0 := by
  unfold State.outstanding State.hold
  dsimp only
  rw [update_add]
  omega

theorem Sound.hold (h : Sound s) (hpos : 0 < s.outstanding o) : Sound (s.hold o) :=
  (Ledger.reference h hpos).congr fun p => (State.outstanding_hold s o p).symm

theorem Sound.release (h : Sound s) (hmax : ∀ p, s.outstanding p ≤ 2 ^ 32) :
    Sound (s.release i) := by
  unfold State.release
  split
  · exact h
  · next y hy =>
    split
    · refine (Ledger.dereference h (State.outstanding_pos hy) (hmax _)).congr fun p => ?_
      have hcount := State.countP_set hy none p
      rw [if_neg (show ¬standsFor p none = true from Bool.false_ne_true)] at hcount
      simp only [eq_comm (a := y.object)] at hcount
      unfold State.outstanding
      dsimp only
      omega
    · exact h

/-- A reference given up by the caller. -/
theorem State.inserting_none (s : State) (o bias p : Nat) :
    s.inserting o bias none p = s.refs p - if p = o then 1 else 0 :=
  update_sub s.refs o 1 p

/-- ... and what it is granted. -/
theorem State.inserting_some (s : State) (o bias t p : Nat) :
    s.inserting o bias (some t) p =
      (s.refs p - if p = o then 1 else 0) + if p = t then bias else 0 :=
  (update_add _ t bias p).trans (congrArg (· + _) (State.inserting_none s o bias p))

/-- The shim that is not inserted takes one reference and gives it back. -/
theorem Ledger.passing (h : Ledger objects n) (hpos : 0 < n o) (hmax : n o < 2 ^ 32) :
    Ledger (xobDereferenceObject (xobReferenceObject objects o) o) n := by
  have hback := (h.reference hpos).dereference (o := o) (by omega)
    (by rw [if_pos rfl]; omega)
  refine hback.congr fun p => ?_
  omega

/-- A reference is given up, and nothing else. -/
theorem Sound.refused (h : Ledger objects s.outstanding) (hmax : s.outstanding o ≤ 2 ^ 32)
    (hheld : 0 < s.refs o) (bias : Nat) :
    Sound ⟨xobDereferenceObject objects o, s.shims, s.inserting o bias none, s.types⟩ := by
  refine (h.dereference (State.outstanding_pos_of_held hheld) hmax).congr fun p => ?_
  unfold State.outstanding
  dsimp only
  rw [State.inserting_none]
  by_cases hp : p = o
  · subst hp
    rw [if_pos rfl]
    omega
  · rw [if_neg hp]
    omega

theorem Sound.giveUp (h : Sound s) (hmax : s.outstanding o ≤ 2 ^ 32) (hheld : 0 < s.refs o) :
    Sound (s.giveUp o) :=
  Sound.refused h hmax hheld 0

/-- The outstanding references after a successful insertion, which leads to `t`. -/
theorem State.outstanding_insert_inserted (s : State) (o bias : Nat) (named permanent : Bool)
    (hheld : 0 < s.refs o) (p : Nat) :
    (s.insert o bias named permanent .inserted).outstanding p =
      s.outstanding p + if p = o then bias else 0 := by
  unfold State.insert State.outstanding State.xeObInsertObject State.target
  dsimp only
  rw [State.inserting_some, List.countP_append]
  by_cases hp : p = o
  · subst hp
    have hone : List.countP (standsFor p) [some ⟨p, 1, 0, permanent⟩] = 1 := by
      simp [standsFor]
    rw [if_pos rfl, if_pos rfl, hone]
    omega
  · have hnone : List.countP (standsFor p) [some ⟨o, 1, 0, permanent⟩] = 0 := by
      simp [standsFor, Ne.symm hp]
    rw [if_neg hp, if_neg hp, hnone]
    rfl

theorem State.outstanding_insert_taken {y : Shim} (hshim : s.shim i = some y) (bias : Nat)
    (named permanent found : Bool) (p : Nat) :
    (s.insert o bias named permanent (.taken i found)).outstanding p =
      (s.refs p - if p = o then 1 else 0) +
        (if p = (if found = true then y.object else o) then bias else 0) +
        s.shims.countP (standsFor p) := by
  unfold State.insert State.outstanding State.xeObInsertObject State.target
  simp only [hshim]
  rw [State.inserting_some,
    State.countP_setShim hshim (z := { y with handles := y.handles + 1 }) rfl]

theorem Sound.insert (h : Sound s) {bias : Nat} {named permanent : Bool} {outcome : Outcome}
    (hmax : ∀ p, s.outstanding p ≤ 2 ^ 31) (hheld : 0 < s.refs o)
    (hpossible : s.Possible outcome)
    (hfinal : Bounded (s.insert o bias named permanent outcome)) :
    Sound (s.insert o bias named permanent outcome) := by
  have hpos := State.outstanding_pos_of_held hheld
  have ho := hmax o
  cases outcome with
  | noShim => exact Sound.refused h (by omega) hheld bias
  | refused => exact Sound.refused (h.passing hpos (by omega)) (by omega) hheld bias
  | inserted =>
    have hend := hfinal o
    rw [State.outstanding_insert_inserted s o bias named permanent hheld, if_pos rfl] at hend
    have hbias := (h.reference hpos).inserted (o := o) (by omega) bias named permanent
    have hcreator := hbias.dereference (o := o) (by omega) (by rw [if_pos rfl, if_pos rfl]; omega)
    refine hcreator.congr fun p => ?_
    rw [State.outstanding_insert_inserted s o bias named permanent hheld]
    omega
  | taken i found =>
    obtain ⟨y, hshim⟩ := Option.ne_none_iff_exists'.1 hpossible
    generalize ht : (if found = true then y.object else o) = t
    have htpos : 0 < s.outstanding t := by
      rw [← ht]
      split
      · exact State.outstanding_pos hshim
      · exact hpos
    have htotal := State.outstanding_insert_taken hshim bias named permanent found (o := o)
    rw [ht] at htotal
    have hend := hfinal o
    rw [htotal, if_pos rfl] at hend
    have hbias := (h.passing hpos (by omega)).inserted htpos bias named permanent
    have hcreator := hbias.dereference (o := o) (by omega) (by
      unfold State.outstanding at ho ⊢
      omega)
    have hobjects : (s.insert o bias named permanent (.taken i found)).objects =
        xobDereferenceObject (TitleObjects.modify
          (xobDereferenceObject (xobReferenceObject s.objects o) o) t
          (·.inserted bias named permanent)) o := by
      unfold State.insert State.xeObInsertObject
      simp only [hshim, ht]
    unfold Sound
    rw [hobjects]
    refine hcreator.congr fun p => ?_
    rw [htotal]
    unfold State.outstanding
    by_cases hp : p = o
    · subst hp
      rw [if_pos rfl]
      omega
    · rw [if_neg hp]
      omega

theorem Object.create_counts {type : ObjectType} {name : Option (List UInt8)} {base : Nat} {x : Object}
    (h : Object.create type name base = some x) : x.Counts 1 ∧ x.handleCount = 0 := by
  revert h
  fun_cases Object.create type name base with
  | case3 | case6 =>
    rintro ⟨⟩
    exact ⟨⟨rfl, rfl, rfl, rfl⟩, rfl⟩
  | _ => nofun

theorem Sound.create (h : Sound s) (hnew : s.objects o = none) {x : Object} (hx : x.Counts 1)
    (types : List Nat) :
    Sound ⟨update s.objects o (some x), s.shims, update s.refs o 1, types⟩ := by
  have hnone := h o
  rw [hnew] at hnone
  intro p
  have hp := h p
  unfold State.outstanding at hnone hp ⊢
  dsimp only at hnone ⊢
  by_cases hpo : p = o
  · subst hpo
    rw [update_self, update_self, show s.shims.countP (standsFor p) = 0 by omega]
    exact hx
  · rwa [update_of_ne hpo, update_of_ne hpo]

/-- The object manager takes or drops something that keeps the shim alive. -/
theorem Sound.released (h : Sound s) (hmax : ∀ p, s.outstanding p ≤ 2 ^ 32) {y z : Shim}
    (hshim : s.shim i = some y) (hobject : z.object = y.object) :
    Sound ((s.setShim i z).release i) := by
  refine (h.setShim hshim hobject).release fun p => ?_
  unfold State.outstanding State.setShim
  dsimp only
  rw [State.countP_setShim hshim hobject]
  exact hmax p

theorem Sound.apply {a : Act} (h : Sound s) (hbounded : Bounded s) (hallowed : s.Allowed a)
    (hknown : s.Remembers a) (hfinal : Bounded (s.apply a)) : Sound (s.apply a) := by
  have hmax : ∀ p, s.outstanding p ≤ 2 ^ 32 := fun p => by
    have := hbounded p
    omega
  cases a with
  | create o type name base remembered =>
    unfold State.apply
    dsimp only
    split
    · exact h
    · next x hx => exact h.create hallowed (Object.create_counts hx).1 _
  | insert o bias named permanent outcome =>
    exact h.insert (fun p => (hbounded p).le) hallowed.1 hallowed.2.2 hfinal
  | openObject o type outcome =>
    unfold State.apply at hfinal ⊢
    dsimp only at hfinal ⊢
    split
    · exact h
    · next hmatch =>
      rw [if_neg hmatch] at hfinal
      refine (h.hold hallowed.1).insert ?_ ?_ ?_ hfinal
      · intro p
        have := hbounded p
        rw [State.outstanding_hold]
        split <;> omega
      · unfold State.hold
        dsimp only
        rw [update_self]
        omega
      · have hpossible := hallowed.2
        cases outcome <;> exact hpossible
  | reference o =>
    rw [State.apply, if_pos (show s.xobIsTitleObject o = true from hknown)]
    exact h.hold hallowed
  | dereference o =>
    rw [State.apply, if_pos (show s.xobIsTitleObject o = true from hknown)]
    exact h.giveUp (hmax o) hallowed
  | makeTemporary o =>
    rw [State.apply, if_pos (show s.xobIsTitleObject o = true from hknown)]
    exact h.modify (f := fun x => { x with permanent := false })
      (fun x k hx => { hx with }) o
  | lookup i | handle i =>
    unfold State.apply
    dsimp only
    split
    · exact h
    · next x hx => exact h.setShim hx rfl
  | unwrap i type =>
    unfold State.apply State.xobUnwrapShim
    dsimp only
    split
    · exact h
    · next x hx =>
      split
      · exact h.released hmax hx rfl
      · refine (h.hold (State.outstanding_pos hx)).released ?_ hx rfl
        intro p
        have := hbounded p
        rw [State.outstanding_hold]
        split <;> omega
  | close i =>
    unfold State.apply State.closeHandle
    dsimp only
    split
    · exact h
    · next x hx =>
      have hclosed := h.modify (f := fun y => { y with handleCount := y.handleCount - 1 })
        (fun y k hy => { hy with }) x.object
      exact hclosed.released hmax hx rfl

/-- In every run in which no object ever has `2 ^ 31` references and calls find the types of
their objects remembered, each object's pointer count is the number of its outstanding
references.  While there are any, neither the delete routine nor the free procedure has run;
when there are none, both have run once, and the free procedure has been given the whole
allocation. -/
theorem objects_counted (hrun : Reachable (· = start) BoundedStep s) {x : Object}
    (hx : s.objects o = some x) :
    x.pointerCount.toInt = s.outstanding o ∧
      (s.outstanding o ≠ 0 → x.deletes = 0 ∧ x.frees = []) ∧
      (s.outstanding o = 0 →
        x.deletes = (if x.type.deleteProcedure = true then 1 else 0) ∧ x.frees = [x.base]) := by
  have hinv : Sound s ∧ Bounded s := by
    refine Reachable.invariant (P := fun s => Sound s ∧ Bounded s) ?_ ?_ hrun
    · rintro u rfl
      exact ⟨fun _ => rfl, fun _ => Nat.two_pow_pos 31⟩
    · rintro u a v ⟨hsound, hbounded⟩ ⟨⟨⟨hallowed, rfl⟩, hknown⟩, hfinal⟩
      exact ⟨hsound.apply hbounded hallowed hknown hfinal, hfinal⟩
  have hcounts := hinv.1 o
  rw [hx] at hcounts
  refine ⟨?_, ?_, ?_⟩
  · rw [hcounts.pointerCount, Int32.toInt_ofNat_of_lt (hinv.2 o)]
  · intro hne
    rw [hcounts.deletes, hcounts.frees, if_neg (fun h => hne h.1), if_neg hne]
    exact ⟨rfl, rfl⟩
  · intro hzero
    rw [hcounts.deletes, hcounts.frees, if_pos hzero]
    simp only [hzero, true_and, and_true]

end

/-! ## Runs -/

def plainType : ObjectType := ⟨0x1000, true, true, true⟩

def created : State := start.apply (.create 0 plainType none 0x2000 true)

def dereferenced : State := created.apply (.dereference 0)

theorem created_bounded : Bounded created := by
  intro o
  show update (fun _ => 0) 0 1 o + 0 < 2 ^ 31
  by_cases ho : o = 0
  · subst ho
    rw [update_self]
    decide
  · rw [update_of_ne ho]
    decide

/-- The creator gives its reference up: the object is deleted and its memory freed. -/
theorem objects_counted_dereferenced : ∃ x, dereferenced.objects 0 = some x ∧
    x.pointerCount.toInt = dereferenced.outstanding 0 ∧ x.deletes = 1 ∧ x.frees = [0x2000] := by
  have hcreated : Reachable (· = start) BoundedStep created :=
    .next (.create 0 plainType none 0x2000 true) (.start rfl)
      ⟨⟨⟨rfl, rfl⟩, trivial⟩, created_bounded⟩
  have hbounded : Bounded dereferenced := by
    intro o
    show update (update (fun _ => 0) 0 1) 0 0 o + 0 < 2 ^ 31
    rw [update_idem, update_eq_self_iff.2 rfl]
    exact Nat.two_pow_pos 31
  have hrun : Reachable (· = start) BoundedStep dereferenced :=
    .next (.dereference 0) hcreated
      ⟨⟨⟨show 0 < created.refs 0 by decide, rfl⟩, show _ = _ by decide⟩, hbounded⟩
  obtain ⟨hcount, -, hfreed⟩ := objects_counted hrun (o := 0) rfl
  exact ⟨_, rfl, hcount, (hfreed rfl).1, (hfreed rfl).2⟩

/-- The bias is added as a signed number: the shim's reference is gone with the creator's. -/
theorem objects_overbiased : ∃ (s : State) (x : Object), Reachable (· = start) Step s ∧
    s.objects 0 = some x ∧ s.shim 0 = some ⟨0, 1, 0, false⟩ ∧
    x.pointerCount = 0 ∧ x.frees = [x.base] ∧ s.outstanding 0 = 2 ^ 32 := by
  have hcreated : Reachable (· = start) Step created :=
    .next (.create 0 plainType none 0x2000 true) (.start rfl) ⟨rfl, rfl⟩
  refine ⟨created.apply (.insert 0 0xFFFFFFFF false false .inserted), _,
    .next (.insert 0 0xFFFFFFFF false false .inserted) hcreated ⟨⟨by decide, by decide, trivial⟩, rfl⟩,
    rfl, rfl, ?_, ?_, ?_⟩
  · decide +kernel
  · decide +kernel
  · decide +kernel

end Roswell.Ports.TitleObjects
