import Mathlib.Data.Fintype.EquivFin
import Mathlib.Data.List.Lex
import Roswell.Verified.Bytes

/-!
# Path resolution on an Xbox disc

Model of `XdvdAsciiCompare`, `XdvdReadDirentTable`, `XdvdFindInTable` and
`XdvdResolvePath`.  A directory is a table of entries linked as a binary search tree
through offsets in units of four bytes; a path is walked one segment at a time, each
segment in the table of the directory before it.

The search of one table follows the links it reads and need not end on a damaged
disc, so it takes fuel.  On a disc that encodes a directory tree the links are the
branches of the tree, and enough fuel gives the entry that the names alone select.
-/

namespace Roswell.Ports.Xdvdfs

open Verified.Bytes

/-! ## The driver -/

inductive NtStatus where
  | notFound
  | insufficientResources
  | diskCorruptError
  | objectNameInvalid
  | objectNameNotFound
  | objectPathNotFound
  | device (code : Nat)
  deriving DecidableEq, Repr

def xdvdSectorSize : Nat := 2048

def xdvdAttrDirectory : UInt8 := 0x10

def xdvdDirentFixedSize : Nat := 0x0E

def xdvdDirentEmptySentinel : UInt8 := 0xFF

/-- The device below and the pool: the bytes of the disc, how a read of a length at an
offset ends (the bytes transferred, or the status it fails with), which allocations
succeed, and what a fresh allocation holds. -/
structure Device where
  disc : Memory
  read : Nat → Nat → Except NtStatus Nat
  alloc : Nat → Bool
  stale : Memory

structure Vcb where
  rootSector : Nat
  rootSize : Nat

structure Fcb where
  dataSector : Nat
  dataSize : Nat
  attributes : UInt8
  isDirectory : Bool
  isRoot : Bool
  name : List UInt16

def upper (c : UInt8) : UInt8 := if 0x61 ≤ c ∧ c ≤ 0x7A then c - 0x20 else c

def xdvdAsciiCompare : List UInt8 → List UInt8 → Int
  | [], [] => 0
  | [], _ :: _ => -1
  | _ :: _, [] => 1
  | a :: as, b :: bs =>
    if upper a ≠ upper b then (upper a).toNat - (upper b).toNat else xdvdAsciiCompare as bs

/-- A table and its size, rounded up to whole sectors in 32 bits. -/
def xdvdReadDirentTable (dev : Device) (tableSector tableSize : Nat) :
    Except NtStatus (Memory × Nat) :=
  if tableSize = 0 then .error .notFound
  else
    let aligned := (tableSize + xdvdSectorSize - 1) % 2 ^ 32 / xdvdSectorSize * xdvdSectorSize
    if !dev.alloc aligned then .error .insufficientResources
    else
      match dev.read (tableSector * xdvdSectorSize) aligned with
      | .error status => .error status
      | .ok got =>
        if got < tableSize then .error .diskCorruptError
        else
          .ok (fun i => if i < got then dev.disc (tableSector * xdvdSectorSize + i) else dev.stale i,
            aligned)

/-! The fields of the entry at an offset of a table. -/

def leftOffset (table : Memory) (off : Nat) : Nat := load table off 2

def rightOffset (table : Memory) (off : Nat) : Nat := load table (off + 2) 2

def dataSector (table : Memory) (off : Nat) : Nat := load table (off + 4) 4

def dataSize (table : Memory) (off : Nat) : Nat := load table (off + 8) 4

def attributes (table : Memory) (off : Nat) : UInt8 := table (off + 12)

def nameLength (table : Memory) (off : Nat) : UInt8 := table (off + 13)

def entryName (table : Memory) (off : Nat) : List UInt8 :=
  slice table (off + xdvdDirentFixedSize) (nameLength table off).toNat

/-- The offset of the entry with a name, `some none` where there is none, and `none`
where the loop is still running. -/
def xdvdFindInTable (table : Memory) (tableSize : Nat) (name : List UInt8) :
    Nat → Nat → Option (Option Nat)
  | 0, _ => none
  | fuel + 1, off =>
    if tableSize < off + xdvdDirentFixedSize then some none
    else if nameLength table off = xdvdDirentEmptySentinel then some none
    else if tableSize < off + xdvdDirentFixedSize + (nameLength table off).toNat then some none
    else
      let cmp := xdvdAsciiCompare name (entryName table off)
      if cmp = 0 then some (some off)
      else
        let next := if cmp < 0 then leftOffset table off else rightOffset table off
        if next = 0 ∨ next = 0xFFFF then some none
        else xdvdFindInTable table tableSize name fuel (next * 4)

def backslash : UInt16 := 0x5C

def isDirectory (attributes : UInt8) : Bool := attributes &&& xdvdAttrDirectory ≠ 0

/-- What the driver keeps of the entry a path ends in. -/
def snapshot (table : Memory) (off : Nat) : Fcb where
  dataSector := dataSector table off
  dataSize := dataSize table off
  attributes := attributes table off
  isDirectory := isDirectory (attributes table off)
  isRoot := false
  name := (entryName table off).map UInt8.toUInt16

/-- The loop over the segments, from the rest of the path and the table to look in. -/
def resolveLoop (dev : Device) (fuel : Nat) (path : List UInt16) (sector size : Nat) :
    Option (Except NtStatus Fcb) :=
  if path = [] then some (.error .objectNameInvalid)
  else
    let seg := path.takeWhile (· ≠ backslash)
    if seg.length = 0 ∨ 256 < seg.length then some (.error .objectNameInvalid)
    else if seg.any (0x7F < ·) then some (.error .objectNameNotFound)
    else
      match xdvdReadDirentTable dev sector size with
      | .error status => some (.error status)
      | .ok (table, tableSize) =>
        match xdvdFindInTable table tableSize (seg.map UInt16.toUInt8) fuel 0 with
        | none => none
        | some none =>
          if path.dropWhile (· ≠ backslash) ≠ [] then some (.error .objectPathNotFound)
          else some (.error .objectNameNotFound)
        | some (some off) =>
          match _h : path.dropWhile (· ≠ backslash) with
          | _ :: rest =>
            if !isDirectory (attributes table off) then some (.error .objectPathNotFound)
            else resolveLoop dev fuel rest (dataSector table off) (dataSize table off)
          | [] => some (.ok (snapshot table off))
termination_by path.length
decreasing_by
  have := (List.dropWhile_sublist (p := (· ≠ backslash)) (l := path)).length_le
  rw [_h, List.length_cons] at this
  omega

def rootFcb (vcb : Vcb) : Fcb where
  dataSector := vcb.rootSector
  dataSize := vcb.rootSize
  attributes := xdvdAttrDirectory
  isDirectory := true
  isRoot := true
  name := []

/-- `XdvdResolvePath`, each search with the given fuel; `none` where one is still
running. -/
def xdvdResolvePath (dev : Device) (vcb : Vcb) (fuel : Nat) (path : List UInt16) :
    Option (Except NtStatus Fcb) :=
  if path = [] ∨ path = [backslash] then some (.ok (rootFcb vcb))
  else
    let path := if path.head? = some backslash then path.tail else path
    resolveLoop dev fuel path vcb.rootSector vcb.rootSize

/-! ## Directory trees -/

structure Entry where
  name : List UInt8
  sector : Nat
  size : Nat
  attributes : UInt8

/-- A directory as its table links it: an entry with the entries before it, the
directory it names, and the entries after it. -/
inductive Dir where
  | empty
  | node (before : Dir) (entry : Entry) (sub : Dir) (after : Dir)

namespace Dir

/-- The entries of the directory itself, each with the directory it names. -/
def entries : Dir → List (Entry × Dir)
  | empty => []
  | node before entry sub after => before.entries ++ (entry, sub) :: after.entries

/-- A property of every entry of the tree, at any depth. -/
def All (P : Entry → Prop) : Dir → Prop
  | empty => True
  | node before entry sub after => before.All P ∧ P entry ∧ sub.All P ∧ after.All P

end Dir

/-- A name as far as the case-insensitive order sees it. -/
def fold (name : List UInt8) : List Nat := name.map fun c => (upper c).toNat

/-- Every table of the tree is a search tree under the case-insensitive order. -/
def Dir.Ordered : Dir → Prop
  | empty => True
  | node before entry sub after =>
    (∀ x ∈ before.entries, fold x.1.name < fold entry.name) ∧
      (∀ x ∈ after.entries, fold entry.name < fold x.1.name) ∧
      before.Ordered ∧ sub.Ordered ∧ after.Ordered

def Entry.Named (e : Entry) : Prop :=
  1 ≤ e.name.length ∧ e.name.length ≤ 254 ∧ ∀ c ∈ e.name, c < 0x80

instance (e : Entry) : Decidable e.Named :=
  inferInstanceAs (Decidable (1 ≤ e.name.length ∧ e.name.length ≤ 254 ∧ ∀ c ∈ e.name, c < 0x80))

/-- The entry is written at an offset of a table. -/
structure Written (table : Memory) (off : Nat) (e : Entry) : Prop where
  sector : dataSector table off = e.sector
  size : dataSize table off = e.size
  attributes : attributes table off = e.attributes
  length : (nameLength table off).toNat = e.name.length
  name : entryName table off = e.name

/-- The disc holds a directory: its entry at `off` of the table with declared size
`size` at `base`, its branches where the offsets of the entry say, and the directory
an entry names at the start of the sector of that entry.  A table has at least one
entry; no child is written as the offset zero or `0xFFFF`. -/
def Encodes (disc : Memory) : Nat → Nat → Nat → Dir → Prop
  | _, _, _, .empty => False
  | base, size, off, .node before entry sub after =>
    Written (fun i => disc (base + i)) off entry ∧
    off + xdvdDirentFixedSize + entry.name.length ≤ size ∧
    (∃ next, leftOffset (fun i => disc (base + i)) off = next ∧
      (before = .empty ∧ (next = 0 ∨ next = 0xFFFF) ∨
        next ≠ 0 ∧ next ≠ 0xFFFF ∧ Encodes disc base size (next * 4) before)) ∧
    (∃ next, rightOffset (fun i => disc (base + i)) off = next ∧
      (after = .empty ∧ (next = 0 ∨ next = 0xFFFF) ∨
        next ≠ 0 ∧ next ≠ 0xFFFF ∧ Encodes disc base size (next * 4) after)) ∧
    (isDirectory entry.attributes →
      Encodes disc (entry.sector * xdvdSectorSize) entry.size 0 sub) ∧
    (¬ isDirectory entry.attributes → sub = .empty)

/-! ## What a path selects -/

/-- The entry of a directory with a name, whatever the case. -/
def Dir.lookup (d : Dir) (name : List UInt8) : Option (Entry × Dir) :=
  d.entries.find? fun x => fold x.1.name = fold name

/-- The entry reached by a list of segments.  A segment that `refused` holds of is not
looked up. -/
def Dir.reach (refused : List UInt8 → Bool) : Dir → List (List UInt8) → Except NtStatus Entry
  | _, [] => .error .objectNameInvalid
  | d, [seg] =>
    if refused seg then .error .objectNameInvalid
    else
      match d.lookup seg with
      | none => .error .objectNameNotFound
      | some (entry, _) => .ok entry
  | d, seg :: next :: segs =>
    if refused seg then .error .objectNameInvalid
    else
      match d.lookup seg with
      | none => .error .objectPathNotFound
      | some (entry, sub) =>
        if isDirectory entry.attributes then sub.reach refused (next :: segs)
        else .error .objectPathNotFound

/-- What the driver reports of an entry. -/
def Entry.fcb (e : Entry) : Fcb where
  dataSector := e.sector
  dataSize := e.size
  attributes := e.attributes
  isDirectory := isDirectory e.attributes
  isRoot := false
  name := e.name.map UInt8.toUInt16

/-- The path of a list of segments. -/
def joined : List (List UInt8) → List UInt16
  | [] => []
  | [seg] => seg.map UInt8.toUInt16
  | seg :: next :: segs => seg.map UInt8.toUInt16 ++ backslash :: joined (next :: segs)

/-- A segment that can stand in a path. -/
def Segment (seg : List UInt8) : Prop := seg ≠ [] ∧ ∀ c ∈ seg, c < 0x80 ∧ c ≠ 0x5C

instance (seg : List UInt8) : Decidable (Segment seg) :=
  inferInstanceAs (Decidable (seg ≠ [] ∧ ∀ c ∈ seg, c < 0x80 ∧ c ≠ 0x5C))

/-! ## Names -/

theorem xdvdAsciiCompare_spec (a b : List UInt8) :
    (xdvdAsciiCompare a b = 0 ↔ fold a = fold b) ∧ (xdvdAsciiCompare a b < 0 ↔ fold a < fold b) := by
  induction a generalizing b with
  | nil =>
    cases b with
    | nil | cons y b => simp [xdvdAsciiCompare, fold]
  | cons x a ih =>
    cases b with
    | nil => simp [xdvdAsciiCompare, fold]
    | cons y b =>
      have hinj : upper x = upper y ↔ (upper x).toNat = (upper y).toNat := UInt8.toNat_inj.symm
      unfold xdvdAsciiCompare fold
      rw [List.map_cons, List.map_cons, List.cons.injEq, List.cons_lt_cons_iff]
      by_cases h : upper x = upper y
      · rw [if_neg (not_ne_iff.2 h), (ih b).1, (ih b).2, h]
        simp [fold]
      · rw [if_pos h]
        rw [hinj] at h
        omega

section Lookup

variable {before sub after : Dir} {entry : Entry} {name : List UInt8}

theorem lookup_before (h : Dir.Ordered (.node before entry sub after))
    (hlt : fold name < fold entry.name) :
    (Dir.node before entry sub after).lookup name = before.lookup name := by
  unfold Dir.lookup
  have hrest : ((entry, sub) :: after.entries).find? (fun x => fold x.1.name = fold name) = none := by
    rw [List.find?_eq_none]
    intro x hx
    rw [decide_eq_true_eq]
    rcases List.mem_cons.1 hx with rfl | hx
    · exact hlt.ne'
    · exact (hlt.trans (h.2.1 x hx)).ne'
  rw [Dir.entries, List.find?_append, hrest, Option.or_none]

theorem not_before (h : Dir.Ordered (.node before entry sub after))
    (hle : fold entry.name ≤ fold name) :
    before.entries.find? (fun x => fold x.1.name = fold name) = none := by
  rw [List.find?_eq_none]
  intro x hx
  rw [decide_eq_true_eq]
  exact ((h.1 x hx).trans_le hle).ne

theorem lookup_here (h : Dir.Ordered (.node before entry sub after))
    (heq : fold name = fold entry.name) :
    (Dir.node before entry sub after).lookup name = some (entry, sub) := by
  unfold Dir.lookup
  rw [Dir.entries, List.find?_append, not_before h heq.ge, Option.none_or, List.find?_cons_of_pos]
  exact decide_eq_true heq.symm

theorem lookup_after (h : Dir.Ordered (.node before entry sub after))
    (hlt : fold entry.name < fold name) :
    (Dir.node before entry sub after).lookup name = after.lookup name := by
  unfold Dir.lookup
  rw [Dir.entries, List.find?_append, not_before h hlt.le, Option.none_or, List.find?_cons_of_neg]
  rw [decide_eq_true_eq]
  exact hlt.ne

end Lookup

/-! ## The search of one table -/

section Search

variable {disc table : Memory} {base size tableSize : Nat}

/-- The entry is written in a copy of the table that agrees as far as the entry goes. -/
theorem Written.copied {off : Nat} {entry : Entry}
    (h : Written (fun i => disc (base + i)) off entry)
    (hfits : off + xdvdDirentFixedSize + entry.name.length ≤ size)
    (hagree : ∀ i < size, table i = disc (base + i)) : Written table off entry := by
  unfold xdvdDirentFixedSize at hfits
  have hkeeps : Keeps (fun i => disc (base + i)) table off (14 + entry.name.length) :=
    fun b _ hb => hagree b (by omega)
  have hlen : nameLength table off = nameLength (fun i => disc (base + i)) off :=
    hkeeps _ (by omega) (by omega)
  refine ⟨?_, ?_, ?_, ?_, ?_⟩
  · rw [← h.sector]
    exact load_congr (hkeeps.mono (by omega) (by omega))
  · rw [← h.size]
    exact load_congr (hkeeps.mono (by omega) (by omega))
  · rw [← h.attributes]
    exact hkeeps _ (by omega) (by omega)
  · rw [hlen, h.length]
  · rw [← h.name]
    unfold entryName
    rw [hlen]
    refine slice_congr (hkeeps.mono (Nat.le_add_right _ _) ?_)
    rw [h.length, xdvdDirentFixedSize]
    omega

theorem offsets_copied (off : Nat) (hfits : off + xdvdDirentFixedSize ≤ size)
    (hagree : ∀ i < size, table i = disc (base + i)) :
    leftOffset table off = leftOffset (fun i => disc (base + i)) off ∧
      rightOffset table off = rightOffset (fun i => disc (base + i)) off := by
  unfold xdvdDirentFixedSize at hfits
  constructor
  · exact load_congr fun b _ hb => hagree b (by omega)
  · exact load_congr fun b _ hb => hagree b (by omega)

/-- One round of the search at a written entry. -/
theorem xdvdFindInTable_step {off : Nat} {entry : Entry} (name : List UInt8) (fuel : Nat)
    (h : Written table off entry) (hnamed : entry.Named)
    (hfits : off + xdvdDirentFixedSize + entry.name.length ≤ tableSize) :
    xdvdFindInTable table tableSize name (fuel + 1) off =
      if fold name = fold entry.name then some (some off)
      else
        let next := if fold name < fold entry.name then leftOffset table off
          else rightOffset table off
        if next = 0 ∨ next = 0xFFFF then some none
        else xdvdFindInTable table tableSize name fuel (next * 4) := by
  obtain ⟨hequal, hless⟩ := xdvdAsciiCompare_spec name entry.name
  have hlen := h.length
  have hlong := hnamed.2.1
  rw [xdvdFindInTable, if_neg (by omega), if_neg, if_neg (by omega), h.name]
  · simp only [hequal, hless]
  · intro hfull
    rw [hfull] at hlen
    exact absurd hlen (by rw [xdvdDirentEmptySentinel]; show 255 ≠ _; omega)

/-- The end of a search is the entry selected, or that there is none. -/
def Agrees (table : Memory) : Option (Entry × Dir) → Option (Option Nat) → Prop
  | none, found => found = some none
  | some (entry, _), found => ∃ off, found = some (some off) ∧ Written table off entry

/-- From some fuel on, the search ends with what is selected. -/
def Finds (table : Memory) (search : Nat → Option (Option Nat)) (result : Option (Entry × Dir)) :
    Prop :=
  ∃ n, ∀ fuel, n ≤ fuel → Agrees table result (search fuel)

theorem Finds.round {search next : Nat → Option (Option Nat)} {result : Option (Entry × Dir)}
    (h : Finds table next result) (hround : ∀ fuel, search (fuel + 1) = next fuel) :
    Finds table search result := by
  obtain ⟨n, hn⟩ := h
  refine ⟨n + 1, fun fuel hfuel => ?_⟩
  obtain ⟨k, rfl⟩ : ∃ k, fuel = k + 1 := ⟨fuel - 1, by omega⟩
  rw [hround k]
  exact hn k (by omega)

/-- A branch is searched from the offset that leads to it. -/
theorem Finds.branch {t : Dir} {next : Nat} {name : List UInt8}
    (hbranch : t = .empty ∧ (next = 0 ∨ next = 0xFFFF) ∨
      next ≠ 0 ∧ next ≠ 0xFFFF ∧ Encodes disc base size (next * 4) t)
    (ih : Encodes disc base size (next * 4) t →
      Finds table (xdvdFindInTable table tableSize name · (next * 4)) (t.lookup name)) :
    Finds table (fun fuel => if next = 0 ∨ next = 0xFFFF then some none
      else xdvdFindInTable table tableSize name fuel (next * 4)) (t.lookup name) := by
  rcases hbranch with ⟨rfl, hnone⟩ | ⟨hzero, hlast, hencodes⟩
  · simp only [if_pos hnone]
    exact ⟨0, fun _ _ => rfl⟩
  · simp only [if_neg (not_or.2 ⟨hzero, hlast⟩)]
    exact ih hencodes

/-- The search of a table finds what the names select. -/
theorem xdvdFindInTable_spec {d : Dir} {off : Nat} (h : Encodes disc base size off d)
    (hordered : d.Ordered) (hnamed : d.All Entry.Named)
    (hagree : ∀ i < size, table i = disc (base + i)) (hsize : size ≤ tableSize)
    (name : List UInt8) :
    Finds table (xdvdFindInTable table tableSize name · off) (d.lookup name) := by
  induction d generalizing off with
  | empty => exact absurd h id
  | node before entry sub after ihBefore _ ihAfter =>
    obtain ⟨hwritten, hfits, ⟨left, hleft, hbefore⟩, ⟨right, hright, hafter⟩, -, -⟩ := h
    obtain ⟨hnamedBefore, hname, -, hnamedAfter⟩ := hnamed
    have hcopy := hwritten.copied hfits hagree
    have hoffsets := offsets_copied off (by omega) hagree
    rw [hleft, hright] at hoffsets
    have hstep := fun fuel => xdvdFindInTable_step name fuel hcopy hname (hfits.trans hsize)
    rw [hoffsets.1, hoffsets.2] at hstep
    rcases lt_trichotomy (fold name) (fold entry.name) with hlt | heq | hgt
    · rw [lookup_before hordered hlt]
      simp only [if_neg hlt.ne, if_pos hlt] at hstep
      exact (Finds.branch hbefore fun henc => ihBefore henc hordered.2.2.1 hnamedBefore).round hstep
    · rw [lookup_here hordered heq]
      simp only [if_pos heq] at hstep
      refine ⟨1, fun fuel hfuel => ⟨off, ?_, hcopy⟩⟩
      obtain ⟨k, rfl⟩ : ∃ k, fuel = k + 1 := ⟨fuel - 1, by omega⟩
      exact hstep k
    · rw [lookup_after hordered hgt]
      simp only [if_neg hgt.ne', if_neg hgt.not_gt] at hstep
      exact (Finds.branch hafter fun henc => ihAfter henc hordered.2.2.2.2 hnamedAfter).round hstep

end Search

/-! ## What is known of the entry found -/

theorem lookup_mem {d sub : Dir} {name : List UInt8} {entry : Entry}
    (h : d.lookup name = some (entry, sub)) : (entry, sub) ∈ d.entries :=
  List.mem_of_find?_eq_some h

section Subdirectory

variable {d sub : Dir} {entry : Entry}

theorem Dir.Ordered.subdirectory (h : d.Ordered) (hmem : (entry, sub) ∈ d.entries) : sub.Ordered := by
  induction d with
  | empty => exact absurd hmem List.not_mem_nil
  | node before _ _ after ihBefore _ ihAfter =>
    rcases List.mem_append.1 hmem with hmem | hmem
    · exact ihBefore h.2.2.1 hmem
    · rcases List.mem_cons.1 hmem with heq | hmem
      · cases heq
        exact h.2.2.2.1
      · exact ihAfter h.2.2.2.2 hmem

theorem Dir.All.subdirectory {P : Entry → Prop} (h : d.All P) (hmem : (entry, sub) ∈ d.entries) :
    P entry ∧ sub.All P := by
  induction d with
  | empty => exact absurd hmem List.not_mem_nil
  | node before _ _ after ihBefore _ ihAfter =>
    rcases List.mem_append.1 hmem with hmem | hmem
    · exact ihBefore h.1 hmem
    · rcases List.mem_cons.1 hmem with heq | hmem
      · cases heq
        exact ⟨h.2.1, h.2.2.1⟩
      · exact ihAfter h.2.2.2 hmem

theorem Encodes.subdirectory {disc : Memory} {base size off : Nat} (h : Encodes disc base size off d)
    (hmem : (entry, sub) ∈ d.entries) (hdir : isDirectory entry.attributes) :
    Encodes disc (entry.sector * xdvdSectorSize) entry.size 0 sub := by
  induction d generalizing off with
  | empty => exact absurd h id
  | node before _ _ after ihBefore _ ihAfter =>
    obtain ⟨-, -, ⟨_, _, hbefore⟩, ⟨_, _, hafter⟩, hsub, -⟩ := h
    rcases List.mem_append.1 hmem with hmem | hmem
    · rcases hbefore with ⟨rfl, -⟩ | ⟨-, -, hbefore⟩
      · exact absurd hmem List.not_mem_nil
      · exact ihBefore hbefore hmem
    · rcases List.mem_cons.1 hmem with heq | hmem
      · cases heq
        exact hsub hdir
      · rcases hafter with ⟨rfl, -⟩ | ⟨-, -, hafter⟩
        · exact absurd hmem List.not_mem_nil
        · exact ihAfter hafter hmem

end Subdirectory

/-! ## The walk along a path -/

/-- Every read and allocation succeeds. -/
structure Device.Works (dev : Device) : Prop where
  read : ∀ offset length, dev.read offset length = .ok length
  alloc : ∀ length, dev.alloc length = true

/-- The size of a table can be rounded up to whole sectors in 32 bits. -/
def Rounds (size : Nat) : Prop := size ≤ 2 ^ 32 - xdvdSectorSize

theorem xdvdReadDirentTable_spec {dev : Device} (hworks : dev.Works) {sector size : Nat}
    (hpos : 0 < size) (hrounds : Rounds size) :
    ∃ table tableSize, xdvdReadDirentTable dev sector size = .ok (table, tableSize) ∧
      size ≤ tableSize ∧ ∀ i < size, table i = dev.disc (sector * xdvdSectorSize + i) := by
  unfold Rounds xdvdSectorSize at hrounds
  unfold xdvdReadDirentTable
  dsimp only
  rw [if_neg (by omega), hworks.alloc, if_neg (by decide), hworks.read]
  dsimp only
  have hle : size ≤ (size + xdvdSectorSize - 1) % 2 ^ 32 / xdvdSectorSize * xdvdSectorSize := by
    unfold xdvdSectorSize
    omega
  rw [if_neg (by omega)]
  exact ⟨_, _, rfl, hle, fun i hi => if_pos (hi.trans_le hle)⟩

theorem Encodes.pos {disc : Memory} {base size off : Nat} {d : Dir}
    (h : Encodes disc base size off d) : 0 < size := by
  cases d with
  | empty => exact absurd h id
  | node before entry sub after =>
    have := h.2.1
    unfold xdvdDirentFixedSize at this
    omega

section Walk

variable {dev : Device} {d : Dir} {sector size : Nat}

/-- A directory tree that a table on the disc starts. -/
structure Holds (disc : Memory) (sector size : Nat) (d : Dir) : Prop where
  encodes : Encodes disc (sector * xdvdSectorSize) size 0 d
  ordered : d.Ordered
  named : d.All Entry.Named
  rounds : Rounds size
  allRound : d.All fun e => isDirectory e.attributes → Rounds e.size

theorem Holds.subdirectory {disc : Memory} {sub : Dir} {entry : Entry}
    (h : Holds disc sector size d) (hmem : (entry, sub) ∈ d.entries)
    (hdir : isDirectory entry.attributes) : Holds disc entry.sector entry.size sub where
  encodes := h.encodes.subdirectory hmem hdir
  ordered := h.ordered.subdirectory hmem
  named := (h.named.subdirectory hmem).2
  rounds := (h.allRound.subdirectory hmem).1 hdir
  allRound := (h.allRound.subdirectory hmem).2

/-- The table of a directory on the disc is read, and the search in it finds what the
names select. -/
theorem Holds.search (h : Holds dev.disc sector size d) (hworks : dev.Works) (name : List UInt8) :
    ∃ table tableSize, xdvdReadDirentTable dev sector size = .ok (table, tableSize) ∧
      Finds table (xdvdFindInTable table tableSize name · 0) (d.lookup name) := by
  obtain ⟨table, tableSize, hread, hsize, hagree⟩ :=
    xdvdReadDirentTable_spec hworks h.encodes.pos h.rounds
  exact ⟨table, tableSize, hread,
    xdvdFindInTable_spec h.encodes h.ordered h.named hagree hsize name⟩

theorem Written.snapshot {table : Memory} {off : Nat} {entry : Entry}
    (h : Written table off entry) : snapshot table off = entry.fcb := by
  unfold Xdvdfs.snapshot Entry.fcb
  rw [h.sector, h.size, h.attributes, h.name]

/-- The driver refuses a segment that its buffer cannot hold. -/
def tooLong (seg : List UInt8) : Bool := 256 < seg.length

section Segments

variable {seg : List UInt8} {rest : List UInt16}

theorem Segment.wide (h : Segment seg) :
    (∀ c ∈ seg.map UInt8.toUInt16, decide (c ≠ backslash) = true) ∧
      (seg.map UInt8.toUInt16).any (0x7F < ·) = false ∧
      (seg.map UInt8.toUInt16).map UInt16.toUInt8 = seg := by
  have hnat : ∀ c : UInt8, c.toUInt16.toNat = c.toNat := UInt8.toNat_toUInt16
  refine ⟨?_, ?_, ?_⟩
  · intro c hc
    obtain ⟨b, hb, rfl⟩ := List.mem_map.1 hc
    refine decide_eq_true fun heq => (h.2 b hb).2 (UInt8.toNat_inj.1 ?_)
    rw [← hnat, heq]
    rfl
  · rw [List.any_eq_false]
    intro c hc
    obtain ⟨b, hb, rfl⟩ := List.mem_map.1 hc
    have hascii := UInt8.lt_iff_toNat_lt.1 (h.2 b hb).1
    rw [decide_eq_true_eq, UInt16.lt_iff_toNat_lt, hnat]
    exact Nat.not_lt.2 (Nat.lt_succ_iff.1 hascii)
  · rw [List.map_map]
    conv_rhs => rw [← List.map_id seg]
    exact List.map_congr_left fun c _ => UInt8.toUInt8_toUInt16 c

/-- A segment at the head of a path is split off. -/
theorem Segment.split (h : Segment seg) (hrest : ∀ c ∈ rest.head?, c = backslash) :
    (seg.map UInt8.toUInt16 ++ rest).takeWhile (· ≠ backslash) = seg.map UInt8.toUInt16 ∧
      (seg.map UInt8.toUInt16 ++ rest).dropWhile (· ≠ backslash) = rest := by
  rw [List.takeWhile_append_of_pos h.wide.1, List.dropWhile_append_of_pos h.wide.1]
  cases rest with
  | nil => simp
  | cons c rest =>
    obtain rfl := hrest c rfl
    simp

variable {dev : Device} {sector size : Nat} (fuel : Nat) {table : Memory} {tableSize : Nat}

theorem resolveLoop_refused (h : Segment seg) (hrest : ∀ c ∈ rest.head?, c = backslash)
    (hlong : 256 < seg.length) :
    resolveLoop dev fuel (seg.map UInt8.toUInt16 ++ rest) sector size =
      some (.error .objectNameInvalid) := by
  rw [resolveLoop]
  dsimp only
  rw [(h.split hrest).1, List.length_map, if_pos (Or.inr hlong), ite_self]

/-- What a round does once the segment is split off and the table is read. -/
theorem resolveLoop_round (h : Segment seg) (hrest : ∀ c ∈ rest.head?, c = backslash)
    (hshort : ¬ 256 < seg.length)
    (hread : xdvdReadDirentTable dev sector size = .ok (table, tableSize)) :
    resolveLoop dev fuel (seg.map UInt8.toUInt16 ++ rest) sector size =
      match xdvdFindInTable table tableSize seg fuel 0 with
      | none => none
      | some none =>
        if rest ≠ [] then some (.error .objectPathNotFound)
        else some (.error .objectNameNotFound)
      | some (some off) =>
        match rest with
        | _ :: path =>
          if !isDirectory (attributes table off) then some (.error .objectPathNotFound)
          else resolveLoop dev fuel path (dataSector table off) (dataSize table off)
        | [] => some (.ok (snapshot table off)) := by
  obtain ⟨htake, hdrop⟩ := h.split hrest
  have hne : seg.length ≠ 0 := fun h0 => h.1 (List.length_eq_zero_iff.1 h0)
  rw [resolveLoop, if_neg (by simp [h.1])]
  dsimp only
  rw [htake, List.length_map, if_neg (not_or.2 ⟨hne, hshort⟩), h.wide.2.1, if_neg (by decide), hread]
  dsimp only
  rw [h.wide.2.2]
  rcases xdvdFindInTable table tableSize seg fuel 0 with _ | _ | off
  · rfl
  · rw [hdrop]
  dsimp only
  split
  case h_1 c path heq =>
    obtain rfl := hdrop.symm.trans heq
    rfl
  case h_2 heq =>
    obtain rfl := hdrop.symm.trans heq
    rfl

end Segments

theorem joined_cons (seg : List UInt8) (segs : List (List UInt8)) :
    ∃ rest, joined (seg :: segs) = seg.map UInt8.toUInt16 ++ rest ∧
      (segs = [] ∧ rest = [] ∨ segs ≠ [] ∧ rest = backslash :: joined segs) := by
  cases segs with
  | nil => exact ⟨[], (List.append_nil _).symm, Or.inl ⟨rfl, rfl⟩⟩
  | cons next segs => exact ⟨_, rfl, Or.inr ⟨List.cons_ne_nil _ _, rfl⟩⟩

theorem reach_refused {refused : List UInt8 → Bool} {seg : List UInt8} {segs : List (List UInt8)}
    (h : refused seg = true) : d.reach refused (seg :: segs) = .error .objectNameInvalid := by
  cases segs with
  | nil | cons next segs => rw [Dir.reach, if_pos h]

/-- From some fuel on, the loop gives what the names select. -/
theorem resolveLoop_spec (hworks : dev.Works) {segs : List (List UInt8)}
    (hsegs : ∀ seg ∈ segs, Segment seg) (h : Holds dev.disc sector size d) :
    ∃ n, ∀ fuel, n ≤ fuel → resolveLoop dev fuel (joined segs) sector size =
      some ((d.reach tooLong segs).map Entry.fcb) := by
  induction segs generalizing d sector size with
  | nil =>
    refine ⟨0, fun fuel _ => ?_⟩
    rw [joined, resolveLoop, if_pos rfl]
    rfl
  | cons seg segs ih =>
    obtain ⟨hseg, hsegs⟩ := List.forall_mem_cons.1 hsegs
    obtain ⟨rest, hjoined, hcase⟩ := joined_cons seg segs
    have hrest : ∀ c ∈ rest.head?, c = backslash := by
      rcases hcase with ⟨-, rfl⟩ | ⟨-, rfl⟩
      · simp
      · simp
    rw [hjoined]
    by_cases hlong : 256 < seg.length
    · refine ⟨0, fun fuel _ => ?_⟩
      rw [resolveLoop_refused fuel hseg hrest hlong, reach_refused (decide_eq_true hlong)]
      rfl
    obtain ⟨table, tableSize, hread, n, hn⟩ := h.search hworks seg
    have hround := fun fuel => resolveLoop_round fuel hseg hrest hlong hread
    have hshort : ¬ tooLong seg = true := fun h => hlong (of_decide_eq_true h)
    cases hlookup : d.lookup seg with
    | none =>
      refine ⟨n, fun fuel hfuel => ?_⟩
      have hfound : xdvdFindInTable table tableSize seg fuel 0 = some none := by
        have := hn fuel hfuel
        rwa [hlookup] at this
      rw [hround, hfound]
      rcases hcase with ⟨rfl, rfl⟩ | ⟨hne, rfl⟩
      · rw [Dir.reach, if_neg hshort, hlookup]
        rfl
      · obtain ⟨next, segs, rfl⟩ := List.exists_cons_of_ne_nil hne
        rw [Dir.reach, if_neg hshort, hlookup]
        rfl
    | some found =>
      obtain ⟨entry, sub⟩ := found
      have hfound : ∀ fuel, n ≤ fuel → ∃ off,
          xdvdFindInTable table tableSize seg fuel 0 = some (some off) ∧
            Written table off entry := by
        intro fuel hfuel
        have := hn fuel hfuel
        rwa [hlookup] at this
      rcases hcase with ⟨rfl, rfl⟩ | ⟨hne, rfl⟩
      · refine ⟨n, fun fuel hfuel => ?_⟩
        obtain ⟨off, hoff, hwritten⟩ := hfound fuel hfuel
        rw [hround, hoff, Dir.reach, if_neg hshort, hlookup]
        dsimp only
        rw [hwritten.snapshot]
        rfl
      · obtain ⟨next, segs, rfl⟩ := List.exists_cons_of_ne_nil hne
        rw [Dir.reach, if_neg hshort, hlookup]
        dsimp only
        by_cases hdir : isDirectory entry.attributes
        · obtain ⟨k, hk⟩ := ih hsegs (h.subdirectory (lookup_mem hlookup) hdir)
          refine ⟨max n k, fun fuel hfuel => ?_⟩
          obtain ⟨off, hoff, hwritten⟩ := hfound fuel (by omega)
          rw [hround, hoff, if_pos hdir]
          dsimp only
          rw [hwritten.attributes, hdir, if_neg (by decide), hwritten.sector, hwritten.size]
          exact hk fuel (by omega)
        · refine ⟨n, fun fuel hfuel => ?_⟩
          obtain ⟨off, hoff, hwritten⟩ := hfound fuel hfuel
          rw [hround, hoff, if_neg hdir]
          dsimp only
          rw [hwritten.attributes, if_pos (by rw [Bool.not_eq_true] at hdir; rw [hdir]; rfl)]
          rfl

end Walk

/-- What a path with the given segments stands for. -/
def selected (vcb : Vcb) (refused : List UInt8 → Bool) (d : Dir) :
    List (List UInt8) → Except NtStatus Fcb
  | [] => .ok (rootFcb vcb)
  | seg :: segs => (d.reach refused (seg :: segs)).map Entry.fcb

/-- On a disc that encodes a directory tree, with or without a leading separator, a path
resolves to what its segments select; a segment longer than the buffer is refused. -/
theorem path_resolution (dev : Device) (hworks : dev.Works) (vcb : Vcb) (d : Dir)
    (h : Holds dev.disc vcb.rootSector vcb.rootSize d) (leading : Bool)
    (segs : List (List UInt8)) (hsegs : ∀ seg ∈ segs, Segment seg) :
    ∃ n, ∀ fuel, n ≤ fuel →
      xdvdResolvePath dev vcb fuel ((if leading then [backslash] else []) ++ joined segs) =
        some (selected vcb tooLong d segs) := by
  cases segs with
  | nil =>
    refine ⟨0, fun fuel _ => ?_⟩
    rw [xdvdResolvePath, if_pos (by cases leading <;> simp [joined])]
    rfl
  | cons seg segs =>
    obtain ⟨n, hn⟩ := resolveLoop_spec hworks hsegs h
    refine ⟨n, fun fuel hfuel => ?_⟩
    have hseg := (List.forall_mem_cons.1 hsegs).1
    obtain ⟨rest, hjoined, -⟩ := joined_cons seg segs
    obtain ⟨c, tail, hcons⟩ := List.exists_cons_of_ne_nil hseg.1
    have hhead : ∃ path, joined (seg :: segs) = c.toUInt16 :: path ∧ c.toUInt16 ≠ backslash := by
      refine ⟨tail.map UInt8.toUInt16 ++ rest, ?_, ?_⟩
      · rw [hjoined, hcons]
        rfl
      · exact of_decide_eq_true (hseg.wide.1 _ (by rw [hcons]; exact List.mem_cons_self ..))
    obtain ⟨path, hpath, hne⟩ := hhead
    rw [hpath] at hn ⊢
    unfold xdvdResolvePath selected
    cases leading with
    | false =>
      rw [if_neg (by simp [hne]), if_neg (by simp [hne])]
      exact hn fuel hfuel
    | true =>
      exact hn fuel hfuel

/-! ## A small disc -/

/-- A disc with one file `A` at its start. -/
def smallDisc : Device where
  disc := fun i => [0, 0, 0, 0, 1, 0, 0, 0, 5, 0, 0, 0, 0x80, 1, 0x41].getD i 0xFF
  read := fun _ length => .ok length
  alloc := fun _ => true
  stale := fun _ => 0

def smallFile : Entry := ⟨[0x41], 1, 5, 0x80⟩

def smallDir : Dir := .node .empty smallFile .empty .empty

theorem smallDisc_works : smallDisc.Works := ⟨fun _ _ => rfl, fun _ => rfl⟩

theorem smallDisc_holds : Holds smallDisc.disc 0 2048 smallDir where
  encodes := by
    refine ⟨⟨by decide, by decide, by decide, by decide, by decide⟩, by decide,
      ⟨0, by decide, Or.inl ⟨rfl, Or.inl rfl⟩⟩, ⟨0, by decide, Or.inl ⟨rfl, Or.inl rfl⟩⟩,
      fun h => absurd h (by decide), fun _ => rfl⟩
  ordered := ⟨nofun, nofun, trivial, trivial, trivial⟩
  named := ⟨trivial, by decide +kernel, trivial, trivial⟩
  rounds := show 2048 ≤ _ by decide
  allRound := ⟨trivial, fun h => absurd h (by decide), trivial, trivial⟩

theorem path_resolution_small :
    ∃ n, ∀ fuel, n ≤ fuel → xdvdResolvePath smallDisc ⟨0, 2048⟩ fuel [backslash, 0x61] =
      some (.ok smallFile.fcb) :=
  path_resolution smallDisc smallDisc_works ⟨0, 2048⟩ smallDir smallDisc_holds true [[0x61]]
    (by decide +kernel)

/-- A segment of 257 characters names no entry and is reported as invalid, not as
missing. -/
theorem long_segment_invalid :
    smallDisc.Works ∧ Holds smallDisc.disc 0 2048 smallDir ∧ Segment (List.replicate 257 0x41) ∧
      selected ⟨0, 2048⟩ (fun _ => false) smallDir [List.replicate 257 0x41] =
        .error .objectNameNotFound ∧
      ∀ fuel, xdvdResolvePath smallDisc ⟨0, 2048⟩ fuel (joined [List.replicate 257 0x41]) =
        some (.error .objectNameInvalid) := by
  have hseg : Segment (List.replicate 257 0x41) := by
    refine ⟨List.cons_ne_nil _ _, fun c hc => ?_⟩
    rw [List.eq_of_mem_replicate hc]
    decide
  refine ⟨smallDisc_works, smallDisc_holds, hseg, rfl, fun fuel => ?_⟩
  have hpath : joined [List.replicate 257 0x41] =
      (List.replicate 257 0x41).map UInt8.toUInt16 ++ [] := (List.append_nil _).symm
  rw [xdvdResolvePath, if_neg (by decide)]
  rw [if_neg (by decide), hpath]
  exact resolveLoop_refused fuel hseg nofun (by rw [List.length_replicate]; decide)

/-! ## The search on any table -/

/-- Where one round of `XdvdFindInTable` goes on, if it does not return. -/
def nextOff (table : Memory) (tableSize : Nat) (name : List UInt8) (off : Nat) : Option Nat :=
  if tableSize < off + xdvdDirentFixedSize ∨ nameLength table off = xdvdDirentEmptySentinel ∨
      tableSize < off + xdvdDirentFixedSize + (nameLength table off).toNat then none
  else
    let cmp := xdvdAsciiCompare name (entryName table off)
    let next := if cmp < 0 then leftOffset table off else rightOffset table off
    if cmp = 0 ∨ next = 0 ∨ next = 0xFFFF then none else some (next * 4)

/-- The bytes of the table that a round at an offset may look at: the length of the name,
and behind the checks the name and the two links. -/
def reads (table : Memory) (tableSize off : Nat) : List Nat :=
  if tableSize < off + xdvdDirentFixedSize then []
  else (off + 13) ::
    if nameLength table off = xdvdDirentEmptySentinel ∨
      tableSize < off + xdvdDirentFixedSize + (nameLength table off).toNat then []
    else List.range' (off + xdvdDirentFixedSize) (nameLength table off).toNat ++ List.range' off 4

section Walk

variable (table : Memory) (tableSize : Nat) (name : List UInt8)

def Follows (off off' : Nat) : Prop := nextOff table tableSize name off = some off'

/-- The walk from the first entry comes to this offset. -/
def Visits (off : Nat) : Prop := Relation.ReflTransGen (Follows table tableSize name) 0 off

/-- The links that the name selects lead from some visited entry back to it. -/
def Cycles : Prop :=
  ∃ off, Visits table tableSize name off ∧ Relation.TransGen (Follows table tableSize name) off off

def Returns (off : Nat) : Prop := ∃ fuel, xdvdFindInTable table tableSize name fuel off ≠ none

end Walk

variable {table : Memory} {tableSize off off' fuel : Nat} {name : List UInt8}

theorem find_follows (h : Follows table tableSize name off off') :
    xdvdFindInTable table tableSize name (fuel + 1) off =
      xdvdFindInTable table tableSize name fuel off' := by
  unfold Follows nextOff at h
  by_cases hreturn : tableSize < off + xdvdDirentFixedSize ∨
      nameLength table off = xdvdDirentEmptySentinel ∨
      tableSize < off + xdvdDirentFixedSize + (nameLength table off).toNat
  · rw [if_pos hreturn] at h
    cases h
  rw [if_neg hreturn] at h
  obtain ⟨hend, h⟩ := Option.ite_none_left_eq_some.1 h
  simp only [not_or] at hreturn
  rw [xdvdFindInTable, if_neg hreturn.1, if_neg hreturn.2.1, if_neg hreturn.2.2]
  rw [if_neg fun he => hend (.inl he), if_neg fun he => hend (.inr he), Option.some.inj h]

theorem find_ends (h : nextOff table tableSize name off = none) :
    xdvdFindInTable table tableSize name 1 off ≠ none := by
  unfold nextOff at h
  dsimp only at h
  rw [xdvdFindInTable]
  dsimp only
  split_ifs at h ⊢ <;> first | exact Option.some_ne_none _ | tauto

theorem load_two_lt (m : Memory) (a : Nat) : load m a 2 < 2 ^ 16 := by
  have hlow := (m a).toNat_lt
  have hhigh := (m (a + 1)).toNat_lt
  simp only [load]
  omega

theorem follows_lt (h : Follows table tableSize name off off') : off' < 2 ^ 18 := by
  unfold Follows nextOff at h
  dsimp only at h
  have hleft := load_two_lt table off
  have hright := load_two_lt table (off + 2)
  split_ifs at h
  · cases h
    unfold leftOffset
    omega
  · cases h
    unfold rightOffset
    omega

/-- Fuel is used up along the way, so there is none that is enough for a cycle. -/
theorem find_path (h : Relation.TransGen (Follows table tableSize name) off off')
    (hfind : xdvdFindInTable table tableSize name fuel off ≠ none) :
    ∃ less, less < fuel ∧ xdvdFindInTable table tableSize name less off' ≠ none := by
  have hstep : ∀ {a b fuel}, Follows table tableSize name a b →
      xdvdFindInTable table tableSize name fuel a ≠ none →
      ∃ less, less < fuel ∧ xdvdFindInTable table tableSize name less b ≠ none := by
    intro a b fuel hab hfind
    cases fuel with
    | zero => exact absurd rfl hfind
    | succ n =>
      rw [find_follows hab] at hfind
      exact ⟨n, n.lt_succ_self, hfind⟩
  induction h with
  | single hab => exact hstep hab hfind
  | tail _ hbc ih =>
    obtain ⟨less, hless, hb⟩ := ih
    obtain ⟨least, hleast, hc⟩ := hstep hbc hb
    exact ⟨least, hleast.trans hless, hc⟩

theorem not_returns_of_cycle (h : Relation.TransGen (Follows table tableSize name) off off) :
    ¬Returns table tableSize name off := by
  rintro ⟨fuel, hfind⟩
  induction fuel using Nat.strong_induction_on with
  | _ fuel ih =>
    obtain ⟨less, hless, hagain⟩ := find_path h hfind
    exact ih less hless hagain

/-- The offsets are sixteen bits wide, so a walk without a cycle ends. -/
theorem returns_of_acyclic (h : ¬Cycles table tableSize name) :
    ∀ off : Fin (2 ^ 18), Visits table tableSize name off → Returns table tableSize name off := by
  let later (b a : Fin (2 ^ 18)) : Prop := Visits table tableSize name a ∧
    Relation.TransGen (Follows table tableSize name) a.val b.val
  have : IsTrans _ later := ⟨fun c b a hcb hba => ⟨hba.1, hba.2.trans hcb.2⟩⟩
  have : Std.Irrefl later := ⟨fun a ha => h ⟨a, ha.1, ha.2⟩⟩
  have hwf := Finite.wellFounded_of_trans_of_irrefl later
  intro off
  induction off using hwf.induction with
  | _ off ih =>
    intro hvisit
    cases hnext : nextOff table tableSize name off with
    | none => exact ⟨1, find_ends hnext⟩
    | some next =>
      obtain ⟨fuel, hfuel⟩ := ih ⟨next, follows_lt hnext⟩ ⟨hvisit, .single hnext⟩
        (hvisit.tail hnext)
      refine ⟨fuel + 1, ?_⟩
      rw [find_follows hnext]
      exact hfuel

/-- Whatever the table holds, the search looks only at bytes inside it, and it returns
exactly when the links it is led along do not close a cycle. -/
theorem search_bounds (table : Memory) (tableSize : Nat) (name : List UInt8) :
    (∀ off, Visits table tableSize name off → ∀ p ∈ reads table tableSize off, p < tableSize) ∧
    (Returns table tableSize name 0 ↔ ¬Cycles table tableSize name) := by
  constructor
  · intro off _ p hp
    unfold reads at hp
    split_ifs at hp with hfixed hname
    · cases hp
    · rw [List.mem_singleton.1 hp]
      simp only [xdvdDirentFixedSize] at hfixed
      omega
    · simp only [List.mem_cons, List.mem_append, List.mem_range'_1, xdvdDirentFixedSize] at *
      omega
  · constructor
    · rintro ⟨fuel, hfind⟩ ⟨off, hvisit, hcycle⟩
      rcases Relation.reflTransGen_iff_eq_or_transGen.1 hvisit with rfl | hpath
      · exact not_returns_of_cycle hcycle ⟨fuel, hfind⟩
      · obtain ⟨less, -, hless⟩ := find_path hpath hfind
        exact not_returns_of_cycle hcycle ⟨less, hless⟩
    · exact fun h => returns_of_acyclic h ⟨0, by decide⟩ .refl

/-- Two entries without a name; the right link of the second leads to itself. -/
def loopTable : Memory := fun i => if i = 2 ∨ i = 18 then 4 else 0

theorem search_loops : ¬Returns loopTable 2048 [0x41] 0 := by
  have hself : Follows loopTable 2048 [0x41] 16 16 := rfl
  have hfirst : Follows loopTable 2048 [0x41] 0 16 := rfl
  rintro ⟨fuel, hfind⟩
  obtain ⟨less, -, hless⟩ := find_path (.single hfirst) hfind
  exact not_returns_of_cycle (.single hself) ⟨less, hless⟩

end Roswell.Ports.Xdvdfs
