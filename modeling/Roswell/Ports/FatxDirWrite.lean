import Roswell.Ports.FatxNames

/-!
# Writing FATX directory entries

Models of `vfatFindDirSpace`, `FATXAddEntry`, `FATXDelEntry`, `vfatRenameEntry`
and `VfatUpdateEntry`, as functions of the directory they write to.  What the
cache and the allocator do is an input (`DirIo`): a block that cannot be pinned
raises, and a directory that is full grows by a cluster or does not.

The two results are about the name that ends up on the disk.  A new entry can be
found and read back under its name unless the name has 42 characters, and an
entry renamed in place keeps the directory whole as long as its new name fits.
-/

namespace Roswell.Ports.FatxDirWrite

open FatxDir FatxEnum FatxNames Directory

inductive Status where
  | success
  | invalidParameter
  | objectNameInvalid
  | objectNameNotFound
  | objectNameCollision
  | objectPathNotFound
  | accessDenied
  | nameTooLong
  | diskFull
  | insufficientResources
  /-- What a raising cache routine leaves in `_SEH2_GetExceptionCode`. -/
  | ioError
  deriving DecidableEq, Repr

/-- How the cache and the allocator answer while an entry is added. -/
structure DirIo where
  /-- The directory has a cache map, and the blocks of the scan can be pinned. -/
  scan : Bool
  /-- The entries of the cluster `VfatSetAllocationSizeInformation` appends. -/
  grow : Option Nat
  /-- The blocks to clear can be pinned. -/
  clear : Bool
  /-- What the new cluster holds if they cannot. -/
  leftovers : Nat → DirEntry
  /-- The block of the entry can be pinned. -/
  pin : Bool

/-! ## Room for an entry -/

/-- An entry of bytes `0xff`. -/
def blankEntry : DirEntry :=
  ⟨0xff, 0xff, List.replicate 42 0xff, List.length_replicate, 0xffffffff, 0xffffffff,
    0xffff, 0xffff, 0xffff, 0xffff, 0xffff, 0xffff⟩

/-- A directory with a cluster more.  A cluster holds some entries, and the size
of a directory stays a 32-bit number. -/
def extend (d : Directory) (entries : Nat) (cluster : Nat → DirEntry) : Option Directory :=
  if h : 0 < entries ∧ (d.count + entries) * 64 < 2 ^ 32 then
    some
      { slot := fun i => if i < d.count then d.slot i else cluster (i - d.count)
        count := d.count + entries
        size_lt := h.2 }
  else none

/-- The loop of `vfatFindDirSpace`, for one slot: where it stops, and whether that
is a deleted entry. -/
def freeScan (d : Directory) : Nat → Nat → Nat × Bool
  | 0, i => (i, false)
  | n + 1, i =>
    if (d.slot i).isEnd then (i, false)
    else if (d.slot i).isDeleted then (i, true)
    else freeScan d n (i + 1)

/-- `vfatFindDirSpace` for one slot; `none` is `FALSE`. -/
def vfatFindDirSpace (d : Directory) (io : DirIo) : Option Nat × Directory :=
  if !io.scan then (none, d)
  else
    match freeScan d d.count 0 with
    | (start, true) => (some start, d)
    | (start, false) =>
      if d.count < start + 1 then
        match io.grow with
        | none => (none, d)
        | some entries =>
          match extend d entries (if io.clear then fun _ => blankEntry else io.leftovers) with
          | none => (none, d)
          | some d' => (if io.clear then some start else none, d')
      else if start + 1 < d.count then
        -- the entry after the new one becomes the end marker
        if io.clear then (some start, d.setSlot (start + 1) blankEntry) else (none, d)
      else (some start, d)

section Space

variable {d d' : Directory} {io : DirIo} {i : Nat}

theorem freeScan_spec {n k j : Nat} {hit : Bool} (h : freeScan d n k = (j, hit)) :
    k ≤ j ∧ j ≤ k + n ∧
      (∀ l, k ≤ l → l < j → (d.slot l).isEnd = false ∧ (d.slot l).isDeleted = false) ∧
      (hit = true → j < k + n ∧ (d.slot j).isDeleted = true) ∧
      (hit = false → j = k + n ∨ (d.slot j).isEnd = true) := by
  fun_induction freeScan d n k with
  | case1 k =>
    obtain ⟨rfl, rfl⟩ := Prod.mk.inj h
    exact ⟨Nat.le_refl _, Nat.le_refl _, fun l h1 h2 => by omega, nofun, fun _ => Or.inl rfl⟩
  | case2 n k he =>
    obtain ⟨rfl, rfl⟩ := Prod.mk.inj h
    exact ⟨Nat.le_refl _, by omega, fun l h1 h2 => by omega, nofun, fun _ => Or.inr he⟩
  | case3 n k he hd =>
    obtain ⟨rfl, rfl⟩ := Prod.mk.inj h
    exact ⟨Nat.le_refl _, by omega, fun l h1 h2 => by omega, fun _ => ⟨by omega, hd⟩, nofun⟩
  | case4 n k he hd ih =>
    obtain ⟨h1, h2, h3, h4, h5⟩ := ih h
    refine ⟨by omega, by omega, ?_, ?_, ?_⟩
    · intro l hl hlj
      rcases Nat.eq_or_lt_of_le hl with rfl | hl
      · exact ⟨by simpa using he, by simpa using hd⟩
      · exact h3 l hl hlj
    · intro hhit
      exact ⟨by have := (h4 hhit).1; omega, (h4 hhit).2⟩
    · intro hhit
      exact (h5 hhit).imp_left (by omega)

/-- The room found: everything before it is live, it is a deleted entry of the
directory, or nothing of the directory lies behind it. -/
structure Room (d d' : Directory) (i : Nat) : Prop where
  live : LiveUpTo d i
  count_le : d.count ≤ d'.count
  lt : i < d'.count
  before : ∀ j, j < i → d'.slot j = d.slot j
  place : (d' = d ∧ (d.slot i).isDeleted = true) ∨ i = d.count ∨ (d.slot i).isEnd = true

theorem extend_spec {entries : Nat} {cluster : Nat → DirEntry}
    (h : extend d entries cluster = some d') :
    d.count < d'.count ∧ (∀ j, j < d.count → d'.slot j = d.slot j) ∧
      ∀ j, d.count ≤ j → d'.slot j = cluster (j - d.count) := by
  unfold extend at h
  split at h
  · rename_i hfits
    obtain rfl := Option.some.inj h
    exact ⟨Nat.lt_add_of_pos_right hfits.1, fun j hj => if_pos hj,
      fun j hj => if_neg (Nat.not_lt.2 hj)⟩
  · cases h

/-- A deleted entry is used again; or the entry after the new one marks the end, if the
directory has one. -/
theorem vfatFindDirSpace_cases (h : vfatFindDirSpace d io = (some i, d')) :
    freeScan d d.count 0 = (i, true) ∧ d' = d ∨ freeScan d d.count 0 = (i, false) ∧
      (i + 1 = d.count ∧ d' = d ∨ i + 1 ≠ d.count ∧ d.count ≤ d'.count ∧ i < d'.count ∧
        (∀ j, j < i → d'.slot j = d.slot j) ∧ (d'.slot (i + 1)).isEnd = true) := by
  have hle : ∀ {start hit}, freeScan d d.count 0 = (start, hit) → start ≤ d.count := fun hfree => by
    simpa using (freeScan_spec hfree).2.1
  revert h
  fun_cases vfatFindDirSpace d io with
  | case1 | case3 | case4 | case7 => nofun
  | case2 _ start hfree =>
    rintro ⟨⟩
    exact Or.inl ⟨hfree, rfl⟩
  | case5 _ start hfree hfull entries _ d₁ hext =>
    -- the directory grows
    obtain ⟨hcount, hsame, hnew⟩ := extend_spec hext
    have := hle hfree
    intro h
    obtain ⟨hi, rfl⟩ := Prod.mk.inj h
    split_ifs at hi hnew
    obtain rfl := Option.some.inj hi
    refine Or.inr ⟨hfree, Or.inr ⟨by omega, hcount.le, by omega, fun j hj => hsame j (by omega), ?_⟩⟩
    rw [hnew (start + 1) (by omega)]
    rfl
  | case6 _ start hfree hfull hnext =>
    rintro ⟨⟩
    refine Or.inr ⟨hfree, Or.inr ⟨by omega, Nat.le_refl _, show _ < d.count by omega, ?_, ?_⟩⟩
    · exact fun j hj => setSlot_slot_of_ne d blankEntry (by omega)
    · rw [setSlot_slot_self]
      rfl
  | case8 _ start hfree hfull hnext =>
    rintro ⟨⟩
    exact Or.inr ⟨hfree, Or.inl ⟨by omega, rfl⟩⟩

theorem vfatFindDirSpace_spec (h : vfatFindDirSpace d io = (some i, d')) : Room d d' i := by
  rcases vfatFindDirSpace_cases h with ⟨hfree, rfl⟩ | ⟨hfree, hcase⟩
  · obtain ⟨-, hle, hbefore, hdel, -⟩ := freeScan_spec hfree
    rw [Nat.zero_add] at hle hdel
    exact ⟨⟨hle, fun l hl => hbefore l (Nat.zero_le l) hl⟩, Nat.le_refl _, (hdel rfl).1,
      fun _ _ => rfl, Or.inl ⟨rfl, (hdel rfl).2⟩⟩
  · obtain ⟨-, hle, hbefore, -, hend⟩ := freeScan_spec hfree
    rw [Nat.zero_add] at hle hend
    have hlive : LiveUpTo d i := ⟨hle, fun l hl => hbefore l (Nat.zero_le l) hl⟩
    rcases hcase with ⟨hlast, rfl⟩ | ⟨-, hcount, hlt, hsame, -⟩
    · exact ⟨hlive, Nat.le_refl _, by omega, fun _ _ => rfl, Or.inr (hend rfl)⟩
    · exact ⟨hlive, hcount, hlt, hsame, Or.inr (hend rfl)⟩

end Space

/-! ## Adding and deleting -/

/-- `VFAT_MOVE_CONTEXT`. -/
structure MoveContext where
  firstCluster : UInt32
  fileSize : UInt32
  creationDate : UInt16
  creationTime : UInt16
  deriving DecidableEq

/-- The entry `FATXAddEntry` puts together; date and time are those of
`KeQuerySystemTime`. -/
def newEntry (nameU : UnicodeString) (isDirectory : Bool) (reqAttr : UInt8)
    (move : Option MoveContext) (date time : UInt16) : DirEntry :=
  storeName
    { filenameLength := 0
      attrib := if isDirectory then reqAttr ||| 0x10 else reqAttr
      filename := List.replicate 42 0xff
      filename_length := List.length_replicate
      firstCluster := (move.map MoveContext.firstCluster).getD 0
      fileSize := (move.map MoveContext.fileSize).getD 0
      updateTime := time
      updateDate := date
      creationTime := (move.map MoveContext.creationTime).getD time
      creationDate := (move.map MoveContext.creationDate).getD date
      accessTime := time
      accessDate := date }
    nameU

/-- `FATXAddEntry`: the index of the new entry, or the status. -/
def fatxAddEntry (d : Directory) (io : DirIo) (nameU : UnicodeString) (isDirectory : Bool)
    (reqAttr : UInt8) (move : Option MoveContext) (date time : UInt16) :
    Except Status Nat × Directory :=
  if 42 < nameU.chars.length then (.error .nameTooLong, d)
  else
    match vfatFindDirSpace d io with
    | (none, d) => (.error .diskFull, d)
    | (some index, d) =>
      if !io.pin then (.error .ioError, d)
      else (.ok index, d.setSlot index (newEntry nameU isDirectory reqAttr move date time))

/-- The entry at an index, from the 32-bit offset `index * 64`. -/
def slotOf (index : Nat) : Nat := index % 2 ^ 26

/-- `FATXDelEntry` on the directory: the entry is marked, and what a move keeps
of it is handed out. -/
def fatxDelEntry (d : Directory) (startIndex : Nat) (pin : Bool) :
    Except Status MoveContext × Directory :=
  if !pin then (.error .ioError, d)
  else
    let e := d.slot (slotOf startIndex)
    (.ok ⟨e.firstCluster, e.fileSize, e.creationDate, e.creationTime⟩,
      d.setSlot (slotOf startIndex) { e with filenameLength := 0xe5 })

/-- `VfatUpdateEntry`: the entry of the FCB goes to its place. -/
def vfatUpdateEntry (d : Directory) (startIndex : Nat) (entry : DirEntry) (pin : Bool) :
    Status × Directory :=
  if !pin then (.ioError, d) else (.success, d.setSlot (slotOf startIndex) entry)

/-- The directory an FCB lies in: the length of its path name, and whether it is
the root. -/
structure Parent where
  pathNameLength : Nat
  isRoot : Bool
  deriving DecidableEq, Repr

/-- The outcome of `vfatMakeFullName`, whose length is a `USHORT` of bytes;
`memory` tells whether the pool has room for the name. -/
def vfatMakeFullName (parent : Parent) (name : List UInt16) (memory : Bool) : Status :=
  let pathNameLength :=
    (parent.pathNameLength * 2 + name.length * 2 + if parent.isRoot then 0 else 2) % 2 ^ 16
  if 256 * 2 < pathNameLength then .objectNameInvalid
  else if memory then .success else .insufficientResources

/-- `vfatDirFindFile`: of an entry with the name an FCB is made, for which its full name
must do. -/
def vfatDirFindFile (caseTable : UInt16 → UInt16) (d : Directory) (x : Surroundings)
    (parent : Parent) (memory : Bool) (name : List UInt16) : Option (Except Status Found) :=
  (findEntry caseTable d x name).map fun
    | none => .error .objectNameNotFound
    | some found =>
      if vfatMakeFullName parent found.longName memory = .success then .ok found
      else .error (vfatMakeFullName parent found.longName memory)

/-- `vfatRenameEntry`: the name goes to the disk, then the FCB is made anew. -/
def vfatRenameEntry (d : Directory) (parent : Parent) (startIndex : Nat)
    (fileName : UnicodeString) (pin memory : Bool) : Status × Directory :=
  if !pin then (.ioError, d)
  else
    (vfatMakeFullName parent fileName.chars memory,
      d.setSlot (slotOf startIndex) (storeName (d.slot (slotOf startIndex)) fileName))

/-- What `VfatCreateFile` asks `FATXAddEntry` for: it passes on five of the
attributes. -/
def vfatCreateEntry (d : Directory) (io : DirIo) (nameU : UnicodeString) (isDirectory : Bool)
    (fileAttributes : UInt32) (date time : UInt16) : Except Status Nat × Directory :=
  fatxAddEntry d io nameU isDirectory (fileAttributes &&& 0x37).toUInt8 none date time

theorem slotOf_of_lt {d : Directory} {i : Nat} (h : i < d.count) : slotOf i = i := by
  have hsize := d.size_lt
  exact Nat.mod_eq_of_lt (by omega)

section Add

variable {d d' : Directory} {io : DirIo} {nameU : UnicodeString} {isDirectory : Bool}
  {reqAttr : UInt8} {move : Option MoveContext} {date time : UInt16} {index : Nat}

/-- What a successful `FATXAddEntry` has done. -/
theorem fatxAddEntry_ok
    (h : fatxAddEntry d io nameU isDirectory reqAttr move date time = (.ok index, d')) :
    nameU.chars.length ≤ 42 ∧ ∃ d₁, vfatFindDirSpace d io = (some index, d₁) ∧
      d' = d₁.setSlot index (newEntry nameU isDirectory reqAttr move date time) := by
  revert h
  fun_cases fatxAddEntry d io nameU isDirectory reqAttr move date time with
  | case1 | case2 | case3 => nofun
  | case4 hlong index' d₁ hspace =>
    rintro ⟨⟩
    exact ⟨by omega, d₁, hspace, rfl⟩

/-- A name whose length is no marker makes an entry that is none. -/
theorem storeName_not_marker_of_mod {e : DirEntry} (h1 : nameU.chars.length % 256 ≠ 0xe5)
    (h2 : nameU.chars.length % 256 ≠ 0xff) :
    (storeName e nameU).isEnd = false ∧ (storeName e nameU).isDeleted = false := by
  have hlen := filenameLength_toNat e nameU
  unfold DirEntry.isEnd DirEntry.isDeleted
  constructor
  · rw [beq_eq_false_iff_ne]
    intro heq
    rw [heq] at hlen
    exact h2 hlen.symm
  · rw [beq_eq_false_iff_ne]
    intro heq
    rw [heq] at hlen
    exact h1 hlen.symm

theorem storeName_not_marker {e : DirEntry} (h : nameU.chars.length ≤ 42) :
    (storeName e nameU).isEnd = false ∧ (storeName e nameU).isDeleted = false :=
  storeName_not_marker_of_mod (by omega) (by omega)

theorem newEntry_not_marker (h : nameU.chars.length ≤ 42) (isDirectory : Bool) (reqAttr : UInt8)
    (move : Option MoveContext) (date time : UInt16) :
    (newEntry nameU isDirectory reqAttr move date time).isEnd = false ∧
      (newEntry nameU isDirectory reqAttr move date time).isDeleted = false :=
  storeName_not_marker h

/-- The attributes passed on do not make a volume label. -/
theorem attributes_not_volume (a : UInt8) :
    (a &&& 0x37) &&& 0x1f ≠ 0x08 ∧ ((a &&& 0x37) ||| 0x10) &&& 0x1f ≠ 0x08 := by
  have hbits : ∀ b : BitVec 8,
      (b &&& 0x37) &&& 0x1f ≠ 0x08 ∧ ((b &&& 0x37) ||| 0x10) &&& 0x1f ≠ 0x08 := by
    decide
  obtain ⟨h1, h2⟩ := hbits a.toBitVec
  exact ⟨fun h => h1 (congrArg UInt8.toBitVec h), fun h => h2 (congrArg UInt8.toBitVec h)⟩

/-- An entry created for a file or a directory is no volume label. -/
theorem created_not_volume (fileAttributes : UInt32) :
    isVolume (newEntry nameU isDirectory (fileAttributes &&& 0x37).toUInt8 move date time) =
      false := by
  obtain ⟨h1, h2⟩ := attributes_not_volume fileAttributes.toUInt8
  unfold isVolume
  rw [beq_eq_false_iff_ne, UInt32.toUInt8_and]
  cases isDirectory with
  | false => exact h1
  | true => exact h2

end Add

/-! ## Names on the disk -/

section FullName

variable {parent : Parent} {name : List UInt16} {memory : Bool}

/-- The characters of the path name of an entry: a separator follows the name of any
directory but the root. -/
def Parent.fullNameLength (parent : Parent) (name : List UInt16) : Nat :=
  parent.pathNameLength + name.length + if parent.isRoot then 0 else 1

/-- A directory was itself found under a full name of at most 256 characters; then the
`USHORT` does not wrap for the names of its entries. -/
theorem vfatMakeFullName_success_iff (hparent : parent.pathNameLength ≤ 256)
    (hname : name.length ≤ 255) :
    vfatMakeFullName parent name memory = .success ↔
      parent.fullNameLength name ≤ 256 ∧ memory = true := by
  have hlength : (parent.pathNameLength * 2 + name.length * 2 +
      if parent.isRoot then 0 else 2) % 2 ^ 16 = parent.fullNameLength name * 2 := by
    unfold Parent.fullNameLength
    split_ifs <;> omega
  unfold vfatMakeFullName
  simp only [hlength]
  split_ifs with hlong hmemory
  · exact ⟨nofun, fun h => absurd h.1 (by omega)⟩
  · exact ⟨fun _ => ⟨by omega, hmemory⟩, fun _ => rfl⟩
  · exact ⟨nofun, fun h => absurd h.2 hmemory⟩

theorem vfatMakeFullName_ne_notFound :
    vfatMakeFullName parent name memory ≠ .objectNameNotFound := by
  unfold vfatMakeFullName
  dsimp only
  split_ifs <;> exact nofun

variable {caseTable : UInt16 → UInt16} {d : Directory} {x : Surroundings} {found : Found}

theorem vfatDirFindFile_ok_iff :
    vfatDirFindFile caseTable d x parent memory name = some (.ok found) ↔
      findEntry caseTable d x name = some (some found) ∧
        vfatMakeFullName parent found.longName memory = .success := by
  unfold vfatDirFindFile
  rw [Option.map_eq_some_iff]
  constructor
  · rintro ⟨_ | other, hfind, hmade⟩
    · cases hmade
    · dsimp only at hmade
      split_ifs at hmade with hfull
      cases hmade
      exact ⟨hfind, hfull⟩
  · rintro ⟨hfind, hfull⟩
    exact ⟨some found, hfind, if_pos hfull⟩

theorem findEntry_of_notFound
    (h : vfatDirFindFile caseTable d x parent memory name =
      some (.error .objectNameNotFound)) : findEntry caseTable d x name = some none := by
  unfold vfatDirFindFile at h
  rw [Option.map_eq_some_iff] at h
  obtain ⟨_ | other, hfind, hmade⟩ := h
  · exact hfind
  · dsimp only at hmade
    split_ifs at hmade
    exact absurd (Except.error.inj hmade) vfatMakeFullName_ne_notFound

end FullName

/-- A name of up to 42 characters that was not there before is found after its
creation, and read back as it was given, exactly if it has at most 41 characters
or the filling of the field spells it, its full name has at most 256 characters
and the pool has room for that. -/
theorem created_found_iff {caseTable : UInt16 → UInt16} {d d' : Directory} {io : DirIo}
    {nameU : UnicodeString} {isDirectory : Bool} {fileAttributes : UInt32} {date time : UInt16}
    {index : Nat} {x : Surroundings} {parent : Parent} {memory : Bool}
    (hparent : parent.pathNameLength ≤ 256) (hpos : 0 < nameU.chars.length)
    (hle : nameU.chars.length ≤ 42) (hrep : Representable nameU.chars)
    (hnew : vfatDirFindFile caseTable d x parent memory nameU.chars =
      some (.error .objectNameNotFound))
    (hadd : vfatCreateEntry d io nameU isDirectory fileAttributes date time = (.ok index, d'))
    (x' : Surroundings) (memory' : Bool) :
    vfatDirFindFile caseTable d' x' parent memory' nameU.chars =
        some (.ok ⟨index, d'.slot index, nameU.chars⟩) ↔
      (nameU.chars.length ≤ 41 ∨ nameU.chars = List.replicate 42 0xff) ∧
        parent.fullNameLength nameU.chars ≤ 256 ∧ memory' = true := by
  rw [vfatDirFindFile_ok_iff, vfatMakeFullName_success_iff hparent (by dsimp only; omega)]
  refine and_congr_left' ?_
  obtain ⟨-, d₁, hspace, rfl⟩ := fatxAddEntry_ok hadd
  have hroom := vfatFindDirSpace_spec hspace
  obtain ⟨e, he⟩ : ∃ e, newEntry nameU isDirectory (fileAttributes &&& 0x37).toUInt8 none date
      time = e := ⟨_, rfl⟩
  have hvolume : isVolume e = false := he ▸ created_not_volume fileAttributes
  have hmarker : e.isEnd = false ∧ e.isDeleted = false := he ▸ newEntry_not_marker hle _ _ _ _ _
  rw [he, setSlot_slot_self]
  have hbefore : ∀ j, j < index → (d₁.setSlot index e).slot j = d.slot j := by
    intro j hj
    rw [setSlot_slot_of_ne d₁ e (by omega), hroom.before j hj]
  have hlive : LiveUpTo (d₁.setSlot index e) (index + 1) := by
    refine ⟨hroom.lt, ?_⟩
    intro j hj
    by_cases hji : j = index
    · rw [hji, setSlot_slot_self]
      exact hmarker
    · rw [hbefore j (by omega)]
      exact hroom.live.2 j (by omega)
  have hnot : ∀ j, j < index → isNamed caseTable nameU.chars
      ((d₁.setSlot index e).slot j) (x'.overrun j) = false := by
    intro j hj
    rw [hbefore j hj, isNamed_overrun hle (x'.overrun j) (x.overrun j)]
    exact not_named_of_not_found hroom.live (findEntry_of_notFound hnew) hj
  -- what is read back from the new entry
  have hname : ∀ overrun, longName e overrun =
      if nameU.chars.length ≤ 41 then nameU.chars else List.replicate 42 0xff := by
    intro overrun
    split_ifs with hshort
    · rw [← he]
      exact longName_storeName_short (by omega) hrep
    · rw [← he]
      exact longName_storeName_42 (by omega)
  constructor
  · intro hfound
    obtain ⟨m, hread⟩ := findFrom_longName hfound
    dsimp only at hread
    by_cases hshort : nameU.chars.length ≤ 41
    · exact Or.inl hshort
    · rw [hname, if_neg hshort] at hread
      exact Or.inr hread
  · intro hcond
    have hback : longName e (x'.overrun index) = nameU.chars := by
      rw [hname]
      split_ifs with hshort
      · rfl
      · exact (hcond.resolve_left hshort).symm
    have hnamed : isNamed caseTable nameU.chars e (x'.overrun index) = true := by
      unfold isNamed
      rw [hvolume, hback, rtlEqualUnicodeString_self]
      cases hchars : nameU.chars with
      | nil =>
        rw [hchars] at hpos
        exact absurd hpos (Nat.lt_irrefl 0)
      | cons c rest => rfl
    rw [findEntry_last hlive hnot, setSlot_slot_self, if_pos hnamed, hback]

/-- An empty directory of a page. -/
def emptyDirectory : Directory := ⟨fun _ => blankEntry, 64, by decide⟩

/-- Nothing raises, and nothing has to grow. -/
def quietIo : DirIo := ⟨true, none, true, fun _ => blankEntry, true⟩

/-- A page looked at by itself. -/
def plainSurroundings : Surroundings := ⟨fun _ => blankEntry, fun _ _ => 0, fun _ => 0⟩

/-- A name of so many letters A. -/
def letters (n : Nat) (h : n * 2 < 2 ^ 16) : UnicodeString :=
  ⟨List.replicate n 0x41, by rw [List.length_replicate]; exact h⟩

/-- The root directory. -/
def rootParent : Parent := ⟨1, true⟩

theorem created_found_iff_letter :
    vfatDirFindFile (fun _ => 0)
        (vfatCreateEntry emptyDirectory quietIo (letters 1 (by decide)) false 0 0 0).2
        plainSurroundings ⟨254, false⟩ true [0x41] =
      some (.ok ⟨0, newEntry (letters 1 (by decide)) false 0 none 0 0, [0x41]⟩) := by
  have hnew : vfatDirFindFile (fun _ => 0) emptyDirectory plainSurroundings ⟨254, false⟩ true
      (letters 1 (by decide)).chars = some (.error .objectNameNotFound) := by
    have hnone : findEntry (fun _ => 0) emptyDirectory plainSurroundings
        (letters 1 (by decide)).chars = some none := by
      decide +kernel
    unfold vfatDirFindFile
    rw [hnone]
    rfl
  have hadd : vfatCreateEntry emptyDirectory quietIo (letters 1 (by decide)) false 0 0 0 =
      (.ok 0, (vfatCreateEntry emptyDirectory quietIo (letters 1 (by decide)) false 0 0 0).2) :=
    rfl
  exact (created_found_iff (by decide) (by decide) (by decide) (by decide) hnew hadd
    plainSurroundings true).2 ⟨Or.inl (by decide), by decide, rfl⟩

/-- A name of 42 letters is not found after its creation. -/
theorem letters_42_lost :
    (vfatCreateEntry emptyDirectory quietIo (letters 42 (by decide)) false 0 0 0).1.toOption =
        some 0 ∧
      vfatDirFindFile (fun _ => 0)
        (vfatCreateEntry emptyDirectory quietIo (letters 42 (by decide)) false 0 0 0).2
        plainSurroundings rootParent true (letters 42 (by decide)).chars =
      some (.error .objectNameNotFound) := by
  have hnone : findEntry (fun _ => 0)
      (vfatCreateEntry emptyDirectory quietIo (letters 42 (by decide)) false 0 0 0).2
      plainSurroundings (letters 42 (by decide)).chars = some none := by
    decide +kernel
  refine ⟨by decide +kernel, ?_⟩
  unfold vfatDirFindFile
  rw [hnone]
  rfl

/-- `RtlAnsiStringToUnicodeString`, through which `XeNtSetInformationFile` takes
the names of a title. -/
def rtlAnsiStringToUnicodeString (ansi : List UInt8) (h : ansi.length * 2 < 2 ^ 16) :
    UnicodeString :=
  ⟨ansi.map unicodeChar, by rw [List.length_map]; exact h⟩

theorem oemChar_unicodeChar (b : UInt8) : oemChar (unicodeChar b) = b := by
  have hlt : b.toNat < 256 := b.toNat_lt
  unfold oemChar unicodeChar
  rw [if_pos (UInt16.lt_iff_toNat_lt.2 (by rw [UInt8.toNat_toUInt16]; exact hlt))]
  exact UInt8.toUInt8_toUInt16 b

theorem map_oemChar_unicodeChar (ansi : List UInt8) : (ansi.map unicodeChar).map oemChar = ansi := by
  rw [List.map_map]
  exact (List.map_congr_left fun b _ => oemChar_unicodeChar b).trans (List.map_id _)

theorem representable_ansi (ansi : List UInt8) : Representable (ansi.map unicodeChar) := by
  intro w hw
  obtain ⟨b, -, rfl⟩ := List.mem_map.1 hw
  have hlt : b.toNat < 256 := b.toNat_lt
  exact UInt16.lt_iff_toNat_lt.2 (by rw [unicodeChar, UInt8.toNat_toUInt16]; exact hlt)

/-- A rename in place that succeeds leaves a live entry with the new name, and
every other live entry as it was, exactly if the name has up to 41 characters and
is not empty, or has 42 and the field spells it already. -/
theorem renamed_whole_iff {d d' : Directory} {parent : Parent} {i : Nat} {ansi : List UInt8}
    {hlen : ansi.length * 2 < 2 ^ 16} {memory : Bool} (hi : i ∈ d.live)
    (hok : vfatRenameEntry d parent i (rtlAnsiStringToUnicodeString ansi hlen) true memory =
      (.success, d')) :
    ((1 ≤ (d'.slot i).filenameLength.toNat ∧ (d'.slot i).filenameLength.toNat ≤ 42 ∧
        i ∈ d'.live ∧ ∀ overrun, longName (d'.slot i) overrun = ansi.map unicodeChar) ∧
      ∀ j, j ∈ d.live → j ≠ i → j ∈ d'.live ∧ d'.slot j = d.slot j) ↔
      (1 ≤ ansi.length ∧ ansi.length ≤ 41) ∨ (d.slot i).filename = ansi := by
  generalize hname : rtlAnsiStringToUnicodeString ansi hlen = name
  have hchars : name.chars = ansi.map unicodeChar := by
    rw [← hname]
    rfl
  have hsize : name.chars.length = ansi.length := by
    rw [hchars, List.length_map]
  obtain ⟨hcount, hdel, hend⟩ := mem_live.1 hi
  have hfield := (d.slot i).filename_length
  obtain rfl : d' = d.setSlot i (storeName (d.slot i) name) := by
    rw [hname] at hok
    unfold vfatRenameEntry at hok
    rw [slotOf_of_lt hcount] at hok
    exact (congrArg Prod.snd hok).symm
  rw [setSlot_slot_self, ← hchars]
  constructor
  · rintro ⟨⟨h1, h2, -, hread⟩, -⟩
    have hL := longName_length (storeName (d.slot i) name) (fun _ => 0)
    rw [hread, hsize] at hL
    by_cases hshort : ansi.length ≤ 41
    · exact Or.inl ⟨by omega, hshort⟩
    · -- with 42 characters, the field is what it was
      have hold := hread fun _ => 0
      rw [longName_storeName_42 (by omega), hchars] at hold
      have hback := congrArg (List.map oemChar) hold
      rw [map_oemChar_unicodeChar, map_oemChar_unicodeChar] at hback
      exact Or.inr hback
  · intro hcond
    have hle : 1 ≤ ansi.length ∧ ansi.length ≤ 42 := by
      rcases hcond with h | h
      · omega
      · rw [← h]
        omega
    have hL : (storeName (d.slot i) name).filenameLength.toNat = ansi.length := by
      rw [filenameLength_toNat, hsize, Nat.mod_eq_of_lt (by omega)]
    obtain ⟨hnotEnd, hnotDel⟩ := storeName_not_marker (e := d.slot i) (show name.chars.length ≤ 42 by
      omega)
    have hends : ∀ k, (d.slot k).isEnd = false →
        ((d.setSlot i (storeName (d.slot i) name)).slot k).isEnd = false := by
      intro k hk
      by_cases hki : k = i
      · rw [hki, setSlot_slot_self]
        exact hnotEnd
      · rw [setSlot_slot_of_ne d _ hki]
        exact hk
    refine ⟨⟨by omega, by omega, ?_, ?_⟩, ?_⟩
    · refine mem_live.2 ⟨hcount, ?_, fun k hk => hends k (hend k hk)⟩
      rw [setSlot_slot_self]
      exact hnotDel
    · intro overrun
      by_cases hshort : ansi.length ≤ 41
      · refine longName_storeName_short (by omega) ?_
        rw [hchars]
        exact representable_ansi ansi
      · have hsame : (d.slot i).filename = ansi := hcond.resolve_left fun h => hshort h.2
        rw [longName_storeName_42 (by omega), hsame, hchars]
    · intro j hj hji
      obtain ⟨hjcount, hjdel, hjend⟩ := mem_live.1 hj
      have hslot := setSlot_slot_of_ne d (storeName (d.slot i) name) hji
      refine ⟨mem_live.2 ⟨hjcount, ?_, fun k hk => hends k (hjend k hk)⟩, hslot⟩
      rw [hslot]
      exact hjdel

/-- A directory with two files of one letter. -/
def twoLetters : Directory where
  slot i := if i < 2 then newEntry (letters 1 (by decide)) false 0 none 0 0 else blankEntry
  count := 64
  size_lt := by decide

/-- The file at index 0 of it under the name B. -/
def renamedLetter : Status × Directory :=
  vfatRenameEntry twoLetters rootParent 0 (rtlAnsiStringToUnicodeString [0x42] (by decide)) true
    true

/-- The same with a name of 255 letters A. -/
def renamedLong : Status × Directory :=
  vfatRenameEntry twoLetters rootParent 0
    (rtlAnsiStringToUnicodeString (List.replicate 255 0x41)
      (by rw [List.length_replicate]; decide)) true true

theorem renamed_whole_iff_letter :
    twoLetters.live = [0, 1] ∧ renamedLetter.1 = .success ∧ 0 ∈ renamedLetter.2.live ∧
      longName (renamedLetter.2.slot 0) (fun _ => 0) = [0x42] ∧ 1 ∈ renamedLetter.2.live := by
  have hlive : twoLetters.live = [0, 1] := by decide +kernel
  have h0 : (0 : Nat) ∈ twoLetters.live := by rw [hlive]; decide
  have h1 : (1 : Nat) ∈ twoLetters.live := by rw [hlive]; decide
  have hok : renamedLetter = (.success, renamedLetter.2) := rfl
  obtain ⟨⟨-, -, hmem, hname⟩, hrest⟩ := (renamed_whole_iff h0 hok).2 (Or.inl (by decide))
  exact ⟨hlive, rfl, hmem, hname fun _ => 0, (hrest 1 h1 (by decide)).1⟩

/-- A name of 255 letters makes its entry the end of the directory. -/
theorem letters_255_truncate :
    twoLetters.live = [0, 1] ∧ renamedLong.1 = .success ∧ renamedLong.2.live = [] := by
  exact ⟨by decide +kernel, by decide +kernel, by decide +kernel⟩

/-! ## What an added entry shows -/

/-- Behind the end of the directory, its last page has an entry that looks live. -/
def Spills (d : Directory) : Prop :=
  ∃ j, d.count ≤ j ∧ j < pageEnd d ∧ (d.slot j).isDeleted = false ∧
    ∀ l, d.count ≤ l → l ≤ j → (d.slot l).isEnd = false

/-- What the enumeration after an addition needs of the directory before it.  If a deleted
entry is used again, no entry behind the end may look live, and neither the new entry nor a
live one behind it may have a deleted tail; if the end marker in the last slot is used, the
page must not go on behind it. -/
def ShowsAdded (d : Directory) : Prop :=
  match freeScan d d.count 0 with
  | (k, true) => (∀ j ∈ shown d, j < d.count) ∧
      ∀ i, i = k ∨ k < i ∧ i ∈ d.live → ¬DeletedTail d i
  | (k, false) => k + 1 = d.count → ¬Spills d ∧ ¬DeletedTail d k

section Shows

variable {d : Directory} {e : DirEntry} {i j k n : Nat}

theorem not_tail_of_live (h : LiveUpTo d (k + 1)) (hi : i < k) : ¬DeletedTail d i := by
  rintro ⟨hlast, hdel⟩
  have hnext := (h.2 (i + 1) (by omega)).2
  rw [hdel (i + 1) (Nat.lt_succ_self i) (by omega)] at hnext
  exact absurd hnext nofun

theorem deletedTail_setSlot (hk : k ≤ i) : DeletedTail (d.setSlot k e) i ↔ DeletedTail d i := by
  have hsame : ∀ l, i < l → (d.setSlot k e).slot l = d.slot l :=
    fun l hl => setSlot_slot_of_ne d e (by omega)
  constructor
  · exact fun h => ⟨h.1, fun l hl => hsame l hl ▸ h.2 l hl⟩
  · exact fun h => ⟨h.1, fun l hl => (hsame l hl).symm ▸ h.2 l hl⟩

/-- With live entries only, up to the end or a marker of it. -/
theorem mem_live_of_liveUpTo (h : LiveUpTo d k) (hend : k = d.count ∨ (d.slot k).isEnd = true) :
    j ∈ d.live ↔ j < k := by
  rw [mem_live]
  constructor
  · rintro ⟨hj, -, hnone⟩
    by_contra hge
    rcases hend with rfl | hend
    · exact hge hj
    · rw [hnone k (Nat.not_lt.1 hge)] at hend
      exact absurd hend nofun
  · exact fun hj => ⟨Nat.lt_of_lt_of_le hj h.1, (h.2 j hj).2, fun l hl => (h.2 l (by omega)).1⟩

theorem liveUpTo_setSlot (h : LiveUpTo d k) (hk : k < d.count)
    (he : e.isEnd = false ∧ e.isDeleted = false) : LiveUpTo (d.setSlot k e) (k + 1) := by
  refine ⟨hk, fun l hl => ?_⟩
  by_cases hlk : l = k
  · rw [hlk, setSlot_slot_self]
    exact he
  · rw [setSlot_slot_of_ne d e hlk]
    exact h.2 l (by omega)

theorem mem_liveFrom_reuse (hlive : LiveUpTo d k) (hdel : (d.slot k).isDeleted = true)
    (he : e.isEnd = false ∧ e.isDeleted = false) (hk : k < n) :
    j ∈ (d.setSlot k e).liveFrom n 0 ↔ j ∈ d.liveFrom n 0 ∨ j = k := by
  have hmark : (d.slot k).isEnd = false := by
    by_contra hend
    rw [DirEntry.isEnd_not_deleted (by simpa using hend)] at hdel
    exact absurd hdel nofun
  have hend : ∀ l, ((d.setSlot k e).slot l).isEnd = (d.slot l).isEnd := by
    intro l
    by_cases hl : l = k
    · rw [hl, setSlot_slot_self, he.1, hmark]
    · rw [setSlot_slot_of_ne d e hl]
  rw [mem_liveFrom, mem_liveFrom]
  simp only [hend]
  by_cases hj : j = k
  · rw [hj, setSlot_slot_self]
    refine iff_of_true ⟨Nat.zero_le k, by omega, he.2, fun l _ hl => ?_⟩ (Or.inr rfl)
    rcases Nat.lt_or_eq_of_le hl with hl | rfl
    · exact (hlive.2 l hl).1
    · exact hmark
  · rw [setSlot_slot_of_ne d e hj, or_iff_left hj]

end Shows

section Added

variable {d d' : Directory} {io : DirIo} {nameU : UnicodeString} {isDirectory : Bool}
  {reqAttr : UInt8} {move : Option MoveContext} {date time : UInt16} {index : Nat}

/-- After a successful `FATXAddEntry` the calls return the entries there were and the new
one, each once, exactly if the directory was one that shows it. -/
theorem added_enumerated_iff (shifted : Nat → DirEntry)
    (hadd : fatxAddEntry d io nameU isDirectory reqAttr move date time = (.ok index, d'))
    (hsize : pageEnd d' * 64 < 2 ^ 32) :
    (Enumerates d' shifted ∧ (∀ j, j ∈ d'.live ↔ j ∈ d.live ∨ j = index) ∧ index ∉ d.live ∧
      d'.slot index = newEntry nameU isDirectory reqAttr move date time ∧
      ∀ j ∈ d.live, d'.slot j = d.slot j) ↔ ShowsAdded d := by
  obtain ⟨hle, d₁, hspace, rfl⟩ := fatxAddEntry_ok hadd
  have hroom := vfatFindDirSpace_spec hspace
  have he := newEntry_not_marker hle isDirectory reqAttr move date time
  generalize newEntry nameU isDirectory reqAttr move date time = e at he hsize ⊢
  rw [enumerates_iff hsize, setSlot_slot_self]
  have hlive := hroom.live
  unfold ShowsAdded
  rcases vfatFindDirSpace_cases hspace with ⟨hfree, rfl⟩ | ⟨hfree, hcase⟩
  · -- a deleted entry is used again
    obtain ⟨hlt, hdel⟩ := (freeScan_spec hfree).2.2.2.1 rfl
    rw [Nat.zero_add] at hlt
    have hmem : ∀ j, j ∈ (d₁.setSlot index e).live ↔ j ∈ d₁.live ∨ j = index :=
      fun j => mem_liveFrom_reuse hlive hdel he hlt
    have hshown : ∀ j, j ∈ shown (d₁.setSlot index e) ↔ j ∈ shown d₁ ∨ j = index :=
      fun j => mem_liveFrom_reuse hlive hdel he (show index < pageEnd d₁ by unfold pageEnd; omega)
    have hnew : index ∉ d₁.live := fun hin => by
      rw [(mem_live.1 hin).2.1] at hdel
      exact absurd hdel nofun
    have hrest : ∀ j ∈ d₁.live, (d₁.setSlot index e).slot j = d₁.slot j :=
      fun j hj => setSlot_slot_of_ne d₁ e fun heq => hnew (heq ▸ hj)
    rw [hfree]
    dsimp only
    rw [and_iff_left ⟨hmem, hnew, rfl, hrest⟩]
    refine and_congr ?_ ?_
    · simp only [hshown]
      exact ⟨fun h j hj => h j (Or.inl hj), fun h j hj => hj.elim (h j) fun heq => heq ▸ hlt⟩
    · simp only [hmem]
      constructor
      · rintro h i (rfl | ⟨hki, hi⟩) htail
        · exact h i (Or.inr rfl) ((deletedTail_setSlot (Nat.le_refl i)).2 htail)
        · exact h i (Or.inl hi) ((deletedTail_setSlot hki.le).2 htail)
      · intro h i hi htail
        rcases Nat.lt_trichotomy i index with hlow | rfl | hhigh
        · exact not_tail_of_live (liveUpTo_setSlot hlive hlt he) hlow htail
        · exact h i (Or.inl rfl) ((deletedTail_setSlot (Nat.le_refl i)).1 htail)
        · exact h i (Or.inr ⟨hhigh, hi.resolve_right hhigh.ne'⟩)
            ((deletedTail_setSlot hhigh.le).1 htail)
  · -- the entry goes behind the live ones
    have hend := (freeScan_spec hfree).2.2.2.2 rfl
    rw [Nat.zero_add] at hend
    have hold : ∀ j, j ∈ d.live ↔ j < index := fun j => mem_live_of_liveUpTo hlive hend
    have hup : LiveUpTo (d₁.setSlot index e) (index + 1) :=
      liveUpTo_setSlot ⟨hroom.lt.le, fun l hl => hroom.before l hl ▸ hlive.2 l hl⟩ hroom.lt he
    have hmem : ∀ j, j ∈ (d₁.setSlot index e).live ↔ j < index + 1 := by
      intro j
      refine mem_live_of_liveUpTo hup ?_
      rcases hcase with ⟨hlast, rfl⟩ | ⟨-, -, -, -, hmark⟩
      · exact Or.inl hlast
      · rw [setSlot_slot_of_ne d₁ e (Nat.succ_ne_self index)]
        exact Or.inr hmark
    have hrest : ∀ j ∈ d.live, (d₁.setSlot index e).slot j = d.slot j := by
      intro j hj
      rw [hold] at hj
      rw [setSlot_slot_of_ne d₁ e hj.ne, hroom.before j hj]
    rw [hfree]
    dsimp only
    rw [and_iff_left ⟨fun j => by rw [hmem, hold]; omega, fun hin => Nat.lt_irrefl _
      ((hold index).1 hin), rfl, hrest⟩]
    -- of the live entries only the new one can have a deleted tail
    have htails : (∀ i, i ∈ (d₁.setSlot index e).live → ¬DeletedTail (d₁.setSlot index e) i) ↔
        ¬DeletedTail d₁ index := by
      rw [← deletedTail_setSlot (Nat.le_refl index)]
      constructor
      · exact fun h => h index ((hmem index).2 (Nat.lt_succ_self index))
      · intro h i hi
        rcases Nat.lt_or_eq_of_le (Nat.le_of_lt_succ ((hmem i).1 hi)) with hlow | rfl
        · exact not_tail_of_live hup hlow
        · exact h
    rw [htails]
    rcases hcase with ⟨hlast, rfl⟩ | ⟨hnot, -, -, -, hmark⟩
    · rw [forall_prop_of_true hlast]
      refine and_congr_left fun _ => ?_
      have hsame : ∀ l, d₁.count ≤ l → (d₁.setSlot index e).slot l = d₁.slot l :=
        fun l hl => setSlot_slot_of_ne d₁ e (by omega)
      constructor
      · rintro h ⟨j, hge, hj, hdel, hnone⟩
        refine Nat.not_lt.2 hge (h j (mem_liveFrom.2 ⟨Nat.zero_le j, ?_, ?_, ?_⟩))
        · rw [Nat.zero_add]
          exact hj
        · rw [hsame j hge]
          exact hdel
        · intro l _ hl
          by_cases hin : l < index + 1
          · exact (hup.2 l hin).1
          · rw [hsame l (by omega)]
            exact hnone l (by omega) hl
      · intro h j hj
        obtain ⟨-, hlt, hdel, hnone⟩ := mem_liveFrom.1 hj
        by_contra hge
        have hge : d₁.count ≤ j := Nat.not_lt.1 hge
        rw [Nat.zero_add] at hlt
        rw [hsame j hge] at hdel
        exact h ⟨j, hge, hlt, hdel, fun l hl hlj => hsame l hl ▸ hnone l (Nat.zero_le l) hlj⟩
    · refine iff_of_true ⟨fun j hj => ?_, ?_⟩ fun h => absurd h hnot
      · refine Nat.lt_of_le_of_lt ?_ hroom.lt
        by_contra hgt
        have hnone := (mem_liveFrom.1 hj).2.2.2 (index + 1) (Nat.zero_le _) (by omega)
        rw [setSlot_slot_of_ne d₁ e (Nat.succ_ne_self index), hmark] at hnone
        exact absurd hnone nofun
      · rintro ⟨hlast, hdel⟩
        have hnext := hdel (index + 1) (Nat.lt_succ_self index) (by omega)
        rw [DirEntry.isEnd_not_deleted hmark] at hnext
        exact absurd hnext nofun

end Added

/-- A deleted entry between two files. -/
def betweenFiles : Directory where
  slot i := markedEntry (if i = 1 then 0xe5 else if i < 3 then 5 else 0xff)
  count := 64
  size_lt := emptyDirectory.size_lt

theorem added_enumerated_iff_letter :
    ∃ d', fatxAddEntry betweenFiles quietIo (letters 1 (by decide)) false 0 none 0 0 =
      (.ok 1, d') ∧ Enumerates d' d'.slot := by
  refine ⟨_, rfl, ?_⟩
  refine ((added_enumerated_iff _ (show fatxAddEntry betweenFiles quietIo
    (letters 1 (by decide)) false 0 none 0 0 = (.ok 1, _) from rfl) (by decide)).2 ?_).1
  have hlive : betweenFiles.live = [0, 2] := by decide +kernel
  refine ⟨by decide +kernel, ?_⟩
  rintro i (rfl | ⟨hi, hmem⟩) ⟨-, hdel⟩
  · exact absurd (hdel 2 (by decide) (by decide)) (by decide)
  · obtain rfl : i = 2 := by
      rw [hlive] at hmem
      simp at hmem
      omega
    exact absurd (hdel 3 (by decide) (by decide)) (by decide)

/-- A page of deleted entries, and a file in the next. -/
def deletedPage : Directory where
  slot i := markedEntry (if i < 64 then 0xe5 else if i = 64 then 5 else 0xff)
  count := 128
  size_lt := twoFiles.size_lt

/-- The file is enumerated; an entry added before it hides it. -/
theorem added_hides_file :
    answer deletedPage deletedPage.slot (fun _ => 0xFFFFE000) 0 =
        some (some (64, deletedPage.slot 64)) ∧
      ∃ d', fatxAddEntry deletedPage quietIo (letters 1 (by decide)) false 0 none 0 0 =
          (.ok 0, d') ∧ d'.live = [0, 64] ∧
        answer d' d'.slot (fun _ => 0xFFFFE000) 1 = some none := by
  refine ⟨by decide +kernel, _, rfl, ?_, ?_⟩
  · decide +kernel
  · decide +kernel

end Roswell.Ports.FatxDirWrite
