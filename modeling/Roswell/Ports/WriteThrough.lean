import Roswell.Ports.FatSizes
import Roswell.Ports.FatxDirWrite

/-!
# Write-through of a directory entry

A file's entry exists three times: in the FCB, in the cached stream of its directory and
on the disk.  `VfatUpdateEntry` copies the first to the second, at the index the FCB holds,
and `VfatFlushWriteThrough` the second to the third; neither the requests nor the flush
look at a failure.  The flag `VFAT_WRITE_THROUGH` is taken to be set.

The requests are those that set the size or the allocation, write, create, overwrite,
open, rename and close.  What they do to a directory is that of `FatxDirWrite`.  The last
close of a file to be deleted, after which it has no entry, is left out; so are names that
are not found and other refusals that come before anything is changed.
`MmCanFileBeTruncated` always says yes here.
-/

namespace Roswell.Ports.WriteThrough

open Verified.Word Verified.Runs Fat
open FatxDir (DirEntry Directory)
open FatxNames (UnicodeString)
open FatxDirWrite hiding Status vfatUpdateEntry

/-! ## A file and its entry -/

/-- An open file, the cached streams of the directories, and what is on the disk in their
place.  Cluster and size of the FCB's entry are in `fcb`, the rest of it in `rest`. -/
structure File where
  device : DeviceExt
  fcb : Fcb
  rest : DirEntry
  longName : List UInt16
  /-- The directory and the two indexes the FCB holds. -/
  parent : Nat
  startIndex : Nat
  dirIndex : Nat
  dirty : Bool
  dirs : Nat → Directory
  disk : Nat → Directory
  /-- The directory and the slot the entry of the file is in. -/
  home : Nat × Nat

/-- Whether the directory can be pinned, and whether it is written back. -/
structure Io where
  pin : Bool
  flush : Bool

/-- Where a new entry goes and what of it the request gives: the directory, its path, how
the search for a slot goes, the name, the time, and whether a full name finds room. -/
structure Target where
  dir : Nat
  path : Parent
  space : DirIo
  name : UnicodeString
  date : UInt16
  time : UInt16
  memory : Bool

/-- The full name of the new entry can be made. -/
def Target.Named (g : Target) : Prop := vfatMakeFullName g.path g.name.chars g.memory = .success

instance (g : Target) : Decidable g.Named := inferInstanceAs (Decidable (_ = _))

inductive Answer where
  | success
  | failed (status : Fat.Status)
  | refused (status : FatxDirWrite.Status)
  | accessDenied
  | notFound
  | dataError
  deriving DecidableEq, Repr

namespace File

/-- The entry of the FCB. -/
def entry (f : File) : DirEntry :=
  { f.rest with
    firstCluster := UInt32.ofNat f.fcb.firstCluster
    fileSize := UInt32.ofNat f.fcb.fileSize }

/-- The entry of the file in the cached directory. -/
def cached (f : File) : DirEntry := (f.dirs f.home.1).slot f.home.2

/-- The entry of the file on the disk. -/
def onDisk (f : File) : DirEntry := (f.disk f.home.1).slot f.home.2

/-- `FILE_ATTRIBUTE_DIRECTORY`, `_HIDDEN` and `_SYSTEM`. -/
def isDirectory (attributes : UInt8) : Bool := attributes &&& 0x10 ≠ 0

def isHidden (attributes : UInt8) : Bool := attributes &&& 0x02 ≠ 0

def isSystem (attributes : UInt8) : Bool := attributes &&& 0x04 ≠ 0

/-- The FCB is given the time of a write. -/
def touch (f : File) (date time : UInt16) : File :=
  { f with
    rest :=
      { f.rest with
        updateDate := date
        updateTime := time
        accessDate := date
        accessTime := time } }

/-- `VfatUpdateEntry` for an entry that is not the root's. -/
def vfatUpdateEntry (f : File) (io : Io) : File :=
  match FatxDirWrite.vfatUpdateEntry (f.dirs f.parent) f.startIndex f.entry io.pin with
  | (.success, d) => { f with dirty := false, dirs := Function.update f.dirs f.parent d }
  | _ => f

/-- `VfatFlushWriteThrough`; of the streams it flushes, that of the parent is followed. -/
def vfatFlushWriteThrough (f : File) (io : Io) : File :=
  if io.flush then { f with disk := Function.update f.disk f.parent (f.dirs f.parent) } else f

/-- `vfatInitFCBFromDirEntry`; the allocation of a directory is that of its chain, which
is given. -/
def vfatInitFCBFromDirEntry (f : File) (parent : Nat) (e : DirEntry) (startIndex dirIndex : Nat)
    (chainSize : Nat) : File :=
  let size := if isDirectory e.attrib then chainSize else e.fileSize.toNat
  { f with
    fcb :=
      { firstCluster := e.firstCluster.toNat
        fileSize := e.fileSize.toNat
        isDirectory := isDirectory e.attrib
        allocationSize := roundUp64 size f.device.fatInfo.bytesPerCluster
        lastCluster := f.fcb.lastCluster
        lastOffset := f.fcb.lastOffset }
    rest := e
    parent := parent
    startIndex := startIndex
    dirIndex := dirIndex }

/-- The allocation is changed by the request. -/
def AllocSizeChanged (f : File) (newSize : Nat) : Prop :=
  f.fcb.allocationSize % 2 ^ 32 < newSize ∨
    wadd newSize f.device.fatInfo.bytesPerCluster ≤ f.fcb.allocationSize % 2 ^ 32

instance (f : File) (newSize : Nat) : Decidable (f.AllocSizeChanged newSize) :=
  inferInstanceAs (Decidable (_ ∨ _))

/-- `VfatSetAllocationSizeInformation`: every change marks the FCB dirty, and one of the
allocation updates the entry. -/
def setAllocationSize (f : File) (request : Request) (io : Io) : Option (File × Answer) :=
  match vfatSetAllocationSizeInformation f.device f.fcb request with
  | none => none
  | some (d, fcb, .success) =>
    let changed := { f with device := d, fcb := fcb, dirty := true }
    if f.fcb.fileSize = request.lowPart.toNat then
      some ({ f with device := d, fcb := fcb }, .success)
    else if f.AllocSizeChanged request.lowPart.toNat then
      some (changed.vfatUpdateEntry io, .success)
    else some (changed, .success)
  | some (d, fcb, status) => some ({ f with device := d, fcb := fcb }, .failed status)

/-- `VfatSetInformation` for `FileAllocationInformation` and `FileEndOfFileInformation`. -/
def setInformation (f : File) (request : Request) (io : Io) : Option (File × Answer) :=
  match f.setAllocationSize request io with
  | some (f, .success) => some (f.vfatFlushWriteThrough io, .success)
  | other => other

/-- The end of `VfatWrite`, from `Metadata` on. -/
def metadata (f : File) (date time : UInt16) (answer : Answer) (io : Io) : File × Answer :=
  let f := { f.touch date time with dirty := true }
  match answer with
  | .success => ((f.vfatUpdateEntry io).vfatFlushWriteThrough io, .success)
  | answer => (f, answer)

/-- `VfatWrite`; `copied` tells whether the data could be moved. -/
def vfatWrite (f : File) (offset length : UInt32) (copied : Bool) (date time : UInt16)
    (junk : Nat) (io : Io) : Option (File × Answer) :=
  let outcome := if copied then .success else .dataError
  if f.fcb.isDirectory then some (f, .failed .invalidParameter)
  else if length = 0 then some (f.metadata date time .success io)
  else if f.fcb.fileSize < (offset + length).toNat then
    match f.setAllocationSize ⟨0, offset + length, false, true, junk⟩ io with
    | some (f, .success) => some (f.metadata date time outcome io)
    | other => other
  else some (f.metadata date time outcome io)

/-- A new FCB, not yet filled from an entry. -/
def newFcb (f : File) : File :=
  { f with fcb := { f.fcb with lastCluster := 0, lastOffset := 0 }, dirty := false }

/-- A new file or directory: `FATXAddEntry`, whose entry is copied to the FCB.  The size
of zero that is set afterwards is the one it has.  A create that fails makes no file, and
one whose FCB cannot be made goes on without and does not come back. -/
def create (f : File) (g : Target) (directory : Bool) (attributes : UInt32) (io : Io) :
    Option (File × Answer) :=
  match vfatCreateEntry (f.dirs g.dir) g.space g.name directory attributes g.date g.time with
  | (.error _, _) => none
  | (.ok index, d) =>
    if g.Named then
      let added := { f.newFcb with
        dirs := Function.update f.dirs g.dir d
        longName := g.name.chars
        home := (g.dir, index) }
      let made := added.vfatInitFCBFromDirEntry g.dir (d.slot index) index index 0
      some (made.vfatFlushWriteThrough io, .success)
    else none

/-- An existing file is overwritten or superseded. -/
def overwrite (f : File) (supersede : Bool) (attributes : UInt8) (date time : UInt16)
    (junk : Nat) (io : Io) : Option (File × Answer) :=
  if (isHidden f.rest.attrib ∧ ¬isHidden attributes) ∨
      (isSystem f.rest.attrib ∧ ¬isSystem attributes) then
    some (f, .accessDenied)
  else
    let attributes := if supersede then attributes else f.rest.attrib ||| attributes
    let f :=
      if f.fcb.isDirectory then f
      else
        let f := f.touch date time
        { f with
          rest := { f.rest with attrib := attributes }
          fcb := { f.fcb with isDirectory := isDirectory attributes } }.vfatUpdateEntry io
    f.setInformation ⟨0, 0, false, true, junk⟩ io

/-- `VfatOpenFile`: if the file has no FCB, a new one is built from the entry. -/
def vfatOpenFile (f : File) (fresh : Bool) (chainSize : Nat) : File × Answer :=
  if fresh then
    if f.cached.isDeleted then (f, .notFound)
    else
      (f.newFcb.vfatInitFCBFromDirEntry f.home.1 f.cached f.home.2 f.home.2 chainSize, .success)
  else (f, .success)

/-- A rename within the directory.  `vfatRenameEntry` sets the name in the cached entry
and copies that to the FCB, with the two indexes of a context it has not filled; it flushes
the directory, as the end of the request does. -/
def rename (f : File) (path : Parent) (name : UnicodeString) (memory : Bool)
    (junk : Nat × Nat) (chainSize : Nat) (io : Io) : File × Answer :=
  if f.longName = name.chars then (f.vfatFlushWriteThrough io, .success)
  else
    match vfatRenameEntry (f.dirs f.parent) path f.startIndex name io.pin memory with
    | (.success, d) =>
      let named := { f with
        dirs := Function.update f.dirs f.parent d
        longName := name.chars }
      let made := named.vfatInitFCBFromDirEntry f.parent (d.slot (slotOf f.startIndex))
        junk.1 junk.2 chainSize
      (made.vfatFlushWriteThrough io, .success)
    | (status, d) => ({ f with dirs := Function.update f.dirs f.parent d }, .refused status)

/-- A rename to another directory: `VfatMoveEntry` removes the cached entry and adds one
with its cluster, size and time of creation.  `FATXAddEntry` does not look at the status of
`vfatUpdateFCB`, which leaves the FCB alone if the full name cannot be made. -/
def move (f : File) (g : Target) (chainSize : Nat) (io : Io) : File × Answer :=
  match fatxDelEntry (f.dirs f.parent) f.startIndex io.pin with
  | (.error status, _) => (f, .refused status)
  | (.ok kept, d) =>
    let dirs := Function.update f.dirs f.parent d
    let deleted := { f with dirs := dirs }.vfatFlushWriteThrough io
    match fatxAddEntry (dirs g.dir) g.space g.name f.fcb.isDirectory f.rest.attrib (some kept)
      g.date g.time with
    | (.error status, d) =>
      ({ deleted with dirs := Function.update dirs g.dir d }.vfatFlushWriteThrough io,
        .refused status)
    | (.ok index, d) =>
      let added := { deleted with dirs := Function.update dirs g.dir d, home := (g.dir, index) }
      let made :=
        if g.Named then
          { added with longName := g.name.chars }.vfatInitFCBFromDirEntry g.dir (d.slot index)
            index index chainSize
        else added
      (made.vfatFlushWriteThrough io, .success)

/-- `VfatCleanup` of a handle. -/
def cleanup (f : File) (deletePending : Bool) (io : Io) : File × Answer :=
  let f := if f.dirty then f.vfatUpdateEntry io else f
  (if deletePending then f else f.vfatFlushWriteThrough io, .success)

end File

/-! ## Requests -/

inductive Act where
  | setInformation (high : Int) (size : UInt32) (allocationOnly : Bool) (junk : Nat)
  | write (offset length : UInt32) (copied : Bool) (date time : UInt16) (junk : Nat)
  | create (g : Target) (directory : Bool) (attributes : UInt32)
  | overwrite (supersede : Bool) (attributes : UInt8) (date time : UInt16) (junk : Nat)
  | openFile (fresh : Bool) (chainSize : Nat)
  | rename (path : Parent) (name : UnicodeString) (memory : Bool) (junk : Nat × Nat)
      (chainSize : Nat)
  | move (g : Target) (chainSize : Nat)
  | cleanup (deletePending : Bool)

def File.apply (f : File) (io : Io) : Act → Option (File × Answer)
  | .setInformation high size allocationOnly junk =>
    f.setInformation ⟨high, size, allocationOnly, true, junk⟩ io
  | .write offset length copied date time junk =>
    f.vfatWrite offset length copied date time junk io
  | .create g directory attributes => f.create g directory attributes io
  | .overwrite supersede attributes date time junk =>
    f.overwrite supersede attributes date time junk io
  | .openFile fresh chainSize => some (f.vfatOpenFile fresh chainSize)
  | .rename path name memory junk chainSize =>
    some (f.rename path name memory junk chainSize io)
  | .move g chainSize => some (f.move g chainSize io)
  | .cleanup deletePending => some (f.cleanup deletePending io)

/-- The end of file is not set to another place in the last cluster of the allocation, and
the data of a write is moved.  The full name of a file that is renamed can be made; a
rename in place finds the index of the entry on the stack, and the directory a file is
moved to has space for it. -/
def Act.Careful (f : File) : Act → Prop
  | .setInformation _ size allocationOnly _ =>
    allocationOnly ∨ f.fcb.fileSize = size.toNat ∨ f.AllocSizeChanged size.toNat
  | .overwrite _ _ _ _ _ => f.fcb.fileSize = 0 ∨ f.AllocSizeChanged 0
  | .write _ _ copied _ _ _ => copied
  | .rename path name memory junk _ =>
    f.longName = name.chars ∨
      vfatMakeFullName path name.chars memory = .success ∧ slotOf junk.1 = slotOf f.startIndex
  | .move g chainSize => g.Named ∧ (f.move g chainSize ⟨true, true⟩).2 = .success
  | _ => True

/-- A request that is careful and whose reads and writes of the directory succeed. -/
def Step (f : File) (a : Act × Io) (t : File) : Prop :=
  a.1.Careful f ∧ a.2 = ⟨true, true⟩ ∧ ∃ answer, f.apply a.2 a.1 = some (t, answer)

/-- The entry on the disk is that of the FCB. -/
def Durable (f : File) : Prop := f.onDisk = f.entry

/-- The FCB holds the place of the entry. -/
def File.Bound (f : File) : Prop := f.parent = f.home.1 ∧ slotOf f.startIndex = f.home.2

/-- The FCB holds the place of the entry, and all three entries are the same. -/
structure Synced (f : File) : Prop where
  bound : f.Bound
  cached : f.cached = f.entry
  disk : f.onDisk = f.entry

/-! ## What a request does to the entry -/

variable {f : File} {d d' : DeviceExt} {fcb fcb' : Fcb} {status : Status} {newSize : Nat}

/-- The fields of the FCB that are in its entry. -/
def SameEntry (fcb fcb' : Fcb) : Prop :=
  fcb'.firstCluster = fcb.firstCluster ∧ fcb'.fileSize = fcb.fileSize

/-- A request that fails, sets the size that is there or sets an allocation in the last
cluster leaves the entry of the FCB alone. -/
theorem setAllocation_same {request : Request}
    (h : vfatSetAllocationSizeInformation f.device f.fcb request = some (d', fcb', status))
    (hkept : status ≠ .success ∨ f.fcb.fileSize = request.lowPart.toNat ∨
      request.allocationOnly ∧ ¬f.AllocSizeChanged request.lowPart.toNat) :
    SameEntry f.fcb fcb' := by
  revert h
  fun_cases vfatSetAllocationSizeInformation f.device f.fcb request with
  | case1 | case2 | case6 =>
    rintro ⟨⟩
    exact ⟨rfl, rfl⟩
  | case3 _ _ _ _ hsame hmore =>
    rintro ⟨⟩
    exact absurd (Or.inl hmore) (((hkept.resolve_left (absurd rfl)).resolve_left hsame).2)
  | case4 _ _ _ hsame hmore hnot =>
    intro h
    obtain ⟨hsize, -, hfirst⟩ := grow_kept h
    refine ⟨hfirst ?_, hsize⟩
    rintro rfl
    exact hnot _ _ h
  | case5 _ _ _ _ hsame _ hcut =>
    simp only [Option.map_eq_some_iff]
    rintro ⟨cut, -, ⟨⟩⟩
    exact absurd (Or.inr hcut) (((hkept.resolve_left (absurd rfl)).resolve_left hsame).2)
  | case7 _ _ _ _ hsame =>
    rintro ⟨⟩
    rw [if_pos ((hkept.resolve_left (absurd rfl)).resolve_left hsame).1]
    exact ⟨rfl, rfl⟩

/-! ## Requests keep the entries the same -/

section Requests

theorem File.entry_of_same (h : SameEntry f.fcb fcb') (d : DeviceExt) (dirty : Bool) :
    { f with device := d, fcb := fcb', dirty := dirty }.entry = f.entry := by
  unfold File.entry
  dsimp only
  rw [h.1, h.2]

theorem Synced.of_same (hf : Synced f) (h : SameEntry f.fcb fcb') (d : DeviceExt) (dirty : Bool) :
    Synced { f with device := d, fcb := fcb', dirty := dirty } := by
  have hentry := File.entry_of_same h d dirty
  exact ⟨hf.bound, hf.cached.trans hentry.symm, hf.disk.trans hentry.symm⟩

/-- The directory can be read and written. -/
def working : Io := ⟨true, true⟩

/-- The entry of a bound FCB goes to its place. -/
theorem cached_update (hb : f.Bound) : (f.vfatUpdateEntry working).cached = f.entry := by
  change (Function.update f.dirs f.parent _ f.home.1).slot f.home.2 = f.entry
  rw [hb.1, Function.update_self, ← hb.2]
  exact FatxDir.Directory.setSlot_slot_self _ _ _

theorem synced_flush (hb : f.Bound) (h : f.cached = f.entry) :
    Synced (f.vfatFlushWriteThrough working) := by
  refine ⟨hb, h, ?_⟩
  change (Function.update f.disk f.parent _ f.home.1).slot f.home.2 = f.entry
  rw [hb.1, Function.update_self]
  exact h

/-- Copied to the cache and flushed, the entry is everywhere that of the FCB. -/
theorem synced_flush_update (hb : f.Bound) :
    Synced ((f.vfatUpdateEntry working).vfatFlushWriteThrough working) :=
  synced_flush (f := f.vfatUpdateEntry working) hb (cached_update hb)

/-- An FCB filled from an entry. -/
theorem init_entry (parent : Nat) (e : DirEntry) (i j chainSize : Nat) :
    (f.vfatInitFCBFromDirEntry parent e i j chainSize).entry = e := by
  unfold File.entry File.vfatInitFCBFromDirEntry
  dsimp only
  rw [UInt32.ofNat_toNat, UInt32.ofNat_toNat]

/-- An FCB filled from the entry of its file, with its place. -/
theorem synced_flush_init {i : Nat} (hi : slotOf i = f.home.2) (j chainSize : Nat) :
    Synced ((f.vfatInitFCBFromDirEntry f.home.1 f.cached i j chainSize).vfatFlushWriteThrough
      working) :=
  synced_flush ⟨rfl, hi⟩ (init_entry f.home.1 f.cached i j chainSize).symm

section SetSize

variable {request : Request} {t : File} {answer : Answer}

theorem setAllocationSize_failed (h : f.setAllocationSize request working = some (t, answer))
    (hfailed : answer ≠ .success) (hf : Synced f) : Synced t := by
  unfold File.setAllocationSize at h
  split at h
  · cases h
  · dsimp only at h
    split at h
    · cases h
      exact absurd rfl hfailed
    · split at h <;> (cases h; exact absurd rfl hfailed)
  · next d fcb status hnot hset =>
    cases h
    exact hf.of_same (setAllocation_same hset (Or.inl hnot)) d f.dirty

theorem setAllocationSize_bound
    (h : f.setAllocationSize request working = some (t, answer)) (hb : f.Bound) : t.Bound := by
  unfold File.setAllocationSize at h
  dsimp only at h
  split at h
  · cases h
  · split_ifs at h <;> (cases h; exact hb)
  · cases h
    exact hb

/-- The size is set, and the entry in the cache is that of the FCB again: it has been
copied, or has not changed. -/
theorem setAllocationSize_cached (h : f.setAllocationSize request working = some (t, .success))
    (hcareful : request.allocationOnly ∨ f.fcb.fileSize = request.lowPart.toNat ∨
      f.AllocSizeChanged request.lowPart.toNat) (hb : f.Bound) (hf : f.cached = f.entry) :
    t.cached = t.entry := by
  unfold File.setAllocationSize at h
  split at h
  · cases h
  · next d fcb hset =>
    dsimp only at h
    by_cases hsame : f.fcb.fileSize = request.lowPart.toNat
    · rw [if_pos hsame] at h
      cases h
      have hkept := setAllocation_same hset (Or.inr (Or.inl hsame))
      exact hf.trans (File.entry_of_same hkept d f.dirty).symm
    rw [if_neg hsame] at h
    split_ifs at h with hchanged
    · cases h
      exact cached_update (f := { f with device := d, fcb := fcb, dirty := true }) hb
    · cases h
      have honly := hcareful.resolve_right (not_or.2 ⟨hsame, hchanged⟩)
      have hkept := setAllocation_same hset (Or.inr (Or.inr ⟨honly, hchanged⟩))
      exact hf.trans (File.entry_of_same hkept d true).symm
  · cases h

/-- A size is set and the directory flushed. -/
theorem setInformation_synced (h : f.setInformation request working = some (t, answer))
    (hcareful : request.allocationOnly ∨ f.fcb.fileSize = request.lowPart.toNat ∨
      f.AllocSizeChanged request.lowPart.toNat) (hf : Synced f) : Synced t := by
  unfold File.setInformation at h
  split at h
  · next hset =>
    cases h
    exact synced_flush (setAllocationSize_bound hset hf.bound)
      (setAllocationSize_cached hset hcareful hf.bound hf.cached)
  · next hnot => exact setAllocationSize_failed h (fun hs => hnot t (by rw [h, hs])) hf

/-- Cutting a file to nothing does not fail. -/
theorem setAllocationSize_zero {junk : Nat}
    (h : f.setAllocationSize ⟨0, 0, false, true, junk⟩ working = some (t, answer)) :
    answer = .success := by
  unfold File.setAllocationSize at h
  split at h
  · cases h
  · dsimp only at h
    split at h
    · cases h
      rfl
    · split at h <;> (cases h; rfl)
  · next d fcb status hnot hset =>
    exfalso
    unfold vfatSetAllocationSizeInformation at hset
    dsimp only at hset
    rw [if_neg (by decide)] at hset
    split at hset
    · cases hset
      exact hnot rfl
    · rw [UInt32.toNat_zero, if_neg (Nat.not_lt_zero _)] at hset
      split at hset
      · obtain ⟨cut, -, hd⟩ := Option.map_eq_some_iff.1 hset
        cases hd
        exact hnot rfl
      · cases hset
        exact hnot rfl

end SetSize

/-- The end of a write whose data was moved. -/
theorem synced_metadata (hb : f.Bound) (date time : UInt16) :
    Synced (f.metadata date time .success working).1 :=
  synced_flush_update (f := { f.touch date time with dirty := true }) hb

theorem Synced.write (hf : Synced f) {offset length : UInt32} {date time : UInt16} {junk : Nat}
    {t : File} {answer : Answer}
    (h : f.vfatWrite offset length true date time junk working = some (t, answer)) :
    Synced t := by
  unfold File.vfatWrite at h
  dsimp only at h
  split at h
  · cases h
    exact hf
  split at h
  · cases h
    exact synced_metadata hf.bound date time
  · split at h
    · split at h
      · next hset =>
        cases h
        exact synced_metadata (setAllocationSize_bound hset hf.bound) date time
      · next hnot => exact setAllocationSize_failed h (fun hs => hnot t (by rw [h, hs])) hf
    · cases h
      exact synced_metadata hf.bound date time

theorem Synced.overwrite (hf : Synced f) {supersede : Bool} {attributes : UInt8}
    {date time : UInt16} {junk : Nat} {t : File} {answer : Answer}
    (h : f.overwrite supersede attributes date time junk working = some (t, answer))
    (hcareful : f.fcb.fileSize = 0 ∨ f.AllocSizeChanged 0) : Synced t := by
  unfold File.overwrite at h
  split at h
  · cases h
    exact hf
  dsimp only at h
  split at h
  · exact setInformation_synced h (Or.inr hcareful) hf
  -- the attributes are copied to the cache, and the flush comes with the size
  unfold File.setInformation at h
  split at h
  · next hset =>
    cases h
    exact synced_flush (setAllocationSize_bound hset hf.bound)
      (setAllocationSize_cached hset (Or.inr hcareful) hf.bound (cached_update hf.bound))
  · next hnot =>
    exact absurd (by rw [h, setAllocationSize_zero h]) (hnot t)

theorem Synced.rename (hf : Synced f) {path : Parent} {name : UnicodeString} {memory : Bool}
    {junk : Nat × Nat} {chainSize : Nat}
    (h : (Act.rename path name memory junk chainSize).Careful f) :
    Synced (f.rename path name memory junk chainSize working).1 := by
  unfold File.rename
  split_ifs with hsame
  · exact synced_flush hf.bound hf.cached
  · obtain ⟨hfull, hjunk⟩ := h.resolve_left hsame
    unfold vfatRenameEntry
    rw [if_neg (by decide), hfull]
    dsimp only
    -- the entry the FCB is made of is the one in its place
    obtain ⟨d, hd⟩ : ∃ d, (f.dirs f.parent).setSlot (slotOf f.startIndex) (FatxNames.storeName
      ((f.dirs f.parent).slot (slotOf f.startIndex)) name) = d := ⟨_, rfl⟩
    rw [hd]
    have hplace := synced_flush_init
      (f := { f with dirs := Function.update f.dirs f.parent d, longName := name.chars })
      (hjunk.trans hf.bound.2) junk.2 chainSize
    unfold File.cached at hplace
    dsimp only at hplace
    rw [← hf.bound.1, ← hf.bound.2, Function.update_self] at hplace
    exact hplace

/-- The index `FATXAddEntry` returns is that of a slot of the directory. -/
theorem added_slotOf {d d' : Directory} {space : DirIo} {name : UnicodeString}
    {directory : Bool} {attributes : UInt8} {kept : Option MoveContext}
    {date time : UInt16} {index : Nat}
    (h : fatxAddEntry d space name directory attributes kept date time =
      (.ok index, d')) : slotOf index = index := by
  obtain ⟨-, d₁, hspace, -⟩ := fatxAddEntry_ok h
  exact slotOf_of_lt (vfatFindDirSpace_spec hspace).lt

/-- An entry is added, and the FCB made of it. -/
theorem synced_added {dir index : Nat} {d : Directory} (hindex : slotOf index = index)
    (hhome : f.home = (dir, index)) (hdir : f.dirs dir = d) (chainSize : Nat) :
    Synced ((f.vfatInitFCBFromDirEntry dir (d.slot index) index index
      chainSize).vfatFlushWriteThrough working) := by
  have hplace := synced_flush_init (f := f) (i := index) (by rw [hhome]; exact hindex) index
    chainSize
  unfold File.cached at hplace
  rw [hhome, hdir] at hplace
  exact hplace

theorem Synced.create {g : Target} {directory : Bool} {attributes : UInt32} {t : File}
    {answer : Answer} (h : f.create g directory attributes working = some (t, answer)) :
    Synced t := by
  unfold File.create at h
  split at h
  · cases h
  · next index d hadd =>
    dsimp only at h
    split_ifs at h
    cases h
    exact synced_added (added_slotOf hadd) rfl (Function.update_self _ _ _) 0

theorem Synced.move {g : Target} {chainSize : Nat} (h : (Act.move g chainSize).Careful f) :
    Synced (f.move g chainSize working).1 := by
  obtain ⟨hnamed, hsuccess⟩ := h
  change (f.move g chainSize working).2 = _ at hsuccess
  unfold File.move at hsuccess ⊢
  split at hsuccess
  · cases hsuccess
  · dsimp only at hsuccess ⊢
    split at hsuccess
    · cases hsuccess
    · next index d' hadd =>
      dsimp only
      rw [if_pos hnamed]
      exact synced_added (added_slotOf hadd) rfl (Function.update_self _ _ _) chainSize

theorem Synced.openFile (hf : Synced f) (fresh : Bool) (chainSize : Nat) :
    Synced (f.vfatOpenFile fresh chainSize).1 := by
  unfold File.vfatOpenFile
  split_ifs
  · exact hf
  · have hentry := init_entry (f := f.newFcb) f.home.1 f.cached f.home.2 f.home.2 chainSize
    have hplace : slotOf f.home.2 = f.home.2 := by
      rw [← hf.bound.2]
      exact Nat.mod_mod _ _
    exact ⟨⟨rfl, hplace⟩, hentry.symm, hf.disk.trans (hf.cached.symm.trans hentry.symm)⟩
  · exact hf

theorem Synced.cleanup (hf : Synced f) (deletePending : Bool) :
    Synced (f.cleanup deletePending working).1 := by
  have hdisk : (f.vfatUpdateEntry working).onDisk = f.entry := hf.disk
  have hupdated : Synced (if f.dirty then f.vfatUpdateEntry working else f) := by
    split
    · exact ⟨hf.bound, cached_update hf.bound, hdisk⟩
    · exact hf
  unfold File.cleanup
  dsimp only
  split
  · exact hupdated
  · exact synced_flush hupdated.bound hupdated.cached

theorem Synced.of_some {r : File × Answer} {t : File} {answer : Answer} (h : Synced r.1)
    (hr : some r = some (t, answer)) : Synced t := by
  cases hr
  exact h

/-- One step keeps the FCB at the place of its entry and all three entries the same. -/
theorem Synced.step (hf : Synced f) {a : Act × Io} {t : File} (h : Step f a t) : Synced t := by
  obtain ⟨act, io⟩ := a
  obtain ⟨hcareful, rfl, answer, happly⟩ := h
  cases act with
  | setInformation high size allocationOnly junk => exact setInformation_synced happly hcareful hf
  | write offset length copied date time junk =>
    obtain rfl : copied = true := hcareful
    exact hf.write happly
  | create g directory attributes => exact Synced.create happly
  | overwrite supersede attributes date time junk => exact hf.overwrite happly hcareful
  | openFile fresh chainSize => exact (hf.openFile fresh chainSize).of_some happly
  | rename path name memory junk chainSize => exact (hf.rename hcareful).of_some happly
  | move g chainSize => exact (Synced.move hcareful).of_some happly
  | cleanup deletePending => exact (hf.cleanup deletePending).of_some happly

end Requests

/-- In every run of careful requests whose directory reads and writes succeed, the entry
on the disk is that of the FCB. -/
theorem writeThrough_durable {s f : File} (hs : Synced s) (hrun : Reachable (· = s) Step f) :
    Durable f := by
  have hsynced : Synced f := by
    refine Reachable.invariant (P := Synced) ?_ ?_ hrun
    · rintro _ rfl
      exact hs
    · rintro u a t hu hstep
      exact hu.step hstep
  exact hsynced.disk

/-! ## A file of one cluster -/

/-- A directory with the entry of the file. -/
def smallDirectory : Directory :=
  emptyDirectory.setSlot 0 ⟨1, 0, 0x61 :: List.replicate 41 0xff, rfl, 32, 8192,
    0, 0, 0, 0, 0, 0⟩

/-- The file of the small volume, with its entry. -/
def smallEntry : File where
  device := smallVolume.device
  fcb := smallFile
  rest := smallDirectory.slot 0
  longName := [0x61]
  parent := 0
  startIndex := 0
  dirIndex := 0
  dirty := false
  dirs := fun _ => smallDirectory
  disk := fun _ => smallDirectory
  home := (0, 0)

theorem smallEntry_synced : Synced smallEntry := ⟨⟨rfl, rfl⟩, rfl, rfl⟩

/-- Its new name. -/
def letterB : UnicodeString := ⟨[0x62], by decide⟩

/-- It is renamed, and the stack holds its index. -/
def renamedEntry : File :=
  (smallEntry.rename rootParent letterB true (0, 0) 0 working).1

theorem writeThrough_durable_grow : Synced smallEntry ∧
    Step smallEntry (.rename rootParent letterB true (0, 0) 0, working)
      renamedEntry ∧
    ∃ t, Step renamedEntry (.setInformation 0 10000 false 0, working) t ∧ Durable t := by
  have hrenamed : Step smallEntry
      (.rename rootParent letterB true (0, 0) 0, working) renamedEntry :=
    ⟨Or.inr ⟨by decide, rfl⟩, rfl, .success, rfl⟩
  have hcareful : (Act.setInformation 0 10000 false 0).Careful renamedEntry :=
    Or.inr (Or.inr (Or.inl (by decide)))
  obtain ⟨t, answer, ht⟩ : ∃ t answer, renamedEntry.apply working
    (.setInformation 0 10000 false 0) = some (t, answer) := ⟨_, _, rfl⟩
  have hgrown : Step renamedEntry (.setInformation 0 10000 false 0, working) t :=
    ⟨hcareful, rfl, answer, ht⟩
  exact ⟨smallEntry_synced, hrenamed, t, hgrown, writeThrough_durable smallEntry_synced
    (.next _ (.next _ (.start rfl) hrenamed) hgrown)⟩

/-- The end of the file is set to another place in its only cluster: the request succeeds
and the old size is still on the disk. -/
theorem writeThrough_stale : Synced smallEntry ∧
    ∃ t, smallEntry.apply working (.setInformation 0 100 false 0) = some (t, .success) ∧
      t.entry.fileSize = 100 ∧ t.onDisk.fileSize = 8192 ∧ ¬Durable t := by
  refine ⟨smallEntry_synced, _, rfl, rfl, rfl, ?_⟩
  intro hdurable
  exact absurd (congrArg DirEntry.fileSize hdurable) (by decide)

end Roswell.Ports.WriteThrough
