import Roswell.Ports.FatxFcb

/-!
# Renaming a file

Model of `VfatSetRenameInformation`, from the names it has put together on:
`vfatPrepareTargetForRename`, which deletes a target that may be replaced, and
then `vfatRenameEntry` in the directory of the file or `VfatMoveEntry` to another
one.  A `Request` holds what the call is given and finds: the names, what the
lookup of the target returned, and how the cache and the allocator answer.

A call that fails has often written already: the target is deleted before the
file is renamed, the old entry before the new one is made, and an entry renamed
in place is rewritten before its full name is tried.
-/

namespace Roswell.Ports.FatxRename

open FatxDir FatxNames FatxDirWrite FatxFcb Function Directory

/-- The FCB of an existing target. -/
structure Target where
  startIndex : Nat
  isDirectory : Bool
  isReadOnly : Bool
  /-- Its file object has an image section that cannot be flushed. -/
  imageMapped : Bool
  openHandleCount : Nat
  deriving DecidableEq, Repr

/-- What `vfatGetFCBForFile` finds under the new name: an FCB, a directory without
that name, or no directory. -/
inductive Lookup where
  | found (t : Target)
  | notFound
  | failed (status : Status) (h : status ≠ .success)

structure Request where
  caseTable : UInt16 → UInt16
  isRoot : Bool
  /-- The outcome of putting the new name together. -/
  naming : Status
  sourcePath : List UInt16
  sourceFile : List UInt16
  newPath : List UInt16
  newFile : UnicodeString
  /-- A title passes ANSI strings. -/
  representable : Representable newFile.chars
  /-- The FCB is a directory with an open child. -/
  childOpened : Bool
  replaceIfExists : Bool
  dir : Nat
  startIndex : Nat
  isDirectory : Bool
  attributes : UInt8
  /-- The directory the new path leads to, if it is another one. -/
  newDir : Nat
  /-- The path of the directory that receives the entry. -/
  parent : Parent
  lookup : Lookup
  /-- The blocks of the target's entry and of the file's entry can be pinned, for
  a deletion and for a rename in place. -/
  delTarget : Bool
  delSource : Bool
  pin : Bool
  addIo : DirIo
  memory : Bool
  date : UInt16
  time : UInt16

def isDotOrDotDot (name : List UInt16) : Bool := name == [0x2e] || name == [0x2e, 0x2e]

namespace Request

/-- The new path is that of the file. -/
def inPlace (r : Request) : Bool := rtlEqualUnicodeString r.caseTable r.sourcePath r.newPath

def caseChangeOnly (r : Request) : Bool :=
  rtlEqualUnicodeString r.caseTable r.sourceFile r.newFile.chars

/-- The directory the new name belongs to. -/
def targetDir (r : Request) : Nat := if r.inPlace then r.dir else r.newDir

/-- `vfatPrepareTargetForRename`.  The status of the deletion is not looked at. -/
def prepare (r : Request) (d : Directory) : Status × Directory :=
  match r.lookup with
  | .found t =>
    if r.replaceIfExists then
      if t.isDirectory || t.isReadOnly then (.objectNameCollision, d)
      else if t.imageMapped then (.accessDenied, d)
      else if t.openHandleCount ≠ 0 then (.accessDenied, d)
      else (.success, (fatxDelEntry d t.startIndex r.delTarget).2)
    else (.objectNameCollision, d)
  | .notFound => (.success, d)
  | .failed status _ => (status, d)

/-- `vfatRenameEntry` in the directory of the file. -/
def rename (r : Request) (s : Nat → Directory) : Status × (Nat → Directory) :=
  match vfatRenameEntry (s r.dir) r.parent r.startIndex r.newFile r.pin r.memory with
  | (status, d) => (status, update s r.dir d)

/-- `VfatMoveEntry`. -/
def move (r : Request) (s : Nat → Directory) : Status × (Nat → Directory) :=
  match fatxDelEntry (s r.dir) r.startIndex r.delSource with
  | (.error status, d) => (status, update s r.dir d)
  | (.ok kept, d) =>
    let s := update s r.dir d
    match fatxAddEntry (s r.newDir) r.addIo r.newFile r.isDirectory r.attributes (some kept)
      r.date r.time with
    | (.error status, d) => (status, update s r.newDir d)
    | (.ok _, d) => (.success, update s r.newDir d)

/-- The target is prepared in a directory, and the rest follows if that succeeds. -/
def prepareIn (r : Request) (s : Nat → Directory) (dir : Nat)
    (rest : (Nat → Directory) → Status × (Nat → Directory)) : Status × (Nat → Directory) :=
  match r.prepare (s dir) with
  | (.success, d) => rest (update s dir d)
  | (status, d) => (status, update s dir d)

end Request

def vfatSetRenameInformation (s : Nat → Directory) (r : Request) : Status × (Nat → Directory) :=
  if r.isRoot then (.invalidParameter, s)
  else if r.naming ≠ .success then (r.naming, s)
  else if isDotOrDotDot r.newFile.chars then (.objectNameInvalid, s)
  else if r.childOpened then (.accessDenied, s)
  else if r.inPlace then
    if r.sourceFile = r.newFile.chars then (.success, s)
    else if r.caseChangeOnly then r.rename s
    else r.prepareIn s r.dir r.rename
  else r.prepareIn s r.newDir r.move

/-! ## What a failure may not change -/

/-- A file is found at an entry under a name, with its data: the first cluster and
the size.  Where `FATXDelEntry` frees the chain, it has marked the entry. -/
structure FoundAt (caseTable : UInt16 → UInt16) (d : Directory) (name : List UInt16) (i : Nat)
    (data : UInt32 × UInt32) : Prop where
  live : i ∈ d.live
  named : ∀ overrun, isNamed caseTable name (d.slot i) overrun = true
  data : ((d.slot i).firstCluster, (d.slot i).fileSize) = data

/-- The file is found under its old name, and every target under the new one that
was found before still is. -/
def Request.Intact (r : Request) (s t : Nat → Directory) (data : UInt32 × UInt32) : Prop :=
  FoundAt r.caseTable (t r.dir) r.sourceFile r.startIndex data ∧
    ∀ j data', FoundAt r.caseTable (s r.targetDir) r.newFile.chars j data' →
      FoundAt r.caseTable (t r.targetDir) r.newFile.chars j data'

/-- The call is refused before it looks at the target. -/
def Request.Refused (r : Request) : Prop :=
  r.isRoot = true ∨ r.naming ≠ .success ∨ isDotOrDotDot r.newFile.chars = true ∨
    r.childOpened = true

/-- A target that may be replaced. -/
def Target.replaceable (t : Target) : Bool :=
  !t.isDirectory && !t.isReadOnly && !t.imageMapped && t.openHandleCount == 0

/-- The way is free: there is no target, or one that may be replaced. -/
def Request.Passes (r : Request) : Prop :=
  match r.lookup with
  | .found t => r.replaceIfExists = true ∧ t.replaceable = true
  | .notFound => True
  | .failed _ _ => False

/-- The target is deleted. -/
def Request.Replaces (r : Request) : Prop :=
  match r.lookup with
  | .found t => r.replaceIfExists = true ∧ t.replaceable = true ∧ r.delTarget = true
  | _ => False

/-- Nothing has been written that a failure would have to undo. -/
def Request.Harmless (r : Request) (s : Nat → Directory) : Prop :=
  r.Refused ∨ (r.inPlace = true ∧ r.caseChangeOnly = true) ∨ ¬r.Passes ∨
    (¬r.Replaces ∧
      if r.inPlace then
        r.pin = false ∨ 42 ≤ r.newFile.chars.length ∧
          r.newFile.chars.length % 256 = ((s r.dir).slot r.startIndex).filenameLength.toNat
      else r.delSource = false)

section Found

variable {caseTable : UInt16 → UInt16} {d d' : Directory} {name : List UInt16} {i j : Nat}
  {data : UInt32 × UInt32} {e : DirEntry}

theorem FoundAt.lt (h : FoundAt caseTable d name i data) : i < d.count :=
  (mem_live.1 h.live).1

theorem FoundAt.length (h : FoundAt caseTable d name i data) :
    name.length = (d.slot i).filenameLength.toNat := by
  have hnamed := h.named fun _ => 0
  unfold isNamed at hnamed
  simp only [Bool.and_eq_true] at hnamed
  rw [rtlEqualUnicodeString_length hnamed.2, longName_length]

theorem FoundAt.setSlot_of_ne (h : FoundAt caseTable d name j data) (hji : j ≠ i)
    (he : e.isEnd = false) : FoundAt caseTable (d.setSlot i e) name j data := by
  have hslot := setSlot_slot_of_ne d e hji
  refine ⟨mem_live_setSlot he (fun hj => absurd hj hji) h.live, ?_, ?_⟩
  · rw [hslot]
    exact h.named
  · rw [hslot]
    exact h.data

/-- An entry that is deleted or marks the end. -/
def Dead (d : Directory) (i : Nat) : Prop :=
  (d.slot i).isDeleted = true ∨ (d.slot i).isEnd = true

theorem Dead.not_found (h : Dead d i) : ¬FoundAt caseTable d name i data := by
  intro hfound
  obtain ⟨-, hdel, hend⟩ := mem_live.1 hfound.live
  rcases h with h | h
  · rw [hdel] at h
    exact absurd h nofun
  · rw [hend i (Nat.le_refl _)] at h
    exact absurd h nofun

theorem Dead.of_slot (h : Dead d i) (hslot : d'.slot i = d.slot i ∨ d'.slot i = blankEntry) :
    Dead d' i := by
  rcases hslot with hslot | hslot
  · unfold Dead
    rw [hslot]
    exact h
  · refine Or.inr ?_
    rw [hslot]
    rfl

/-- An entry marked by `FATXDelEntry`. -/
theorem dead_deleted (d : Directory) (i : Nat) (e : DirEntry) :
    Dead (d.setSlot i { e with filenameLength := 0xe5 }) i := by
  refine Or.inl ?_
  rw [setSlot_slot_self]
  rfl

/-- Marking another entry does not bring one back. -/
theorem Dead.setSlot_deleted (h : Dead d i) (j : Nat) (e : DirEntry) :
    Dead (d.setSlot j { e with filenameLength := 0xe5 }) i := by
  by_cases hij : i = j
  · rw [hij]
    exact dead_deleted d j e
  · exact h.of_slot (Or.inl (setSlot_slot_of_ne d _ hij))

/-- Looking for room changes no entry except into an end marker. -/
theorem vfatFindDirSpace_slot (d : Directory) (io : DirIo) (hi : i < d.count) :
    (vfatFindDirSpace d io).2.slot i = d.slot i ∨
      (vfatFindDirSpace d io).2.slot i = blankEntry := by
  unfold vfatFindDirSpace
  split
  · exact Or.inl rfl
  split
  · exact Or.inl rfl
  split
  · split
    · exact Or.inl rfl
    · split
      · exact Or.inl rfl
      · rename_i hext
        exact Or.inl ((extend_spec hext).2.1 i hi)
  · rename_i start _ _
    split
    · split
      · by_cases hnext : i = start + 1
        · refine Or.inr ?_
          rw [hnext]
          exact setSlot_slot_self ..
        · exact Or.inl (setSlot_slot_of_ne d blankEntry hnext)
      · exact Or.inl rfl
    · exact Or.inl rfl

/-- So does a `FATXAddEntry` that fails. -/
theorem fatxAddEntry_error_slot {io : DirIo} {nameU : UnicodeString} {isDirectory : Bool}
    {reqAttr : UInt8} {move : Option MoveContext} {date time : UInt16} {status : Status}
    (h : fatxAddEntry d io nameU isDirectory reqAttr move date time = (.error status, d'))
    (hi : i < d.count) : d'.slot i = d.slot i ∨ d'.slot i = blankEntry := by
  have hspace := vfatFindDirSpace_slot d io hi
  unfold fatxAddEntry at h
  split at h
  · obtain rfl := (Prod.mk.inj h).2
    exact Or.inl rfl
  split at h
  · rename_i d₁ heq
    obtain rfl := (Prod.mk.inj h).2
    rw [heq] at hspace
    exact hspace
  · rename_i index d₁ heq
    rw [heq] at hspace
    split at h
    · obtain rfl := (Prod.mk.inj h).2
      exact hspace
    · exact absurd (Prod.mk.inj h).1 nofun

/-- Names equal to one name are equal. -/
theorem rtlEqualUnicodeString_of_common {s t u : List UInt16}
    (hs : rtlEqualUnicodeString caseTable s u = true)
    (ht : rtlEqualUnicodeString caseTable t u = true) :
    rtlEqualUnicodeString caseTable s t = true := by
  unfold rtlEqualUnicodeString at hs ht ⊢
  simp only [Bool.and_eq_true, beq_iff_eq] at hs ht ⊢
  exact ⟨hs.1.trans ht.1.symm, hs.2.trans ht.2.symm⟩

theorem isNamed_equal {overrun : Nat → UInt8} (h : isNamed caseTable name e overrun = true) :
    rtlEqualUnicodeString caseTable name (longName e overrun) = true := by
  unfold isNamed at h
  simp only [Bool.and_eq_true] at h
  exact h.2

/-- An entry has one name. -/
theorem FoundAt.equal {name' : List UInt16} {data' : UInt32 × UInt32}
    (h : FoundAt caseTable d name i data) (h' : FoundAt caseTable d name' i data') :
    rtlEqualUnicodeString caseTable name name' = true :=
  rtlEqualUnicodeString_of_common (isNamed_equal (h.named fun _ => 0))
    (isNamed_equal (h'.named fun _ => 0))

/-- A long name whose length is that of the entry modulo 256 changes nothing. -/
theorem storeName_eq_self {nameU : UnicodeString} (hlong : 42 ≤ nameU.chars.length)
    (hmod : nameU.chars.length % 256 = e.filenameLength.toNat) : storeName e nameU = e := by
  have hlength : nameU.chars.length.toUInt8 = e.filenameLength := by
    apply UInt8.toNat_inj.1
    rw [← hmod]
    simp
  have hsame : rtlUnicodeStringToOemString ⟨0, 42, e.filename⟩ nameU =
      ⟨nameU.chars.length, 42, e.filename⟩ := oemString_of_no_room hlong
  unfold storeName
  simp only [hsame, hlength]

theorem setSlot_slot (d : Directory) (i : Nat) : d.setSlot i (d.slot i) = d := by
  unfold setSlot
  simp

end Found

/-! ## The target -/

section Prepare

variable {r : Request} {s : Nat → Directory} {d : Directory}

theorem prepare_refuses (h : ¬r.Passes) : (r.prepare d).1 ≠ .success ∧ (r.prepare d).2 = d := by
  unfold Request.Passes at h
  unfold Request.prepare
  cases hlookup : r.lookup with
  | found t =>
    rw [hlookup] at h
    dsimp only at h ⊢
    by_cases hreplace : r.replaceIfExists = true
    · have hnot : t.replaceable ≠ true := fun ht => h ⟨hreplace, ht⟩
      unfold Target.replaceable at hnot
      simp only [ne_eq, Bool.and_eq_true, Bool.not_eq_true', beq_iff_eq] at hnot
      rw [if_pos hreplace]
      split
      · exact ⟨nofun, rfl⟩
      rename_i hkind
      simp only [Bool.or_eq_true, not_or, Bool.not_eq_true] at hkind
      split
      · exact ⟨nofun, rfl⟩
      · rename_i himage
        rw [Bool.not_eq_true] at himage
        split
        · exact ⟨nofun, rfl⟩
        · rename_i hopen
          exact absurd ⟨⟨⟨hkind.1, hkind.2⟩, himage⟩, not_not.1 hopen⟩ hnot
    · rw [if_neg hreplace]
      exact ⟨nofun, rfl⟩
  | notFound =>
    rw [hlookup] at h
    exact absurd trivial h
  | failed status hstatus => exact ⟨hstatus, rfl⟩

theorem prepare_passes (h : r.Passes) : (r.prepare d).1 = .success ∧
    (¬r.Replaces → (r.prepare d).2 = d) ∧
    (r.Replaces → ∃ t, r.lookup = .found t ∧
      (r.prepare d).2 = d.setSlot (slotOf t.startIndex)
        { d.slot (slotOf t.startIndex) with filenameLength := 0xe5 }) := by
  unfold Request.Passes at h
  unfold Request.Replaces Request.prepare
  cases hlookup : r.lookup with
  | found t =>
    rw [hlookup] at h
    obtain ⟨hreplace, ht⟩ := h
    have hfree := ht
    unfold Target.replaceable at hfree
    simp only [Bool.and_eq_true, Bool.not_eq_true', beq_iff_eq] at hfree
    obtain ⟨⟨⟨h1, h2⟩, h3⟩, h4⟩ := hfree
    have hprepare : (if r.replaceIfExists = true then
        if (t.isDirectory || t.isReadOnly) = true then (Status.objectNameCollision, d)
        else if t.imageMapped = true then (.accessDenied, d)
        else if t.openHandleCount ≠ 0 then (.accessDenied, d)
        else (.success, (fatxDelEntry d t.startIndex r.delTarget).2)
      else (.objectNameCollision, d)) =
        (.success, (fatxDelEntry d t.startIndex r.delTarget).2) := by
      simp [hreplace, h1, h2, h3, h4]
    dsimp only
    rw [hprepare]
    refine ⟨rfl, ?_, ?_⟩
    · intro hkept
      have hpin : r.delTarget = false := by
        rw [← Bool.not_eq_true]
        exact fun hpin => hkept ⟨hreplace, ht, hpin⟩
      rw [hpin]
      rfl
    · rintro ⟨-, -, hpin⟩
      rw [hpin]
      exact ⟨t, rfl, rfl⟩
  | notFound => exact ⟨rfl, fun _ => rfl, nofun⟩
  | failed status hstatus =>
    rw [hlookup] at h
    exact absurd h id

/-- Without a way, nothing is written. -/
theorem prepareIn_refuses (h : ¬r.Passes) (dir : Nat)
    (rest : (Nat → Directory) → Status × (Nat → Directory)) :
    (r.prepareIn s dir rest).2 = s := by
  obtain ⟨hstatus, hd⟩ := prepare_refuses h
  unfold Request.prepareIn
  split
  · rename_i heq
    rw [heq] at hstatus
    exact absurd rfl hstatus
  · rename_i d' _ heq
    rw [heq] at hd
    obtain rfl : d' = s dir := hd
    exact update_eq_self dir s

theorem prepareIn_passes (h : r.Passes) (dir : Nat)
    (rest : (Nat → Directory) → Status × (Nat → Directory)) :
    r.prepareIn s dir rest = rest (update s dir (r.prepare (s dir)).2) := by
  obtain ⟨hstatus, -⟩ := prepare_passes h
  have hprepare : r.prepare (s dir) = (.success, (r.prepare (s dir)).2) := Prod.ext hstatus rfl
  unfold Request.prepareIn
  rw [hprepare]

end Prepare

/-! ## In place -/

section InPlace

variable {r : Request} {s : Nat → Directory} {data : UInt32 × UInt32}

theorem intact_self (hsrc : FoundAt r.caseTable (s r.dir) r.sourceFile r.startIndex data) :
    r.Intact s s data :=
  ⟨hsrc, fun _ _ h => h⟩

theorem rename_unpinned (hpin : r.pin = false) : (r.rename s).2 = s := by
  unfold Request.rename vfatRenameEntry
  rw [hpin]
  exact update_eq_self r.dir s

theorem rename_pinned (hpin : r.pin = true) (hi : r.startIndex < (s r.dir).count) :
    (r.rename s).2 = update s r.dir ((s r.dir).setSlot r.startIndex
      (storeName ((s r.dir).slot r.startIndex) r.newFile)) := by
  unfold Request.rename vfatRenameEntry
  rw [hpin, slotOf_of_lt hi]
  rfl

/-- A long name that keeps the length byte leaves the volume as it was. -/
theorem rename_long (hpin : r.pin = true) (hi : r.startIndex < (s r.dir).count)
    (hlong : 42 ≤ r.newFile.chars.length)
    (hmod : r.newFile.chars.length % 256 =
      ((s r.dir).slot r.startIndex).filenameLength.toNat) : (r.rename s).2 = s := by
  rw [rename_pinned hpin hi, storeName_eq_self hlong hmod, setSlot_slot]
  exact update_eq_self r.dir s

/-- A renamed entry is found under every name equal to the one it got. -/
theorem FoundAt.renamed {caseTable : UInt16 → UInt16} {d : Directory} {name name' : List UInt16}
    {i : Nat} {nameU : UnicodeString} (h : FoundAt caseTable d name i data)
    (hpos : 0 < nameU.chars.length) (hle : nameU.chars.length ≤ 41)
    (hrep : Representable nameU.chars)
    (heq : rtlEqualUnicodeString caseTable name' nameU.chars = true) :
    FoundAt caseTable (d.setSlot i (storeName (d.slot i) nameU)) name' i data := by
  obtain ⟨hnotEnd, hnotDel⟩ := storeName_not_marker
    (show nameU.chars.length ≤ 42 by omega)
  refine ⟨mem_live_setSlot hnotEnd (fun _ => hnotDel) h.live, ?_, ?_⟩
  · intro overrun
    have hvolume := h.named overrun
    unfold isNamed at hvolume ⊢
    simp only [Bool.and_eq_true] at hvolume ⊢
    rw [setSlot_slot_self, longName_storeName_short (by omega) hrep]
    refine ⟨⟨hvolume.1.1, ?_⟩, heq⟩
    cases hchars : nameU.chars with
    | nil =>
      rw [hchars] at hpos
      exact absurd hpos (Nat.lt_irrefl 0)
    | cons c rest => rfl
  · rw [setSlot_slot_self]
    exact h.data

/-- A change of case alone never loses the file. -/
theorem case_change_intact
    (hsrc : FoundAt r.caseTable (s r.dir) r.sourceFile r.startIndex data)
    (hin : r.inPlace = true) (hcase : r.caseChangeOnly = true) :
    r.Intact s (r.rename s).2 data := by
  cases hpin : r.pin with
  | false =>
    rw [rename_unpinned hpin]
    exact intact_self hsrc
  | true =>
    have hlength : r.newFile.chars.length =
        ((s r.dir).slot r.startIndex).filenameLength.toNat := by
      rw [← rtlEqualUnicodeString_length hcase]
      exact hsrc.length
    have hlt : ((s r.dir).slot r.startIndex).filenameLength.toNat < 256 := UInt8.toNat_lt _
    by_cases hlong : 42 ≤ r.newFile.chars.length
    · rw [rename_long hpin hsrc.lt hlong (by omega)]
      exact intact_self hsrc
    have hpos : 0 < r.newFile.chars.length := by
      rw [hlength, ← longName_length _ fun _ => 0]
      have hnamed := hsrc.named fun _ => 0
      unfold isNamed at hnamed
      simp only [Bool.and_eq_true, Bool.not_eq_true', List.isEmpty_eq_false_iff] at hnamed
      exact List.length_pos_of_ne_nil hnamed.1.2
    unfold Request.Intact Request.targetDir
    rw [rename_pinned hpin hsrc.lt, if_pos hin, update_self]
    refine ⟨hsrc.renamed hpos (by omega) r.representable hcase, ?_⟩
    intro j data' hj
    by_cases hji : j = r.startIndex
    · rw [hji] at hj ⊢
      exact hj.renamed hpos (by omega) r.representable (rtlEqualUnicodeString_self _ _)
    · exact hj.setSlot_of_ne hji (storeName_not_marker (by omega)).1

/-- A rename in place past its target. -/
theorem in_place_intact_iff
    (hsrc : FoundAt r.caseTable (s r.dir) r.sourceFile r.startIndex data)
    (htarget : ∀ t, r.lookup = .found t →
      ∃ data', FoundAt r.caseTable (s r.targetDir) r.newFile.chars t.startIndex data')
    (hin : r.inPlace = true) (hcase : r.caseChangeOnly = false) (hpass : r.Passes) :
    r.Intact s (r.prepareIn s r.dir r.rename).2 data ↔ ¬r.Replaces ∧
      (r.pin = false ∨ 42 ≤ r.newFile.chars.length ∧
        r.newFile.chars.length % 256 =
          ((s r.dir).slot r.startIndex).filenameLength.toNat) := by
  have hdir : r.targetDir = r.dir := if_pos hin
  rw [prepareIn_passes hpass]
  obtain ⟨-, hkept, hgone⟩ := prepare_passes hpass
  by_cases hreplaces : r.Replaces
  · -- the target is deleted, and a rename does not bring it back
    refine iff_of_false ?_ (fun h => h.1 hreplaces)
    obtain ⟨t, hlookup, hprepare⟩ := hgone hreplaces
    obtain ⟨data', ht⟩ := htarget t hlookup
    rintro ⟨-, hall⟩
    have hfound := hall t.startIndex data' ht
    rw [hdir] at ht hfound
    rw [slotOf_of_lt ht.lt] at hprepare
    have hne : t.startIndex ≠ r.startIndex := by
      intro heq
      rw [heq] at ht
      have hequal := hsrc.equal ht
      unfold Request.caseChangeOnly at hcase
      rw [hequal] at hcase
      exact absurd hcase nofun
    refine absurd hfound (Dead.not_found ?_)
    cases hpin : r.pin with
    | false =>
      rw [rename_unpinned hpin, update_self, hprepare]
      exact dead_deleted _ _ _
    | true =>
      rw [rename_pinned hpin (by rw [update_self, hprepare]; exact hsrc.lt),
        update_self, update_self, hprepare]
      exact (dead_deleted _ _ _).of_slot (Or.inl (setSlot_slot_of_ne _ _ hne))
  · rw [hkept hreplaces, update_eq_self]
    refine Iff.trans ?_ (and_iff_right hreplaces).symm
    cases hpin : r.pin with
    | false =>
      rw [rename_unpinned hpin]
      exact iff_of_true (intact_self hsrc) (Or.inl rfl)
    | true =>
      constructor
      · rintro ⟨hfound, -⟩
        refine Or.inr ?_
        rw [rename_pinned hpin hsrc.lt, update_self] at hfound
        have hlength := hfound.length
        rw [setSlot_slot_self, filenameLength_toNat] at hlength
        refine ⟨?_, hlength.symm.trans hsrc.length⟩
        by_contra hshort
        -- a short name is stored, and it is another one
        have hequal := isNamed_equal (hfound.named fun _ => 0)
        rw [setSlot_slot_self,
          longName_storeName_short (by omega) r.representable] at hequal
        unfold Request.caseChangeOnly at hcase
        rw [hequal] at hcase
        exact absurd hcase nofun
      · rintro (h | ⟨hlong, hmod⟩)
        · exact absurd h nofun
        · rw [rename_long hpin hsrc.lt hlong hmod]
          exact intact_self hsrc

end InPlace

/-! ## To another directory -/

section Move

variable {r : Request} {s : Nat → Directory} {data : UInt32 × UInt32}

theorem move_unpinned (hpin : r.delSource = false) : (r.move s).2 = s := by
  unfold Request.move fatxDelEntry
  rw [hpin]
  exact update_eq_self r.dir s

/-- A move that fails brings no entry back. -/
theorem move_dead (hfail : (r.move s).1 ≠ .success) {dir i : Nat} (hi : i < (s dir).count)
    (hdead : Dead (s dir) i ∨
      (dir = r.dir ∧ i = slotOf r.startIndex ∧ r.delSource = true)) :
    Dead ((r.move s).2 dir) i := by
  cases hpin : r.delSource with
  | false =>
    rw [move_unpinned hpin]
    rcases hdead with h | ⟨-, -, h⟩
    · exact h
    · rw [hpin] at h
      exact absurd h nofun
  | true =>
    unfold Request.move fatxDelEntry at hfail ⊢
    rw [hpin] at hfail ⊢
    simp only [Bool.not_true, Bool.false_eq_true, if_false] at hfail ⊢
    obtain ⟨e, he⟩ : ∃ e, (s r.dir).slot (slotOf r.startIndex) = e := ⟨_, rfl⟩
    rw [he] at hfail ⊢
    obtain ⟨s₁, hs₁⟩ : ∃ s₁, update s r.dir ((s r.dir).setSlot (slotOf r.startIndex)
        { e with filenameLength := 0xe5 }) = s₁ := ⟨_, rfl⟩
    rw [hs₁] at hfail ⊢
    -- the old entry is marked, and every other dead entry stays so
    have hdead₁ : Dead (s₁ dir) i ∧ i < (s₁ dir).count := by
      rw [← hs₁]
      by_cases hdir : dir = r.dir
      · subst hdir
        rw [update_self]
        refine ⟨?_, hi⟩
        rcases hdead with h | ⟨-, h, -⟩
        · exact h.setSlot_deleted _ _
        · rw [h]
          exact dead_deleted _ _ _
      · rw [update_of_ne hdir]
        refine ⟨?_, hi⟩
        rcases hdead with h | ⟨h, -⟩
        · exact h
        · exact absurd h hdir
    split at hfail
    · rename_i status d' hadd
      dsimp only
      by_cases hdir : dir = r.newDir
      · subst hdir
        rw [update_self]
        exact hdead₁.1.of_slot (fatxAddEntry_error_slot hadd hdead₁.2)
      · rw [update_of_ne hdir]
        exact hdead₁.1
    · exact absurd rfl hfail

/-- A move past its target that fails. -/
theorem move_intact_iff
    (hsrc : FoundAt r.caseTable (s r.dir) r.sourceFile r.startIndex data)
    (htarget : ∀ t, r.lookup = .found t →
      ∃ data', FoundAt r.caseTable (s r.targetDir) r.newFile.chars t.startIndex data')
    (hin : r.inPlace = false) (hpass : r.Passes)
    (hfail : (r.prepareIn s r.newDir r.move).1 ≠ .success) :
    r.Intact s (r.prepareIn s r.newDir r.move).2 data ↔
      ¬r.Replaces ∧ r.delSource = false := by
  have hdir : r.targetDir = r.newDir := if_neg (by rw [hin]; exact nofun)
  rw [prepareIn_passes hpass] at hfail ⊢
  obtain ⟨-, hkept, hgone⟩ := prepare_passes hpass
  by_cases hreplaces : r.Replaces
  · refine iff_of_false ?_ (fun h => h.1 hreplaces)
    obtain ⟨t, hlookup, hprepare⟩ := hgone hreplaces
    obtain ⟨data', ht⟩ := htarget t hlookup
    rintro ⟨-, hall⟩
    have hfound := hall t.startIndex data' ht
    rw [hdir] at ht hfound
    rw [slotOf_of_lt ht.lt] at hprepare
    refine absurd hfound (Dead.not_found (move_dead hfail ?_ (Or.inl ?_)))
    · rw [update_self, hprepare]
      exact ht.lt
    · rw [update_self, hprepare]
      exact dead_deleted _ _ _
  · rw [hkept hreplaces, update_eq_self] at hfail ⊢
    refine Iff.trans ?_ (and_iff_right hreplaces).symm
    cases hpin : r.delSource with
    | false =>
      rw [move_unpinned hpin]
      exact iff_of_true (intact_self hsrc) rfl
    | true =>
      refine iff_of_false ?_ nofun
      rintro ⟨hfound, -⟩
      refine absurd hfound (Dead.not_found (move_dead hfail hsrc.lt (Or.inr ⟨rfl, ?_, hpin⟩)))
      exact (slotOf_of_lt hsrc.lt).symm

end Move

/-- A call that fails leaves the file and the target where they were, exactly if
it was refused, changes the case of a name alone, was stopped at the target, or
failed before its first write. -/
theorem failed_rename_intact_iff {r : Request} {s : Nat → Directory} {data : UInt32 × UInt32}
    (hsrc : FoundAt r.caseTable (s r.dir) r.sourceFile r.startIndex data)
    (htarget : ∀ t, r.lookup = .found t →
      ∃ data', FoundAt r.caseTable (s r.targetDir) r.newFile.chars t.startIndex data')
    (hfail : (vfatSetRenameInformation s r).1 ≠ .success) :
    r.Intact s (vfatSetRenameInformation s r).2 data ↔ r.Harmless s := by
  unfold Request.Harmless
  by_cases hrefused : r.Refused
  · refine iff_of_true ?_ (Or.inl hrefused)
    have hsame : (vfatSetRenameInformation s r).2 = s := by
      unfold vfatSetRenameInformation
      split
      · rfl
      rename_i h1
      split
      · rfl
      rename_i h2
      split
      · rfl
      rename_i h3
      split
      · rfl
      · rename_i h4
        rcases hrefused with h | h | h | h
        · exact absurd h h1
        · exact absurd h h2
        · exact absurd h h3
        · exact absurd h h4
    rw [hsame]
    exact intact_self hsrc
  · have hgo : vfatSetRenameInformation s r =
        if r.inPlace then
          if r.sourceFile = r.newFile.chars then (.success, s)
          else if r.caseChangeOnly then r.rename s
          else r.prepareIn s r.dir r.rename
        else r.prepareIn s r.newDir r.move := by
      unfold Request.Refused at hrefused
      simp only [not_or] at hrefused
      obtain ⟨h1, h2, h3, h4⟩ := hrefused
      unfold vfatSetRenameInformation
      rw [if_neg h1, if_neg h2, if_neg h3, if_neg h4]
    rw [hgo] at hfail ⊢
    rw [or_iff_right hrefused]
    by_cases hin : r.inPlace = true
    · rw [if_pos hin] at hfail ⊢
      by_cases hsame : r.sourceFile = r.newFile.chars
      · rw [if_pos hsame] at hfail
        exact absurd rfl hfail
      split_ifs with hcase
      · exact iff_of_true (case_change_intact hsrc hin hcase) (Or.inl ⟨hin, hcase⟩)
      · rw [or_iff_right fun h => hcase h.2]
        by_cases hpass : r.Passes
        · rw [in_place_intact_iff hsrc htarget hin (by simpa using hcase) hpass,
            or_iff_right (show ¬¬r.Passes from fun h => h hpass)]
        · rw [prepareIn_refuses hpass]
          exact iff_of_true (intact_self hsrc) (Or.inl hpass)
    · rw [if_neg hin] at hfail ⊢
      rw [if_neg hin, or_iff_right fun h => hin h.1]
      by_cases hpass : r.Passes
      · rw [move_intact_iff hsrc htarget (by simpa using hin) hpass hfail,
          or_iff_right (fun h => h hpass)]
      · rw [prepareIn_refuses hpass]
        exact iff_of_true (intact_self hsrc) (Or.inl hpass)

/-- A root directory with two files of one letter, and empty directories. -/
def sampleDirs (k : Nat) : Directory := if k = 0 then twoLetters else emptyDirectory

/-- The first of them is to get a name of so many letters, in the root directory
or in another one; nothing has the new name. -/
def lettersRequest (n : Nat) (h : n * 2 < 2 ^ 16) (inRoot pin : Bool) : Request where
  caseTable := fun _ => 0
  isRoot := false
  naming := .success
  sourcePath := [0x5c]
  sourceFile := [0x41]
  newPath := if inRoot then [0x5c] else [0x5c, 0x42, 0x5c]
  newFile := letters n h
  representable := by
    intro w hw
    rw [List.eq_of_mem_replicate hw]
    decide
  childOpened := false
  replaceIfExists := true
  dir := 0
  startIndex := 0
  isDirectory := false
  attributes := 0
  newDir := 1
  parent := rootParent
  lookup := .notFound
  delTarget := true
  delSource := true
  pin := pin
  addIo := quietIo
  memory := true
  date := 0
  time := 0

theorem failed_rename_intact_iff_unpinned :
    (vfatSetRenameInformation sampleDirs (lettersRequest 3 (by decide) true false)).1 =
        .ioError ∧
      (lettersRequest 3 (by decide) true false).Intact sampleDirs
        (vfatSetRenameInformation sampleDirs (lettersRequest 3 (by decide) true false)).2
        (0, 0) := by
  have hstatus : (vfatSetRenameInformation sampleDirs
      (lettersRequest 3 (by decide) true false)).1 = .ioError := by
    decide +kernel
  have hlive : (sampleDirs 0).live = [0, 1] := by decide +kernel
  have hnamed : isNamed (fun _ => 0) [0x41] ((sampleDirs 0).slot 0) (fun _ => 0) = true := by
    decide +kernel
  have hsrc : FoundAt (fun _ => 0) (sampleDirs 0) [0x41] 0 (0, 0) := by
    refine ⟨?_, ?_, rfl⟩
    · decide
    · intro overrun
      exact hnamed
  have hfail : (vfatSetRenameInformation sampleDirs
      (lettersRequest 3 (by decide) true false)).1 ≠ .success := by
    decide
  have hnone : ∀ t, (lettersRequest 3 (by decide) true false).lookup ≠ .found t := by
    intro t ht
    exact Lookup.noConfusion ht
  refine ⟨hstatus,
    (failed_rename_intact_iff hsrc (fun t ht => absurd ht (hnone t)) hfail).2 ?_⟩
  exact Or.inr (Or.inr (Or.inr ⟨id, Or.inl rfl⟩))

/-- A move under a name of 43 letters is refused, and the file is gone. -/
theorem long_name_loses_file :
    (sampleDirs 0).live = [0, 1] ∧
      (vfatSetRenameInformation sampleDirs (lettersRequest 43 (by decide) false true)).1 =
        .nameTooLong ∧
      ((vfatSetRenameInformation sampleDirs (lettersRequest 43 (by decide) false true)).2
        0).live = [1] := by
  exact ⟨by decide +kernel, by decide +kernel, by decide +kernel⟩

end Roswell.Ports.FatxRename
