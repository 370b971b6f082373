import Roswell.Verified.Runs
import Roswell.Ports.FatxDirWrite

/-!
# FCBs and the entries they stand for

An FCB knows its directory entry by index: `VfatUpdateEntry` and `FATXDelEntry`
write to `startIndex` of the parent directory without a second look.  The model
follows the index through the calls that set it.  `home` is not in the source:
it is where the entry of the file really is, and changes only where a routine
puts an entry on the disk.

`vfatRenameEntry` hands `vfatUpdateFCB` a directory context on the stack whose
two indexes it never sets, so an FCB renamed in place gets whatever the stack
held (`junk`).
-/

namespace Roswell.Ports.FatxFcb

open Verified.Runs FatxDir FatxNames FatxDirWrite Directory

/-- `VFATFCB`, with the place of the entry of its file. -/
structure Fcb where
  parent : Nat
  startIndex : Nat
  dirIndex : Nat
  entry : DirEntry
  home : Nat × Nat

/-- The directories of a volume, and its open FCBs. -/
structure Volume where
  dirs : Nat → Directory
  fcbs : Nat → Option Fcb

/-- What the calls that set attributes, times and sizes change in an entry. -/
structure Metadata where
  attrib : UInt8
  firstCluster : UInt32
  fileSize : UInt32
  updateTime : UInt16
  updateDate : UInt16
  creationTime : UInt16
  creationDate : UInt16
  accessTime : UInt16
  accessDate : UInt16

def Metadata.setIn (m : Metadata) (e : DirEntry) : DirEntry :=
  { e with
    attrib := m.attrib
    firstCluster := m.firstCluster
    fileSize := m.fileSize
    updateTime := m.updateTime
    updateDate := m.updateDate
    creationTime := m.creationTime
    creationDate := m.creationDate
    accessTime := m.accessTime
    accessDate := m.accessDate }

/-- The calls.  `parent` is the path of the directory that receives the entry. -/
inductive Act where
  | create (k dir : Nat) (parent : Parent) (io : DirIo) (name : UnicodeString)
      (isDirectory : Bool) (fileAttributes : UInt32) (date time : UInt16) (memory : Bool)
  | rename (k : Nat) (parent : Parent) (name : UnicodeString) (memory : Bool)
      (junk : Nat × Nat)
  | move (k dir : Nat) (parent : Parent) (io : DirIo) (name : UnicodeString)
      (date time : UInt16) (memory : Bool)
  | update (k : Nat) (m : Metadata)
  | delete (k : Nat)

/-- `vfatFCBIsDirectory`. -/
def Fcb.isDirectory (f : Fcb) : Bool := f.entry.attrib &&& 0x10 != 0

namespace Act

/-- `VfatAddEntry` for a new file.  Its FCB is made only if its full name can
be. -/
def applyCreate (v : Volume) (k dir : Nat) (parent : Parent) (io : DirIo) (name : UnicodeString)
    (isDirectory : Bool) (fileAttributes : UInt32) (date time : UInt16) (memory : Bool) :
    Option Volume :=
  match v.fcbs k, vfatCreateEntry (v.dirs dir) io name isDirectory fileAttributes date time with
  | none, (.ok index, d) =>
    some
      { dirs := Function.update v.dirs dir d
        fcbs :=
          if vfatMakeFullName parent name.chars memory = .success then
            Function.update v.fcbs k (some ⟨dir, index, index, d.slot index, (dir, index)⟩)
          else v.fcbs }
  | _, _ => none

/-- `vfatRenameEntry`. -/
def applyRename (v : Volume) (k : Nat) (parent : Parent) (name : UnicodeString) (memory : Bool)
    (junk : Nat × Nat) : Option Volume :=
  match v.fcbs k with
  | none => none
  | some f =>
    match vfatRenameEntry (v.dirs f.parent) parent f.startIndex name true memory with
    | (.success, d) =>
      some
        { dirs := Function.update v.dirs f.parent d
          fcbs := Function.update v.fcbs k
            (some { f with
              startIndex := junk.1
              dirIndex := junk.2
              entry := d.slot (slotOf f.startIndex) }) }
    | _ => none

/-- `VfatMoveEntry`.  `FATXAddEntry` does not look at the status of
`vfatUpdateFCB`, which leaves the FCB alone if the full name cannot be made. -/
def applyMove (v : Volume) (k dir : Nat) (parent : Parent) (io : DirIo) (name : UnicodeString)
    (date time : UInt16) (memory : Bool) : Option Volume :=
  match v.fcbs k with
  | none => none
  | some f =>
    match fatxDelEntry (v.dirs f.parent) f.startIndex true with
    | (.error _, _) => none
    | (.ok kept, d) =>
      let dirs := Function.update v.dirs f.parent d
      match fatxAddEntry (dirs dir) io name f.isDirectory f.entry.attrib (some kept) date time
        with
      | (.error _, _) => none
      | (.ok index, d) =>
        some
          { dirs := Function.update dirs dir d
            fcbs := Function.update v.fcbs k
              (some
                (if vfatMakeFullName parent name.chars memory = .success then
                  ⟨dir, index, index, d.slot index, (dir, index)⟩
                else { f with home := (dir, index) })) }

/-- `VfatUpdateEntry` after a change to the entry of the FCB. -/
def applyUpdate (v : Volume) (k : Nat) (m : Metadata) : Option Volume :=
  match v.fcbs k with
  | none => none
  | some f =>
    match vfatUpdateEntry (v.dirs f.parent) f.startIndex (m.setIn f.entry) true with
    | (.success, d) =>
      some
        { dirs := Function.update v.dirs f.parent d
          fcbs := Function.update v.fcbs k (some { f with entry := m.setIn f.entry }) }
    | _ => none

/-- `FATXDelEntry` when the last handle is closed. -/
def applyDelete (v : Volume) (k : Nat) : Option Volume :=
  match v.fcbs k with
  | none => none
  | some f =>
    match fatxDelEntry (v.dirs f.parent) f.startIndex true with
    | (.ok _, d) =>
      some
        { dirs := Function.update v.dirs f.parent d
          fcbs := Function.update v.fcbs k none }
    | _ => none

/-- A successful call. -/
def apply (v : Volume) : Act → Option Volume
  | create k dir parent io name isDirectory fileAttributes date time memory =>
    applyCreate v k dir parent io name isDirectory fileAttributes date time memory
  | rename k parent name memory junk => applyRename v k parent name memory junk
  | move k dir parent io name date time memory => applyMove v k dir parent io name date time memory
  | update k m => applyUpdate v k m
  | delete k => applyDelete v k

/-- A rename in place finds the FCB's own indexes on the stack, and its name is
not of a length that marks the entry; a move can make the full name. -/
def Careful (v : Volume) : Act → Prop
  | rename k _ name _ junk =>
    (∀ f, v.fcbs k = some f → junk = (f.startIndex, f.dirIndex)) ∧
      name.chars.length % 256 ≠ 0xe5 ∧ name.chars.length % 256 ≠ 0xff
  | move _ _ parent _ name _ _ memory => vfatMakeFullName parent name.chars memory = .success
  | _ => True

end Act

def Step (v : Volume) (a : Act) (t : Volume) : Prop := a.Careful v ∧ a.apply v = some t

/-- The FCB designates the entry of its file: the entry is live, and the two
routines that write through the index change that entry alone. -/
structure Fcb.Designates (f : Fcb) (v : Volume) : Prop where
  parent : f.parent = f.home.1
  startIndex : f.startIndex = f.home.2
  dirIndex : f.dirIndex = f.home.2
  live : f.home.2 ∈ (v.dirs f.home.1).live
  update : ∀ e, (vfatUpdateEntry (v.dirs f.parent) f.startIndex e true).2 =
    (v.dirs f.home.1).setSlot f.home.2 e
  delete : ∀ j, j ≠ f.home.2 →
    (fatxDelEntry (v.dirs f.parent) f.startIndex true).2.slot j = (v.dirs f.home.1).slot j

/-- Every open FCB is at its entry, which is live, and no two share one. -/
structure Volume.Ok (v : Volume) : Prop where
  bound : ∀ {k f}, v.fcbs k = some f →
    f.parent = f.home.1 ∧ f.startIndex = f.home.2 ∧ f.dirIndex = f.home.2
  live : ∀ {k f}, v.fcbs k = some f → f.home.2 ∈ (v.dirs f.home.1).live
  named : ∀ {k f}, v.fcbs k = some f → f.entry.isEnd = false ∧ f.entry.isDeleted = false
  distinct : ∀ {k l f g}, v.fcbs k = some f → v.fcbs l = some g → f.home = g.home → k = l

/-! ## Entries that stay live -/

section Live

variable {d d' : Directory} {i j : Nat} {e : DirEntry}

/-- Overwriting an entry with one that is no end marker keeps the others live. -/
theorem mem_live_setSlot (he : e.isEnd = false) (hd : j = i → e.isDeleted = false)
    (hj : j ∈ d.live) : j ∈ (d.setSlot i e).live := by
  obtain ⟨hcount, hdel, hend⟩ := mem_live.1 hj
  refine mem_live.2 ⟨hcount, ?_, ?_⟩
  · by_cases hji : j = i
    · rw [hji, setSlot_slot_self]
      exact hd hji
    · rw [setSlot_slot_of_ne d e hji]
      exact hdel
  · intro k hk
    by_cases hki : k = i
    · rw [hki, setSlot_slot_self]
      exact he
    · rw [setSlot_slot_of_ne d e hki]
      exact hend k hk

/-- The room found is not a live entry. -/
theorem room_ne (hroom : Room d d' i) (hj : j ∈ d.live) : j ≠ i := by
  obtain ⟨hcount, hdel, hend⟩ := mem_live.1 hj
  rintro rfl
  rcases hroom.place with ⟨-, h⟩ | h | h
  · rw [hdel] at h
    exact absurd h nofun
  · omega
  · rw [hend j (Nat.le_refl _)] at h
    exact absurd h nofun

/-- An entry put into the room found leaves the others live. -/
theorem mem_live_room (hroom : Room d d' i) (he : e.isEnd = false ∧ e.isDeleted = false)
    (hj : j ∈ d.live) : j ∈ (d'.setSlot i e).live := by
  refine mem_live_setSlot he.1 (fun _ => he.2) ?_
  obtain ⟨hcount, hdel, hend⟩ := mem_live.1 hj
  rcases hroom.place with ⟨rfl, -⟩ | hplace
  · exact hj
  -- nothing live lies behind the room
  have hlt : j < i := by
    rcases hplace with h | h
    · omega
    · by_contra hle
      rw [hend i (by omega)] at h
      exact absurd h nofun
  refine mem_live.2 ⟨Nat.lt_of_lt_of_le hcount hroom.count_le, ?_, ?_⟩
  · rw [hroom.before j hlt]
    exact hdel
  · intro k hk
    rw [hroom.before k (by omega)]
    exact hend k hk

/-- The new entry is live. -/
theorem mem_live_room_self (hroom : Room d d' i) (he : e.isEnd = false ∧ e.isDeleted = false) :
    i ∈ (d'.setSlot i e).live := by
  refine mem_live.2 ⟨hroom.lt, ?_, ?_⟩
  · rw [setSlot_slot_self]
    exact he.2
  · intro k hk
    by_cases hki : k = i
    · rw [hki, setSlot_slot_self]
      exact he.1
    · rw [setSlot_slot_of_ne d' e hki, hroom.before k (by omega)]
      exact (hroom.live.2 k (by omega)).1

/-- A place of some directory stays live when another entry of the volume
changes. -/
theorem mem_live_update {dirs : Nat → Directory} {dir : Nat} {p : Nat × Nat}
    (hp : p.2 ∈ (dirs p.1).live) (hkeep : p.1 = dir → p.2 ∈ d'.live) :
    p.2 ∈ (Function.update dirs dir d' p.1).live := by
  by_cases hdir : p.1 = dir
  · rw [hdir, Function.update_self]
    exact hkeep hdir
  · rw [Function.update_of_ne hdir]
    exact hp

end Live

/-! ## What a call does to an FCB in its place -/

section Calls

variable {v t : Volume} {k : Nat} {f : Fcb}

theorem Volume.Ok.slot (hok : v.Ok) (hf : v.fcbs k = some f) :
    slotOf f.startIndex = f.home.2 := by
  obtain ⟨-, hstart, -⟩ := hok.bound hf
  obtain ⟨hcount, -⟩ := mem_live.1 (hok.live hf)
  rw [hstart, slotOf_of_lt hcount]

theorem Volume.Ok.designates (hok : v.Ok) (hf : v.fcbs k = some f) : f.Designates v := by
  obtain ⟨hparent, hstart, hdir⟩ := hok.bound hf
  refine ⟨hparent, hstart, hdir, hok.live hf, ?_, ?_⟩
  · intro e
    unfold vfatUpdateEntry
    rw [hok.slot hf, hparent]
    rfl
  · intro j hj
    unfold fatxDelEntry
    rw [hok.slot hf, hparent]
    exact setSlot_slot_of_ne _ _ hj

/-- A deleted entry is no end marker. -/
theorem deleted_not_end (e : DirEntry) : { e with filenameLength := 0xe5 }.isEnd = false := rfl

/-- One FCB is replaced, and its place, if it has one, is new or its own; the
others stay live. -/
theorem Volume.Ok.replace (hok : v.Ok) {dirs : Nat → Directory} {new : Option Fcb}
    (hothers : ∀ l g, l ≠ k → v.fcbs l = some g → g.home.2 ∈ (dirs g.home.1).live)
    (hnew : ∀ g, new = some g →
      (g.parent = g.home.1 ∧ g.startIndex = g.home.2 ∧ g.dirIndex = g.home.2) ∧
        g.home.2 ∈ (dirs g.home.1).live ∧ (g.entry.isEnd = false ∧ g.entry.isDeleted = false) ∧
        ∀ l h, l ≠ k → v.fcbs l = some h → h.home ≠ g.home) :
    Volume.Ok ⟨dirs, Function.update v.fcbs k new⟩ := by
  have hcases : ∀ {l g}, Function.update v.fcbs k new l = some g →
      (l = k ∧ new = some g) ∨ (l ≠ k ∧ v.fcbs l = some g) := by
    intro l g hl
    by_cases hlk : l = k
    · rw [hlk, Function.update_self] at hl
      exact Or.inl ⟨hlk, hl⟩
    · rw [Function.update_of_ne hlk] at hl
      exact Or.inr ⟨hlk, hl⟩
  refine ⟨?_, ?_, ?_, ?_⟩
  · intro l g hl
    rcases hcases hl with ⟨-, hg⟩ | ⟨-, hg⟩
    · exact (hnew g hg).1
    · exact hok.bound hg
  · intro l g hl
    rcases hcases hl with ⟨-, hg⟩ | ⟨hne, hg⟩
    · exact (hnew g hg).2.1
    · exact hothers l g hne hg
  · intro l g hl
    rcases hcases hl with ⟨-, hg⟩ | ⟨-, hg⟩
    · exact (hnew g hg).2.2.1
    · exact hok.named hg
  intro l m g h hl hm hhome
  rcases hcases hl with ⟨rfl, hg⟩ | ⟨hlk, hg⟩
  · rcases hcases hm with ⟨rfl, -⟩ | ⟨hmk, hh⟩
    · rfl
    · exact absurd hhome.symm ((hnew g hg).2.2.2 m h hmk hh)
  · rcases hcases hm with ⟨rfl, hh⟩ | ⟨-, hh⟩
    · exact absurd hhome ((hnew h hh).2.2.2 l g hlk hg)
    · exact hok.distinct hg hh hhome

variable {e : DirEntry} {g : Fcb}

/-- Another FCB's place in the directory of `f` is not that of `f`. -/
theorem Volume.Ok.apart (hok : v.Ok) (hf : v.fcbs k = some f) {l : Nat} (hlk : l ≠ k)
    (hg : v.fcbs l = some g) : g.home ≠ f.home :=
  fun h => hlk (hok.distinct hg hf h)

/-- An entry of a directory is overwritten at the place of `f`. -/
theorem Volume.Ok.overwrite (hok : v.Ok) (hf : v.fcbs k = some f)
    (he : e.isEnd = false) {l : Nat} (hg : v.fcbs l = some g)
    (hd : l = k → e.isDeleted = false) :
    g.home.2 ∈ (Function.update v.dirs f.home.1 ((v.dirs f.home.1).setSlot f.home.2 e)
      g.home.1).live := by
  refine mem_live_update (hok.live hg) ?_
  intro hdir
  refine mem_live_setSlot he ?_ (hdir ▸ hok.live hg)
  intro hindex
  exact hd (hok.distinct hg hf (Prod.ext hdir hindex))

/-- `FATXDelEntry` on an FCB in its place, and the FCB is gone. -/
theorem Volume.Ok.delEntry (hok : v.Ok) (hf : v.fcbs k = some f) :
    Volume.Ok
      ⟨Function.update v.dirs f.parent (fatxDelEntry (v.dirs f.parent) f.startIndex true).2,
        Function.update v.fcbs k none⟩ := by
  obtain ⟨hparent, -, -⟩ := hok.bound hf
  refine hok.replace ?_ nofun
  intro l g hlk hg
  unfold fatxDelEntry
  rw [hok.slot hf, hparent]
  exact hok.overwrite hf (deleted_not_end _) hg fun h => absurd h hlk

/-- `FATXAddEntry` in a directory, and an FCB for the new entry. -/
theorem Volume.Ok.addEntry (hok : v.Ok) {dir index : Nat}
    {d d' : Directory} (hd : v.dirs dir = d) (hroom : Room d d' index)
    (he : e.isEnd = false ∧ e.isDeleted = false) {new : Option Fcb}
    (hnew : new = none ∨ new = some ⟨dir, index, index, e, (dir, index)⟩) :
    Volume.Ok
      ⟨Function.update v.dirs dir (d'.setSlot index e), Function.update v.fcbs k new⟩ := by
  subst hd
  refine hok.replace ?_ ?_
  · intro l g _ hg
    refine mem_live_update (hok.live hg) ?_
    intro hdir
    exact mem_live_room hroom he (hdir ▸ hok.live hg)
  intro g hg
  obtain rfl : g = ⟨dir, index, index, e, (dir, index)⟩ := by
    rcases hnew with h | h
    · rw [h] at hg
      exact absurd hg nofun
    · exact (Option.some.inj (h.symm.trans hg)).symm
  refine ⟨⟨rfl, rfl, rfl⟩, ?_, he, ?_⟩
  · show index ∈ (Function.update v.dirs dir (d'.setSlot index e) dir).live
    rw [Function.update_self]
    exact mem_live_room_self hroom he
  · intro l h _ hh heq
    obtain ⟨hdir, hindex⟩ := Prod.mk.inj heq
    exact room_ne hroom (hdir ▸ hok.live hh) hindex

/-- An entry that is no marker is written at the place of `f`. -/
theorem Volume.Ok.writeEntry (hok : v.Ok) (hf : v.fcbs k = some f)
    (he : e.isEnd = false ∧ e.isDeleted = false) (hhome : g.home = f.home)
    (hg : g.parent = f.parent ∧ g.startIndex = f.startIndex ∧ g.dirIndex = f.dirIndex)
    (hentry : g.entry = e) :
    Volume.Ok
      ⟨Function.update v.dirs f.parent ((v.dirs f.parent).setSlot (slotOf f.startIndex) e),
        Function.update v.fcbs k (some g)⟩ := by
  obtain ⟨hparent, hstart, hdir⟩ := hok.bound hf
  rw [hok.slot hf, hparent]
  refine hok.replace ?_ ?_
  · intro l h hlk hh
    exact hok.overwrite hf he.1 hh fun heq => absurd heq hlk
  intro g' hg'
  obtain rfl := Option.some.inj hg'
  refine ⟨?_, ?_, hentry ▸ he, ?_⟩
  · rw [hg.1, hg.2.1, hg.2.2, hhome]
    exact ⟨hparent, hstart, hdir⟩
  · rw [hhome]
    exact hok.overwrite hf he.1 hf fun _ => he.2
  · intro l h hlk hh
    rw [hhome]
    exact hok.apart hf hlk hh

end Calls

/-! ## The steps -/

section Steps

variable {v t : Volume} {k dir : Nat} {parent : Parent} {io : DirIo} {name : UnicodeString}
  {date time : UInt16} {memory : Bool}

theorem create_ok {isDirectory : Bool} {fileAttributes : UInt32} (hok : v.Ok)
    (h : Act.applyCreate v k dir parent io name isDirectory fileAttributes date time memory =
      some t) : t.Ok := by
  unfold Act.applyCreate at h
  split at h
  · rename_i index d' hk hadd
    obtain ⟨hle, d₁, hspace, rfl⟩ := fatxAddEntry_ok hadd
    have hroom := vfatFindDirSpace_spec hspace
    have he := newEntry_not_marker hle isDirectory (fileAttributes &&& 0x37).toUInt8 none date time
    obtain rfl := Option.some.inj h
    rw [setSlot_slot_self]
    by_cases hfull : vfatMakeFullName parent name.chars memory = .success
    · rw [if_pos hfull]
      exact hok.addEntry rfl hroom he (Or.inr rfl)
    · rw [if_neg hfull]
      have hadded := hok.addEntry (k := k) rfl hroom he (Or.inl rfl)
      rwa [← hk, Function.update_eq_self] at hadded
  · exact absurd h nofun

theorem rename_ok {junk : Nat × Nat} (hok : v.Ok)
    (hcareful : (Act.rename k parent name memory junk).Careful v)
    (h : Act.applyRename v k parent name memory junk = some t) : t.Ok := by
  obtain ⟨hjunk, h1, h2⟩ := hcareful
  unfold Act.applyRename at h
  cases hf : v.fcbs k with
  | none =>
    rw [hf] at h
    exact absurd h nofun
  | some f =>
    rw [hf] at h
    obtain rfl := hjunk f hf
    dsimp only at h
    split at h
    · rename_i d hrename
      obtain rfl : (v.dirs f.parent).setSlot (slotOf f.startIndex)
          (storeName ((v.dirs f.parent).slot (slotOf f.startIndex)) name) = d :=
        congrArg Prod.snd hrename
      obtain rfl := Option.some.inj h
      exact hok.writeEntry hf (storeName_not_marker_of_mod h1 h2) rfl ⟨rfl, rfl, rfl⟩
        (setSlot_slot_self ..)
    · exact absurd h nofun

theorem move_ok (hok : v.Ok) (hfull : vfatMakeFullName parent name.chars memory = .success)
    (h : Act.applyMove v k dir parent io name date time memory = some t) : t.Ok := by
  unfold Act.applyMove at h
  cases hf : v.fcbs k with
  | none =>
    rw [hf] at h
    exact absurd h nofun
  | some f =>
    rw [hf] at h
    dsimp only at h
    split at h
    · exact absurd h nofun
    rename_i kept d hdel
    -- first the old entry goes
    have hgone := hok.delEntry hf
    rw [hdel] at hgone
    dsimp only at hgone
    split at h
    · exact absurd h nofun
    rename_i index d' hadd
    obtain ⟨hle, d₁, hspace, rfl⟩ := fatxAddEntry_ok hadd
    have hroom := vfatFindDirSpace_spec hspace
    obtain rfl := Option.some.inj h
    have hadded := hgone.addEntry (k := k) rfl hroom
      (newEntry_not_marker hle f.isDirectory f.entry.attrib (some kept) date time)
      (Or.inr rfl)
    rw [Function.update_idem] at hadded
    rw [if_pos hfull, setSlot_slot_self]
    exact hadded

theorem update_ok {m : Metadata} (hok : v.Ok) (h : Act.applyUpdate v k m = some t) : t.Ok := by
  unfold Act.applyUpdate at h
  cases hf : v.fcbs k with
  | none =>
    rw [hf] at h
    exact absurd h nofun
  | some f =>
    rw [hf] at h
    obtain rfl := Option.some.inj h
    have hnamed : (m.setIn f.entry).isEnd = false ∧ (m.setIn f.entry).isDeleted = false :=
      hok.named hf
    exact hok.writeEntry hf hnamed rfl ⟨rfl, rfl, rfl⟩ rfl

theorem delete_ok (hok : v.Ok) (h : Act.applyDelete v k = some t) : t.Ok := by
  unfold Act.applyDelete at h
  cases hf : v.fcbs k with
  | none =>
    rw [hf] at h
    exact absurd h nofun
  | some f =>
    rw [hf] at h
    obtain rfl := Option.some.inj h
    exact hok.delEntry hf

theorem step_ok {a : Act} (hok : v.Ok) (h : Step v a t) : t.Ok := by
  obtain ⟨hcareful, happly⟩ := h
  cases a with
  | create => exact create_ok hok happly
  | rename => exact rename_ok hok hcareful happly
  | move => exact move_ok hok hcareful happly
  | update => exact update_ok hok happly
  | delete => exact delete_ok hok happly

end Steps

/-- From a volume whose FCBs are in their places, after any careful calls that
succeed, every open FCB designates the entry of its own file. -/
theorem fcbs_designate {s v : Volume} (hs : s.Ok) (hrun : Reachable (· = s) Step v) {k : Nat}
    {f : Fcb} (hf : v.fcbs k = some f) : f.Designates v := by
  have hok : v.Ok := by
    refine Reachable.invariant ?_ ?_ hrun
    · rintro u rfl
      exact hs
    · intro u a w hu hstep
      exact step_ok hu hstep
  exact hok.designates hf

/-- A volume of empty directories on which nothing is open. -/
def emptyVolume : Volume := ⟨fun _ => emptyDirectory, fun _ => none⟩

/-- A file with a name of so many letters is created in the root directory. -/
def createLetters (k n : Nat) (h : n * 2 < 2 ^ 16) : Act :=
  .create k 0 rootParent quietIo (letters n h) false 0 0 0 true

/-- File 0 gets a name of three letters in place. -/
def renameLetters (junk : Nat × Nat) : Act :=
  .rename 0 rootParent (letters 3 (by decide)) true junk

theorem oneLetter_lt : 1 * 2 < 2 ^ 16 := by decide

/-- The volume with one file. -/
def oneFile : Volume := ((createLetters 0 1 oneLetter_lt).apply emptyVolume).getD emptyVolume

/-- The volume with that file renamed. -/
def oneFileRenamed : Volume := ((renameLetters (0, 0)).apply oneFile).getD emptyVolume

theorem fcbs_designate_letters :
    Reachable (· = emptyVolume) Step oneFileRenamed ∧
      ∃ f, oneFileRenamed.fcbs 0 = some f ∧ f.Designates oneFileRenamed := by
  have hempty : emptyVolume.Ok := ⟨nofun, nofun, nofun, nofun⟩
  have hcreated : Reachable (· = emptyVolume) Step oneFile :=
    .next (createLetters 0 1 (by decide)) (.start rfl) ⟨trivial, rfl⟩
  have hcareful : (renameLetters (0, 0)).Careful oneFile := by
    refine ⟨?_, by decide, by decide⟩
    intro f hf
    obtain rfl := Option.some.inj hf
    rfl
  have hrun : Reachable (· = emptyVolume) Step oneFileRenamed :=
    hcreated.next (renameLetters (0, 0)) ⟨hcareful, rfl⟩
  obtain ⟨f, hf⟩ : ∃ f, oneFileRenamed.fcbs 0 = some f := ⟨_, rfl⟩
  exact ⟨hrun, f, hf, fcbs_designate hempty hrun hf⟩

/-- With the index of another file on the stack, a file renamed in place and then
deleted takes the entry of the other file with it. -/
theorem renamed_fcb_strays :
    ([createLetters 0 1 (by decide), createLetters 1 2 (by decide), renameLetters (1, 1)].foldlM
        (Act.apply · ·) emptyVolume).bind
        (fun v => (v.fcbs 0).map fun f => (f.startIndex, f.home, (v.dirs 0).live)) =
        some (1, (0, 0), [0, 1]) ∧
      ([createLetters 0 1 (by decide), createLetters 1 2 (by decide), renameLetters (1, 1),
          .delete 0].foldlM (Act.apply · ·) emptyVolume).bind
        (fun v => (v.fcbs 1).map fun f => (f.home, (v.dirs 0).live)) =
        some ((0, 1), [0]) := by
  exact ⟨by decide +kernel, by decide +kernel⟩

end Roswell.Ports.FatxFcb
