import Roswell.Ports.FatxEnum

/-!
# Names of FATX entries

The kernel works with counted UTF-16 names; an entry stores a counted byte
string in a field of 42 bytes.  The code page routines are those of
`nls-stubs.c`: a byte is a Latin-1 character, and every character above `0xFF`
becomes a question mark.

`RtlUnicodeStringToOemString` insists on room for a terminating zero, and writes
one.  It sets the length of its destination before it looks at the room, so a
name that does not fit leaves the bytes of the field alone and yet reports its
own length.
-/

namespace Roswell.Ports.FatxNames

open FatxDir FatxEnum

/-- `UNICODE_STRING`; `Length` counts bytes in 16 bits. -/
structure UnicodeString where
  chars : List UInt16
  length_lt : chars.length * 2 < 2 ^ 16
  deriving DecidableEq

/-- `OEM_STRING`, with the whole of its buffer. -/
structure OemString where
  length : Nat
  maximumLength : Nat
  buffer : List UInt8
  deriving DecidableEq

/-! ## Conversions -/

/-- One character of `RtlUnicodeToMultiByteN`. -/
def oemChar (w : UInt16) : UInt8 := if w < 0x100 then w.toUInt8 else 0x3f

/-- One character of `RtlMultiByteToUnicodeN`. -/
def unicodeChar (b : UInt8) : UInt16 := b.toUInt16

/-- `RtlUnicodeToOemN`: the buffer, and how many bytes were converted. -/
def rtlUnicodeToOemN (buffer : List UInt8) (oemSize : Nat) (source : List UInt16) :
    List UInt8 × Nat :=
  let n := min source.length oemSize
  ((source.take n).map oemChar ++ buffer.drop n, n)

/-- `RtlUnicodeStringToOemSize`, for a single-byte code page. -/
def rtlUnicodeStringToOemSize (source : UnicodeString) : Nat := (source.chars.length * 2 + 2) / 2

/-- `RtlUnicodeStringToOemString` into the caller's buffer.  Its callers here do
not look at the status. -/
def rtlUnicodeStringToOemString (dest : OemString) (source : UnicodeString) : OemString :=
  let length := rtlUnicodeStringToOemSize source
  if 0xFFFF < length then dest
  else
    let dest := { dest with length := length - 1 }
    if dest.maximumLength ≤ dest.length then dest
    else
      match rtlUnicodeToOemN dest.buffer dest.length source.chars with
      | (buffer, index) => { dest with buffer := buffer.set index 0 }

/-- The code page has every character of the name. -/
def Representable (chars : List UInt16) : Prop := ∀ w ∈ chars, w < 0x100

instance (chars : List UInt16) : Decidable (Representable chars) :=
  List.decidableBAll (fun w => w < 0x100) chars

theorem unicodeChar_oemChar {w : UInt16} (h : w < 0x100) : unicodeChar (oemChar w) = w := by
  unfold unicodeChar oemChar
  rw [if_pos h]
  apply UInt16.toNat_inj.1
  have hlt : w.toNat < 256 := UInt16.lt_iff_toNat_lt.1 h
  simp only [UInt8.toNat_toUInt16, UInt16.toNat_toUInt8]
  omega

theorem map_unicodeChar_oemChar {chars : List UInt16} (h : Representable chars) :
    (chars.map oemChar).map unicodeChar = chars := by
  rw [List.map_map]
  exact (List.map_congr_left fun w hw => unicodeChar_oemChar (h w hw)).trans (List.map_id _)

theorem oemSize (source : UnicodeString) :
    rtlUnicodeStringToOemSize source = source.chars.length + 1 := by
  unfold rtlUnicodeStringToOemSize
  omega

variable {caseTable : UInt16 → UInt16} {source : UnicodeString} {dest : OemString}

/-- A name that leaves room for the terminator is converted and terminated. -/
theorem oemString_of_room
    (h : source.chars.length < dest.maximumLength) :
    rtlUnicodeStringToOemString dest source =
      { dest with
        length := source.chars.length
        buffer := (source.chars.map oemChar ++ dest.buffer.drop source.chars.length).set
          source.chars.length 0 } := by
  have hlt := source.length_lt
  unfold rtlUnicodeStringToOemString
  dsimp only
  rw [oemSize, if_neg (by omega), Nat.add_sub_cancel, if_neg (by omega)]
  simp only [rtlUnicodeToOemN, Nat.min_self, List.take_length]

/-- A longer name changes the length only. -/
theorem oemString_of_no_room
    (h : dest.maximumLength ≤ source.chars.length) :
    rtlUnicodeStringToOemString dest source = { dest with length := source.chars.length } := by
  have hlt := source.length_lt
  unfold rtlUnicodeStringToOemString
  dsimp only
  rw [oemSize, if_neg (by omega), Nat.add_sub_cancel, if_pos h]

/-- The buffer keeps its size. -/
theorem oemString_buffer_length
    (h : dest.maximumLength ≤ dest.buffer.length) :
    (rtlUnicodeStringToOemString dest source).buffer.length = dest.buffer.length := by
  by_cases hroom : source.chars.length < dest.maximumLength
  · rw [oemString_of_room hroom]
    simp only [List.length_set, List.length_append, List.length_map, List.length_drop]
    omega
  · rw [oemString_of_no_room (by omega)]

/-! ## The name of an entry -/

/-- What FATX entries are named by: `FilenameLength` bytes from the start of the
field on.  A length above 42 reads on behind the field; `overrun` gives the bytes
found there. -/
def nameBytes (e : DirEntry) (overrun : Nat → UInt8) : List UInt8 :=
  e.filename.take e.filenameLength.toNat ++
    (List.range (e.filenameLength.toNat - 42)).map overrun

/-- `LongNameU` of an entry: the caller's buffer of 260 characters has room for
every length. -/
def longName (e : DirEntry) (overrun : Nat → UInt8) : List UInt16 :=
  (nameBytes e overrun).map unicodeChar

/-- `NameA` laid over the name field, and `FilenameLength` set from it. -/
def storeName (e : DirEntry) (name : UnicodeString) : DirEntry :=
  let nameA := rtlUnicodeStringToOemString ⟨0, 42, e.filename⟩ name
  { e with
    filename := nameA.buffer
    filename_length :=
      (oemString_buffer_length (Nat.le_of_eq e.filename_length.symm)).trans e.filename_length
    filenameLength := nameA.length.toUInt8 }

variable {e : DirEntry} {name : UnicodeString} {overrun : Nat → UInt8}

theorem longName_length (e : DirEntry) (overrun : Nat → UInt8) :
    (longName e overrun).length = e.filenameLength.toNat := by
  unfold longName nameBytes
  simp only [List.length_map, List.length_append, List.length_take, e.filename_length,
    List.length_range]
  omega

/-- Within the field, the name does not depend on what lies behind it. -/
theorem longName_of_le (h : e.filenameLength.toNat ≤ 42) :
    longName e overrun = (e.filename.take e.filenameLength.toNat).map unicodeChar := by
  unfold longName nameBytes
  rw [show e.filenameLength.toNat - 42 = 0 by omega]
  simp

theorem filenameLength_storeName (e : DirEntry) (name : UnicodeString) :
    (storeName e name).filenameLength = name.chars.length.toUInt8 := by
  unfold storeName
  dsimp only
  by_cases h : name.chars.length < 42
  · rw [oemString_of_room h]
  · rw [oemString_of_no_room (Nat.le_of_not_lt h)]

theorem filenameLength_toNat (e : DirEntry) (name : UnicodeString) :
    (storeName e name).filenameLength.toNat = name.chars.length % 256 := by
  rw [filenameLength_storeName]
  simp

/-- A name of at most 41 characters is stored in full. -/
theorem filename_storeName_short (h : name.chars.length < 42) :
    (storeName e name).filename.take name.chars.length = name.chars.map oemChar := by
  unfold storeName
  dsimp only
  rw [oemString_of_room h]
  dsimp only
  rw [List.take_set_of_le (Nat.le_refl _), List.take_left' (List.length_map _)]

/-- A longer one leaves the field as it was. -/
theorem filename_storeName_long (h : 42 ≤ name.chars.length) :
    (storeName e name).filename = e.filename := by
  unfold storeName
  dsimp only
  rw [oemString_of_no_room h]

/-- What is read back of a name of at most 41 characters. -/
theorem longName_storeName_short (h : name.chars.length < 42)
    (hrep : Representable name.chars) : longName (storeName e name) overrun = name.chars := by
  have hlen : (storeName e name).filenameLength.toNat = name.chars.length := by
    rw [filenameLength_toNat, Nat.mod_eq_of_lt (by omega)]
  rw [longName_of_le (by omega), hlen, filename_storeName_short h, map_unicodeChar_oemChar hrep]

/-- What is read back of a name of 42 characters. -/
theorem longName_storeName_42 (h : name.chars.length = 42) :
    longName (storeName e name) overrun = e.filename.map unicodeChar := by
  have hlen : (storeName e name).filenameLength.toNat = 42 := by
    rw [filenameLength_toNat, h]
  rw [longName_of_le (by omega), hlen, filename_storeName_long (by omega),
    ← e.filename_length, List.take_length]

/-! ## Looking a name up -/

/-- `RtlpUpcaseUnicodeChar`; `caseTable` is the offset found in the case table. -/
def rtlpUpcaseUnicodeChar (caseTable : UInt16 → UInt16) (c : UInt16) : UInt16 :=
  if c < 0x61 then c else if c ≤ 0x7a then c - 0x20 else c + caseTable c

/-- `RtlEqualUnicodeString`, ignoring case. -/
def rtlEqualUnicodeString (caseTable : UInt16 → UInt16) (s t : List UInt16) : Bool :=
  s.length == t.length &&
    s.map (rtlpUpcaseUnicodeChar caseTable) == t.map (rtlpUpcaseUnicodeChar caseTable)

/-- `FATX_ENTRY_VOLUME`. -/
def isVolume (e : DirEntry) : Bool := e.attrib &&& 0x1f == 0x08

/-- The test of `vfatDirFindFile` on an entry. -/
def isNamed (caseTable : UInt16 → UInt16) (name : List UInt16) (e : DirEntry)
    (overrun : Nat → UInt8) : Bool :=
  !isVolume e && !(longName e overrun).isEmpty &&
    rtlEqualUnicodeString caseTable name (longName e overrun)

/-- What a lookup reads besides the directory: the bytes at offsets that are not
those of an entry, the bytes behind a name field in each of its calls, and the
leftovers of the stack in each of its calls. -/
structure Surroundings where
  shifted : Nat → DirEntry
  overrun : Nat → Nat → UInt8
  junk : Nat → Nat

/-- The entry a lookup stops at: `DirIndex`, the entry and `LongNameU`. -/
structure Found where
  dirIndex : Nat
  entry : DirEntry
  longName : List UInt16
  deriving DecidableEq

/-- The loop of `vfatDirFindFile`, from its `n`-th call of `FATXGetNextDirEntry`
on. -/
def findFrom (caseTable : UInt16 → UInt16) (d : Directory) (x : Surroundings)
    (name : List UInt16) : Nat → Nat → Option (Option Found)
  | 0, _ => none
  | fuel + 1, n =>
    match answer d x.shifted x.junk n with
    | none => none
    | some none => some none
    | some (some (i, e)) =>
      if isNamed caseTable name e (x.overrun n) then
        some (some ⟨i, e, longName e (x.overrun n)⟩)
      else findFrom caseTable d x name fuel (n + 1)

/-- The loop from its first call on; `none` inside is the end of the directory.  Every
call moves the index on, and one that starts a page behind the end of the file is
the last. -/
def findEntry (caseTable : UInt16 → UInt16) (d : Directory) (x : Surroundings)
    (name : List UInt16) : Option (Option Found) :=
  findFrom caseTable d x name (enough d) 0

theorem rtlEqualUnicodeString_self (caseTable : UInt16 → UInt16) (s : List UInt16) :
    rtlEqualUnicodeString caseTable s s = true := by
  unfold rtlEqualUnicodeString
  simp

theorem rtlEqualUnicodeString_length {s t : List UInt16}
    (h : rtlEqualUnicodeString caseTable s t = true) : s.length = t.length := by
  unfold rtlEqualUnicodeString at h
  simp only [Bool.and_eq_true, beq_iff_eq] at h
  exact h.1

/-- Whether an entry has a name that fits the field does not depend on what lies
behind the field. -/
theorem isNamed_overrun {s : List UInt16} (hs : s.length ≤ 42)
    (overrun overrun' : Nat → UInt8) :
    isNamed caseTable s e overrun = isNamed caseTable s e overrun' := by
  by_cases h : e.filenameLength.toNat ≤ 42
  · unfold isNamed
    rw [longName_of_le h, longName_of_le h]
  have hfalse : ∀ o, isNamed caseTable s e o = false := by
    intro o
    rw [Bool.eq_false_iff]
    intro hnamed
    unfold isNamed at hnamed
    simp only [Bool.and_eq_true] at hnamed
    have hlen := rtlEqualUnicodeString_length hnamed.2
    rw [longName_length] at hlen
    omega
  rw [hfalse, hfalse]

/-- The name a lookup reports is the one it has read from the entry. -/
theorem findFrom_longName {d : Directory} {x : Surroundings}
    {s : List UInt16} {f : Found} {fuel n : Nat}
    (h : findFrom caseTable d x s fuel n = some (some f)) :
    ∃ m, f.longName = longName f.entry (x.overrun m) := by
  fun_induction findFrom caseTable d x s fuel n with
  | case1 | case2 | case3 => cases h
  | case4 fuel n =>
    obtain rfl := Option.some.inj (Option.some.inj h)
    exact ⟨n, rfl⟩
  | case5 fuel n i e hanswer hnamed ih => exact ih h

/-! ## Directories whose first entries are all live -/

section Prefix

variable {d : Directory} {caseTable : UInt16 → UInt16} {x : Surroundings} {s : List UInt16}
  {stop : Nat}

/-- No entry before `stop` is deleted or marks the end. -/
def LiveUpTo (d : Directory) (stop : Nat) : Prop :=
  stop ≤ d.count ∧
    ∀ i, i < stop → (d.slot i).isEnd = false ∧ (d.slot i).isDeleted = false

/-- A call at a live entry returns it, from a fresh page or from the kept one. -/
theorem fatxGetNextDirEntry_live {c : Cursor} {i : Nat} (hi : i < d.count)
    (hend : (d.slot i).isEnd = false) (hdel : (d.slot i).isDeleted = false)
    (hindex : c.dirIndex = i) (hpage : i % 64 ≠ 0 → c.page = none ∨ c.page = some (i / 64 * 4096))
    (shifted : Nat → DirEntry) (junk : Nat) :
    fatxGetNextDirEntry d shifted junk c =
      some (⟨some (i / 64 * 4096), i⟩, some (i, d.slot i)) := by
  have hscan : ∀ o, scan d shifted (enough d) o (i / 64 * 4096) i =
      some (⟨some (i / 64 * 4096), i⟩, some (i, d.slot i)) := by
    intro o
    rw [enough, show d.count + 192 = d.count + 191 + 1 by rfl, scan]
    simp only [entryAt_own, hend, hdel]
    rfl
  unfold fatxGetNextDirEntry
  rw [hindex]
  by_cases hfresh : c.page = none ∨ i % 64 = 0
  · have hsize := d.size_lt
    rw [if_pos hfresh]
    dsimp only
    rw [fileOffset_own (by omega), if_neg (by unfold Directory.fileSize; omega), mappable_page]
    simpa using hscan _
  · rw [if_neg hfresh]
    have hkept : c.page = some (i / 64 * 4096) := by
      rcases hpage (fun h => hfresh (Or.inr h)) with h | h
      · exact absurd (Or.inl h) hfresh
      · exact h
    rw [hkept]
    exact hscan _

/-- The calls return the entries one after the other. -/
theorem answer_live (hlive : LiveUpTo d stop) (shifted : Nat → DirEntry) (junk : Nat → Nat)
    {n : Nat} (hn : n < stop) : answer d shifted junk n = some (some (n, d.slot n)) := by
  have hcall : ∀ m, m < stop → fatxGetNextDirEntry d shifted (junk m) (cursor d shifted junk m) =
      some (⟨some (m / 64 * 4096), m⟩, some (m, d.slot m)) := by
    intro m
    induction m with
    | zero =>
      intro hm
      have hcount := hlive.1
      exact fatxGetNextDirEntry_live (by omega) (hlive.2 0 hm).1 (hlive.2 0 hm).2 rfl
        (fun h => absurd rfl h) shifted (junk 0)
    | succ m ih =>
      intro hm
      have hcount := hlive.1
      have hcursor : cursor d shifted junk (m + 1) = ⟨some (m / 64 * 4096), m + 1⟩ := by
        rw [cursor, ih (by omega)]
      rw [hcursor]
      refine fatxGetNextDirEntry_live (by omega) (hlive.2 (m + 1) hm).1
        (hlive.2 (m + 1) hm).2 rfl ?_ shifted (junk (m + 1))
      intro hpage
      exact Or.inr (by rw [show (m + 1) / 64 = m / 64 by omega])
  unfold answer
  rw [hcall n hn]
  rfl

/-- A loop that finds nothing has passed every one of them. -/
theorem not_named_of_findFrom (hlive : LiveUpTo d stop) {fuel k i : Nat}
    (h : findFrom caseTable d x s fuel k = some none) (hk : k ≤ i) (hi : i < stop) :
    isNamed caseTable s (d.slot i) (x.overrun i) = false := by
  fun_induction findFrom caseTable d x s fuel k with
  | case1 | case2 | case4 => cases h
  | case3 fuel k hanswer =>
    rw [answer_live hlive _ _ (by omega)] at hanswer
    cases hanswer
  | case5 fuel k j e hanswer hnamed ih =>
    rw [answer_live hlive _ _ (by omega)] at hanswer
    cases hanswer
    rcases Nat.eq_or_lt_of_le hk with rfl | hk
    · exact Bool.eq_false_iff.2 hnamed
    · exact ih h hk

theorem not_named_of_not_found (hlive : LiveUpTo d stop)
    (h : findEntry caseTable d x s = some none) {i : Nat} (hi : i < stop) :
    isNamed caseTable s (d.slot i) (x.overrun i) = false :=
  not_named_of_findFrom hlive h (Nat.zero_le i) hi

/-- A lookup reaches the last of them if no other has the name, and stops there
or goes on. -/
theorem findEntry_last (hlive : LiveUpTo d (stop + 1))
    (hnot : ∀ i, i < stop → isNamed caseTable s (d.slot i) (x.overrun i) = false) :
    findEntry caseTable d x s =
      if isNamed caseTable s (d.slot stop) (x.overrun stop) then
        some (some ⟨stop, d.slot stop, longName (d.slot stop) (x.overrun stop)⟩)
      else findFrom caseTable d x s (enough d - stop - 1) (stop + 1) := by
  have hwalk : ∀ m k fuel, k + m = stop → findFrom caseTable d x s (fuel + m + 1) k =
      if isNamed caseTable s (d.slot stop) (x.overrun stop) then
        some (some ⟨stop, d.slot stop, longName (d.slot stop) (x.overrun stop)⟩)
      else findFrom caseTable d x s fuel (stop + 1) := by
    intro m
    induction m with
    | zero =>
      intro k fuel hk
      obtain rfl : k = stop := hk
      rw [findFrom, answer_live hlive _ _ (by omega)]
    | succ m ih =>
      intro k fuel hk
      rw [show fuel + (m + 1) + 1 = (fuel + m + 1) + 1 by omega, findFrom,
        answer_live hlive _ _ (by omega)]
      dsimp only
      rw [if_neg (by rw [hnot k (by omega)]; exact nofun)]
      exact ih (k + 1) fuel (by omega)
  have hcount := hlive.1
  have hfuel : enough d - stop - 1 + stop + 1 = enough d := by
    unfold enough
    omega
  have hfind := hwalk stop 0 (enough d - stop - 1) (Nat.zero_add _)
  rwa [hfuel] at hfind

end Prefix

end Roswell.Ports.FatxNames
