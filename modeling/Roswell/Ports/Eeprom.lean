import Mathlib
import Roswell.Verified.Bytes
import Roswell.Verified.Runs

/-!
# The kept EEPROM image

Model of `eeprom.c`: the part is read once into an image, queries are answered from the image,
and a save changes the image, sums it anew and pushes the sum and the setting out byte by byte.
The outcome of each SMBus transfer is an input.  The two ciphers that open the sealed section are
parameters, as nothing here depends on what they compute.

A save changes the image before the part has taken the bytes and nothing takes the change back,
so a write that fails leaves the image ahead of the part.

## Main results

* `eeprom_coherent`: if no byte write of a save fails, then after each call the image is what the
  part holds, and each query reports what the part holds.
* `eeprom_stale`: after a save whose first write fails a query reports the value that was not
  written.
-/

namespace Roswell.Ports.Eeprom

open Verified.Bytes Verified.Runs

/-! ## Tables -/

def eepromSize : Nat := 256
def sealedOffset : Nat := 0x14
def sealedLength : Nat := 0x1C
def userChecksum : Nat := 0x60
def userCovered : Nat := 0x5C

inductive NvsType where
  | binary
  | dword
  deriving DecidableEq, Repr

structure Setting where
  index : Nat
  offset : Nat
  length : Nat
  type : NvsType
  isSealed : Bool
  deriving DecidableEq, Repr

def nxkEepromSettings : List Setting :=
  [ ⟨0x0000, 0x64, 4, .dword, false⟩, ⟨0x0001, 0x68, 4, .binary, false⟩,
    ⟨0x0002, 0x78, 4, .binary, false⟩, ⟨0x0003, 0x88, 4, .dword, false⟩,
    ⟨0x0004, 0x6C, 4, .binary, false⟩, ⟨0x0005, 0x7C, 4, .binary, false⟩,
    ⟨0x0006, 0x8C, 4, .dword, false⟩, ⟨0x0007, 0x90, 4, .dword, false⟩,
    ⟨0x0008, 0x94, 4, .dword, false⟩, ⟨0x0009, 0x98, 4, .dword, false⟩,
    ⟨0x000A, 0x9C, 4, .dword, false⟩, ⟨0x000B, 0xA0, 4, .dword, false⟩,
    ⟨0x000C, 0xA4, 4, .dword, false⟩, ⟨0x000D, 0xA8, 4, .dword, false⟩,
    ⟨0x000E, 0xAC, 4, .dword, false⟩, ⟨0x000F, 0xB0, 4, .dword, false⟩,
    ⟨0x0010, 0xB4, 4, .dword, false⟩, ⟨0x0011, 0xB8, 4, .dword, false⟩,
    ⟨0x0012, 0xBC, 4, .dword, false⟩,
    ⟨0x0100, 0x34, 12, .binary, false⟩, ⟨0x0101, 0x40, 6, .binary, false⟩,
    ⟨0x0102, 0x48, 16, .binary, false⟩, ⟨0x0103, 0x58, 4, .dword, false⟩,
    ⟨0x0104, 0x18, 4, .dword, true⟩ ]

structure Section where
  index : Nat
  offset : Nat
  length : Nat
  wholePart : Bool
  deriving DecidableEq, Repr

def nxkEepromSections : List Section :=
  [ ⟨0x00FF, 0x60, 0x60, false⟩, ⟨0x01FF, 0x30, 0x30, false⟩,
    ⟨0xFFFE, 0x00, 0x30, true⟩, ⟨0xFFFF, 0x00, 0x100, true⟩ ]

inductive Status where
  | success
  | deviceNotReady
  | objectNameNotFound
  | invalidParameter
  | bufferTooSmall
  | ioError
  deriving DecidableEq, Repr

/-! ## The sealed section -/

/-- `NxkShaResumedHmac` under the kept key state of a version, and RC4 under a key. -/
structure Cipher where
  hmac : Nat → List UInt8 → List UInt8
  rc4 : List UInt8 → List UInt8 → List UInt8

def eepromKeys : Nat := 4

/-- The plain section under the first version whose hash matches. -/
def openSection (c : Cipher) (m : Memory) : Option (List UInt8) :=
  (List.range eepromKeys).findSome? fun i =>
    let plain := c.rc4 (c.hmac i (slice m 0 20)) (slice m sealedOffset sealedLength)
    if c.hmac i plain = slice m 0 20 then some plain else none

/-! ## The code -/

/-- The part and the kept image; `opened` is the plain section once it has been opened. -/
structure State where
  part : Memory
  image : Memory
  loaded : Bool
  opened : Option (List UInt8)

def nxkEepromLoad (s : State) (reads : Nat → Bool) : State :=
  if s.loaded = true then s
  else
    let result := transfer s.part reads eepromSize 0 0 s.image
    { s with image := result.1, loaded := result.2 }

def nxkEepromOpen (c : Cipher) (s : State) : State :=
  if s.opened.isSome = true then s else { s with opened := openSection c s.image }

/-- The words summed in 64 bits, the carry folded in, in 32 bits, and complemented. -/
def nxkEepromChecksum (m : Memory) (a length : Nat) : Nat :=
  let sum := ((List.range (length / 4)).map fun i => load m (a + i * 4) 4).sum
  2 ^ 32 - 1 - (sum / 2 ^ 32 + sum % 2 ^ 32) % 2 ^ 32

/-- The run never reaches the end of the part, so the register number does not wrap. -/
def nxkEepromStore (s : State) (writes : Nat → Bool) (k offset length : Nat) : State × Bool :=
  let result := transfer s.image writes length k offset s.part
  ({ s with part := result.1 }, result.2)

/-- The run of the image an index names for writing. -/
def writableRun (index : Nat) : Except Status (Nat × Nat) :=
  match nxkEepromSettings.find? (·.index == index) with
  | some x =>
    if x.isSealed = true ∨ x.offset < 0x60 then .error .objectNameNotFound
    else .ok (x.offset, x.length)
  | none =>
    match nxkEepromSections.find? (·.index == index) with
    | some x => if x.index ≠ 0x00FF then .error .invalidParameter else .ok (x.offset, x.length)
    | none => .error .objectNameNotFound

/-- The image with the setting zeroed, the value put in and the sum recomputed. -/
def savedImage (m : Memory) (offset length : Nat) (value : List UInt8) : Memory :=
  let m := copy (copy m offset (List.replicate length 0)) offset value
  store m userChecksum 4 (nxkEepromChecksum m (userChecksum + 4) userCovered)

/-- The sum goes out first, as write number zero on, and then the setting. -/
def push (s : State) (offset length : Nat) (writes : Nat → Bool) : State × Status :=
  let first := nxkEepromStore s writes 0 userChecksum 4
  if first.2 = true then
    let second := nxkEepromStore first.1 writes 4 offset length
    (second.1, if second.2 = true then .success else .ioError)
  else (first.1, .ioError)

def exSaveNonVolatileSetting (s : State) (index : Nat) (value : Option (List UInt8))
    (reads writes : Nat → Bool) : State × Status :=
  let s := nxkEepromLoad s reads
  if s.loaded = false then (s, .deviceNotReady)
  else
    match writableRun index with
    | .error status => (s, status)
    | .ok (offset, length) =>
      match value with
      | none => (s, .invalidParameter)
      | some value =>
        if length < value.length then (s, .invalidParameter)
        else push { s with image := savedImage s.image offset length value } offset length writes

/-- What a query hands back; out-parameters that are not written are `none`. -/
structure Answer where
  status : Status
  value : Option (List UInt8)
  type : Option NvsType
  resultLength : Option Nat
  deriving DecidableEq, Repr

def Answer.failed (status : Status) : Answer := ⟨status, none, none, none⟩

/-- The answer of a query over a memory and the plain section. -/
def report (m : Memory) (plain : Option (List UInt8)) (index : Nat) (buffer : Option (List UInt8)) :
    Answer :=
  match nxkEepromSettings.find? (·.index == index) with
  | some x =>
    match buffer with
    | none => .failed .bufferTooSmall
    | some buffer =>
      if buffer.length < x.length then .failed .bufferTooSmall
      else if x.isSealed = true then
        match plain with
        | none => .failed .deviceNotReady
        | some plain =>
          ⟨.success, some ((plain.drop x.offset).take x.length ++ buffer.drop x.length),
            some x.type, some x.length⟩
      else
        ⟨.success,
          some (slice m x.offset x.length ++ List.replicate (buffer.length - x.length) 0),
          some x.type, some x.length⟩
  | none =>
    match nxkEepromSections.find? (·.index == index) with
    | none => .failed .objectNameNotFound
    | some x =>
      let small : Answer :=
        ⟨.bufferTooSmall, none, none, if x.wholePart = true then some x.length else none⟩
      match buffer with
      | none => small
      | some buffer =>
        if buffer.length < x.length then small
        else
          let rest := buffer.length - x.length
          ⟨.success,
            some (slice m x.offset x.length ++
              if x.wholePart = true then buffer.drop x.length else List.replicate rest 0),
            some .binary, some x.length⟩

/-- The query reaches `NxkEepromOpen`. -/
def opens (index : Nat) (buffer : Option (List UInt8)) : Bool :=
  match nxkEepromSettings.find? (·.index == index), buffer with
  | some x, some buffer => x.isSealed && x.length ≤ buffer.length
  | _, _ => false

def exQueryNonVolatileSetting (c : Cipher) (s : State) (index : Nat) (buffer : Option (List UInt8))
    (reads : Nat → Bool) : State × Answer :=
  let s := nxkEepromLoad s reads
  if s.loaded = false then (s, .failed .deviceNotReady)
  else
    let s := if opens index buffer = true then nxkEepromOpen c s else s
    (s, report s.image s.opened index buffer)

/-! ## Calls -/

/-- A call with the outcome of each read of the part and of each byte write it makes. -/
inductive Act where
  | save (index : Nat) (value : Option (List UInt8)) (reads writes : Nat → Bool)
  | query (index : Nat) (buffer : Option (List UInt8)) (reads : Nat → Bool)

def Act.reads : Act → Nat → Bool
  | .save _ _ reads _ => reads
  | .query _ _ reads => reads

def State.apply (c : Cipher) (s : State) : Act → State
  | .save index value reads writes => (exSaveNonVolatileSetting s index value reads writes).1
  | .query index buffer reads => (exQueryNonVolatileSetting c s index buffer reads).1

/-- No byte write of a save fails. -/
def Careful : Act → Prop
  | .save _ _ _ writes => ∀ k, writes k = true
  | .query .. => True

def Step (c : Cipher) (s : State) (a : Act) (s' : State) : Prop := s.apply c a = s'

def CarefulStep (c : Cipher) (s : State) (a : Act) (s' : State) : Prop :=
  Careful a ∧ Step c s a s'

/-- Nothing has been read yet; the part holds anything. -/
def Start (s : State) : Prop := s.loaded = false ∧ s.opened = none

/-! ## The tables -/

theorem writableRun_bounds {index offset length : Nat}
    (h : writableRun index = .ok (offset, length)) : 0x60 ≤ offset ∧ offset + length ≤ 0xC0 := by
  have hsettings : ∀ x ∈ nxkEepromSettings, 0x60 ≤ x.offset → x.offset + x.length ≤ 0xC0 := by decide
  have hsections : ∀ x ∈ nxkEepromSections, x.index = 0x00FF →
      0x60 ≤ x.offset ∧ x.offset + x.length ≤ 0xC0 := by decide
  unfold writableRun at h
  split at h
  · next x hx =>
    split at h
    · cases h
    · next hwritable =>
      cases h
      have hlow : 0x60 ≤ x.offset := by
        omega
      exact ⟨hlow, hsettings x (List.mem_of_find?_eq_some hx) hlow⟩
  · split at h
    · next x hx =>
      split at h
      · cases h
      · next huser =>
        cases h
        exact hsections x (List.mem_of_find?_eq_some hx) (not_not.1 huser)
    · cases h

theorem settings_inside {x : Setting} (h : x ∈ nxkEepromSettings) : x.offset + x.length ≤ eepromSize := by
  revert x
  decide

theorem sections_inside {x : Section} (h : x ∈ nxkEepromSections) : x.offset + x.length ≤ eepromSize := by
  revert x
  decide

section
variable {c : Cipher} {s : State} {m m' : Memory} {index : Nat} {buffer : Option (List UInt8)}

/-- A query over memories with the same bytes has the same answer. -/
theorem report_congr (h : Keeps m m' 0 eepromSize) (plain : Option (List UInt8)) :
    report m' plain index buffer = report m plain index buffer := by
  have hslice : ∀ a n, a + n ≤ eepromSize → slice m' a n = slice m a n := fun a n hin =>
    slice_congr (h.mono (Nat.zero_le a) (by omega))
  unfold report
  split
  · next x hx => rw [hslice _ _ (settings_inside (List.mem_of_find?_eq_some hx))]
  · split
    · rfl
    · next x hx => rw [hslice _ _ (sections_inside (List.mem_of_find?_eq_some hx))]

/-- The plain section matters only to a query that opens it. -/
theorem report_plain (h : opens index buffer = false) (plain plain' : Option (List UInt8)) :
    report m plain index buffer = report m plain' index buffer := by
  unfold report
  unfold opens at h
  split
  · next x hx =>
    rw [hx] at h
    cases buffer with
    | none => rfl
    | some buffer =>
      dsimp only at h ⊢
      by_cases hsmall : buffer.length < x.length
      · rw [if_pos hsmall, if_pos hsmall]
      · have hseal : x.isSealed = false := by
          rw [Bool.and_eq_false_iff] at h
          exact h.resolve_right (by simpa using Nat.le_of_not_lt hsmall)
        rw [if_neg hsmall, if_neg hsmall, hseal]
        rfl
  · rfl

theorem openSection_congr (h : Keeps m m' 0 userChecksum) : openSection c m' = openSection c m := by
  have hhash : slice m' 0 20 = slice m 0 20 := slice_congr (h.mono (Nat.le_refl 0) (by decide))
  have hsealed : slice m' sealedOffset sealedLength = slice m sealedOffset sealedLength :=
    slice_congr (h.mono (by decide) (by decide))
  unfold openSection
  rw [hhash, hsealed]

/-! ## The invariant -/

/-- The kept image is the part's contents. -/
def Coherent (s : State) : Prop := ∀ i < eepromSize, s.image i = s.part i

/-- What was read is still what the part holds, and so is what was opened. -/
structure Inv (c : Cipher) (s : State) : Prop where
  coherent : s.loaded = true → Coherent s
  opened : ∀ {plain}, s.opened = some plain → s.loaded = true ∧ openSection c s.part = some plain

theorem Inv.load (h : Inv c s) (reads : Nat → Bool) : Inv c (nxkEepromLoad s reads) := by
  unfold nxkEepromLoad
  split
  · exact h
  · next hnot =>
    refine ⟨?_, fun hopened => absurd (h.opened hopened).1 hnot⟩
    intro hok i hi
    exact transfer_inside _ _ _ _ hok (Nat.zero_le i) (by omega)

theorem loaded_of_reads {reads : Nat → Bool} (hreads : ∀ i, reads i = true) :
    (nxkEepromLoad s reads).loaded = true := by
  unfold nxkEepromLoad
  split
  · next hloaded => exact hloaded
  · exact transfer_ok hreads _ _ _ _

theorem Inv.openSealed (h : Inv c s) (hloaded : s.loaded = true) : Inv c (nxkEepromOpen c s) := by
  unfold nxkEepromOpen
  split
  · exact h
  · refine ⟨h.coherent, fun hopened => ⟨hloaded, ?_⟩⟩
    rw [← hopened]
    have hsize : userChecksum ≤ eepromSize := by decide
    exact openSection_congr fun i _ hi => (h.coherent hloaded i (by omega)).symm

/-- What is open after `NxkEepromOpen` is what the part's sealed section opens to. -/
theorem opened_eq (h : Inv c s) (hloaded : s.loaded = true) :
    (nxkEepromOpen c s).opened = openSection c s.part := by
  unfold nxkEepromOpen
  split
  · next hsome =>
    obtain ⟨plain, hplain⟩ := Option.isSome_iff_exists.1 hsome
    rw [hplain, (h.opened hplain).2]
  · have hsize : userChecksum ≤ eepromSize := by decide
    exact openSection_congr fun i _ hi => h.coherent hloaded i (by omega)

/-! ## Saving -/

theorem savedImage_outside {offset length i : Nat} {value : List UInt8}
    (hvalue : value.length ≤ length) (hsum : i < userChecksum ∨ userChecksum + 4 ≤ i)
    (hrun : i < offset ∨ offset + length ≤ i) : savedImage m offset length value i = m i := by
  unfold savedImage
  rw [store_outside _ hsum, copy_outside (by omega),
    copy_outside (by rw [List.length_replicate]; omega)]

/-- Both runs reach the part. -/
theorem push_spec {offset length : Nat} {writes : Nat → Bool} (hwrites : ∀ k, writes k = true)
    (hoffset : userChecksum ≤ offset)
    (hrest : ∀ i < eepromSize, (i < userChecksum ∨ userChecksum + 4 ≤ i) →
      (i < offset ∨ offset + length ≤ i) → s.image i = s.part i) :
    Coherent (push s offset length writes).1 ∧
      Keeps s.part (push s offset length writes).1.part 0 userChecksum := by
  unfold push nxkEepromStore
  rw [if_pos (transfer_ok hwrites _ _ _ _)]
  dsimp only
  have hsum : (transfer s.image writes 4 0 userChecksum s.part).2 = true :=
    transfer_ok hwrites _ _ _ _
  have hrun : (transfer s.image writes length 4 offset
      (transfer s.image writes 4 0 userChecksum s.part).1).2 = true :=
    transfer_ok hwrites _ _ _ _
  constructor
  · intro i hi
    show s.image i = (transfer s.image writes length 4 offset
      (transfer s.image writes 4 0 userChecksum s.part).1).1 i
    by_cases hin : offset ≤ i ∧ i < offset + length
    · exact (transfer_inside _ _ _ _ hrun hin.1 hin.2).symm
    · rw [transfer_outside _ _ _ _ (by omega)]
      by_cases hin' : userChecksum ≤ i ∧ i < userChecksum + 4
      · exact (transfer_inside _ _ _ _ hsum hin'.1 hin'.2).symm
      · rw [transfer_outside _ _ _ _ (by omega)]
        exact hrest i hi (by omega) (by omega)
  · intro i _ hi
    rw [transfer_outside _ _ _ _ (by omega), transfer_outside _ _ _ _ (by omega)]

theorem push_frame (s : State) (offset length : Nat) (writes : Nat → Bool) :
    (push s offset length writes).1.loaded = s.loaded ∧
      (push s offset length writes).1.opened = s.opened := by
  unfold push nxkEepromStore
  dsimp only
  split <;> exact ⟨rfl, rfl⟩

theorem Inv.save (h : Inv c s) {value : Option (List UInt8)} {reads writes : Nat → Bool}
    (hwrites : ∀ k, writes k = true) :
    Inv c (exSaveNonVolatileSetting s index value reads writes).1 ∧
      (exSaveNonVolatileSetting s index value reads writes).1.loaded =
        (nxkEepromLoad s reads).loaded := by
  have hload := h.load reads
  unfold exSaveNonVolatileSetting
  generalize nxkEepromLoad s reads = s at hload ⊢
  dsimp only
  split
  · exact ⟨hload, rfl⟩
  · next hnot =>
    have hloaded : s.loaded = true := by simpa using hnot
    split
    · exact ⟨hload, rfl⟩
    · next offset length hrun =>
      split
      · exact ⟨hload, rfl⟩
      · next value =>
        split
        · exact ⟨hload, rfl⟩
        · next hfits =>
          obtain ⟨hoffset, -⟩ := writableRun_bounds hrun
          have hrest : ∀ i < eepromSize, (i < userChecksum ∨ userChecksum + 4 ≤ i) →
              (i < offset ∨ offset + length ≤ i) →
              savedImage s.image offset length value i = s.part i := by
            intro i hi hsum hout
            rw [← hload.coherent hloaded i hi]
            exact savedImage_outside (Nat.le_of_not_lt hfits) hsum hout
          obtain ⟨hcoherent, hkeeps⟩ := push_spec
            (s := { s with image := savedImage s.image offset length value }) hwrites hoffset hrest
          obtain ⟨hsame, hopened⟩ := push_frame
            { s with image := savedImage s.image offset length value } offset length writes
          refine ⟨⟨fun _ => hcoherent, ?_⟩, hsame⟩
          intro plain hplain
          rw [hopened] at hplain
          refine ⟨hsame.trans hloaded, ?_⟩
          rw [openSection_congr hkeeps]
          exact (hload.opened hplain).2

theorem Inv.query (h : Inv c s) (buffer : Option (List UInt8)) (reads : Nat → Bool) :
    Inv c (exQueryNonVolatileSetting c s index buffer reads).1 ∧
      (exQueryNonVolatileSetting c s index buffer reads).1.loaded =
        (nxkEepromLoad s reads).loaded := by
  have hload := h.load reads
  unfold exQueryNonVolatileSetting
  dsimp only
  split
  · exact ⟨hload, rfl⟩
  · next hnot =>
    split
    · refine ⟨hload.openSealed (by simpa using hnot), ?_⟩
      unfold nxkEepromOpen
      split <;> rfl
    · exact ⟨hload, rfl⟩

theorem Inv.apply {a : Act} (h : Inv c s) (ha : Careful a) :
    Inv c (s.apply c a) ∧ (s.apply c a).loaded = (nxkEepromLoad s a.reads).loaded := by
  cases a with
  | save index value reads writes => exact h.save ha
  | query index buffer reads => exact h.query buffer reads

theorem query_part (h : Inv c s) {reads : Nat → Bool} (hreads : ∀ i, reads i = true) :
    (exQueryNonVolatileSetting c s index buffer reads).2 =
      report (exQueryNonVolatileSetting c s index buffer reads).1.part
        (openSection c (exQueryNonVolatileSetting c s index buffer reads).1.part) index buffer := by
  have hload := h.load reads
  have hloaded := loaded_of_reads (s := s) hreads
  unfold exQueryNonVolatileSetting
  generalize nxkEepromLoad s reads = s at hload hloaded ⊢
  have hsame : Keeps s.image s.part 0 eepromSize := fun i _ hi =>
    (hload.coherent hloaded i (by omega)).symm
  rw [if_neg (by rw [hloaded]; decide)]
  dsimp only
  split
  · have hframe : (nxkEepromOpen c s).image = s.image ∧ (nxkEepromOpen c s).part = s.part := by
      unfold nxkEepromOpen
      split <;> exact ⟨rfl, rfl⟩
    rw [hframe.1, hframe.2, opened_eq hload hloaded, report_congr hsame]
  · next hopens =>
    rw [report_congr hsame]
    exact report_plain (by simpa using hopens) _ _

/-- In every run whose saves have no failing byte write, after each call the image is what the
part holds, and the answer of a query is the one over the part itself. -/
theorem eeprom_coherent (hrun : Reachable Start (CarefulStep c) s) {a : Act} (ha : Careful a)
    (hreads : ∀ i, a.reads i = true) :
    (∀ i < eepromSize, (s.apply c a).image i = (s.apply c a).part i) ∧
      ∀ index buffer reads, a = .query index buffer reads →
        (exQueryNonVolatileSetting c s index buffer reads).2 =
          report (s.apply c a).part (openSection c (s.apply c a).part) index buffer := by
  have hinv : Inv c s := by
    refine Reachable.invariant ?_ ?_ hrun
    · rintro u ⟨hloaded, hopened⟩
      exact ⟨fun h => absurd (h.symm.trans hloaded) (by decide), fun h => nomatch hopened.symm.trans h⟩
    · rintro u b v hu ⟨hb, rfl⟩
      exact (hu.apply hb).1
  obtain ⟨hafter, hloaded⟩ := hinv.apply ha
  refine ⟨hafter.coherent (hloaded.trans (loaded_of_reads hreads)), ?_⟩
  rintro index buffer reads rfl
  exact query_part hinv hreads

end

/-! ## A write that fails -/

def noCipher : Cipher := ⟨fun _ _ => [], fun _ _ => []⟩

def blank : State := ⟨fun _ => 0, fun _ => 0, false, none⟩

def every : Nat → Bool := fun _ => true

/-- The language is saved. -/
def saveLanguage (writes : Nat → Bool) : Act := .save 7 (some [1, 0, 0, 0]) every writes

/-- All writes go through: a query reports the language, and so does the part. -/
theorem eeprom_coherent_saved :
    let s := blank.apply noCipher (saveLanguage every)
    (∀ i < eepromSize, s.image i = s.part i) ∧ s.part 0x90 = 1 :=
  ⟨(eeprom_coherent (.start ⟨rfl, rfl⟩) (a := saveLanguage every)
    (fun _ => rfl) (fun _ => rfl)).1, by decide +kernel⟩

/-- The first write fails: the part has nothing of the value a query then reports. -/
theorem eeprom_stale : ∃ s, Reachable Start (Step noCipher) s ∧ s.part 0x90 = 0 ∧ s.image 0x90 = 1 ∧
    (exQueryNonVolatileSetting noCipher s 7 (some [0, 0, 0, 0]) every).2 =
      ⟨.success, some [1, 0, 0, 0], some .dword, some 4⟩ := by
  refine ⟨blank.apply noCipher (saveLanguage fun _ => false),
    .next (saveLanguage fun _ => false) (.start ⟨rfl, rfl⟩) rfl, ?_, ?_, ?_⟩
  · decide +kernel
  · decide +kernel
  · decide +kernel

end Roswell.Ports.Eeprom
