import Mathlib.Algebra.Group.Nat.Defs
import Mathlib.Data.List.Basic

/-!
# Names in object attributes

Model of `XeTranslateOa`, which turns the object attributes a title passes into those of the
object manager.  A drive-letter path, and a relative name under the pseudo root of the DOS
devices, are rewritten in a scratch buffer whose length is a `USHORT`.
-/

namespace Roswell.Ports.TranslateOa

structure AnsiString where
  buffer : List UInt8
  fits : buffer.length < 2 ^ 16

/-- `XBE_OBJECT_ATTRIBUTES`. -/
structure XboxAttributes where
  rootDirectory : UInt32
  objectName : Option AnsiString
  attributes : UInt32

/-- The translated attributes; no name is a `NULL` buffer. -/
structure NtAttributes where
  objectName : Option (List UInt16)
  attributes : UInt32
  rootDirectory : UInt32

/-- The buffer from the pool: the size it was asked with and the bytes stored from its start. -/
structure Scratch where
  size : Nat
  stored : List UInt8

/-- What the callees answer: whether the pool and the string memory grant a size, and the handle
of the directory of named objects. -/
structure Callees where
  exAllocatePoolWithTag : Nat → Bool
  rtlpAllocateStringMemory : Nat → Bool
  xeNamedObjectRoot : UInt32

def widen (bytes : List UInt8) : List UInt16 := bytes.map UInt8.toUInt16

variable (c : Callees)

def rtlAnsiStringToUnicodeString (source : List UInt8) : Option (List UInt16) :=
  let length := (source.length + 1) * 2
  if 65535 < length then none
  else if c.rtlpAllocateStringMemory length then some (widen source) else none

/-- `\??\`. -/
def dosPrefix : List UInt8 := [0x5C, 0x3F, 0x3F, 0x5C]

def isDrivePath : List UInt8 → Bool
  | drive :: colon :: _ =>
    (0x41 ≤ drive && drive ≤ 0x5A || 0x61 ≤ drive && drive ≤ 0x7A) && colon == 0x3A
  | _ => false

def isRelative : List UInt8 → Bool
  | first :: _ => first != 0x5C
  | [] => false

/-- The allocation and the two copies of either rewrite. -/
def dosCopy (name : List UInt8) : Option Scratch :=
  let total := (dosPrefix.length + name.length) % 2 ^ 16
  if c.exAllocatePoolWithTag total then some ⟨total, dosPrefix ++ name⟩ else none

/-- The conversion of the string `Dos`, as long as the buffer was asked to be. -/
def dosName (buf : Scratch) : Option (List UInt16) :=
  rtlAnsiStringToUnicodeString c (buf.stored.take buf.size)

/-- The handles `-3` and `-4`. -/
def dosDevices : UInt32 := 0xFFFFFFFD

def namedObjects : UInt32 := 0xFFFFFFFC

/-- The name, the root directory and the scratch buffer for one name. -/
def translateName (root : UInt32) (name : List UInt8) :
    Option (List UInt16) × UInt32 × Option Scratch :=
  if isDrivePath name then
    match dosCopy c name with
    | some buf => (dosName c buf, 0, some buf)
    | none => (rtlAnsiStringToUnicodeString c name, root, none)
  else if root = dosDevices && isRelative name then
    match dosCopy c name with
    | some buf => (dosName c buf, 0, some buf)
    | none => (none, 0, none)
  else
    (rtlAnsiStringToUnicodeString c name,
      if root = 0 && isRelative name then c.xeNamedObjectRoot else root, none)

def xeTranslateOa : Option XboxAttributes → Option (NtAttributes × Option Scratch)
  | none => none
  | some xbox =>
    let root := if xbox.rootDirectory = namedObjects then c.xeNamedObjectRoot
      else xbox.rootDirectory
    match xbox.objectName with
    | none => some (⟨none, xbox.attributes, root⟩, none)
    | some ansi =>
      let (name, root, buf) := translateName c root ansi.buffer
      some (⟨name, xbox.attributes, root⟩, buf)

/-- The names the translation rewrites. -/
def Rewritten (root : UInt32) (name : List UInt8) : Prop :=
  isDrivePath name ∨ root = dosDevices ∧ isRelative name

/-- Nothing is stored past the scratch buffer, and the name is the whole one or none. -/
def Whole (name : List UInt8) (wide : Option (List UInt16)) (buf : Option Scratch) : Prop :=
  (∀ b ∈ buf, b.stored.length ≤ b.size) ∧
    (wide = none ∨ wide = some (widen (dosPrefix ++ name)))

/-- The pool grants the scratch buffer and the total length is a `USHORT`; or it does not, and
then a drive-letter path cannot be converted either. -/
def Rewritable (name : List UInt8) : Prop :=
  if c.exAllocatePoolWithTag ((4 + name.length) % 2 ^ 16) then 4 + name.length < 2 ^ 16
  else isDrivePath name →
    65535 < (name.length + 1) * 2 ∨ c.rtlpAllocateStringMemory ((name.length + 1) * 2) = false

variable {c} {root : UInt32} {name : List UInt8}

theorem rtlAnsiStringToUnicodeString_cases (c : Callees) (source : List UInt8) :
    rtlAnsiStringToUnicodeString c source = none ∨
      rtlAnsiStringToUnicodeString c source = some (widen source) := by
  grind [rtlAnsiStringToUnicodeString]

theorem rtlAnsiStringToUnicodeString_eq_none (c : Callees) (source : List UInt8) :
    rtlAnsiStringToUnicodeString c source = none ↔
      65535 < (source.length + 1) * 2 ∨
        c.rtlpAllocateStringMemory ((source.length + 1) * 2) = false := by
  grind [rtlAnsiStringToUnicodeString]

/-- The bare name is never the rewritten one. -/
theorem widen_ne (name : List UInt8) : widen name ≠ widen (dosPrefix ++ name) := by
  intro h
  have hlen := congrArg List.length h
  simp [widen, dosPrefix] at hlen
  omega

/-- A rewrite in a granted buffer is whole iff the buffer holds it. -/
theorem whole_copied (c : Callees) (name : List UInt8) :
    Whole name (dosName c ⟨(4 + name.length) % 2 ^ 16, dosPrefix ++ name⟩)
        (some ⟨(4 + name.length) % 2 ^ 16, dosPrefix ++ name⟩) ↔
      4 + name.length < 2 ^ 16 := by
  have hlen : (dosPrefix ++ name).length = 4 + name.length := by simp [dosPrefix]; omega
  constructor
  · intro h
    have hstored := h.1 _ rfl
    dsimp only at hstored
    omega
  · intro h
    rw [Nat.mod_eq_of_lt h]
    constructor
    · rintro b ⟨⟩
      exact Nat.le_of_eq hlen
    · have hall : (dosPrefix ++ name).take (4 + name.length) = dosPrefix ++ name :=
        List.take_of_length_le (Nat.le_of_eq hlen)
      rw [dosName, hall]
      exact rtlAnsiStringToUnicodeString_cases c _

theorem whole_iff (h : Rewritten root name) :
    Whole name (translateName c root name).1 (translateName c root name).2.2 ↔
      Rewritable c name := by
  unfold Rewritable translateName dosCopy
  by_cases hpool : c.exAllocatePoolWithTag ((4 + name.length) % 2 ^ 16)
  · have hcopied := whole_copied c name
    by_cases hdrive : isDrivePath name <;> grind [Rewritten, dosPrefix]
  · by_cases hdrive : isDrivePath name
    · have hnone := rtlAnsiStringToUnicodeString_eq_none c name
      have hwhole := rtlAnsiStringToUnicodeString_cases c name
      grind [Whole, dosPrefix, widen_ne]
    · grind [Rewritten, Whole, dosPrefix]

/-- A name that has to be rewritten comes out whole or not at all, with no store past the buffer,
exactly when it is `Rewritable`. -/
theorem xeTranslateOa_whole_iff (c : Callees) (xbox : XboxAttributes) (ansi : AnsiString)
    (hname : xbox.objectName = some ansi) (h : Rewritten xbox.rootDirectory ansi.buffer) :
    (∃ nt buf, xeTranslateOa c (some xbox) = some (nt, buf) ∧
        Whole ansi.buffer nt.objectName buf) ↔
      Rewritable c ansi.buffer := by
  have hroot : Rewritten (if xbox.rootDirectory = namedObjects then c.xeNamedObjectRoot
      else xbox.rootDirectory) ansi.buffer := by
    rcases h with hdrive | ⟨hroot, hrel⟩
    · exact .inl hdrive
    · rw [hroot, if_neg (by decide)]
      exact .inr ⟨rfl, hrel⟩
  rw [← whole_iff hroot]
  simp [xeTranslateOa, hname]

/-- A path the pool and the string memory serve. -/
theorem xeTranslateOa_whole_drive :
    ∃ nt buf, xeTranslateOa ⟨fun _ => true, fun _ => true, 0⟩
        (some ⟨0, some ⟨[0x5A, 0x3A], by decide⟩, 0⟩) = some (nt, buf) ∧
      Whole [0x5A, 0x3A] nt.objectName buf :=
  (xeTranslateOa_whole_iff _ _ ⟨[0x5A, 0x3A], by decide⟩ rfl (.inl rfl)).2 (by simp [Rewritable])

/-- A drive-letter path of 65535 bytes. -/
def longPath : AnsiString where
  buffer := [0x5A, 0x3A] ++ List.replicate 65533 0x41
  fits := by rw [List.length_append, List.length_replicate]; decide

theorem overruns_of_length {path : AnsiString} (hlen : path.buffer.length = 65535)
    (hdrive : isDrivePath path.buffer = true)
    (htake : (dosPrefix ++ path.buffer).take 3 = [0x5C, 0x3F, 0x3F]) :
    ∃ nt buf, xeTranslateOa ⟨fun _ => true, fun _ => true, 0⟩ (some ⟨0, some path, 0⟩) =
        some (nt, some buf) ∧
      buf.size = 3 ∧ buf.stored.length = 65539 ∧
      nt.objectName = some (widen [0x5C, 0x3F, 0x3F]) := by
  have hprefix : dosPrefix.length = 4 := rfl
  simp [xeTranslateOa, translateName, hdrive, dosCopy, dosName, hlen, htake, hprefix,
    rtlAnsiStringToUnicodeString]

/-- 65539 bytes are stored in a buffer of three. -/
theorem xeTranslateOa_overruns :
    ∃ nt buf, xeTranslateOa ⟨fun _ => true, fun _ => true, 0⟩ (some ⟨0, some longPath, 0⟩) =
        some (nt, some buf) ∧
      buf.size = 3 ∧ buf.stored.length = 65539 ∧
      nt.objectName = some (widen [0x5C, 0x3F, 0x3F]) := by
  have hlen : longPath.buffer.length = 65535 := by
    rw [longPath, List.length_append, List.length_replicate]; rfl
  exact overruns_of_length hlen rfl rfl

end Roswell.Ports.TranslateOa
