import Mathlib.Algebra.Group.Nat.Defs
import Mathlib.Data.List.Basic

/-!
# FATX directories

A directory is a file of 64-byte entries.  The first byte of an entry is the
length of its name; two values of it mark an entry that was deleted and the end
of the directory.  `liveFrom` lists the entries a reader of the directory should
see: those that are not deleted, up to the first end marker.
-/

namespace Roswell.Ports.FatxDir

open Function

/-- `FATX_DIR_ENTRY`. -/
structure DirEntry where
  filenameLength : UInt8
  attrib : UInt8
  filename : List UInt8
  filename_length : filename.length = 42
  firstCluster : UInt32
  fileSize : UInt32
  updateTime : UInt16
  updateDate : UInt16
  creationTime : UInt16
  creationDate : UInt16
  accessTime : UInt16
  accessDate : UInt16
  deriving DecidableEq

namespace DirEntry

/-- `FATX_ENTRY_END`. -/
def isEnd (e : DirEntry) : Bool := e.filenameLength == 0xff

/-- `FATX_ENTRY_DELETED`. -/
def isDeleted (e : DirEntry) : Bool := e.filenameLength == 0xe5

theorem isEnd_not_deleted {e : DirEntry} (h : e.isEnd = true) : e.isDeleted = false := by
  unfold isEnd at h
  unfold isDeleted
  rw [eq_of_beq h]
  rfl

end DirEntry

/-- A directory file: its entries, and how many of them its size covers.  The
size of a directory is a 32-bit number. -/
structure Directory where
  slot : Nat → DirEntry
  count : Nat
  size_lt : count * 64 < 2 ^ 32

namespace Directory

/-- `RFCB.FileSize`. -/
def fileSize (d : Directory) : Nat := d.count * 64

/-- The live entries among the `n` from `i` on, up to the first end marker. -/
def liveFrom (d : Directory) : Nat → Nat → List Nat
  | 0, _ => []
  | n + 1, i =>
    if (d.slot i).isEnd then []
    else if (d.slot i).isDeleted then liveFrom d n (i + 1)
    else i :: liveFrom d n (i + 1)

/-- The live entries of a directory, in on-disk order. -/
def live (d : Directory) : List Nat := d.liveFrom d.count 0

variable {d : Directory} {i n j : Nat} {rest : List Nat}

/-- The first live entry, and what follows it. -/
theorem liveFrom_cons (h : d.liveFrom n i = j :: rest) :
    i ≤ j ∧ j < i + n ∧ (d.slot j).isEnd = false ∧ (d.slot j).isDeleted = false ∧
      (∀ k, i ≤ k → k < j → (d.slot k).isDeleted = true) ∧
      rest = d.liveFrom (i + n - (j + 1)) (j + 1) := by
  fun_induction liveFrom d n i with
  | case1 | case2 => cases h
  | case3 n i he hd ih =>
    obtain ⟨h1, h2, h3, h4, h5, h6⟩ := ih h
    refine ⟨by omega, by omega, h3, h4, ?_, ?_⟩
    · intro k hk hkj
      rcases Nat.eq_or_lt_of_le hk with rfl | hk
      · exact hd
      · exact h5 k hk hkj
    · rw [h6, show i + 1 + n - (j + 1) = i + (n + 1) - (j + 1) by omega]
  | case4 n i he hd =>
    obtain ⟨rfl, rfl⟩ := List.cons.inj h
    refine ⟨Nat.le_refl _, by omega, by simpa using he, by simpa using hd,
      fun k h1 h2 => by omega, ?_⟩
    rw [show i + (n + 1) - (i + 1) = n by omega]

theorem mem_liveFrom : j ∈ d.liveFrom n i ↔ i ≤ j ∧ j < i + n ∧
    (d.slot j).isDeleted = false ∧ ∀ k, i ≤ k → k ≤ j → (d.slot k).isEnd = false := by
  -- behind a first entry that is not the end, one entry fewer is to be looked at
  have hfirst : ∀ {i}, ¬(d.slot i).isEnd = true → i < j →
      ((∀ k, i + 1 ≤ k → k ≤ j → (d.slot k).isEnd = false) ↔
        ∀ k, i ≤ k → k ≤ j → (d.slot k).isEnd = false) := by
    intro i he hij
    refine ⟨fun h k hik hkj => ?_, fun h k hik => h k (by omega)⟩
    rcases Nat.eq_or_lt_of_le hik with rfl | hik
    · simpa using he
    · exact h k hik hkj
  fun_induction liveFrom d n i with
  | case1 => exact ⟨fun h => absurd h List.not_mem_nil, fun h => by omega⟩
  | case2 n i he =>
    refine ⟨fun h => absurd h List.not_mem_nil, ?_⟩
    rintro ⟨hij, -, -, hend⟩
    simp [hend i (Nat.le_refl _) hij] at he
  | case3 n i he hd ih =>
    simp only [ih]
    by_cases hij : i < j
    · rw [hfirst he hij]
      exact and_congr (by omega) (and_congr_left' (by omega))
    · have hne : (d.slot j).isDeleted = false → i ≠ j := by
        rintro hlive rfl
        simp [hlive] at hd
      exact ⟨by omega, fun h => by have := hne h.2.2.1; omega⟩
  | case4 n i he hd ih =>
    simp only [List.mem_cons, ih]
    by_cases hij : i < j
    · rw [hfirst he hij, or_iff_right (by omega)]
      exact and_congr (by omega) (and_congr_left' (by omega))
    · constructor
      · rintro (rfl | h)
        · refine ⟨Nat.le_refl _, by omega, by simpa using hd, ?_⟩
          intro k h1 h2
          simpa [show k = j by omega] using he
        · omega
      · exact fun h => Or.inl (by omega)

/-- Looking at more entries adds live ones behind the first. -/
theorem liveFrom_add (m : Nat) :
    ∃ more, d.liveFrom (n + m) i = d.liveFrom n i ++ more ∧ ∀ j ∈ more, i + n ≤ j := by
  induction n generalizing i with
  | zero =>
    rw [Nat.zero_add]
    exact ⟨d.liveFrom m i, rfl, fun j hj => (mem_liveFrom.1 hj).1⟩
  | succ n ih =>
    obtain ⟨more, hmore, hge⟩ := ih (i := i + 1)
    have hfar : ∀ j ∈ more, i + (n + 1) ≤ j := fun j hj => by
      have := hge j hj
      omega
    rw [Nat.succ_add, liveFrom, liveFrom]
    split_ifs
    · exact ⟨[], rfl, nofun⟩
    · exact ⟨more, hmore, hfar⟩
    · exact ⟨more, by rw [hmore]; rfl, hfar⟩

/-- An entry is live if it is not deleted and no end marker stands up to it. -/
theorem mem_live : i ∈ d.live ↔ i < d.count ∧ (d.slot i).isDeleted = false ∧
    ∀ k, k ≤ i → (d.slot k).isEnd = false := by
  unfold live
  rw [mem_liveFrom]
  constructor
  · rintro ⟨-, h2, h3, h4⟩
    exact ⟨by omega, h3, fun k hk => h4 k (Nat.zero_le k) hk⟩
  · rintro ⟨h2, h3, h4⟩
    exact ⟨Nat.zero_le i, by omega, h3, fun k _ hk => h4 k hk⟩

/-- Overwrite an entry. -/
def setSlot (d : Directory) (i : Nat) (e : DirEntry) : Directory :=
  { d with slot := update d.slot i e }

@[simp] theorem setSlot_slot_self (d : Directory) (i : Nat) (e : DirEntry) :
    (d.setSlot i e).slot i = e := by
  simp [setSlot]

theorem setSlot_slot_of_ne (d : Directory) (e : DirEntry) (h : j ≠ i) :
    (d.setSlot i e).slot j = d.slot j := by
  simp [setSlot, update_of_ne h]

end Directory

end Roswell.Ports.FatxDir
