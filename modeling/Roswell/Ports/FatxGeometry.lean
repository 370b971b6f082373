import Roswell.Verified.Word

/-!
# The geometry of a FATX volume

Model of the FATX branch of `VfatHasFileSystem`, which derives the layout of a
volume from the length of the partition, the sector size of the device and the
superblock.  All of it is unsigned 32-bit arithmetic.

A volume is laid out as superblock, FAT copies, root directory and clusters.
`Sound` says that the numbers describe such a layout: each cluster has its entry
in the FAT and its sectors in the partition, and no cluster lies in a FAT.
`sound_iff` gives the partition lengths and superblocks for which this is so.
-/

namespace Roswell.Ports.FatxGeometry

open Verified.Word

/-- The fields of `struct _BootSectorFatX` that are read. -/
structure BootSectorFatX where
  sysType : List UInt8
  volumeID : UInt32
  sectorsPerCluster : UInt32
  fatCount : UInt16

inductive FatType where
  | fatx16
  | fatx32
  deriving DecidableEq, Repr

/-- Bytes of a FAT entry. -/
def FatType.width : FatType → Nat
  | .fatx16 => 2
  | .fatx32 => 4

structure FatInfo where
  volumeID : Nat
  fatStart : Nat
  fatCount : Nat
  fatSectors : Nat
  rootDirectorySectors : Nat
  rootStart : Nat
  dataStart : Nat
  rootCluster : Nat
  sectorsPerCluster : Nat
  bytesPerSector : Nat
  bytesPerCluster : Nat
  numberOfClusters : Nat
  fatType : FatType
  sectors : Nat
  deriving DecidableEq, Repr

/-- `sizeof(struct _BootSectorFatX)`. -/
def bootSectorSize : Nat := 4096

/-- `ROUND_UP(n, 4096)`. -/
def roundUpPage (n : Nat) : Nat := alignDown (wadd n 4095) 4096

def clusterSizes : List Nat := [1, 2, 4, 8, 16, 32, 64, 128]

/-- The numbers derived from an accepted superblock. -/
def fatInfo (bytesPerSector partitionLength : Nat) (boot : BootSectorFatX) : FatInfo :=
  let sectorsPerCluster := boot.sectorsPerCluster.toNat
  let sectors := partitionLength / bytesPerSector % 2 ^ 32
  let fatType := if sectors / sectorsPerCluster < 65525 then .fatx16 else .fatx32
  let fatStart := bootSectorSize / bytesPerSector
  let fatSectors := roundUpPage (wmul (sectors / sectorsPerCluster) fatType.width) / bytesPerSector
  let rootStart := wadd fatStart (wmul boot.fatCount.toNat fatSectors)
  let dataStart := wadd rootStart sectorsPerCluster
  { volumeID := boot.volumeID.toNat
    fatStart := fatStart
    fatCount := boot.fatCount.toNat
    fatSectors := fatSectors
    rootDirectorySectors := sectorsPerCluster
    rootStart := rootStart
    dataStart := dataStart
    rootCluster := wsub rootStart 1 / sectorsPerCluster
    sectorsPerCluster := sectorsPerCluster
    bytesPerSector := bytesPerSector
    bytesPerCluster := wmul sectorsPerCluster bytesPerSector
    numberOfClusters := wsub sectors dataStart / sectorsPerCluster
    fatType := fatType
    sectors := sectors }

/-- `none` when the superblock is not recognised. -/
def vfatHasFileSystem (bytesPerSector partitionLength : Nat) (boot : BootSectorFatX) :
    Option FatInfo :=
  if boot.sysType ≠ [0x46, 0x41, 0x54, 0x58] then none
  else if boot.sectorsPerCluster.toNat ∉ clusterSizes then none
  else some (fatInfo bytesPerSector partitionLength boot)

namespace FatInfo

/-- Where `FAT16GetNextCluster` and `FAT32GetNextCluster` look for an entry, in
bytes from the start of the FAT. -/
def fatOffset (f : FatInfo) (cluster : Nat) : Nat := wmul cluster f.fatType.width

def clusterToSector (f : FatInfo) (cluster : Nat) : Nat :=
  f.dataStart + wsub cluster 2 * f.sectorsPerCluster

def IsCluster (f : FatInfo) (cluster : Nat) : Prop :=
  2 ≤ cluster ∧ cluster < f.numberOfClusters + 2

/-- The entry of a cluster lies in the sectors of the FAT. -/
def EntryInside (f : FatInfo) (cluster : Nat) : Prop :=
  f.fatStart * f.bytesPerSector + f.fatOffset cluster + f.fatType.width ≤
    (f.fatStart + f.fatSectors) * f.bytesPerSector

/-- A sector of a cluster. -/
def InCluster (f : FatInfo) (cluster sector : Nat) : Prop :=
  f.clusterToSector cluster ≤ sector ∧
    sector < f.clusterToSector cluster + f.sectorsPerCluster

/-- A sector of a copy of the FAT.  The first copy is read whatever their number
is. -/
def InFat (f : FatInfo) (sector : Nat) : Prop :=
  ∃ i, i < max 1 f.fatCount ∧ f.fatStart + i * f.fatSectors ≤ sector ∧
    sector < f.fatStart + (i + 1) * f.fatSectors

/-- What the driver relies on, for a partition of so many sectors. -/
structure Sound (f : FatInfo) (partitionSectors : Nat) : Prop where
  entry : ∀ c, f.IsCluster c → f.EntryInside c
  data : ∀ c, f.IsCluster c → ∀ x, f.InCluster c x → x < partitionSectors
  apart : ∀ c, f.IsCluster c → ∀ x, f.InCluster c x → ¬f.InFat x

end FatInfo

/-! ## The layout in plain arithmetic -/

/-- Bytes of a FAT entry for a partition of so many sectors. -/
def entryWidth (sectors spc : Nat) : Nat := if sectors % 2 ^ 32 / spc < 65525 then 2 else 4

/-- Pages of 4 KiB the FAT is given. -/
def fatPages (sectors spc : Nat) : Nat :=
  (sectors % 2 ^ 32 / spc * entryWidth sectors spc + 4095) % 2 ^ 32 / 4096

/-- Sectors of superblock, FAT copies and root directory. -/
def reserved (bytesPerSector sectors spc fatCount : Nat) : Nat :=
  4096 / bytesPerSector * (1 + fatCount * fatPages sectors spc) + spc

/-- The length of the partition as 32-bit subtraction sees it: the least number,
equal to it modulo `2 ^ 32`, that holds the reserved sectors. -/
def seenSectors (sectors reserved : Nat) : Nat :=
  reserved + (sectors + (2 ^ 32 - reserved % 2 ^ 32)) % 2 ^ 32

/-- The partition is too short for a cluster, or it holds the reserved sectors
and no more clusters than the pages of the FAT have entries for; without a FAT
copy, the FAT that is read has to lie under the root directory. -/
def Roomy (bytesPerSector sectors spc fatCount : Nat) : Prop :=
  let r := reserved bytesPerSector sectors spc fatCount
  let n := seenSectors sectors r
  n < r + spc ∨
    (r < 2 ^ 32 ∧ n ≤ sectors ∧
      (fatCount = 0 → 4096 / bytesPerSector * fatPages sectors spc ≤ spc) ∧
      n < r + (4096 * fatPages sectors spc / entryWidth sectors spc - 1) * spc)

theorem roundUpPage_eq (n : Nat) : roundUpPage n = (n + 4095) % 2 ^ 32 / 4096 * 4096 := by
  have h : alignDown (wadd n 4095) 4096 = roundDown (wadd n 4095) 4096 :=
    alignDown_two_pow (k := 12) (wadd_lt _ _) (by decide)
  rw [roundUpPage, h, roundDown, wadd_eq]

section Fields

variable (B P : Nat) (boot : BootSectorFatX)

theorem fatInfo_width :
    (fatInfo B P boot).fatType.width = entryWidth (P / B) boot.sectorsPerCluster.toNat := by
  unfold fatInfo entryWidth
  dsimp only
  split
  · rfl
  · rfl

variable {B}

theorem sectorSize_pos (hB : B ∣ 4096) : 0 < B := Nat.pos_of_dvd_of_pos hB (by decide)

theorem fatInfo_fatSectors (hB : B ∣ 4096) :
    (fatInfo B P boot).fatSectors =
      4096 / B * fatPages (P / B) boot.sectorsPerCluster.toNat := by
  have hdef : (fatInfo B P boot).fatSectors =
      roundUpPage (wmul (P / B % 2 ^ 32 / boot.sectorsPerCluster.toNat)
        (fatInfo B P boot).fatType.width) / B := rfl
  rw [hdef, fatInfo_width, roundUpPage_eq, wmul, Nat.mod_add_mod, Nat.mul_div_assoc _ hB,
    Nat.mul_comm]
  rfl

theorem fatInfo_dataStart (hB : B ∣ 4096) :
    (fatInfo B P boot).dataStart =
      reserved B (P / B) boot.sectorsPerCluster.toNat boot.fatCount.toNat % 2 ^ 32 := by
  have hdef : (fatInfo B P boot).dataStart =
      wadd (wadd (4096 / B) (wmul boot.fatCount.toNat (fatInfo B P boot).fatSectors))
        boot.sectorsPerCluster.toNat := rfl
  rw [hdef, fatInfo_fatSectors P boot hB, wmul, wadd_eq, wadd_eq]
  unfold reserved
  rw [Nat.mod_add_mod, Nat.mul_add, Nat.mul_one, Nat.mul_left_comm boot.fatCount.toNat]
  omega

theorem fatInfo_numberOfClusters (hB : B ∣ 4096) :
    (fatInfo B P boot).numberOfClusters =
      (P / B + (2 ^ 32 - reserved B (P / B) boot.sectorsPerCluster.toNat boot.fatCount.toNat %
        2 ^ 32)) % 2 ^ 32 / boot.sectorsPerCluster.toNat := by
  have hdef : (fatInfo B P boot).numberOfClusters =
      wsub (P / B % 2 ^ 32) (fatInfo B P boot).dataStart / boot.sectorsPerCluster.toNat := rfl
  rw [hdef, fatInfo_dataStart P boot hB, wsub_eq, Nat.mod_mod, Nat.mod_add_mod]

theorem fatPages_lt (sectors spc : Nat) : 4096 * fatPages sectors spc < 2 ^ 32 := by
  unfold fatPages
  omega

end Fields

/-! ## What the parts of `Sound` come to -/

/-- The entries of all clusters lie in the FAT when that of the last does.  The
first entry past the FAT has an offset that does not wrap yet. -/
theorem entries_iff {n w pages : Nat} (hw : w = 2 ∨ w = 4) (hpages : 4096 * pages < 2 ^ 32) :
    (∀ c, 2 ≤ c → c < n + 2 → c * w % 2 ^ 32 + w ≤ 4096 * pages) ↔
      n = 0 ∨ n + 2 ≤ 4096 * pages / w := by
  constructor
  · intro h
    by_contra hc
    have hpast := h (max 2 (4096 * pages / w)) (by omega) (by omega)
    rcases hw with rfl | rfl
    · omega
    · omega
  · intro h c h1 h2
    rcases hw with rfl | rfl
    · omega
    · omega

namespace FatInfo

variable {f : FatInfo}

/-- The sectors of all clusters together. -/
theorem inCluster_iff (hspc : 0 < f.sectorsPerCluster) (hn : f.numberOfClusters < 2 ^ 32) (x : Nat) :
    (∃ c, f.IsCluster c ∧ f.InCluster c x) ↔
      f.dataStart ≤ x ∧ x < f.dataStart + f.numberOfClusters * f.sectorsPerCluster := by
  have hsub : ∀ c, f.IsCluster c → wsub c 2 = c - 2 := by
    rintro c ⟨h1, h2⟩
    rw [wsub_eq]
    omega
  constructor
  · rintro ⟨c, hc, h1, h2⟩
    unfold clusterToSector at h1 h2
    rw [hsub c hc] at h1 h2
    obtain ⟨h3, h4⟩ := hc
    have hle : (c - 2 + 1) * f.sectorsPerCluster ≤ f.numberOfClusters * f.sectorsPerCluster :=
      Nat.mul_le_mul_right _ (by omega)
    rw [Nat.add_mul, Nat.one_mul] at hle
    omega
  · rintro ⟨h1, h2⟩
    have hc : f.IsCluster (2 + (x - f.dataStart) / f.sectorsPerCluster) := by
      have : (x - f.dataStart) / f.sectorsPerCluster < f.numberOfClusters :=
        (Nat.div_lt_iff_lt_mul hspc).2 (by omega)
      exact ⟨Nat.le_add_right _ _, by omega⟩
    refine ⟨_, hc, ?_⟩
    have hdiv := Nat.div_add_mod' (x - f.dataStart) f.sectorsPerCluster
    have hmod := Nat.mod_lt (x - f.dataStart) hspc
    unfold InCluster clusterToSector
    rw [hsub _ hc, Nat.add_sub_cancel_left]
    omega

/-- The sectors of all copies of the FAT together. -/
theorem inFat_iff (x : Nat) :
    f.InFat x ↔ f.fatStart ≤ x ∧ x < f.fatStart + max 1 f.fatCount * f.fatSectors := by
  constructor
  · rintro ⟨i, hi, h1, h2⟩
    have hle : (i + 1) * f.fatSectors ≤ max 1 f.fatCount * f.fatSectors :=
      Nat.mul_le_mul_right _ hi
    omega
  · rintro ⟨h1, h2⟩
    have hpos : 0 < f.fatSectors := by
      rcases Nat.eq_zero_or_pos f.fatSectors with h0 | h0
      · rw [h0] at h2
        omega
      · exact h0
    have hdiv := Nat.div_add_mod' (x - f.fatStart) f.fatSectors
    have hmod := Nat.mod_lt (x - f.fatStart) hpos
    refine ⟨(x - f.fatStart) / f.fatSectors, ?_, by omega, ?_⟩
    · exact (Nat.div_lt_iff_lt_mul hpos).2 (by omega)
    · rw [Nat.add_mul, Nat.one_mul]
      omega

/-- `Sound` as bounds on the two areas. -/
theorem sound_iff_areas (hspc : 0 < f.sectorsPerCluster) (hn : f.numberOfClusters < 2 ^ 32)
    (sectors : Nat) :
    f.Sound sectors ↔ (∀ c, f.IsCluster c → f.EntryInside c) ∧
      ∀ x, f.dataStart ≤ x → x < f.dataStart + f.numberOfClusters * f.sectorsPerCluster →
        x < sectors ∧ ¬(f.fatStart ≤ x ∧ x < f.fatStart + max 1 f.fatCount * f.fatSectors) := by
  constructor
  · rintro ⟨hentry, hdata, hapart⟩
    refine ⟨hentry, ?_⟩
    intro x h1 h2
    obtain ⟨c, hc, hx⟩ := (inCluster_iff hspc hn x).2 ⟨h1, h2⟩
    exact ⟨hdata c hc x hx, fun hfat => hapart c hc x hx ((inFat_iff x).2 hfat)⟩
  · rintro ⟨hentry, hareas⟩
    have hboth : ∀ c, f.IsCluster c → ∀ x, f.InCluster c x →
        x < sectors ∧ ¬(f.fatStart ≤ x ∧ x < f.fatStart + max 1 f.fatCount * f.fatSectors) := by
      intro c hc x hx
      obtain ⟨h1, h2⟩ := (inCluster_iff hspc hn x).1 ⟨c, hc, hx⟩
      exact hareas x h1 h2
    refine ⟨hentry, fun c hc x hx => (hboth c hc x hx).1, ?_⟩
    intro c hc x hx hfat
    exact (hboth c hc x hx).2 ((inFat_iff x).1 hfat)

end FatInfo

/-- A partition hardly longer than the superblock has a FAT of a few pages, and
the reserved sectors of any number of copies fit in 32 bits. -/
theorem reserved_lt_of_short {B sectors spc fatCount : Nat} (hspc : 0 < spc) (hle : spc ≤ 128)
    (hcount : fatCount < 2 ^ 16) (hshort : sectors % 2 ^ 32 < 4096 / B + spc) :
    reserved B sectors spc fatCount < 2 ^ 32 := by
  have hF : 4096 / B ≤ 4096 := Nat.div_le_self 4096 B
  have hq : sectors % 2 ^ 32 / spc ≤ 4224 :=
    Nat.le_trans (Nat.div_le_self _ _) (by omega)
  have hw : entryWidth sectors spc ≤ 4 := by
    unfold entryWidth
    split <;> omega
  have hk : fatPages sectors spc ≤ 5 := by
    have hprod : sectors % 2 ^ 32 / spc * entryWidth sectors spc ≤ 4224 * 4 :=
      Nat.mul_le_mul hq hw
    unfold fatPages
    omega
  have hcopies : fatCount * fatPages sectors spc ≤ 65535 * 5 := Nat.mul_le_mul (by omega) hk
  have hall : 4096 / B * (1 + fatCount * fatPages sectors spc) ≤ 4096 * (1 + 65535 * 5) :=
    Nat.mul_le_mul hF (by omega)
  unfold reserved
  omega

/-- With clusters and FAT entries for them, the two areas are in order exactly
when nothing wrapped and the FAT that is read precedes the data. -/
theorem areas_iff {B sectors spc fatCount n : Nat} (hB : B ∣ 4096) (hspc : 0 < spc)
    (hle : spc ≤ 128) (hcount : fatCount < 2 ^ 16)
    (hn : n = (sectors + (2 ^ 32 - reserved B sectors spc fatCount % 2 ^ 32)) % 2 ^ 32 / spc)
    (hn0 : n ≠ 0) (hpages : fatPages sectors spc ≠ 0) :
    (∀ x, reserved B sectors spc fatCount % 2 ^ 32 ≤ x →
      x < reserved B sectors spc fatCount % 2 ^ 32 + n * spc →
        x < sectors ∧ ¬(4096 / B ≤ x ∧
          x < 4096 / B + max 1 fatCount * (4096 / B * fatPages sectors spc))) ↔
      reserved B sectors spc fatCount < 2 ^ 32 ∧
        seenSectors sectors (reserved B sectors spc fatCount) ≤ sectors ∧
        (fatCount = 0 → 4096 / B * fatPages sectors spc ≤ spc) := by
  have hF : 0 < 4096 / B := Nat.div_pos (Nat.le_of_dvd (by decide) hB) (sectorSize_pos hB)
  have hfats : 0 < 4096 / B * fatPages sectors spc := Nat.mul_pos hF (by omega)
  have hshort : sectors % 2 ^ 32 < 4096 / B + spc →
      reserved B sectors spc fatCount < 2 ^ 32 := reserved_lt_of_short hspc hle hcount
  unfold seenSectors
  -- the copies of the FAT, and what the last one leaves before the data
  have hcopies : reserved B sectors spc fatCount =
      4096 / B + fatCount * (4096 / B * fatPages sectors spc) + spc := by
    unfold reserved
    rw [Nat.mul_add, Nat.mul_one, Nat.mul_left_comm]
  obtain ⟨r, hr⟩ : ∃ r, reserved B sectors spc fatCount = r := ⟨_, rfl⟩
  obtain ⟨left, hleft⟩ : ∃ left, (sectors + (2 ^ 32 - r % 2 ^ 32)) % 2 ^ 32 = left := ⟨_, rfl⟩
  rw [hr] at hn hshort hcopies ⊢
  rw [hleft] at hn ⊢
  have hlow : n * spc ≤ left := by
    rw [hn]
    exact Nat.div_mul_le_self left spc
  have hhigh : left < n * spc + spc := by
    have := Nat.lt_div_mul_add (a := left) hspc
    rwa [← hn] at this
  have hone : spc ≤ n * spc := Nat.le_mul_of_pos_left spc (by omega)
  have hmax : max 1 fatCount * (4096 / B * fatPages sectors spc) =
      if fatCount = 0 then 4096 / B * fatPages sectors spc
      else fatCount * (4096 / B * fatPages sectors spc) := by
    split_ifs with h0
    · rw [h0, Nat.max_eq_left (by omega), Nat.one_mul]
    · rw [Nat.max_eq_right (by omega)]
  rw [hmax]
  obtain ⟨fat, hfat⟩ : ∃ fat, 4096 / B * fatPages sectors spc = fat := ⟨_, rfl⟩
  obtain ⟨fats, hfats'⟩ : ∃ fats, fatCount * fat = fats := ⟨_, rfl⟩
  obtain ⟨d, hd⟩ : ∃ d, n * spc = d := ⟨_, rfl⟩
  rw [hfat] at hcopies hfats ⊢
  have hzero : fatCount = 0 → fats = 0 := by
    rintro rfl
    rw [← hfats', Nat.zero_mul]
  constructor
  · intro h
    have hwrap : r < 2 ^ 32 := by
      by_contra hge
      have h0 : fatCount ≠ 0 := by
        intro h0
        omega
      rw [if_neg h0] at h
      have hx := (h (max (r % 2 ^ 32) (4096 / B)) (by omega) (by omega)).2
      omega
    have hlast := (h (r % 2 ^ 32 + d - 1) (by omega) (by omega)).1
    refine ⟨hwrap, by omega, ?_⟩
    intro h0
    have hfirst := (h (r % 2 ^ 32) (Nat.le_refl _) (by omega)).2
    rw [if_pos h0] at hfirst
    omega
  · rintro ⟨hwrap, hseen, hnofat⟩ x h1 h2
    refine ⟨by omega, ?_⟩
    split_ifs with h0
    · omega
    · omega

/-- `Roomy` in terms of the clusters that are left. -/
theorem roomy_iff {B sectors spc fatCount n : Nat} (hspc : 0 < spc)
    (hn : n = (sectors + (2 ^ 32 - reserved B sectors spc fatCount % 2 ^ 32)) % 2 ^ 32 / spc) :
    Roomy B sectors spc fatCount ↔ n = 0 ∨
      (reserved B sectors spc fatCount < 2 ^ 32 ∧
        seenSectors sectors (reserved B sectors spc fatCount) ≤ sectors ∧
        (fatCount = 0 → 4096 / B * fatPages sectors spc ≤ spc) ∧
        n + 2 ≤ 4096 * fatPages sectors spc / entryWidth sectors spc) := by
  unfold Roomy seenSectors
  generalize hleft : (sectors + (2 ^ 32 - reserved B sectors spc fatCount % 2 ^ 32)) % 2 ^ 32 = left
  generalize he : 4096 * fatPages sectors spc / entryWidth sectors spc = e
  rw [hleft] at hn
  have hnone : left < spc ↔ n = 0 := by
    rw [hn, Nat.div_eq_zero_iff]
    omega
  have hfit : left < (e - 1) * spc ↔ n + 2 ≤ e := by
    rw [← Nat.div_lt_iff_lt_mul hspc, ← hn]
    omega
  simp only [hleft, Nat.add_lt_add_iff_left, hnone, hfit]

theorem clusterSizes_two_pow {n : Nat} (h : n ∈ clusterSizes) : ∃ j ≤ 7, n = 2 ^ j := by
  revert n
  decide

theorem clusterSizes_bounds {n : Nat} (h : n ∈ clusterSizes) : 0 < n ∧ n ≤ 128 := by
  revert n
  decide

theorem entryInside_iff {B P : Nat} {boot : BootSectorFatX} (hB : B ∣ 4096) :
    (∀ c, (fatInfo B P boot).IsCluster c → (fatInfo B P boot).EntryInside c) ↔
      (fatInfo B P boot).numberOfClusters = 0 ∨ (fatInfo B P boot).numberOfClusters + 2 ≤
        4096 * fatPages (P / B) boot.sectorsPerCluster.toNat /
          entryWidth (P / B) boot.sectorsPerCluster.toNat := by
  have hw : entryWidth (P / B) boot.sectorsPerCluster.toNat = 2 ∨
      entryWidth (P / B) boot.sectorsPerCluster.toNat = 4 := by
    unfold entryWidth
    split
    · exact .inl rfl
    · exact .inr rfl
  have hbytes : (fatInfo B P boot).fatSectors * B =
      4096 * fatPages (P / B) boot.sectorsPerCluster.toNat := by
    rw [fatInfo_fatSectors P boot hB, Nat.mul_right_comm, Nat.div_mul_cancel hB]
  -- an entry is inside when it is inside the bytes of the FAT
  have hinside : ∀ c, (fatInfo B P boot).EntryInside c ↔
      c * entryWidth (P / B) boot.sectorsPerCluster.toNat % 2 ^ 32 +
        entryWidth (P / B) boot.sectorsPerCluster.toNat ≤
          4096 * fatPages (P / B) boot.sectorsPerCluster.toNat := by
    intro c
    unfold FatInfo.EntryInside FatInfo.fatOffset wmul
    rw [fatInfo_width, Nat.add_mul]
    change _ ≤ (fatInfo B P boot).fatStart * B + (fatInfo B P boot).fatSectors * B ↔ _
    change (fatInfo B P boot).fatStart * B + _ + _ ≤ _ ↔ _
    omega
  rw [← entries_iff hw (fatPages_lt _ _)]
  constructor
  · intro h c h1 h2
    exact (hinside c).1 (h c ⟨h1, h2⟩)
  · intro h c hc
    exact (hinside c).2 (h c hc.1 hc.2)

/-- The superblocks and partition lengths for which the derived layout is sound,
on a device whose sectors divide a page. -/
theorem sound_iff_roomy {B P : Nat} {boot : BootSectorFatX} {f : FatInfo} (hB : B ∣ 4096)
    (h : vfatHasFileSystem B P boot = some f) :
    f.Sound (P / B) ↔
      Roomy B (P / B) boot.sectorsPerCluster.toNat boot.fatCount.toNat := by
  unfold vfatHasFileSystem at h
  split at h
  · exact absurd h nofun
  split at h
  · exact absurd h nofun
  rename_i hsize
  cases h
  obtain ⟨hspc, hle⟩ := clusterSizes_bounds (by simpa using hsize)
  have hnum := fatInfo_numberOfClusters P boot hB
  have hnlt : (fatInfo B P boot).numberOfClusters < 2 ^ 32 := by
    rw [hnum]
    exact Nat.lt_of_le_of_lt (Nat.div_le_self _ _) (Nat.mod_lt _ (by decide))
  rw [FatInfo.sound_iff_areas hspc hnlt, entryInside_iff hB, roomy_iff hspc hnum]
  by_cases hn0 : (fatInfo B P boot).numberOfClusters = 0
  · -- there are no clusters to place
    refine ⟨fun _ => .inl hn0, fun _ => ⟨.inl hn0, ?_⟩⟩
    intro x h1 h2
    rw [hn0, Nat.zero_mul] at h2
    omega
  · rw [or_iff_right hn0, or_iff_right hn0]
    by_cases hpages : fatPages (P / B) boot.sectorsPerCluster.toNat = 0
    · rw [hpages, Nat.mul_zero, Nat.zero_div]
      omega
    · have hareas := areas_iff hB hspc hle boot.fatCount.toNat_lt hnum hn0 hpages
      rw [fatInfo_dataStart P boot hB, fatInfo_fatSectors P boot hB]
      exact ⟨fun hand => ⟨(hareas.1 hand.2).1, (hareas.1 hand.2).2.1,
          (hareas.1 hand.2).2.2, hand.1⟩,
        fun hand => ⟨hand.2.2.2, hareas.2 ⟨hand.1, hand.2.1, hand.2.2.1⟩⟩⟩

/-- A superblock with clusters of 64 KiB and one FAT. -/
def largeClusters : BootSectorFatX := ⟨[0x46, 0x41, 0x54, 0x58], 1, 128, 1⟩

theorem sound_iff_roomy_largeClusters :
    512 ∣ 4096 ∧ ∃ f, vfatHasFileSystem 512 0x8000000 largeClusters = some f ∧
      f.numberOfClusters = 2046 ∧ f.Sound (0x8000000 / 512) := by
  have h : vfatHasFileSystem 512 0x8000000 largeClusters =
      some (fatInfo 512 0x8000000 largeClusters) := rfl
  refine ⟨by decide, _, h, by decide, (sound_iff_roomy (by decide) h).2 ?_⟩
  unfold Roomy
  decide

/-- Sixteen sectors more hold the superblock and the FAT, so that 2047 clusters
follow the root directory; their last entry is the 2049th of a FAT of 2048. -/
theorem last_entry_outside :
    ∃ f, vfatHasFileSystem 512 0x8002000 largeClusters = some f ∧ f.IsCluster 2048 ∧
      ¬f.EntryInside 2048 ∧ ¬f.Sound (0x8002000 / 512) := by
  have hcluster : (fatInfo 512 0x8002000 largeClusters).IsCluster 2048 := by
    unfold FatInfo.IsCluster
    decide
  have houtside : ¬(fatInfo 512 0x8002000 largeClusters).EntryInside 2048 := by
    unfold FatInfo.EntryInside
    decide
  exact ⟨_, rfl, hcluster, houtside, fun hsound => houtside (hsound.entry 2048 hcluster)⟩

end Roswell.Ports.FatxGeometry
