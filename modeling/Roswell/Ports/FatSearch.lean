import Mathlib.Data.Nat.Prime.Basic
import Roswell.Ports.Fat

/-!
# The search for an available cluster

Model of the loops of `FAT16FindAndMarkAvailableCluster` and
`FAT32FindAndMarkAvailableCluster`: the FAT is pinned in chunks from the one with
the hint on, and after the last cluster the search goes on from the first to the
hint.  The chunks together are one scan of the entries in the order of their numbers.
-/

namespace Roswell.Ports.FatSearch

open Verified.Word FatxGeometry Fat Function

/-! ## The loops -/

section Loops

variable (entry : Nat → Nat) (w size fatLength : Nat)

/-- The loop over the chunk that starts at `base`, from the place `block` in it on: the first
zero entry with its offset, or the cluster that the next chunk starts with. -/
def scanBlock (base : Nat) : Nat → Nat → Nat → (Nat × Nat) ⊕ Nat
  | 0, _, i => .inr i
  | n + 1, block, i =>
    if block < size ∧ i < fatLength then
      if entry (base + block) = 0 then .inl (i, base + block)
      else scanBlock base n (block + w) (i + 1)
    else .inr i

/-- The loop over the chunks. -/
def scanChunks : Nat → Nat → Option (Nat × Nat)
  | 0, _ => none
  | n + 1, i =>
    if i < fatLength then
      match scanBlock entry w size fatLength (alignDown (wmul i w) size) size (wmul i w % size) i with
      | .inl found => some found
      | .inr i => scanChunks n i
    else none

/-- The first zero entry from `i` on. -/
def firstZero (i : Nat) : Option Nat :=
  (List.range' i (fatLength - i)).find? fun c => entry (wmul c w) = 0

end Loops

variable {entry : Nat → Nat} {w size fatLength i c : Nat}

theorem firstZero_from (entry : Nat → Nat) (w : Nat) (hi : i < fatLength) :
    firstZero entry w fatLength i =
      if entry (wmul i w) = 0 then some i else firstZero entry w fatLength (i + 1) := by
  unfold firstZero
  rw [show fatLength - i = fatLength - (i + 1) + 1 by omega, List.range'_succ, List.find?_cons]
  by_cases hzero : entry (wmul i w) = 0 <;> simp [hzero]

theorem firstZero_end (hi : fatLength ≤ i) : firstZero entry w fatLength i = none := by
  unfold firstZero
  rw [Nat.sub_eq_zero_of_le hi]
  rfl

theorem scanBlock_spec (entry : Nat → Nat) (fatLength : Nat) {base n block : Nat}
    (hbase : base + size ≤ 2 ^ 32) (hplace : block < size → wmul i w = base + block)
    (hroom : size ≤ block + n * w) :
    match scanBlock entry w size fatLength base n block i with
    | .inl found => ∃ c, found = (c, wmul c w) ∧ firstZero entry w fatLength i = some c
    | .inr j => i ≤ j ∧ firstZero entry w fatLength i = firstZero entry w fatLength j ∧
        (j < fatLength → size ≤ block + (j - i) * w) := by
  induction n generalizing block i with
  | zero => exact ⟨le_rfl, rfl, fun _ => by omega⟩
  | succ n ih =>
    unfold scanBlock
    by_cases hgo : block < size ∧ i < fatLength
    · have hoffset := hplace hgo.1
      rw [if_pos hgo, ← hoffset, firstZero_from entry w hgo.2]
      split_ifs with hzero
      · exact ⟨i, rfl, rfl⟩
      · rw [Nat.succ_mul] at hroom
        have hnext := @ih (i + 1) (block + w) (fun hlt => by
          unfold wmul at hoffset
          rw [wmul, Nat.succ_mul, ← Nat.mod_add_mod, hoffset, Nat.mod_eq_of_lt (by omega),
            Nat.add_assoc]) (by omega)
        split at hnext
        · exact hnext
        · next j _ =>
          obtain ⟨hle, hscan, hend⟩ := hnext
          refine ⟨by omega, hscan, fun hj => (hend hj).trans ?_⟩
          rw [show j - i = j - (i + 1) + 1 by omega, Nat.succ_mul]
          omega
    · rw [if_neg hgo]
      exact ⟨le_rfl, rfl, fun hj => by omega⟩

theorem scanChunks_eq {k n : Nat} (hk : k ≤ 32) (hw : 0 < w) (hfuel : fatLength < i + n) :
    scanChunks entry w (2 ^ k) fatLength n i =
      (firstZero entry w fatLength i).map fun c => (c, wmul c w) := by
  induction n generalizing i with
  | zero =>
    rw [firstZero_end (by omega)]
    rfl
  | succ n ih =>
    unfold scanChunks
    by_cases hin : i < fatLength
    · have hlt : wmul i w < 2 ^ 32 := Nat.mod_lt _ (by decide)
      have hdiv := Nat.div_add_mod' (wmul i w) (2 ^ k)
      have hbase : alignDown (wmul i w) (2 ^ k) = wmul i w / 2 ^ k * 2 ^ k :=
        alignDown_two_pow hlt hk
      have hlast : alignDown (wmul i w) (2 ^ k) + 2 ^ k ≤ 2 ^ 32 := by
        rw [hbase]
        exact le_of_dvd_of_lt_add (Nat.dvd_add (Nat.dvd_mul_left _ _) (dvd_refl _))
          (Nat.pow_dvd_pow 2 hk) (by omega)
      have hspec := scanBlock_spec entry fatLength hlast
        (fun _ => (hbase ▸ hdiv).symm)
        ((Nat.le_mul_of_pos_right (2 ^ k) hw).trans (Nat.le_add_left _ _))
      rw [if_pos hin]
      split at hspec
      · obtain ⟨c, rfl, hscan⟩ := hspec
        rw [hscan]
        rfl
      · next j hj =>
        obtain ⟨hle, hscan, hend⟩ := hspec
        rw [hscan]
        refine ih ?_
        rcases Nat.eq_or_lt_of_le hle with rfl | hlater
        · -- the chunk has the entry that it was pinned for
          have hnone := hend hin
          rw [Nat.sub_self, Nat.zero_mul] at hnone
          omega
        · omega
    · rw [if_neg hin, firstZero_end (by omega)]
      rfl

/-! ## The routine -/

/-- `CACHEPAGESIZE`. -/
def cachePageSize (f : FatInfo) : Nat :=
  if 4096 < f.bytesPerCluster then min f.bytesPerCluster 16384 else 4096

/-- The entry at an offset of the FAT. -/
def entryAt (d : DeviceExt) (offset : Nat) : Nat :=
  (if offset + d.fatInfo.fatType.width ≤ d.fatInfo.fatSectors * d.fatInfo.bytesPerSector then
    d.fat (offset / d.fatInfo.fatType.width) % 2 ^ (8 * d.fatInfo.fatType.width)
  else 0) % mask d.fatInfo.fatType

def writeAt (d : DeviceExt) (offset value : Nat) : DeviceExt :=
  if offset + d.fatInfo.fatType.width ≤ d.fatInfo.fatSectors * d.fatInfo.bytesPerSector then
    { d with fat := update d.fat (offset / d.fatInfo.fatType.width) value }
  else d

/-- The two passes, and the mark. -/
def findAndMarkAvailableCluster (d : DeviceExt) : Option (DeviceExt × Nat) :=
  let start := d.lastAvailableCluster
  let scan := scanChunks (entryAt d) d.fatInfo.fatType.width (cachePageSize d.fatInfo)
  ((scan (wadd d.fatInfo.numberOfClusters 2) (2 ^ 32) start).or (scan start (2 ^ 32) 2)).map
    fun (c, offset) =>
      ({ writeAt d offset (mask d.fatInfo.fatType - 1) with
          lastAvailableCluster := c
          availableClusters :=
            if d.availableClustersValid then wsub d.availableClusters 1 else d.availableClusters },
        c)

/-- It succeeds exactly when there is a zero entry, and changes a zero entry to an end mark
and no other. -/
structure Right (d : DeviceExt) : Prop where
  succeeds : (findAndMarkAvailableCluster d).isSome ↔
    ∃ c, d.fatInfo.IsCluster c ∧ d.read c % mask d.fatInfo.fatType = 0
  marks : ∀ d' c, findAndMarkAvailableCluster d = some (d', c) →
    d.fatInfo.IsCluster c ∧ d.read c % mask d.fatInfo.fatType = 0 ∧
      d'.read c % mask d.fatInfo.fatType = mask d.fatInfo.fatType - 1 ∧
      ∀ b, d.fatInfo.IsCluster b → b ≠ c → d'.read b = d.read b

variable {d : DeviceExt} {f : FatInfo}

/-- A chunk is a power of two of bytes. -/
def Chunked (f : FatInfo) : Prop := ∃ k ≤ 32, cachePageSize f = 2 ^ k

theorem width_pos (t : FatType) : 0 < t.width := by
  cases t <;> decide

/-- The chunks give what the scan of `Fat` gives, if the length of the FAT does not wrap. -/
theorem find_eq (hchunk : Chunked d.fatInfo) (hhint : d.lastAvailableCluster < 2 ^ 32)
    (hlength : d.fatInfo.numberOfClusters + 2 < 2 ^ 32) :
    findAndMarkAvailableCluster d =
      entryFindAndMarkAvailableCluster (mask d.fatInfo.fatType) d := by
  obtain ⟨k, hk, hsize⟩ := hchunk
  unfold findAndMarkAvailableCluster
  dsimp only
  rw [wadd_of_lt hlength, hsize, scanChunks_eq hk (width_pos _) (by omega),
    scanChunks_eq hk (width_pos _) (by omega), ← Option.map_or, Option.map_map]
  rfl

theorem scanAvailable_isSome {m s n : Nat} :
    (scanAvailable m d s n).isSome ↔ ∃ c, s ≤ c ∧ c < s + n ∧ d.read c % m = 0 := by
  unfold scanAvailable
  simp [List.find?_isSome, List.mem_range'_1, and_assoc]

/-- Where the FAT has an entry for each cluster. -/
theorem right_of_entries (hchunk : Chunked d.fatInfo)
    (hhint : d.fatInfo.IsCluster d.lastAvailableCluster)
    (hbytes : d.fatInfo.fatSectors * d.fatInfo.bytesPerSector < 2 ^ 32)
    (hentries : d.fatInfo.numberOfClusters + 2 ≤
      d.fatInfo.fatSectors * d.fatInfo.bytesPerSector / d.fatInfo.fatType.width) : Right d := by
  have hwidth : d.fatInfo.fatType.width = 2 ∨ d.fatInfo.fatType.width = 4 := by
    cases d.fatInfo.fatType
    exacts [.inl rfl, .inr rfl]
  have hlength : d.fatInfo.numberOfClusters + 2 < 2 ^ 31 := by
    rcases hwidth with hw | hw <;> rw [hw] at hentries <;> omega
  have hplace : ∀ {c}, d.fatInfo.IsCluster c → d.Holds c ∧ d.index c = c := by
    intro c hc
    have hlt := hc.2
    unfold DeviceExt.Holds DeviceExt.index FatInfo.fatOffset wmul
    rcases hwidth with hw | hw <;> rw [hw] at hentries ⊢ <;> omega
  obtain ⟨hlo, hhi⟩ := hhint
  have hfind := find_eq hchunk (by omega) (by omega)
  unfold entryFindAndMarkAvailableCluster at hfind
  constructor
  · rw [hfind, Option.isSome_map, Option.isSome_or, Bool.or_eq_true, scanAvailable_isSome,
      scanAvailable_isSome]
    constructor
    · rintro (⟨c, hge, hlt, hzero⟩ | ⟨c, hge, hlt, hzero⟩)
      · exact ⟨c, ⟨by omega, by omega⟩, hzero⟩
      · exact ⟨c, ⟨by omega, by omega⟩, hzero⟩
    · rintro ⟨c, ⟨hge, hlt⟩, hzero⟩
      rcases Nat.lt_or_ge c d.lastAvailableCluster with hbelow | habove
      · exact .inr ⟨c, by omega, by omega, hzero⟩
      · exact .inl ⟨c, by omega, by omega, hzero⟩
  · intro d' c hsome
    rw [hfind] at hsome
    obtain ⟨b, hfound, hmark⟩ := Option.map_eq_some_iff.1 hsome
    obtain ⟨rfl, rfl⟩ := Prod.mk.inj hmark
    have hb : d.fatInfo.IsCluster b ∧ d.read b % mask d.fatInfo.fatType = 0 :=
      scanned hlo hhi.le hfound
    obtain ⟨hheld, hindex⟩ := hplace hb.1
    have hwrite : d.write b (mask d.fatInfo.fatType - 1) =
        { d with fat := update d.fat b (mask d.fatInfo.fatType - 1) } := by
      unfold DeviceExt.write
      rw [if_pos hheld, hindex]
    rw [hwrite]
    refine ⟨hb.1, hb.2, ?_, fun a ha hne => ?_⟩
    · show (if d.Holds b then update d.fat b _ (d.index b) % _ else 0) % _ = _
      rw [if_pos hheld, hindex, update_self]
      cases d.fatInfo.fatType <;> rfl
    · show (if d.Holds a then update d.fat b _ (d.index a) % _ else 0) = _
      rw [(hplace ha).2, update_of_ne hne]
      unfold DeviceExt.read
      rw [(hplace ha).2]

theorem read_lost (hlost : ¬d.Holds c) : d.read c % mask d.fatInfo.fatType = 0 := by
  unfold DeviceExt.read
  rw [if_neg hlost, Nat.zero_mod]

/-- The search takes the cluster that it starts at, and the mark is lost. -/
theorem not_right_of_lost (hchunk : Chunked d.fatInfo)
    (hlength : d.fatInfo.numberOfClusters + 2 < 2 ^ 32)
    (hhint : d.fatInfo.IsCluster d.lastAvailableCluster) (hlost : ¬d.Holds d.lastAvailableCluster) :
    ¬Right d := by
  intro hright
  have hfind := find_eq hchunk (hhint.2.trans hlength) hlength
  have hfirst : scanAvailable (mask d.fatInfo.fatType) d d.lastAvailableCluster
      (d.fatInfo.numberOfClusters + 2 - d.lastAvailableCluster) = some d.lastAvailableCluster :=
    (firstZero_from (entryAt d) d.fatInfo.fatType.width hhint.2).trans (if_pos (read_lost hlost))
  unfold entryFindAndMarkAvailableCluster at hfind
  dsimp only at hfind
  rw [hfirst, Option.some_or] at hfind
  have hmark := (hright.marks _ _ hfind).2.2.1
  unfold DeviceExt.write at hmark
  rw [if_neg hlost] at hmark
  have hstill : 0 = mask d.fatInfo.fatType - 1 := (read_lost hlost).symm.trans hmark
  have hmask : 1 < mask d.fatInfo.fatType := by cases d.fatInfo.fatType <;> decide
  omega

/-- The length of the FAT wraps, and nothing is searched. -/
theorem not_right_of_wrap (hchunk : Chunked d.fatInfo)
    (hlength : wadd d.fatInfo.numberOfClusters 2 ≤ 2) (hc : d.fatInfo.IsCluster c)
    (hlost : ¬d.Holds c) (hhint : d.lastAvailableCluster = 2) : ¬Right d := by
  intro hright
  obtain ⟨k, hk, hsize⟩ := hchunk
  have hnone : findAndMarkAvailableCluster d = none := by
    unfold findAndMarkAvailableCluster
    dsimp only
    rw [hhint, hsize, scanChunks_eq hk (width_pos _) (by omega),
      scanChunks_eq hk (width_pos _) (by decide), firstZero_end hlength, firstZero_end le_rfl]
    rfl
  have hsome := hright.succeeds.2 ⟨c, hc, read_lost hlost⟩
  rw [hnone] at hsome
  cases hsome

/-! ## On every volume -/

variable {B P : Nat} {boot : BootSectorFatX}

theorem fat_bytes (hB : B ∣ 4096) :
    (fatInfo B P boot).fatSectors * (fatInfo B P boot).bytesPerSector =
      4096 * fatPages (P / B) boot.sectorsPerCluster.toNat := by
  rw [fatInfo_fatSectors P boot hB, Nat.mul_right_comm]
  exact congrArg (· * _) (Nat.div_mul_cancel hB)

theorem chunked (hB : B ∣ 4096) (hspc : boot.sectorsPerCluster.toNat ∈ clusterSizes) :
    Chunked (fatInfo B P boot) := by
  obtain ⟨b, hb, rfl⟩ := (Nat.dvd_prime_pow Nat.prime_two (m := 12)).1 hB
  obtain ⟨j, hj, hpow⟩ := clusterSizes_two_pow hspc
  have hcluster : (fatInfo (2 ^ b) P boot).bytesPerCluster = 2 ^ (j + b) := by
    show boot.sectorsPerCluster.toNat * 2 ^ b % 2 ^ 32 = _
    rw [hpow, ← Nat.pow_add, Nat.mod_eq_of_lt (Nat.pow_lt_pow_right (by decide) (by omega))]
  have hsizes : ∀ e ≤ 19, ∃ k ≤ 32,
      (if 4096 < 2 ^ e then min (2 ^ e) 16384 else 4096) = 2 ^ k := by decide +kernel
  unfold Chunked cachePageSize
  rw [hcluster]
  exact hsizes (j + b) (by omega)

/-- On a volume that is mounted the search is right, whatever the FAT holds and the hint is,
exactly when the FAT has an entry for each cluster. -/
theorem search_right_iff (hB : B ∣ 4096) (h : vfatHasFileSystem B P boot = some f) :
    (∀ d : DeviceExt, d.fatInfo = f → f.IsCluster d.lastAvailableCluster → Right d) ↔
      ∀ c, f.IsCluster c → f.EntryInside c := by
  unfold vfatHasFileSystem at h
  split_ifs at h with htype hspc
  cases h
  have hchunk : Chunked (fatInfo B P boot) := chunked hB hspc
  constructor
  · intro hall c hc
    by_contra hinside
    have hlost : ∀ d : DeviceExt, d.fatInfo = fatInfo B P boot → ¬d.Holds c := by
      intro d hd hheld
      refine hinside ?_
      unfold DeviceExt.Holds at hheld
      rw [hd] at hheld
      unfold FatInfo.EntryInside
      rw [Nat.add_mul]
      omega
    have hcount : (fatInfo B P boot).numberOfClusters < 2 ^ 32 := by
      rw [fatInfo_numberOfClusters P boot hB]
      exact Nat.lt_of_le_of_lt (Nat.div_le_self _ _) (Nat.mod_lt _ (by decide))
    by_cases hlength : (fatInfo B P boot).numberOfClusters + 2 < 2 ^ 32
    · exact not_right_of_lost hchunk hlength hc (hlost ⟨_, fun _ => 1, c, 0, false⟩ rfl)
        (hall _ rfl hc)
    · have hwrap : wadd (fatInfo B P boot).numberOfClusters 2 ≤ 2 := by
        rw [wadd_eq]
        omega
      have htwo : (fatInfo B P boot).IsCluster 2 := ⟨le_rfl, by omega⟩
      exact not_right_of_wrap hchunk hwrap hc (hlost ⟨_, fun _ => 1, 2, 0, false⟩ rfl) rfl
        (hall _ rfl htwo)
  · intro hinside d hd hhint
    rcases (entryInside_iff hB).1 hinside with hnone | hentries
    · have hlo := hhint.1
      have hhi := hhint.2
      omega
    · rw [← fat_bytes hB, ← fatInfo_width] at hentries
      rw [← hd] at hchunk hhint hentries
      exact right_of_entries hchunk hhint (by rw [hd, fat_bytes hB]; exact fatPages_lt _ _) hentries

theorem search_right_iff_large : ∃ f, vfatHasFileSystem 512 0x8000000 largeClusters = some f ∧
    ∀ d : DeviceExt, d.fatInfo = f → f.IsCluster d.lastAvailableCluster → Right d := by
  have h : vfatHasFileSystem 512 0x8000000 largeClusters =
      some (fatInfo 512 0x8000000 largeClusters) := rfl
  exact ⟨_, h, (search_right_iff (by decide) h).2 ((entryInside_iff (by decide)).2 (by decide))⟩

/-- Clusters of one sector, a little over `2 ^ 30` of them, and an empty FAT. -/
def manyDevice : DeviceExt :=
  ⟨fatInfo 512 (512 * (2 ^ 30 + 1024)) ⟨[0x46, 0x41, 0x54, 0x58], 1, 1, 1⟩, fun _ => 0, 2, 0, false⟩

/-- The offsets of the entries wrap, and cluster `2 ^ 30 + 2` has the entry of cluster 2. -/
theorem search_marks_two :
    vfatHasFileSystem 512 (512 * (2 ^ 30 + 1024)) ⟨[0x46, 0x41, 0x54, 0x58], 1, 1, 1⟩ =
      some manyDevice.fatInfo ∧
    manyDevice.fatInfo.IsCluster (2 ^ 30 + 2) ∧ manyDevice.read (2 ^ 30 + 2) = 0 ∧
    (findAndMarkAvailableCluster manyDevice).map (fun r => (r.2, r.1.read (2 ^ 30 + 2))) =
      some (2, 0xfffffff) :=
  ⟨by decide +kernel, ⟨by decide +kernel, by decide +kernel⟩, by decide +kernel, by decide +kernel⟩

end Roswell.Ports.FatSearch
