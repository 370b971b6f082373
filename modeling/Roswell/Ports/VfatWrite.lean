import Roswell.Ports.FatAllocation

/-!
# What a write may cover

Model of the checks that `VfatWrite` makes before it moves data, and of the length
of the paging write that `NxcFlushBlock` sends it.  The cache rounds the end of a
file up to pages of 4096 bytes, the file system up to clusters, and it compares the
low halves of the 64-bit sizes.  Then what a read through the cache reports, and what
a write makes of the size of the file.
-/

namespace Roswell.Ports.VfatWrite

open Verified.Word FatxGeometry Fat
open FatGrowth (OpenFile emptyFile)
open FatAllocation (success_fileSize)

inductive Refusal where
  | invalidParameter
  | endOfFile
  deriving DecidableEq, Repr

/-- What `VfatWrite` reads of a request and of the flags of the FCB. -/
structure WriteRequest where
  byteOffset : Nat
  length : Nat
  pagingIo : Bool
  noCache : Bool
  isVolume : Bool
  isFat : Bool

/-- The length that is written, from the checks of `VfatWrite`.  An offset of all ones
stands for the end of the file. -/
def vfatWriteLength (bytesPerSector : Nat) (fcb : Fcb) (r : WriteRequest) : Except Refusal Nat :=
  let byteOffset := if r.byteOffset = 2 ^ 64 - 1 then fcb.fileSize else r.byteOffset
  let low := byteOffset % 2 ^ 32
  let allocated := fcb.allocationSize % 2 ^ 32
  if fcb.isDirectory ∧ ¬ r.pagingIo then .error .invalidParameter
  else if byteOffset / 2 ^ 32 ≠ 0 ∧ ¬ r.isVolume then .error .invalidParameter
  else if (r.isFat ∨ r.isVolume ∨ fcb.firstCluster = 1) ∧ fcb.fileSize < byteOffset + r.length then
    .error .endOfFile
  else if (r.pagingIo ∨ r.noCache ∨ r.isVolume) ∧
      (low % bytesPerSector ≠ 0 ∨ r.length % bytesPerSector ≠ 0) then .error .invalidParameter
  else if r.length = 0 then .ok 0
  else if r.pagingIo then
    if allocated < wadd low r.length then .error .invalidParameter
    else if alignDown (wadd allocated (bytesPerSector - 1)) bytesPerSector < wadd low r.length then
      .ok (wsub (alignDown (wadd fcb.fileSize (bytesPerSector - 1)) bytesPerSector) low)
    else .ok r.length
  else .ok r.length

def nxcBlockSize : Nat := 0x4000

/-- `WriteLen` of `NxcFlushBlock`. -/
def nxcFlushLength (fileEnd offset : Nat) : Nat :=
  if offset < fileEnd then
    let span := fileEnd - offset
    if nxcBlockSize ≤ span then nxcBlockSize else roundUpPage span
  else 0

/-- The paging write of a block of an ordinary file. -/
def nxcFlushRequest (fileEnd offset : Nat) : WriteRequest where
  byteOffset := offset
  length := nxcFlushLength fileEnd offset
  pagingIo := true
  noCache := true
  isVolume := false
  isFat := false

/-- The rounded size is below four gigabytes, and either a cluster is at least a page,
or the block ends within the file, or the last page of the file is filled up to its last
cluster; or the size is in the last page below four gigabytes and the block is the last
one, whose end wraps to zero. -/
def Agrees (clusterSize size offset : Nat) : Prop :=
  size + clusterSize ≤ 2 ^ 32 ∧
      (4096 ≤ clusterSize ∨ offset + nxcBlockSize ≤ size ∨ size % 4096 = 0 ∨
        4096 < size % 4096 + clusterSize) ∨
    2 ^ 32 < size + 4096 ∧ size < offset + nxcBlockSize

instance (clusterSize size offset : Nat) : Decidable (Agrees clusterSize size offset) :=
  inferInstanceAs (Decidable (_ ∨ _))

theorem roundUpPage_eq {n : Nat} (hn : n < 2 ^ 32 - 4095) :
    roundUpPage n = (n + 4095) / 4096 * 4096 := by
  unfold roundUpPage
  rw [wadd_of_lt (by omega)]
  exact alignDown_two_pow (k := 12) (by omega) (by decide)

/-- Where the write of a block ends. -/
theorem flush_end {size offset : Nat} (hblock : nxcBlockSize ∣ offset) (hlt : offset < size) :
    4096 ∣ nxcFlushLength size offset ∧ 0 < nxcFlushLength size offset ∧
      nxcFlushLength size offset ≤ nxcBlockSize ∧
      offset + nxcFlushLength size offset =
        if offset + nxcBlockSize ≤ size then offset + nxcBlockSize
        else (size + 4095) / 4096 * 4096 := by
  obtain ⟨k, rfl⟩ := hblock
  unfold nxcFlushLength
  rw [if_pos hlt]
  unfold nxcBlockSize at hlt ⊢
  split
  · next hfull =>
    rw [if_pos (by omega)]
    omega
  · next hfull =>
    rw [if_neg (by omega), roundUpPage_eq (by omega)]
    omega

/-- The comparison of the ends, in the low halves. -/
theorem ends_agree {size offset e : Nat} (hblock : nxcBlockSize ∣ offset) (hlt : offset < size)
    (hsize : size < 2 ^ 32) (he : e ≤ 32) :
    wadd offset (nxcFlushLength size offset) ≤ roundUp64 size (2 ^ e) % 2 ^ 32 ↔
      Agrees (2 ^ e) size offset := by
  obtain ⟨-, -, -, hend⟩ := flush_end hblock hlt
  rw [wadd_eq, hend, roundUp64_two_pow hsize he]
  unfold Agrees
  obtain ⟨hclusters, hge, hnear⟩ := rounded size (Nat.two_pow_pos e)
  obtain ⟨hpages, hgePage, hnearPage⟩ := rounded size (show 0 < 4096 by decide)
  have hword : 2 ^ e ∣ 2 ^ 32 := Nat.pow_dvd_pow 2 he
  have hwordPage : 4096 ∣ 2 ^ 32 := by decide
  have hpos := Nat.two_pow_pos e
  have hunits : 2 ^ e ∣ 4096 ∨ 4096 ∣ 2 ^ e :=
    (Nat.le_total e 12).imp (Nat.pow_dvd_pow 2) (Nat.pow_dvd_pow 2)
  generalize 2 ^ e = c at *
  generalize (size + (c - 1)) / c * c = clusterEnd at *
  generalize hpageEnd : (size + 4095) / 4096 * 4096 = pageEnd at *
  -- both ends are at most four gigabytes, and reach it when the size is within one unit
  have htop : clusterEnd ≤ 2 ^ 32 := le_of_dvd_of_lt_add hclusters hword (by omega)
  have hreach : 2 ^ 32 < size + c → 2 ^ 32 ≤ clusterEnd := fun h =>
    le_of_dvd_of_lt_add hword hclusters (by omega)
  have hcompare : pageEnd ≤ clusterEnd ↔
      4096 ≤ c ∨ size % 4096 = 0 ∨ 4096 < size % 4096 + c := by
    rcases hunits with hsmall | hlarge
    · constructor
      · intro h
        omega
      · rintro (h | h | h)
        · obtain rfl : c = 4096 := Nat.le_antisymm (Nat.le_of_dvd (by decide) hsmall) h
          exact le_of_dvd_of_lt_add hpages hclusters (by omega)
        · omega
        · exact le_of_dvd_of_lt_add (hsmall.trans hpages) hclusters (by omega)
    · refine iff_of_true ?_ (Or.inl (Nat.le_of_dvd hpos hlarge))
      exact le_of_dvd_of_lt_add hpages (hlarge.trans hclusters) (by omega)
  unfold nxcBlockSize at *
  split <;> omega

/-- For a sector of 512 to 4096 bytes, an accepted number of sectors per cluster, a file
whose allocation is its size rounded up to clusters, and a block that starts below the
end of the file, the paging write is accepted exactly when the two roundings agree. -/
theorem flush_accepted_iff (b spc offset : Nat) (fcb : Fcb) (hb : 9 ≤ b ∧ b ≤ 12)
    (hspc : spc ∈ clusterSizes) (hfile : fcb.firstCluster ≠ 1) (hsize : fcb.fileSize < 2 ^ 32)
    (hallocated : fcb.allocationSize = roundUp64 fcb.fileSize (spc * 2 ^ b))
    (hblock : nxcBlockSize ∣ offset) (hlt : offset < fcb.fileSize) :
    (∃ n, vfatWriteLength (2 ^ b) fcb (nxcFlushRequest fcb.fileSize offset) = .ok n) ↔
      Agrees (spc * 2 ^ b) fcb.fileSize offset := by
  obtain ⟨j, hj, rfl⟩ := clusterSizes_two_pow hspc
  rw [← Nat.pow_add] at hallocated ⊢
  obtain ⟨hpages, hpos, hshort, -⟩ := flush_end hblock hlt
  have hsector : 2 ^ b ∣ 4096 := Nat.pow_dvd_pow 2 hb.2
  have hlow : offset % 2 ^ b = 0 :=
    Nat.mod_eq_zero_of_dvd ((hsector.trans (by decide : 4096 ∣ nxcBlockSize)).trans hblock)
  have hlen : nxcFlushLength fcb.fileSize offset % 2 ^ b = 0 :=
    Nat.mod_eq_zero_of_dvd (hsector.trans hpages)
  rw [← ends_agree hblock hlt hsize (by omega), ← hallocated]
  have hhigh : offset / 2 ^ 32 = 0 := Nat.div_eq_of_lt (hlt.trans hsize)
  have hmod : offset % 2 ^ 32 = offset := Nat.mod_eq_of_lt (hlt.trans hsize)
  have hplain : offset ≠ 2 ^ 64 - 1 := by omega
  unfold vfatWriteLength nxcFlushRequest
  dsimp only
  rw [if_neg hplain, hhigh, hmod, if_neg (by simp), if_neg (by simp), if_neg (by simp [hfile]),
    if_neg (by simp [hlow, hlen]), if_neg (by omega), if_pos rfl]
  split
  · next hover => exact iff_of_false (by simp) (by omega)
  · next hover =>
    refine iff_of_true ?_ (by omega)
    split
    · exact ⟨_, rfl⟩
    · exact ⟨_, rfl⟩

/-- A file of 100 bytes, with a sector or with 32 sectors to the cluster. -/
def smallFile (clusterSize : Nat) : Fcb := ⟨2, 100, false, clusterSize, 0, 0⟩

theorem flush_accepted_large :
    ∃ n, vfatWriteLength 512 (smallFile 16384) (nxcFlushRequest 100 0) = .ok n :=
  (flush_accepted_iff 9 32 0 (smallFile 16384) (by decide) (by decide) (by decide) (by decide)
    (by decide) (by decide) (by decide)).2 (by decide)

/-- With one sector to the cluster, the page that ends the file is more than its one
cluster, and the write is refused. -/
theorem flush_refused_small :
    1 ∈ clusterSizes ∧ (smallFile 512).allocationSize = roundUp64 (smallFile 512).fileSize 512 ∧
      vfatWriteLength 512 (smallFile 512) (nxcFlushRequest 100 0) = .error .invalidParameter := by
  decide

/-! ## The bytes of a request -/

end Roswell.Ports.VfatWrite
