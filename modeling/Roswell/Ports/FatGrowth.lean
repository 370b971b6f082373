import Roswell.Ports.FatSizes

/-!
# Growing and reopening a file

A file is opened from its directory entry, its allocation and its end are set, data is
moved at an offset, and it is closed and opened again.  While it is open the FCB has an
allocation size of its own and a cached position in the chain; a new FCB takes the
allocation size from the file size, and the chain may then be longer.

The chain covers the allocation size throughout.  The one search that leaves the chain
is the one for the last allocated cluster of a file with clusters and an allocation
size of zero, and the sizes are compared in 32 bits.
-/

namespace Roswell.Ports.FatGrowth

open Verified.Word Verified.Chains Verified.Runs FatxGeometry Fat Function

/-! ## The calls -/

/-- A volume with an open file: the FCB, whether it is marked dirty, and the entry in
the directory. -/
structure OpenFile where
  device : DeviceExt
  fcb : Fcb
  dirty : Bool
  entryCluster : Nat
  entrySize : Nat

namespace OpenFile

/-- `VfatUpdateEntry`. -/
def vfatUpdateEntry (f : OpenFile) : OpenFile :=
  { f with dirty := false, entryCluster := f.fcb.firstCluster, entrySize := f.fcb.fileSize }

/-- `vfatInitFCBFromDirEntry` for a file. -/
def vfatInitFCBFromDirEntry (f : OpenFile) : OpenFile :=
  { f with
    fcb := ⟨f.entryCluster, f.entrySize, false,
      roundUp64 f.entrySize f.device.fatInfo.bytesPerCluster, 0, 0⟩
    dirty := false }

/-- `VfatSetAllocationSizeInformation` with the directory entry: it is written where the
allocation has changed, and left for later where only the flag is set. -/
def setSize (f : OpenFile) (request : Request) : Option (OpenFile × Status) :=
  let newSize := request.lowPart.toNat
  let allocated := f.fcb.allocationSize % 2 ^ 32
  match vfatSetAllocationSizeInformation f.device f.fcb request with
  | none => none
  | some (d, fcb, .success) =>
    if f.fcb.fileSize = newSize then some ({ f with device := d, fcb := fcb }, .success)
    else if allocated < newSize ∨ wadd newSize f.device.fatInfo.bytesPerCluster ≤ allocated then
      some (vfatUpdateEntry { f with device := d, fcb := fcb, dirty := true }, .success)
    else some ({ f with device := d, fcb := fcb, dirty := true }, .success)
  | some (d, fcb, status) => some ({ f with device := d, fcb := fcb }, status)

/-- The request that sets the end of a file, or only its allocation, with no section to
keep it from being cut. -/
def sizeRequest (size : UInt32) (allocationOnly : Bool) (junk : Nat) : Request :=
  ⟨0, size, allocationOnly, true, junk⟩

/-- Where a transfer at an offset starts: `VfatReadFileData` and `VfatWriteFileData` go
from the cached position, if it is not behind the offset, or from the first cluster. -/
def locate (f : OpenFile) (offset : Nat) : DeviceExt × Status × Option Nat :=
  let start := alignDown offset f.device.fatInfo.bytesPerCluster
  if 0 < f.fcb.lastCluster ∧ f.fcb.lastOffset ≤ offset then
    offsetToCluster f.device f.fcb.lastCluster (wsub start f.fcb.lastOffset) false
  else offsetToCluster f.device f.fcb.firstCluster start false

/-- A transfer remembers the cluster it comes to. -/
def transfer (f : OpenFile) (offset : Nat) : OpenFile × Status :=
  match f.locate offset with
  | (_, .success, some cluster) =>
    ({ f with fcb := { f.fcb with
        lastCluster := cluster
        lastOffset := alignDown offset f.device.fatInfo.bytesPerCluster } }, .success)
  | (_, status, _) => (f, status)

/-- `VfatWrite` to a file: it is extended first if the write ends behind its end.  The
times of the entry are marked dirty. -/
def vfatWrite (f : OpenFile) (offset length : UInt32) (junk : Nat) : Option (OpenFile × Status) :=
  if length ≠ 0 ∧ f.fcb.fileSize < (offset + length).toNat then
    match f.setSize (sizeRequest (offset + length) false junk) with
    | some (f, .success) => some ({ f with dirty := true }, .success)
    | failed => failed
  else some ({ f with dirty := true }, .success)

/-- The last handle is closed: `VfatCleanupFile` writes a dirty entry, the FCB goes
away, and an open builds a new one.  With another handle the FCB stays. -/
def reopen (f : OpenFile) (last : Bool) : OpenFile :=
  let f := if f.dirty then f.vfatUpdateEntry else f
  if last then f.vfatInitFCBFromDirEntry else f

end OpenFile

inductive Act where
  | setAllocation (size : UInt32) (junk : Nat)
  | setEndOfFile (size : UInt32) (junk : Nat)
  | write (offset length : UInt32) (junk : Nat)
  /-- Data is moved at an offset, for a read or for the write-back of the cache. -/
  | transfer (offset : Nat)
  | reopen (last : Bool)

def OpenFile.apply (f : OpenFile) : Act → Option (OpenFile × Status)
  | .setAllocation size junk => f.setSize (sizeRequest size true junk)
  | .setEndOfFile size junk => f.setSize (sizeRequest size false junk)
  | .write offset length junk => f.vfatWrite offset length junk
  | .transfer offset => some (f.transfer offset)
  | .reopen last => some (f.reopen last, .success)

/-! ## What is asked of a request -/

/-- The size an act asks `VfatSetAllocationSizeInformation` for, if it asks for one. -/
def Act.size (f : OpenFile) : Act → Option Nat
  | .setAllocation size _ => some size.toNat
  | .setEndOfFile size _ => some size.toNat
  | .write offset length _ =>
    if length ≠ 0 ∧ f.fcb.fileSize < (offset + length).toNat then some (offset + length).toNat
    else none
  | .transfer _ => none
  | .reopen _ => none

/-- The chain of the file and the free clusters are enough for the size. -/
def Enough (f : OpenFile) (size : Nat) : Prop :=
  ∀ l, ChainOf f.device f.fcb.firstCluster l →
    size ≤ (l.length + freeClusterCount f.device) * f.device.fatInfo.bytesPerCluster

/-- There are enough clusters for the size asked for, the end of a write does not wrap,
and data is moved within the allocation. -/
def Act.Allowed (f : OpenFile) (a : Act) : Prop :=
  (∀ size, a.size f = some size → Enough f size) ∧
    match a with
    | .write offset length _ => offset.toNat + length.toNat < 2 ^ 32
    | .transfer offset => offset < f.fcb.allocationSize
    | _ => True

/-- A file with clusters has an allocation size when its allocation grows; when it does
not grow, it is below four gigabytes or the size lies in the last cluster below. -/
def Manageable (fcb : Fcb) (clusterSize size : Nat) : Prop :=
  size ≠ fcb.fileSize →
    (fcb.allocationSize < size → fcb.firstCluster ≠ 0 → fcb.allocationSize ≠ 0) ∧
      (size ≤ fcb.allocationSize → fcb.allocationSize < 2 ^ 32 ∨ 2 ^ 32 < size + clusterSize)

def Act.Careful (f : OpenFile) (a : Act) : Prop :=
  ∀ size, a.size f = some size → Manageable f.fcb f.device.fatInfo.bytesPerCluster size

def Step (f : OpenFile) (a : Act) (t : OpenFile) : Prop :=
  a.Allowed f ∧ a.Careful f ∧ ∃ status, f.apply a = some (t, status)

/-- The chain of the file covers its size, and a transfer within the allocation, which
covers the size too, starts at the cluster of the chain for its offset. -/
def Covered (f : OpenFile) : Prop :=
  ∃ l, ChainOf f.device f.fcb.firstCluster l ∧
    f.fcb.fileSize ≤ l.length * f.device.fatInfo.bytesPerCluster ∧
    f.fcb.fileSize ≤ f.fcb.allocationSize ∧
    ∀ offset < f.fcb.allocationSize, ∃ cluster,
      l[offset / f.device.fatInfo.bytesPerCluster]? = some cluster ∧
        f.locate offset = (f.device, .success, some cluster)

variable {d : DeviceExt} {chains : Nat → List Nat} {i c k : Nat} {l : List Nat}

/-! ## Sizes in clusters -/

section Clusters

variable {g : FatInfo} {n : Nat}

theorem cluster_pos (h : Tabled g) : 0 < g.bytesPerCluster := by
  obtain ⟨e, -, he⟩ := h.cluster
  rw [he]
  exact Nat.two_pow_pos e

theorem alignDown_cluster (h : Tabled g) (hn : n < 2 ^ 32) :
    alignDown n g.bytesPerCluster = n / g.bytesPerCluster * g.bytesPerCluster := by
  obtain ⟨e, he, hsize⟩ := h.cluster
  rw [hsize]
  exact alignDown_two_pow hn he

theorem cluster_dvd (h : Tabled g) : g.bytesPerCluster ∣ 2 ^ 32 := by
  obtain ⟨e, he, hsize⟩ := h.cluster
  rw [hsize]
  exact Nat.pow_dvd_pow 2 he

/-- The allocation for a size. -/
theorem allocation_spec (h : Tabled g) (hn : n < 2 ^ 32) :
    g.bytesPerCluster ∣ roundUp64 n g.bytesPerCluster ∧
      n ≤ roundUp64 n g.bytesPerCluster ∧
      roundUp64 n g.bytesPerCluster < n + g.bytesPerCluster := by
  have hpos := cluster_pos h
  obtain ⟨e, he, hsize⟩ := h.cluster
  rw [hsize] at hpos ⊢
  rw [roundUp64_two_pow hn he]
  exact rounded n hpos

/-- As many clusters cover a size as reach behind its last one. -/
theorem le_clusters_iff (h : Tabled g) {m : Nat} (hpos : 0 < n) :
    n ≤ m * g.bytesPerCluster ↔ (n - 1) / g.bytesPerCluster < m := by
  rw [Nat.div_lt_iff_lt_mul (cluster_pos h)]
  omega

end Clusters

/-! ## The calls on a file with enough free clusters -/

section Calls

variable {fcb : Fcb} {newSize : Nat}

theorem lastPlace_eq (h : Tabled d.fatInfo) (hpos : 0 < newSize) (hsize : newSize < 2 ^ 32) :
    lastPlace d newSize = (newSize - 1) / d.fatInfo.bytesPerCluster := by
  rw [lastPlace, wsub_of_le hpos hsize, clusterSteps h (by omega)]

/-- A place the FCB remembers is one of the chain, within the allocation. -/
def Remembers (fcb : Fcb) (clusterSize : Nat) (l : List Nat) : Prop :=
  fcb.lastCluster = 0 ∨ ∃ k, fcb.lastOffset = k * clusterSize ∧
    fcb.lastOffset < fcb.allocationSize ∧ l[k]? = some fcb.lastCluster

/-- The search for the last allocated cluster stays in a chain that covers the allocation. -/
theorem anchor_spec (h : Ok d chains) {m : Nat} (hfirst : (chains i)[0]? = some fcb.firstCluster)
    (halloc : fcb.allocationSize = (m + 1) * d.fatInfo.bytesPerCluster)
    (hlow : fcb.allocationSize ≤ 2 ^ 32)
    (hcached : Remembers fcb d.fatInfo.bytesPerCluster (chains i)) :
    lastAllocatedOffset d fcb = m * d.fatInfo.bytesPerCluster ∧
      ∃ k, (chains i)[k]? = some (anchor fcb) ∧ k + anchorSteps d fcb = m := by
  have hpos := cluster_pos h.table.tabled
  rw [Nat.succ_mul] at halloc
  have hoffset : lastAllocatedOffset d fcb = m * d.fatInfo.bytesPerCluster := by
    unfold lastAllocatedOffset
    by_cases hfull : fcb.allocationSize = 2 ^ 32
    · rw [hfull, Nat.mod_self, wsub_eq]
      omega
    · rw [Nat.mod_eq_of_lt (by omega), wsub_of_le (by omega) (by omega)]
      omega
  refine ⟨hoffset, ?_⟩
  unfold anchor anchorSteps
  rw [hoffset]
  by_cases hlast : 0 < fcb.lastCluster
  · obtain ⟨k, hk, hlt, hat⟩ := hcached.resolve_left (by omega)
    have hkm : k < m + 1 := by
      rw [hk, halloc, ← Nat.succ_mul] at hlt
      exact Nat.lt_of_mul_lt_mul_right hlt
    have hle := Nat.mul_le_mul_right d.fatInfo.bytesPerCluster (Nat.le_of_lt_succ hkm)
    refine ⟨k, by rw [if_pos hlast, hat], ?_⟩
    rw [if_pos hlast, hk, wsub_of_le hle (by omega), ← Nat.sub_mul, Nat.mul_div_cancel _ hpos]
    omega
  · refine ⟨0, by rw [if_neg hlast, hfirst], ?_⟩
    rw [if_neg hlast, wsub_of_le (Nat.zero_le _) (by omega), Nat.sub_zero,
      Nat.mul_div_cancel _ hpos, Nat.zero_add]

/-- From there the chain is followed to the place that the size ends in. -/
theorem growSteps_eq (h : Tabled d.fatInfo) {m : Nat}
    (hoffset : lastAllocatedOffset d fcb = m * d.fatInfo.bytesPerCluster)
    (hmore : m * d.fatInfo.bytesPerCluster < newSize) (hsize : newSize < 2 ^ 32) :
    m + growSteps d fcb newSize = (newSize - 1) / d.fatInfo.bytesPerCluster := by
  have hpos := cluster_pos h
  have hbehind : m ≤ (newSize - 1) / d.fatInfo.bytesPerCluster := by
    rw [Nat.le_div_iff_mul_le hpos]
    omega
  have hbound := Nat.div_mul_le_self (newSize - 1) d.fatInfo.bytesPerCluster
  rw [growSteps, hoffset, wsub_of_le (by omega) hsize, alignDown_cluster h (by omega),
    wsub_of_le (Nat.mul_le_mul_right _ hbehind) (by omega), ← Nat.sub_mul,
    Nat.mul_div_cancel _ hpos]
  omega

end Calls

/-! ## The FCB and the chain -/

/-- The FCB of a file fits its chain, which covers the allocation. -/
structure Fitting (fcb : Fcb) (clusterSize : Nat) (l : List Nat) : Prop where
  heads : Heads fcb.firstCluster l
  file : fcb.isDirectory = false
  root : fcb.firstCluster ≠ 1
  whole : clusterSize ∣ fcb.allocationSize
  low : fcb.allocationSize ≤ 2 ^ 32
  covers : fcb.allocationSize ≤ l.length * clusterSize
  below : fcb.fileSize < 2 ^ 32
  size : fcb.fileSize ≤ fcb.allocationSize
  cached : Remembers fcb clusterSize l

section Sizes

variable {g : FatInfo} {fcb : Fcb} {newSize : Nat}

/-- An FCB whose allocation is that of a size. -/
theorem fitting_of_size (h : Tabled g) (hnew : newSize < 2 ^ 32)
    (halloc : fcb.allocationSize = roundUp64 newSize g.bytesPerCluster)
    (hbelow : fcb.fileSize < 2 ^ 32) (hsize : fcb.fileSize ≤ fcb.allocationSize)
    (hheads : Heads fcb.firstCluster l)
    (hfile : fcb.isDirectory = false) (hroot : fcb.firstCluster ≠ 1)
    (hcover : newSize ≤ l.length * g.bytesPerCluster)
    (hcached : fcb.lastCluster = 0 ∨ ∃ k, fcb.lastOffset = k * g.bytesPerCluster ∧
      fcb.lastOffset < newSize ∧ l[k]? = some fcb.lastCluster) :
    Fitting fcb g.bytesPerCluster l := by
  obtain ⟨hwhole, hge, hlt⟩ := allocation_spec h hnew
  rw [← halloc] at hwhole hge hlt
  refine ⟨hheads, hfile, hroot, hwhole, ?_, ?_, hbelow, hsize, ?_⟩
  · exact le_of_dvd_of_lt_add hwhole (cluster_dvd h) (by omega)
  · exact le_of_dvd_of_lt_add hwhole (Nat.dvd_mul_left _ _) (by omega)
  · exact hcached.imp_right fun ⟨k, hk, hlast, hat⟩ => ⟨k, hk, by omega, hat⟩

/-- The FCB that an open builds from a directory entry. -/
theorem fitting_new (h : Tabled g) {cluster size : Nat} (hsize : size < 2 ^ 32)
    (hheads : Heads cluster l) (hroot : cluster ≠ 1)
    (hcover : size ≤ l.length * g.bytesPerCluster) :
    Fitting ⟨cluster, size, false, roundUp64 size g.bytesPerCluster, 0, 0⟩ g.bytesPerCluster l :=
  fitting_of_size h hsize rfl hsize (allocation_spec h hsize).2.1 hheads rfl hroot hcover
    (Or.inl rfl)

theorem updateFileSize_allocation (h : Tabled g) (fcb : Fcb) (n : Nat) :
    (updateFileSize fcb n g.bytesPerCluster).allocationSize =
      roundUp64 n g.bytesPerCluster := by
  by_cases hpos : 0 < n
  · exact if_pos hpos
  · obtain rfl : n = 0 := by omega
    obtain ⟨hwhole, -, hlt⟩ := allocation_spec (n := 0) h (by decide)
    rw [Nat.zero_add] at hlt
    exact (Nat.eq_zero_of_dvd_of_lt hwhole hlt).symm

theorem updateFileSize_file (hfile : fcb.isDirectory = false) (newSize clusterSize : Nat) :
    (updateFileSize fcb newSize clusterSize).fileSize = newSize := by
  dsimp only [updateFileSize]
  rw [hfile]
  rfl

theorem fitting_updateFileSize (fcb : Fcb) (h : Tabled g) (hnew : newSize < 2 ^ 32)
    (hheads : Heads fcb.firstCluster l) (hfile : fcb.isDirectory = false)
    (hroot : fcb.firstCluster ≠ 1) (hcover : newSize ≤ l.length * g.bytesPerCluster)
    (hcached : fcb.lastCluster = 0 ∨ ∃ k, fcb.lastOffset = k * g.bytesPerCluster ∧
      fcb.lastOffset < newSize ∧ l[k]? = some fcb.lastCluster) :
    Fitting (updateFileSize fcb newSize g.bytesPerCluster)
      g.bytesPerCluster l := by
  have halloc := updateFileSize_allocation h fcb newSize
  have hset := updateFileSize_file hfile newSize g.bytesPerCluster
  refine fitting_of_size h hnew halloc (by rwa [hset]) ?_ hheads hfile hroot hcover hcached
  rw [hset, halloc]
  exact (allocation_spec h hnew).2.1

/-- An allocation below four gigabytes leaves room for a cluster there. -/
theorem Fitting.room (h : Fitting fcb g.bytesPerCluster l) (htabled : Tabled g)
    (hlow : fcb.allocationSize < 2 ^ 32) :
    fcb.allocationSize + g.bytesPerCluster ≤ 2 ^ 32 := by
  by_contra hover
  have := le_of_dvd_of_lt_add (cluster_dvd htabled) h.whole (by omega)
  omega

/-- A file that grows fits its chain again, whether its size is set or its allocation. -/
theorem fitting_grown (h : Tabled g) (hnew : newSize < 2 ^ 32) (hbelow : fcb.fileSize < 2 ^ 32)
    (hsize : fcb.fileSize ≤ roundUp64 newSize g.bytesPerCluster)
    (hheads : Heads fcb.firstCluster l) (hfile : fcb.isDirectory = false)
    (hroot : fcb.firstCluster ≠ 1) (hcover : newSize ≤ l.length * g.bytesPerCluster)
    (hcached : fcb.lastCluster = 0 ∨ ∃ k, fcb.lastOffset = k * g.bytesPerCluster ∧
      fcb.lastOffset < newSize ∧ l[k]? = some fcb.lastCluster) (allocationOnly : Bool) :
    Fitting (if allocationOnly then updateAllocationSize fcb newSize g.bytesPerCluster
      else updateFileSize fcb newSize g.bytesPerCluster) g.bytesPerCluster l := by
  cases allocationOnly with
  | true => exact fitting_of_size h hnew rfl hbelow hsize hheads hfile hroot hcover hcached
  | false => exact fitting_updateFileSize fcb h hnew hheads hfile hroot hcover hcached

end Sizes

variable {fcb : Fcb} {newSize : Nat}

/-- The growing branch of `VfatSetAllocationSizeInformation`. -/
theorem grow_fitting (h : Ok d chains)
    (hfit : Fitting fcb d.fatInfo.bytesPerCluster (chains i)) (hpos : 0 < newSize)
    (hnew : newSize < 2 ^ 32)
    (hmore : fcb.allocationSize < newSize + d.fatInfo.bytesPerCluster)
    (henough : newSize ≤ ((chains i).length + freeClusterCount d) * d.fatInfo.bytesPerCluster)
    (hclusters : fcb.firstCluster ≠ 0 → fcb.allocationSize ≠ 0) (allocationOnly : Bool) :
    ∃ d' fcb' l, (if fcb.firstCluster = 0 then growEmpty d fcb newSize
        else growFrom d fcb newSize) = some (d', fcb', .success) ∧
      d'.fatInfo = d.fatInfo ∧ Ok d' (update chains i l) ∧
      Fitting (if allocationOnly then updateAllocationSize fcb' newSize d.fatInfo.bytesPerCluster
        else updateFileSize fcb' newSize d.fatInfo.bytesPerCluster) d.fatInfo.bytesPerCluster l := by
  have htabled := h.table.tabled
  obtain ⟨hwhole, hge, -⟩ := allocation_spec htabled hnew
  have hold : fcb.fileSize ≤ roundUp64 newSize d.fatInfo.bytesPerCluster :=
    hfit.size.trans (le_of_dvd_of_lt_add hfit.whole hwhole (by omega))
  by_cases hzero : fcb.firstCluster = 0
  · rw [if_pos hzero]
    have hnil := hfit.heads.eq_nil (by omega)
    rw [hnil, List.length_nil, Nat.zero_add] at henough
    rw [le_clusters_iff htabled hpos, ← lastPlace_eq htabled hpos hnew] at henough
    obtain ⟨d', first, rest, hgrow, htwo, hinfo, hok, hreach⟩ :=
      (growEmpty_spec h hnil fcb newSize).resolve_right fun hfull => by omega
    rw [lastPlace_eq htabled hpos hnew] at hreach
    have hcover := (le_clusters_iff htabled hpos).2 hreach
    refine ⟨d', _, first :: rest, hgrow, hinfo, hok, ?_⟩
    refine fitting_grown htabled hnew ?_ ?_ ?_ ?_ ?_ hcover (Or.inl ?_) allocationOnly
    · exact hfit.below
    · exact hold
    · exact heads_cons htwo rest
    · exact hfit.file
    · exact Nat.ne_of_gt htwo
    · rfl
  · rw [if_neg hzero]
    have hroot := hfit.root
    obtain ⟨r, hr⟩ := hfit.heads.eq_cons (by omega)
    obtain ⟨a, halloc⟩ := hfit.whole
    rw [Nat.mul_comm] at halloc
    obtain ⟨m, rfl⟩ : ∃ m, a = m + 1 := by
      refine Nat.exists_eq_succ_of_ne_zero fun hnone => hclusters hzero ?_
      rw [halloc, hnone, Nat.zero_mul]
    have hcovers : m + 1 ≤ (chains i).length :=
      Nat.le_of_mul_le_mul_right (halloc ▸ hfit.covers) (cluster_pos htabled)
    obtain ⟨c, hc⟩ := exists_at (show m < (chains i).length by omega)
    obtain ⟨hoffset, k, hk, rfl⟩ :=
      anchor_spec h (by rw [hr]; rfl) halloc hfit.low hfit.cached
    rw [Nat.succ_mul] at halloc
    have hsteps := growSteps_eq htabled hoffset (by omega) hnew
    rw [le_clusters_iff htabled hpos, ← hsteps] at henough
    obtain ⟨d', more, hgrow, hinfo, hok, hreach⟩ :=
      (growFrom_spec h hroot hk hc newSize).resolve_right fun hfull => by omega
    rw [hsteps] at hreach
    have hcover := (le_clusters_iff htabled hpos).2 hreach
    refine ⟨d', _, _, hgrow, hinfo, hok, ?_⟩
    refine fitting_grown htabled hnew ?_ ?_ ?_ ?_ ?_ hcover (Or.inr ⟨_, hoffset, ?_, ?_⟩) allocationOnly
    · exact hfit.below
    · exact hold
    · exact hfit.heads.append (by omega) more
    · exact hfit.file
    · exact hroot
    · dsimp only
      omega
    · rw [List.getElem?_append_left (List.getElem?_eq_some_iff.1 hc).1, hc]

/-- The branch that cuts a file. -/
theorem shrink_fitting (h : Ok d chains)
    (hfit : Fitting fcb d.fatInfo.bytesPerCluster (chains i)) (hnew : newSize < 2 ^ 32)
    (hwithin : newSize ≤ fcb.allocationSize) (junk : Nat) :
    ∃ d' fcb' l, shrink d fcb newSize junk = some (d', fcb') ∧ d'.fatInfo = d.fatInfo ∧
      Ok d' (update chains i l) ∧ Fitting fcb' d.fatInfo.bytesPerCluster l := by
  have htabled := h.table.tabled
  obtain ⟨d', l, hshrink, hinfo, hok, hheads, hreach⟩ := shrink_spec h hfit.root hfit.heads hnew
    (fun hpos => (le_clusters_iff htabled hpos).1 (hwithin.trans hfit.covers)) junk
  have hcover : newSize ≤ l.length * d.fatInfo.bytesPerCluster := by
    rcases Nat.eq_zero_or_pos newSize with rfl | hpos
    · exact Nat.zero_le _
    · exact (le_clusters_iff htabled hpos).2 (hreach hpos)
  refine ⟨d', _, l, hshrink, hinfo, hok, ?_⟩
  have hroot := hfit.root
  let cut := { fcb with
    firstCluster := if newSize = 0 then 0 else fcb.firstCluster
    lastCluster := 0
    lastOffset := 0 }
  refine fitting_updateFileSize cut htabled hnew hheads hfit.file ?_ hcover (Or.inl rfl)
  dsimp only [cut]
  split <;> omega

/-- The branch that leaves the chain alone: the size lies in the last cluster of the
allocation. -/
theorem keep_fitting {g : FatInfo} (h : Tabled g)
    (hfit : Fitting fcb g.bytesPerCluster l) (hnew : newSize < 2 ^ 32)
    (hwithin : newSize ≤ fcb.allocationSize)
    (hlast : fcb.allocationSize < newSize + g.bytesPerCluster) (allocationOnly : Bool) :
    Fitting (if allocationOnly then fcb else updateFileSize fcb newSize g.bytesPerCluster)
      g.bytesPerCluster l := by
  cases allocationOnly with
  | true => exact hfit
  | false =>
    refine fitting_updateFileSize fcb h hnew hfit.heads hfit.file hfit.root
      (hwithin.trans hfit.covers) ?_
    refine hfit.cached.imp_right fun ⟨k, hk, hlt, hat⟩ => ⟨k, hk, ?_, hat⟩
    by_contra hbehind
    have hle := le_of_dvd_of_lt_add hfit.whole (Dvd.intro_left k hk.symm) (by omega)
    omega

/-- A request for which there are enough clusters succeeds, and the FCB fits the chain
again. -/
theorem setAllocation_fitting (h : Ok d chains)
    (hfit : Fitting fcb d.fatInfo.bytesPerCluster (chains i)) (size : UInt32)
    (allocationOnly : Bool) (junk : Nat)
    (henough : size.toNat ≤
      ((chains i).length + freeClusterCount d) * d.fatInfo.bytesPerCluster)
    (hcareful : Manageable fcb d.fatInfo.bytesPerCluster size.toNat) :
    ∃ d' fcb' l, vfatSetAllocationSizeInformation d fcb
        (OpenFile.sizeRequest size allocationOnly junk) = some (d', fcb', .success) ∧
      d'.fatInfo = d.fatInfo ∧ Ok d' (update chains i l) ∧
      Fitting fcb' d.fatInfo.bytesPerCluster l ∧ (fcb.fileSize = size.toNat → fcb' = fcb) := by
  have htabled := h.table.tabled
  have hsize := size.toNat_lt
  unfold vfatSetAllocationSizeInformation OpenFile.sizeRequest
  dsimp only
  by_cases hsame : fcb.fileSize = size.toNat
  · rw [if_pos hsame]
    refine ⟨d, fcb, chains i, rfl, rfl, ?_, hfit, fun _ => rfl⟩
    rw [update_eq_self]
    exact h
  rw [if_neg hsame]
  obtain ⟨hclusters, hlow⟩ := hcareful (Ne.symm hsame)
  by_cases hmore : fcb.allocationSize % 2 ^ 32 < size.toNat
  · have hgrows : fcb.allocationSize < size.toNat + d.fatInfo.bytesPerCluster ∧
        (fcb.firstCluster ≠ 0 → fcb.allocationSize ≠ 0) := by
      have hbound := hfit.low
      by_cases hbelow : fcb.allocationSize < size.toNat
      · exact ⟨by omega, hclusters hbelow⟩
      · omega
    obtain ⟨d', fcb', l, hgrow, hinfo, hok, hfit'⟩ := grow_fitting h hfit (by omega) hsize
      hgrows.1 henough hgrows.2 allocationOnly
    rw [if_pos hmore, hgrow]
    exact ⟨d', _, l, rfl, hinfo, hok, hfit', fun heq => absurd heq hsame⟩
  · have hbelow : fcb.allocationSize < 2 ^ 32 := by
      have hcluster := Nat.le_of_dvd (by decide) (cluster_dvd htabled)
      have hbound := hfit.low
      by_contra hfull
      omega
    rw [if_neg hmore]
    rw [Nat.mod_eq_of_lt hbelow] at hmore ⊢
    by_cases hcut : wadd size.toNat d.fatInfo.bytesPerCluster ≤ fcb.allocationSize
    · rw [if_pos hcut, if_pos rfl]
      obtain ⟨d', fcb', l, hshrink, hinfo, hok, hfit'⟩ :=
        shrink_fitting h hfit hsize (by omega) junk
      rw [hshrink]
      exact ⟨d', fcb', l, rfl, hinfo, hok, hfit', fun heq => absurd heq hsame⟩
    · rw [if_neg hcut]
      have hlast : fcb.allocationSize < size.toNat + d.fatInfo.bytesPerCluster := by
        rw [wadd_eq] at hcut
        omega
      refine ⟨d, _, chains i, rfl, rfl, ?_,
        keep_fitting htabled hfit hsize (by omega) hlast allocationOnly,
        fun heq => absurd heq hsame⟩
      rw [update_eq_self]
      exact h

/-! ## Runs -/

/-- The chain a new FCB would be built from covers the size in the directory entry, the
FCB fits it, and an entry that is not marked dirty is that of the FCB. -/
structure Sound (f : OpenFile) (chains : Nat → List Nat) (i : Nat) : Prop where
  ok : Ok f.device chains
  fitting : Fitting f.fcb f.device.fatInfo.bytesPerCluster (chains i)
  entry : f.dirty = false → f.entryCluster = f.fcb.firstCluster ∧ f.entrySize = f.fcb.fileSize

variable {f : OpenFile}

theorem Sound.chainOf (h : Sound f chains i) : ChainOf f.device f.fcb.firstCluster (chains i) :=
  ⟨h.ok.forest.chain i, h.fitting.heads⟩

/-- A step succeeds and leaves a sound file. -/
def Succeeds (i : Nat) (outcome : Option (OpenFile × Status)) : Prop :=
  ∃ t chains, outcome = some (t, .success) ∧ Sound t chains i

theorem Sound.updateEntry (h : Sound f chains i) : Sound f.vfatUpdateEntry chains i :=
  ⟨h.ok, h.fitting, fun _ => ⟨rfl, rfl⟩⟩

theorem Sound.mark (h : Sound f chains i) : Sound { f with dirty := true } chains i :=
  ⟨h.ok, h.fitting, nofun⟩

theorem Sound.setSize (h : Sound f chains i) (size : UInt32) (allocationOnly : Bool) (junk : Nat)
    (henough : Enough f size.toNat)
    (hcareful : Manageable f.fcb f.device.fatInfo.bytesPerCluster size.toNat) :
    Succeeds i (f.setSize (OpenFile.sizeRequest size allocationOnly junk)) := by
  obtain ⟨d', fcb', l, hset, hinfo, hok, hfit, hsame⟩ := setAllocation_fitting h.ok h.fitting size
    allocationOnly junk (henough _ h.chainOf) hcareful
  have hfit' : Fitting fcb' d'.fatInfo.bytesPerCluster (update chains i l i) := by
    rw [hinfo, update_self]
    exact hfit
  have hmarked : Sound { f with device := d', fcb := fcb', dirty := true }
      (update chains i l) i := ⟨hok, hfit', nofun⟩
  unfold Succeeds OpenFile.setSize
  rw [hset]
  dsimp only
  split
  · next heq =>
    refine ⟨_, _, rfl, hok, hfit', ?_⟩
    rw [hsame heq]
    exact h.entry
  · next heq =>
    split
    · exact ⟨_, _, rfl, hmarked.updateEntry⟩
    · exact ⟨_, _, rfl, hmarked⟩

/-- A transfer within the allocation starts at the cluster of the chain for its offset. -/
theorem Sound.locate (h : Sound f chains i) {offset : Nat} (hoffset : offset < f.fcb.allocationSize) :
    ∃ cluster, (chains i)[offset / f.device.fatInfo.bytesPerCluster]? = some cluster ∧
      f.locate offset = (f.device, .success, some cluster) := by
  have htabled := h.ok.table.tabled
  have hpos := cluster_pos htabled
  have hlow := h.fitting.low
  have hcovers := h.fitting.covers
  have hlast : offset / f.device.fatInfo.bytesPerCluster < (chains i).length := by
    rw [Nat.div_lt_iff_lt_mul hpos]
    omega
  obtain ⟨cluster, hcluster⟩ := exists_at hlast
  refine ⟨cluster, hcluster, ?_⟩
  unfold OpenFile.locate
  dsimp only
  rw [alignDown_cluster htabled (by omega)]
  have hbelow := Nat.div_mul_le_self offset f.device.fatInfo.bytesPerCluster
  split_ifs with hcached
  · obtain ⟨k, hk, -, hat⟩ := h.fitting.cached.resolve_left (by omega)
    have hle : k ≤ offset / f.device.fatInfo.bytesPerCluster := by
      rw [Nat.le_div_iff_mul_le hpos]
      omega
    have htwo := (h.ok.isCluster (split_at hat)).1
    rw [hk, wsub_of_le (Nat.mul_le_mul_right _ hle) (by omega), ← Nat.sub_mul,
      offsetToCluster_of_ne (by omega), Nat.mul_div_cancel _ hpos]
    exact h.ok.follow_at hat (by rw [Nat.add_sub_cancel' hle, hcluster])
  · have hroot := h.fitting.root
    have htwo : 2 ≤ f.fcb.firstCluster := by
      by_contra hlow
      rw [h.fitting.heads.eq_nil (by omega)] at hlast
      exact absurd hlast (Nat.not_lt_zero _)
    obtain ⟨r, hr⟩ := h.fitting.heads.eq_cons htwo
    rw [offsetToCluster_of_ne hroot, Nat.mul_div_cancel _ hpos]
    exact h.ok.follow_at (k := 0) (by rw [hr]; rfl) (by rw [Nat.zero_add, hcluster])

theorem Sound.transfer (h : Sound f chains i) {offset : Nat} (hoffset : offset < f.fcb.allocationSize) :
    Succeeds i (some (f.transfer offset)) := by
  obtain ⟨cluster, hcluster, hlocate⟩ := h.locate hoffset
  have hlow := h.fitting.low
  unfold Succeeds OpenFile.transfer
  rw [hlocate]
  rw [alignDown_cluster h.ok.table.tabled (by omega)]
  refine ⟨_, chains, rfl, h.ok, { h.fitting with cached := Or.inr ⟨_, rfl, ?_, hcluster⟩ }, h.entry⟩
  exact (Nat.div_mul_le_self _ _).trans_lt hoffset

/-- A new FCB gets its allocation from the size, which the chain covers. -/
theorem Sound.init (h : Sound f chains i) (hclean : f.dirty = false) :
    Sound f.vfatInitFCBFromDirEntry chains i := by
  obtain ⟨hcluster, hsize⟩ := h.entry hclean
  refine ⟨h.ok, ?_, fun _ => ⟨rfl, rfl⟩⟩
  unfold OpenFile.vfatInitFCBFromDirEntry
  rw [hcluster, hsize]
  exact fitting_new h.ok.table.tabled h.fitting.below h.fitting.heads h.fitting.root
    (h.fitting.size.trans h.fitting.covers)

theorem Sound.reopen (h : Sound f chains i) (last : Bool) : Sound (f.reopen last) chains i := by
  have hclean : Sound (if f.dirty then f.vfatUpdateEntry else f) chains i ∧
      (if f.dirty then f.vfatUpdateEntry else f).dirty = false := by
    split_ifs with hdirty
    · exact ⟨h.updateEntry, rfl⟩
    · exact ⟨h, Bool.not_eq_true _ ▸ hdirty⟩
  unfold OpenFile.reopen
  dsimp only
  split
  · exact hclean.1.init hclean.2
  · exact hclean.1

theorem Sound.write (h : Sound f chains i) {offset length : UInt32} {junk : Nat}
    (hallowed : (Act.write offset length junk).Allowed f)
    (hcareful : (Act.write offset length junk).Careful f) :
    Succeeds i (f.vfatWrite offset length junk) := by
  unfold OpenFile.vfatWrite
  by_cases hmore : length ≠ 0 ∧ f.fcb.fileSize < (offset + length).toNat
  · have hasked : (Act.write offset length junk).size f = some (offset + length).toNat :=
      if_pos hmore
    obtain ⟨t, chains', hset, hsound⟩ := h.setSize (offset + length) false junk
      (hallowed.1 _ hasked) (hcareful _ hasked)
    rw [if_pos hmore, hset]
    exact ⟨_, chains', rfl, hsound.mark⟩
  · rw [if_neg hmore]
    exact ⟨_, chains, rfl, h.mark⟩

/-- Every act that is allowed and careful succeeds. -/
theorem Sound.apply (h : Sound f chains i) {a : Act} (hallowed : a.Allowed f) (hcareful : a.Careful f) :
    Succeeds i (f.apply a) := by
  cases a with
  | setAllocation size junk =>
    exact h.setSize size true junk (hallowed.1 _ rfl) (hcareful _ rfl)
  | setEndOfFile size junk =>
    exact h.setSize size false junk (hallowed.1 _ rfl) (hcareful _ rfl)
  | write offset length junk => exact h.write hallowed hcareful
  | transfer offset => exact h.transfer hallowed.2
  | reopen last => exact ⟨_, chains, rfl, h.reopen last⟩

theorem Sound.covered (h : Sound f chains i) : Covered f :=
  ⟨chains i, h.chainOf, h.fitting.size.trans h.fitting.covers, h.fitting.size,
    fun _ hoffset => h.locate hoffset⟩

/-- A file to start from: a file of an intact volume that has just been opened, with a
size below four gigabytes that its chain covers. -/
structure Start (f : OpenFile) : Prop where
  volume : ∃ files i, Fat.Start ⟨f.device, files⟩ ∧ files i = some f.fcb
  opened : f.vfatInitFCBFromDirEntry = f
  root : f.fcb.firstCluster ≠ 1
  below : f.fcb.fileSize < 2 ^ 32
  covers : ∀ l, ChainOf f.device f.fcb.firstCluster l →
    f.fcb.fileSize ≤ l.length * f.device.fatInfo.bytesPerCluster

theorem Start.sound (h : Start f) : ∃ chains i, Sound f chains i := by
  obtain ⟨files, i, hvolume, hi⟩ := h.volume
  obtain ⟨chains, hsound⟩ := hvolume.sound
  have hheads := (hsound.file hi).heads
  have hfcb : f.fcb = ⟨f.entryCluster, f.entrySize, false,
      roundUp64 f.entrySize f.device.fatInfo.bytesPerCluster, 0, 0⟩ :=
    congrArg OpenFile.fcb h.opened.symm
  have hbelow := h.below
  have hroot := h.root
  have hcover := h.covers _ ⟨hsound.ok.forest.chain i, hheads⟩
  refine ⟨chains, i, hsound.ok, ?_, fun _ => ⟨by rw [hfcb], by rw [hfcb]⟩⟩
  rw [hfcb] at hheads hbelow hroot hcover ⊢
  exact fitting_new hvolume.tabled hbelow hheads hroot hcover

/-- In every run whose requests are careful the chain covers the file, transfers use it,
and each request that is careful succeeds. -/
theorem growth_succeeds {s f : OpenFile} (hstart : Start s) (hrun : Reachable (· = s) Step f) :
    Covered f ∧ ∀ a : Act, a.Allowed f → a.Careful f → ∃ t, f.apply a = some (t, .success) := by
  have hsound : ∃ chains i, Sound f chains i := by
    refine Reachable.invariant (P := fun u => ∃ chains i, Sound u chains i) ?_ ?_ hrun
    · rintro _ rfl
      exact hstart.sound
    · rintro u a t ⟨chains, i, hu⟩ ⟨hallowed, hcareful, status, happly⟩
      obtain ⟨t', chains', happly', ht⟩ := hu.apply hallowed hcareful
      obtain rfl : t' = t := (Prod.mk.inj (Option.some.inj (happly'.symm.trans happly))).1
      exact ⟨chains', i, ht⟩
  obtain ⟨chains, i, hf⟩ := hsound
  refine ⟨hf.covered, ?_⟩
  intro a hallowed hcareful
  obtain ⟨t, -, happly, -⟩ := hf.apply hallowed hcareful
  exact ⟨t, happly⟩

/-! ## An empty file -/

/-- A volume whose clusters are all free, with one empty file. -/
def emptyFile : OpenFile where
  device := { smallVolume.device with fat := fun _ => 0 }
  fcb := ⟨0, 0, false, 0, 0, 0⟩
  dirty := false
  entryCluster := 0
  entrySize := 0

theorem emptyFile_start : Start emptyFile := by
  refine ⟨⟨fun i => if i = 0 then some emptyFile.fcb else none, 0, ?_, rfl⟩, rfl, by decide, by decide,
    fun _ _ => Nat.zero_le _⟩
  have hfile : ∀ {i fcb}, (if i = 0 then some emptyFile.fcb else none) = some fcb →
      i = 0 ∧ fcb = emptyFile.fcb := by
    intro i fcb hi
    split at hi
    · exact ⟨by assumption, (Option.some.inj hi).symm⟩
    · exact absurd hi nofun
  refine ⟨smallInfo_tabled, by decide +kernel, ⟨⟨fun _ => [], ?_, ?_, ?_⟩, nofun⟩, ?_⟩
  · intro i fcb hi
    obtain ⟨rfl, rfl⟩ := hfile hi
    exact ⟨⟨trivial, heads_nil (Nat.zero_le 1)⟩, List.nodup_nil, by simp⟩
  · intro i j fcb fcb' hij hi hj
    exact absurd ((hfile hi).1.trans (hfile hj).1.symm) hij
  · intro c _ hused
    exact absurd (Nat.zero_mod _) hused
  · intro i fcb l hi _
    obtain ⟨rfl, rfl⟩ := hfile hi
    exact Or.inl rfl

theorem enough_of_free {size : Nat}
    (h : size ≤ freeClusterCount f.device * f.device.fatInfo.bytesPerCluster) : Enough f size := by
  intro l _
  exact h.trans (Nat.mul_le_mul_right _ (Nat.le_add_left _ _))

theorem growth_succeeds_endOfFile : Start emptyFile ∧
    ∃ t, emptyFile.apply (.setEndOfFile 10000 0) = some (t, .success) ∧ Covered t := by
  have hallowed : (Act.setEndOfFile 10000 0).Allowed emptyFile := by
    refine ⟨fun size hsize => ?_, trivial⟩
    obtain rfl : 10000 = size := Option.some.inj hsize
    exact enough_of_free (by decide +kernel)
  have hcareful : (Act.setEndOfFile 10000 0).Careful emptyFile := by
    intro size hsize _
    exact ⟨fun _ hne => absurd rfl hne, fun _ => Or.inl (by decide)⟩
  obtain ⟨-, hsucceeds⟩ := growth_succeeds emptyFile_start (.start rfl)
  obtain ⟨t, ht⟩ := hsucceeds _ hallowed hcareful
  have hrun : Reachable (· = emptyFile) Step t :=
    .next _ (.start rfl) ⟨hallowed, hcareful, _, ht⟩
  exact ⟨emptyFile_start, t, ht, (growth_succeeds emptyFile_start hrun).1⟩

/-- An allocation for an empty file, which is closed and opened again: the new FCB has
clusters and an allocation size of zero, and a write cannot extend the file. -/
theorem growth_fails_reopened : Start emptyFile ∧ ∃ t u,
    (Act.setAllocation 8192 0).Allowed emptyFile ∧
    emptyFile.apply (.setAllocation 8192 0) = some (t, .success) ∧
    (Act.write 0 1 0).Allowed (t.reopen true) ∧
    (t.reopen true).apply (.write 0 1 0) = some (u, .fileCorruptError) := by
  refine ⟨emptyFile_start, _, _, ⟨fun size hsize => ?_, trivial⟩, rfl, ⟨fun size hsize => ?_, by decide⟩, rfl⟩
  · obtain rfl : 8192 = size := Option.some.inj hsize
    exact enough_of_free (by decide +kernel)
  · obtain rfl : 1 = size := Option.some.inj hsize
    exact enough_of_free (by decide +kernel)

end Roswell.Ports.FatGrowth
