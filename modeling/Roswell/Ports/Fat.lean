import Roswell.Ports.FatxGeometry
import Roswell.Verified.Chains

/-!
# The file allocation table

Model of `fat.c` for FATX volumes: reading and writing an entry, marking an
available cluster, and the cached count of available clusters; and of
`NextCluster` and `OffsetToCluster` of `rw.c`, which follow a chain.

The table is reached through the file cache.  An entry that lies behind the last
sector of the FAT reads as zero, and what is written there is lost.

`link` decodes an entry into a link of `Roswell.Verified.Chains`, so that a chain
of clusters is a chain there.  `Becomes` gives what each routine does to the links;
the cached count is right whatever the links are.
-/

namespace Roswell.Ports.Fat

open Verified.Word Verified.Chains FatxGeometry Function

inductive Status where
  | success
  | fileCorruptError
  | diskFull
  | invalidParameter
  | userMappedFile
  deriving DecidableEq, Repr

/-- The fields of `DEVICE_EXTENSION` that are used, with the entries of the FAT. -/
structure DeviceExt where
  fatInfo : FatInfo
  fat : Nat → Nat
  lastAvailableCluster : Nat
  availableClusters : Nat
  availableClustersValid : Bool

/-- What `GetNextCluster` makes of an end mark. -/
def endOfChain : Nat := 0xffffffff

namespace DeviceExt

/-- The entry lies in the FAT. -/
def Holds (d : DeviceExt) (cluster : Nat) : Prop :=
  d.fatInfo.fatOffset cluster + d.fatInfo.fatType.width ≤
    d.fatInfo.fatSectors * d.fatInfo.bytesPerSector

instance (d : DeviceExt) (cluster : Nat) : Decidable (d.Holds cluster) :=
  inferInstanceAs (Decidable (_ ≤ _))

/-- The place of an entry in the FAT. -/
def index (d : DeviceExt) (cluster : Nat) : Nat :=
  d.fatInfo.fatOffset cluster / d.fatInfo.fatType.width

def read (d : DeviceExt) (cluster : Nat) : Nat :=
  if d.Holds cluster then d.fat (d.index cluster) % 2 ^ (8 * d.fatInfo.fatType.width) else 0

def write (d : DeviceExt) (cluster value : Nat) : DeviceExt :=
  if d.Holds cluster then { d with fat := update d.fat (d.index cluster) value } else d

end DeviceExt

/-! ## The two widths of entries

`mask` is one more than the largest value of an entry, `endMark` the first value
that ends a chain. -/

def entryGetNextCluster (mask endMark : Nat) (d : DeviceExt) (currentCluster : Nat) :
    Status × Nat :=
  let entry := d.read currentCluster % mask
  let next := if endMark ≤ entry then endOfChain else entry
  (if next = 0 then .fileCorruptError else .success, next)

def fat16GetNextCluster : DeviceExt → Nat → Status × Nat := entryGetNextCluster (2 ^ 16) 0xfff8

def fat32GetNextCluster : DeviceExt → Nat → Status × Nat := entryGetNextCluster (2 ^ 28) 0xffffff8

/-- The first zero entry among `count` entries from `cluster` on. -/
def scanAvailable (mask : Nat) (d : DeviceExt) (cluster count : Nat) : Option Nat :=
  (List.range' cluster count).find? fun c => d.read c % mask = 0

/-- The scan starts at the hint and comes back to the first cluster. -/
def entryFindAndMarkAvailableCluster (mask : Nat) (d : DeviceExt) : Option (DeviceExt × Nat) :=
  let start := d.lastAvailableCluster
  let found := (scanAvailable mask d start (d.fatInfo.numberOfClusters + 2 - start)).or
    (scanAvailable mask d 2 (start - 2))
  found.map fun c =>
    ({ d.write c (mask - 1) with
        lastAvailableCluster := c
        availableClusters :=
          if d.availableClustersValid then wsub d.availableClusters 1 else d.availableClusters },
      c)

def fat16FindAndMarkAvailableCluster : DeviceExt → Option (DeviceExt × Nat) :=
  entryFindAndMarkAvailableCluster (2 ^ 16)

def fat32FindAndMarkAvailableCluster : DeviceExt → Option (DeviceExt × Nat) :=
  entryFindAndMarkAvailableCluster (2 ^ 28)

def entryCountAvailableClusters (mask : Nat) (d : DeviceExt) : DeviceExt :=
  { d with
    availableClusters :=
      (List.range' 2 d.fatInfo.numberOfClusters).countP fun c => d.read c % mask = 0
    availableClustersValid := true }

def fat16CountAvailableClusters : DeviceExt → DeviceExt := entryCountAvailableClusters (2 ^ 16)

def fat32CountAvailableClusters : DeviceExt → DeviceExt := entryCountAvailableClusters (2 ^ 28)

/-- The new table and the old value; the bits above the mask are kept. -/
def entryWriteCluster (mask : Nat) (d : DeviceExt) (clusterToWrite newValue : Nat) :
    DeviceExt × Nat :=
  let old := d.read clusterToWrite
  (d.write clusterToWrite (old / mask * mask + newValue % mask), old % mask)

def fat16WriteCluster : DeviceExt → Nat → Nat → DeviceExt × Nat := entryWriteCluster (2 ^ 16)

def fat32WriteCluster : DeviceExt → Nat → Nat → DeviceExt × Nat := entryWriteCluster (2 ^ 28)

/-! ## The routines the device extension points to -/

namespace DeviceExt

def getNextCluster (d : DeviceExt) : Nat → Status × Nat :=
  match d.fatInfo.fatType with
  | .fatx16 => fat16GetNextCluster d
  | .fatx32 => fat32GetNextCluster d

def findAndMarkAvailableCluster (d : DeviceExt) : Option (DeviceExt × Nat) :=
  match d.fatInfo.fatType with
  | .fatx16 => fat16FindAndMarkAvailableCluster d
  | .fatx32 => fat32FindAndMarkAvailableCluster d

def writeCluster (d : DeviceExt) : Nat → Nat → DeviceExt × Nat :=
  match d.fatInfo.fatType with
  | .fatx16 => fat16WriteCluster d
  | .fatx32 => fat32WriteCluster d

end DeviceExt

def countAvailableClusters (d : DeviceExt) : DeviceExt :=
  if d.availableClustersValid then d
  else match d.fatInfo.fatType with
    | .fatx16 => fat16CountAvailableClusters d
    | .fatx32 => fat32CountAvailableClusters d

def writeCluster (d : DeviceExt) (clusterToWrite newValue : Nat) : DeviceExt :=
  match d.writeCluster clusterToWrite newValue with
  | (d, oldValue) =>
    if d.availableClustersValid then
      if oldValue ≠ 0 ∧ newValue = 0 then
        { d with availableClusters := wadd d.availableClusters 1 }
      else if oldValue = 0 ∧ newValue ≠ 0 then
        { d with availableClusters := wsub d.availableClusters 1 }
      else d
    else d

/-- Cluster 0 leaves the caller's variable, which holds that cluster, as it is. -/
def getNextCluster (d : DeviceExt) (currentCluster : Nat) : Status × Nat :=
  if currentCluster = 0 then (.fileCorruptError, 0) else d.getNextCluster currentCluster

def getNextClusterExtend (d : DeviceExt) (currentCluster : Nat) : DeviceExt × Status × Nat :=
  if currentCluster = 0 then
    match d.findAndMarkAvailableCluster with
    | none => (d, .diskFull, 0)
    | some (d, newCluster) => (d, .success, newCluster)
  else
    match d.getNextCluster currentCluster with
    | (status, next) =>
      if next = endOfChain then
        match d.findAndMarkAvailableCluster with
        | none => (d, .diskFull, next)
        | some (d, newCluster) =>
          (writeCluster d currentCluster newCluster, status, newCluster)
      else (d, status, next)

/-- `FirstCluster` 1 is the root directory, which has no chain: its "clusters" are
sector numbers. -/
def nextCluster (d : DeviceExt) (firstCluster currentCluster : Nat) (extend : Bool) :
    DeviceExt × Status × Nat :=
  if firstCluster = 1 then (d, .success, wadd currentCluster d.fatInfo.sectorsPerCluster)
  else if extend then getNextClusterExtend d currentCluster
  else (d, getNextCluster d currentCluster)

/-- The loops of `OffsetToCluster`; no cluster is assigned on failure. -/
def follow (extend : Bool) : Nat → DeviceExt → Nat → DeviceExt × Status × Option Nat
  | 0, d, cluster => (d, .success, some cluster)
  | n + 1, d, cluster =>
    match (if extend then getNextClusterExtend d cluster else (d, getNextCluster d cluster)) with
    | (d, .success, next) => follow extend n d next
    | (d, status, _) => (d, status, none)

def offsetToCluster (d : DeviceExt) (firstCluster fileOffset : Nat) (extend : Bool) :
    DeviceExt × Status × Option Nat :=
  if firstCluster = 1 then
    (d, .success, some (wadd d.fatInfo.rootStart
      (wmul (fileOffset / d.fatInfo.bytesPerCluster) d.fatInfo.sectorsPerCluster)))
  else follow extend (fileOffset / d.fatInfo.bytesPerCluster) d firstCluster

/-- The loop of `VfatSetAllocationSizeInformation` that frees a chain; `none` when it
is still running after so many rounds. -/
def freeClusters (firstCluster : Nat) : Nat → DeviceExt → Status → Nat → Option DeviceExt
  | 0, _, _, _ => none
  | n + 1, d, status, cluster =>
    if status = .success ∧ cluster ≠ endOfChain ∧ 1 < cluster then
      match nextCluster d firstCluster cluster false with
      | (d, status, next) => freeClusters firstCluster n (writeCluster d cluster 0) status next
    else some d

/-- The loop of `FATXDelEntry`, which does not look at the status. -/
def deleteClusters : Nat → DeviceExt → Nat → Option DeviceExt
  | 0, _, _ => none
  | n + 1, d, currentCluster =>
    if currentCluster ≠ 0 ∧ currentCluster ≠ endOfChain then
      deleteClusters n (writeCluster d currentCluster 0) (getNextCluster d currentCluster).2
    else some d

/-! ## Entries as links -/

def mask : FatType → Nat
  | .fatx16 => 2 ^ 16
  | .fatx32 => 2 ^ 28

def endMark : FatType → Nat
  | .fatx16 => 0xfff8
  | .fatx32 => 0xffffff8

def decode (t : FatType) (entry : Nat) : Link Nat :=
  if entry = 0 then .free else if endMark t ≤ entry then .last else .next entry

/-- The entry of a cluster as a link. -/
def link (d : DeviceExt) (cluster : Nat) : Link Nat :=
  decode d.fatInfo.fatType (d.fat cluster % mask d.fatInfo.fatType)

/-- What the geometry of the volume has to give: an entry for each cluster, cluster
numbers below the end marks, a FAT of less than 4 GiB and clusters of a power of
two of bytes. -/
structure Tabled (f : FatInfo) : Prop where
  entry : ∀ c, f.IsCluster c → f.EntryInside c
  numbered : f.numberOfClusters + 2 ≤ endMark f.fatType
  small : f.fatSectors * f.bytesPerSector < 2 ^ 32
  cluster : ∃ k ≤ 32, f.bytesPerCluster = 2 ^ k

theorem decode_zero (t : FatType) : decode t 0 = .free := if_pos rfl

theorem decode_eq_free {t : FatType} {x : Nat} : decode t x = .free ↔ x = 0 := by
  unfold decode
  split
  · simpa
  · split <;> simpa

theorem endMark_lt_mask (t : FatType) : endMark t < mask t := by
  cases t <;> decide

theorem decode_endOfChain (t : FatType) : decode t (endOfChain % mask t) = .last := by
  cases t <;> decide

theorem decode_cluster {t : FatType} {c : Nat} (hc : 2 ≤ c) (hlt : c < endMark t) :
    decode t (c % mask t) = .next c := by
  rw [Nat.mod_eq_of_lt (hlt.trans (endMark_lt_mask t))]
  unfold decode
  rw [if_neg (by omega), if_neg (by omega)]

section Entries

variable {d : DeviceExt} {c : Nat}

theorem Tabled.lt_endMark {f : FatInfo} (h : Tabled f) (hc : f.IsCluster c) :
    c < endMark f.fatType :=
  lt_of_lt_of_le hc.2 h.numbered

theorem Tabled.fatOffset {f : FatInfo} (h : Tabled f) (hc : f.IsCluster c) :
    f.fatOffset c = c * f.fatType.width := by
  have hlt := h.lt_endMark hc
  refine Nat.mod_eq_of_lt ?_
  cases ht : f.fatType with
  | fatx16 | fatx32 =>
    rw [ht] at hlt
    simp only [endMark] at hlt
    simp only [FatType.width]
    omega

theorem Tabled.holds (h : Tabled d.fatInfo) (hc : d.fatInfo.IsCluster c) : d.Holds c := by
  have hentry := h.entry c hc
  unfold FatInfo.EntryInside at hentry
  rw [Nat.add_mul] at hentry
  unfold DeviceExt.Holds
  omega

theorem Tabled.index (h : Tabled d.fatInfo) (hc : d.fatInfo.IsCluster c) : d.index c = c := by
  unfold DeviceExt.index
  rw [h.fatOffset hc]
  cases d.fatInfo.fatType with
  | fatx16 | fatx32 => exact Nat.mul_div_cancel c (by decide)

theorem mask_dvd (t : FatType) : mask t ∣ 2 ^ (8 * t.width) := by
  cases t <;> decide

theorem read_mod_mask (h : Tabled d.fatInfo) (hc : d.fatInfo.IsCluster c) :
    d.read c % mask d.fatInfo.fatType = d.fat c % mask d.fatInfo.fatType := by
  unfold DeviceExt.read
  rw [if_pos (h.holds hc), h.index hc, Nat.mod_mod_of_dvd _ (mask_dvd _)]

theorem write_eq (h : Tabled d.fatInfo) (hc : d.fatInfo.IsCluster c) (x : Nat) :
    d.write c x = { d with fat := update d.fat c x } := by
  unfold DeviceExt.write
  rw [if_pos (h.holds hc), h.index hc]

theorem write_fatInfo (d : DeviceExt) (c x : Nat) : (d.write c x).fatInfo = d.fatInfo := by
  unfold DeviceExt.write
  split <;> rfl

theorem read_free_iff (h : Tabled d.fatInfo) (hc : d.fatInfo.IsCluster c) :
    d.read c % mask d.fatInfo.fatType = 0 ↔ link d c = .free := by
  unfold link
  rw [decode_eq_free, read_mod_mask h hc]

/-- A link is rewritten by a new value of its entry. -/
theorem link_update (d : DeviceExt) (c x : Nat) :
    link { d with fat := update d.fat c x } =
      update (link d) c
        (decode d.fatInfo.fatType (x % mask d.fatInfo.fatType)) := by
  funext b
  by_cases hb : b = c
  · subst hb
    simp [link]
  · simp [link, hb]

end Entries

/-! ## Each routine in terms of links -/

/-- The answer of `GetNextCluster` for a link. -/
def answer : Link Nat → Status × Nat
  | .free => (.fileCorruptError, 0)
  | .last => (.success, endOfChain)
  | .next c => (.success, c)

section Routines

variable {d : DeviceExt} {c : Nat}

theorem device_getNextCluster_entry (d : DeviceExt) (c : Nat) :
    d.getNextCluster c =
      entryGetNextCluster (mask d.fatInfo.fatType) (endMark d.fatInfo.fatType) d c := by
  unfold DeviceExt.getNextCluster
  cases d.fatInfo.fatType <;> rfl

theorem device_getNextCluster (h : Tabled d.fatInfo) (hc : d.fatInfo.IsCluster c) :
    d.getNextCluster c = answer (link d c) := by
  rw [device_getNextCluster_entry]
  unfold entryGetNextCluster link decode
  rw [read_mod_mask h hc]
  generalize d.fat c % mask d.fatInfo.fatType = x
  by_cases hx : x = 0
  · have hmark : ¬endMark d.fatInfo.fatType ≤ 0 := by
      cases d.fatInfo.fatType <;> decide
    simp [hx, hmark, answer]
  · by_cases hend : endMark d.fatInfo.fatType ≤ x
    · simp [hx, hend, answer, endOfChain]
    · simp [hx, hend, answer]

theorem getNextCluster_eq (h : Tabled d.fatInfo) (hc : d.fatInfo.IsCluster c) :
    getNextCluster d c = answer (link d c) := by
  unfold getNextCluster
  have hpos := hc.1
  rw [if_neg (by omega), device_getNextCluster h hc]

theorem countAvailableClusters_of_not_valid (h : ¬d.availableClustersValid = true) :
    countAvailableClusters d = entryCountAvailableClusters (mask d.fatInfo.fatType) d := by
  unfold countAvailableClusters
  rw [if_neg h]
  cases d.fatInfo.fatType <;> rfl

/-- The clusters of a volume. -/
def clusters (f : FatInfo) : List Nat := List.range' 2 f.numberOfClusters

theorem mem_clusters {f : FatInfo} : c ∈ clusters f ↔ f.IsCluster c := by
  unfold clusters FatInfo.IsCluster
  rw [List.mem_range'_1]
  omega

theorem clusters_nodup (f : FatInfo) : (clusters f).Nodup := List.nodup_range'

/-- The cached count is right. -/
def Counted (d : DeviceExt) : Prop :=
  d.availableClustersValid = true →
    d.availableClusters = freeNodes (link d) (clusters d.fatInfo)

/-- What holds of the table whatever chains are in it. -/
structure Table (d : DeviceExt) : Prop where
  tabled : Tabled d.fatInfo
  counted : Counted d
  hint : 2 ≤ d.lastAvailableCluster ∧ d.lastAvailableCluster ≤ d.fatInfo.numberOfClusters + 2

theorem freeNodes_lt (h : Tabled d.fatInfo) (f : Nat → Link Nat) :
    freeNodes f (clusters d.fatInfo) + 1 < 2 ^ 32 := by
  have hle := freeNodes_le f (clusters d.fatInfo)
  have hnum := h.numbered
  have hmark : endMark d.fatInfo.fatType < 2 ^ 28 := by
    cases d.fatInfo.fatType <;> decide
  unfold clusters at hle
  rw [List.length_range'] at hle
  unfold clusters
  omega

/-- The table after a change, by its links. -/
structure Becomes (d d' : DeviceExt) (f : Nat → Link Nat) : Prop where
  table : Table d'
  fatInfo : d'.fatInfo = d.fatInfo
  link : link d' = f

theorem device_writeCluster_entry (d : DeviceExt) (c new : Nat) :
    d.writeCluster c new = entryWriteCluster (mask d.fatInfo.fatType) d c new := by
  unfold DeviceExt.writeCluster
  cases d.fatInfo.fatType <;> rfl

theorem device_writeCluster (h : Tabled d.fatInfo) (hc : d.fatInfo.IsCluster c) (new : Nat) :
    ∃ x, x % mask d.fatInfo.fatType = new % mask d.fatInfo.fatType ∧
      d.writeCluster c new =
        ({ d with fat := update d.fat c x }, d.read c % mask d.fatInfo.fatType) := by
  rw [device_writeCluster_entry]
  unfold entryWriteCluster
  dsimp only
  rw [write_eq h hc]
  refine ⟨_, ?_, rfl⟩
  rw [Nat.add_mod, Nat.mul_mod_left, Nat.zero_add, Nat.mod_mod, Nat.mod_mod]

/-- An entry rewritten, with the count that goes with it. -/
theorem becomes_update (h : Table d) (hc : d.fatInfo.IsCluster c) {x n k : Nat}
    (hk : 2 ≤ k ∧ k ≤ d.fatInfo.numberOfClusters + 2)
    (hn : d.availableClustersValid = true →
      n + (if link d c = .free then 1 else 0) = d.availableClusters +
        (if decode d.fatInfo.fatType (x % mask d.fatInfo.fatType) = .free then 1 else 0)) :
    Becomes d
      { d with
        fat := update d.fat c x
        lastAvailableCluster := k
        availableClusters := n }
      (update (link d) c (decode d.fatInfo.fatType (x % mask d.fatInfo.fatType))) := by
  refine ⟨⟨h.tabled, ?_, hk⟩, rfl, link_update d c x⟩
  intro hvalid
  have hcount := freeNodes_update (f := link d) (clusters_nodup d.fatInfo) (mem_clusters.2 hc)
    (decode d.fatInfo.fatType (x % mask d.fatInfo.fatType))
  rw [← link_update, ← h.counted hvalid, ← hn hvalid] at hcount
  exact (Nat.add_right_cancel hcount).symm

/-- The three cases of the count are one: it is right if it was, and a value that is
not zero is not cut down to zero. -/
theorem writeCluster_becomes (h : Table d) (hc : d.fatInfo.IsCluster c) (new : Nat)
    (hnew : new % mask d.fatInfo.fatType = 0 ↔ new = 0) :
    Becomes d (writeCluster d c new)
      (update (link d) c
        (decode d.fatInfo.fatType (new % mask d.fatInfo.fatType))) := by
  obtain ⟨x, hx, hdevice⟩ := device_writeCluster h.tabled hc new
  have hold := read_free_iff h.tabled hc
  have hzero : decode d.fatInfo.fatType (new % mask d.fatInfo.fatType) = .free ↔ new = 0 :=
    decode_eq_free.trans hnew
  rw [← hx] at hzero ⊢
  have hbound := freeNodes_lt h.tabled (link d)
  unfold writeCluster
  rw [hdevice]
  dsimp only
  by_cases hvalid : d.availableClustersValid = true
  · have hcount := h.counted hvalid
    rw [if_pos hvalid]
    by_cases hup : d.read c % mask d.fatInfo.fatType ≠ 0 ∧ new = 0
    · rw [if_pos hup]
      refine becomes_update h hc h.hint fun _ => ?_
      rw [if_neg (fun hf => hup.1 (hold.2 hf)), if_pos (hzero.2 hup.2), wadd_of_lt (by omega)]
    rw [if_neg hup]
    by_cases hdown : d.read c % mask d.fatInfo.fatType = 0 ∧ new ≠ 0
    · have hpos : 0 < freeNodes (link d) (clusters d.fatInfo) :=
        List.countP_pos_iff.2 ⟨c, mem_clusters.2 hc, decide_eq_true (hold.1 hdown.1)⟩
      rw [if_pos hdown]
      refine becomes_update h hc h.hint fun _ => ?_
      rw [if_pos (hold.1 hdown.1), if_neg (fun hf => hdown.2 (hzero.1 hf)),
        wsub_of_le (by omega) (by omega)]
      omega
    · rw [if_neg hdown]
      refine becomes_update h hc h.hint fun _ => ?_
      rw [← if_congr hold rfl rfl, if_congr hzero rfl rfl]
      by_cases hread : d.read c % mask d.fatInfo.fatType = 0
      · rw [if_pos hread, if_pos (by_contra fun hne => hdown ⟨hread, hne⟩)]
      · rw [if_neg hread, if_neg fun heq => hup ⟨hread, heq⟩]
  · rw [if_neg hvalid]
    exact becomes_update h hc h.hint fun hv => absurd hv hvalid

theorem writeCluster_zero (h : Table d) (hc : d.fatInfo.IsCluster c) :
    Becomes d (writeCluster d c 0) (update (link d) c .free) := by
  have hwrite := writeCluster_becomes h hc 0 (by simp)
  rwa [Nat.zero_mod, decode_zero] at hwrite

theorem writeCluster_end (h : Table d) (hc : d.fatInfo.IsCluster c) :
    Becomes d (writeCluster d c endOfChain) (update (link d) c .last) := by
  have hnew : endOfChain % mask d.fatInfo.fatType = 0 ↔ endOfChain = 0 := by
    cases d.fatInfo.fatType <;> decide
  have hwrite := writeCluster_becomes h hc endOfChain hnew
  rwa [decode_endOfChain] at hwrite

theorem writeCluster_cluster (h : Table d) (hc : d.fatInfo.IsCluster c) {b : Nat}
    (hb : d.fatInfo.IsCluster b) :
    Becomes d (writeCluster d c b) (update (link d) c (.next b)) := by
  have hlt := h.tabled.lt_endMark hb
  have hmod := Nat.mod_eq_of_lt (hlt.trans (endMark_lt_mask d.fatInfo.fatType))
  have hwrite := writeCluster_becomes h hc b (by rw [hmod])
  rwa [decode_cluster hb.1 hlt] at hwrite

theorem scanAvailable_some {m : Nat} {start count : Nat}
    (h : scanAvailable m d start count = some c) :
    start ≤ c ∧ c < start + count ∧ d.read c % m = 0 := by
  unfold scanAvailable at h
  have hmem := List.mem_of_find?_eq_some h
  have hread := List.find?_some h
  rw [List.mem_range'_1] at hmem
  exact ⟨hmem.1, hmem.2, of_decide_eq_true hread⟩

/-- The two scans see clusters only. -/
theorem scanned {m start : Nat} (hlo : 2 ≤ start) (hhi : start ≤ d.fatInfo.numberOfClusters + 2)
    (h : (scanAvailable m d start (d.fatInfo.numberOfClusters + 2 - start)).or
      (scanAvailable m d 2 (start - 2)) = some c) :
    d.fatInfo.IsCluster c ∧ d.read c % m = 0 := by
  rcases Option.or_eq_some_iff.1 h with hscan | ⟨-, hscan⟩
  · obtain ⟨hge, hlt, hread⟩ := scanAvailable_some hscan
    exact ⟨⟨by omega, by omega⟩, hread⟩
  · obtain ⟨hge, hlt, hread⟩ := scanAvailable_some hscan
    exact ⟨⟨by omega, by omega⟩, hread⟩

theorem findAndMark_becomes (h : Table d) {d' : DeviceExt}
    (hfind : d.findAndMarkAvailableCluster = some (d', c)) :
    d.fatInfo.IsCluster c ∧ link d c = .free ∧
      Becomes d d' (update (link d) c .last) := by
  have hentry : d.findAndMarkAvailableCluster =
      entryFindAndMarkAvailableCluster (mask d.fatInfo.fatType) d := by
    unfold DeviceExt.findAndMarkAvailableCluster
    cases d.fatInfo.fatType <;> rfl
  rw [hentry] at hfind
  unfold entryFindAndMarkAvailableCluster at hfind
  obtain ⟨b, hfound, hmark⟩ := Option.map_eq_some_iff.1 hfind
  obtain ⟨hd', rfl⟩ := Prod.mk.inj hmark
  obtain ⟨hb, hread⟩ := scanned h.hint.1 h.hint.2 hfound
  have hfree := (read_free_iff h.tabled hb).1 hread
  have hpos : 0 < freeNodes (link d) (clusters d.fatInfo) :=
    List.countP_pos_iff.2 ⟨b, mem_clusters.2 hb, decide_eq_true hfree⟩
  have hbound := freeNodes_lt h.tabled (link d)
  have hlast : decode d.fatInfo.fatType
      ((mask d.fatInfo.fatType - 1) % mask d.fatInfo.fatType) = .last := by
    cases d.fatInfo.fatType <;> decide
  refine ⟨hb, hfree, ?_⟩
  rw [← hd', write_eq h.tabled hb, ← hlast]
  refine becomes_update h hb ⟨hb.1, le_of_lt hb.2⟩ fun hvalid => ?_
  have hcount := h.counted hvalid
  rw [if_pos hvalid, if_pos hfree, hlast, if_neg nofun, wsub_of_le (by omega) (by omega)]
  omega

end Routines

end Roswell.Ports.Fat
