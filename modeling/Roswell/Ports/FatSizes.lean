import Roswell.Ports.FatChains
import Roswell.Verified.Runs

/-!
# Chains under size changes and deletion

Model of `VfatSetAllocationSizeInformation` and of what `FATXDelEntry` does to the
FAT, and of their sequences together with `GetNextClusterExtend` and
`CountAvailableClusters`.

A file is represented by its FCB; `VfatUpdateEntry` copies the directory entry out
after each change of the allocation, so the first cluster on the disk is the one
in the FCB.  File size and valid data length of the cache map are not read here and
left out.

`VfatSetAllocationSizeInformation` treats the root directory like a file whose
chain starts at cluster 1, and takes sector numbers for clusters there.
-/

namespace Roswell.Ports.Fat

open Verified.Word Verified.Chains Verified.Runs FatxGeometry Function

/-- The fields of `VFATFCB` that are used; the first three are in its directory
entry. -/
structure Fcb where
  firstCluster : Nat
  fileSize : Nat
  isDirectory : Bool
  allocationSize : Nat
  lastCluster : Nat
  lastOffset : Nat
  deriving DecidableEq, Repr

/-- `ROUND_UP_64`. -/
def roundUp64 (n align : Nat) : Nat := (n + (align - 1)) &&& (2 ^ 64 - align)

/-- `UpdateFileSize`.  `RFCB.FileSize`, which it sets for a directory too, is the entry's size
for a file and is not followed for a directory. -/
def updateFileSize (fcb : Fcb) (size clusterSize : Nat) : Fcb :=
  { fcb with
    allocationSize := if 0 < size then roundUp64 size clusterSize else 0
    fileSize := if fcb.isDirectory then fcb.fileSize else size }

def updateAllocationSize (fcb : Fcb) (size clusterSize : Nat) : Fcb :=
  { fcb with allocationSize := roundUp64 size clusterSize }

/-- No loop over a chain goes on for longer and ends. -/
def rounds : Nat := 2 ^ 32

/-- State, FCB and status after a call; `none` when it does not return. -/
abbrev Outcome := Option (DeviceExt × Fcb × Status)

/-- `AllocationSize.u.LowPart - ClusterSize`. -/
def lastAllocatedOffset (d : DeviceExt) (fcb : Fcb) : Nat :=
  wsub (fcb.allocationSize % 2 ^ 32) d.fatInfo.bytesPerCluster

/-- A file without clusters gets its first ones. -/
def growEmpty (d : DeviceExt) (fcb : Fcb) (newSize : Nat) : Outcome :=
  let fcb := { fcb with lastCluster := 0, lastOffset := 0 }
  match nextCluster d 0 0 true with
  | (d, status, first) =>
    if status ≠ .success then some (d, fcb, status)
    else if first = endOfChain then some (d, fcb, .diskFull)
    else
      match offsetToCluster d first
        (alignDown (wsub newSize 1) d.fatInfo.bytesPerCluster) true with
      | (d, status, last) =>
        if last = some endOfChain ∨ status ≠ .success then
          (freeClusters first rounds d .success first).map fun d => (d, fcb, .diskFull)
        else some (d, { fcb with firstCluster := first }, .success)

/-- The search for the last cluster of the allocation, from the cached position or
from the first cluster. -/
def lastAllocated (d : DeviceExt) (fcb : Fcb) : DeviceExt × Status × Option Nat :=
  if 0 < fcb.lastCluster then
    if lastAllocatedOffset d fcb = fcb.lastOffset then (d, .success, some fcb.lastCluster)
    else offsetToCluster d fcb.lastCluster (wsub (lastAllocatedOffset d fcb) fcb.lastOffset) false
  else offsetToCluster d fcb.firstCluster (lastAllocatedOffset d fcb) false

/-- The chain is cut behind `cluster` and the rest of it freed. -/
def cutAfter (d : DeviceExt) (first cluster : Nat) : Option DeviceExt :=
  match nextCluster d first cluster false with
  | (d, status, next) => freeClusters first rounds (writeCluster d cluster endOfChain) status next

/-- A file with clusters gets more. -/
def growFrom (d : DeviceExt) (fcb : Fcb) (newSize : Nat) : Outcome :=
  match lastAllocated d fcb with
  | (d, .success, some cluster) =>
    let fcb := { fcb with lastCluster := cluster, lastOffset := lastAllocatedOffset d fcb }
    match offsetToCluster d cluster
      (wsub (alignDown (wsub newSize 1) d.fatInfo.bytesPerCluster) fcb.lastOffset) true with
    | (d, status, last) =>
      if last = some endOfChain ∨ status ≠ .success then
        (cutAfter d fcb.firstCluster cluster).map fun d => (d, fcb, .diskFull)
      else some (d, fcb, .success)
  | (d, status, _) => some (d, fcb, status)

/-- `junk` is the value of the variable `Cluster` when `OffsetToCluster` fails and
does not assign it. -/
def shrink (d : DeviceExt) (fcb : Fcb) (newSize junk : Nat) : Option (DeviceExt × Fcb) :=
  let first := fcb.firstCluster
  let fcb := updateFileSize { fcb with lastCluster := 0, lastOffset := 0 } newSize
    d.fatInfo.bytesPerCluster
  if 0 < newSize then
    match offsetToCluster d first
      (alignDown (wsub newSize 1) d.fatInfo.bytesPerCluster) false with
    | (d, _, cluster) => (cutAfter d first (cluster.getD junk)).map fun d => (d, fcb)
  else
    (freeClusters first rounds d .success first).map fun d => (d, { fcb with firstCluster := 0 })

/-- The arguments of a call, with the answer of `MmCanFileBeTruncated`. -/
structure Request where
  highPart : Int
  lowPart : UInt32
  allocationOnly : Bool
  canBeTruncated : Bool
  junk : Nat

def vfatSetAllocationSizeInformation (d : DeviceExt) (fcb : Fcb) (request : Request) : Outcome :=
  let clusterSize := d.fatInfo.bytesPerCluster
  let newSize := request.lowPart.toNat
  let allocated := fcb.allocationSize % 2 ^ 32
  if 0 < request.highPart then some (d, fcb, .invalidParameter)
  else if fcb.fileSize = newSize then some (d, fcb, .success)
  else if allocated < newSize then
    match (if fcb.firstCluster = 0 then growEmpty d fcb newSize else growFrom d fcb newSize) with
    | some (d, fcb, .success) =>
      some (d, if request.allocationOnly then updateAllocationSize fcb newSize clusterSize
        else updateFileSize fcb newSize clusterSize, .success)
    | failed => failed
  else if wadd newSize clusterSize ≤ allocated then
    if request.canBeTruncated then
      (shrink d fcb newSize request.junk).map fun (d, fcb) => (d, fcb, .success)
    else some (d, fcb, .userMappedFile)
  else
    some (d, if request.allocationOnly then fcb else updateFileSize fcb newSize clusterSize,
      .success)

/-- The clusters of a deleted entry.  A move keeps them and does not come here. -/
def fatxDelEntry (d : DeviceExt) (fcb : Fcb) : Option DeviceExt :=
  deleteClusters rounds d fcb.firstCluster

/-! ## Sequences of calls -/

structure Volume where
  device : DeviceExt
  files : Nat → Option Fcb

inductive Act where
  /-- `GetNextClusterExtend` for the cluster that is `steps` behind the first one, or for
  a file without clusters. -/
  | extend (file steps : Nat)
  | setSize (file : Nat) (request : Request)
  | delete (file : Nat)
  | count

namespace Volume

/-- The call that extends a chain; a root directory has none. -/
def extend (v : Volume) (file steps : Nat) (fcb : Fcb) : Volume :=
  if fcb.firstCluster = 0 then
    match getNextClusterExtend v.device 0 with
    | (d, .success, first) =>
      ⟨d, update v.files file (some { fcb with firstCluster := first })⟩
    | (d, _, _) => { v with device := d }
  else if fcb.firstCluster = 1 then v
  else
    match follow false steps v.device fcb.firstCluster with
    | (_, .success, some cluster) =>
      if cluster = endOfChain then v
      else { v with device := (getNextClusterExtend v.device cluster).1 }
    | _ => v

/-- A call on a file that is not there does nothing. -/
def apply (v : Volume) : Act → Option Volume
  | .extend i steps =>
    match v.files i with
    | none => some v
    | some fcb => some (v.extend i steps fcb)
  | .setSize i request =>
    match v.files i with
    | none => some v
    | some fcb =>
      (vfatSetAllocationSizeInformation v.device fcb request).map fun (d, fcb, _) =>
        ⟨d, update v.files i (some fcb)⟩
  | .delete i =>
    match v.files i with
    | none => some v
    | some fcb => (fatxDelEntry v.device fcb).map fun d => ⟨d, update v.files i none⟩
  | .count => some { v with device := countAvailableClusters v.device }

end Volume

/-- The list is what a first cluster heads: nothing for an empty file and for the root
directory. -/
def Heads (first : Nat) (l : List Nat) : Prop := if first ≤ 1 then l = [] else l.head? = some first

/-- The chain of a first cluster. -/
def ChainOf (d : DeviceExt) (first : Nat) (l : List Nat) : Prop :=
  IsChain (link d) l ∧ Heads first l

/-- The files' chains are lists of clusters without repetitions, no two share a
cluster, each nonzero entry is in the chain of exactly one file, and the count, once
valid, is that of the zero entries. -/
structure Intact (v : Volume) : Prop where
  chains : ∃ chains : Nat → List Nat,
    (∀ i fcb, v.files i = some fcb →
      ChainOf v.device fcb.firstCluster (chains i) ∧ (chains i).Nodup ∧
        ∀ c ∈ chains i, v.device.fatInfo.IsCluster c) ∧
    (∀ i j fcb fcb', i ≠ j → v.files i = some fcb → v.files j = some fcb' →
      List.Disjoint (chains i) (chains j)) ∧
    (∀ c, v.device.fatInfo.IsCluster c →
      v.device.fat c % mask v.device.fatInfo.fatType ≠ 0 →
        ∃! i, (∃ fcb, v.files i = some fcb) ∧ c ∈ chains i)
  count : v.device.availableClustersValid = true →
    v.device.availableClusters = (clusters v.device.fatInfo).countP
      fun c => v.device.fat c % mask v.device.fatInfo.fatType = 0

/-! ## The condition -/

/-- Where the search for the last allocated cluster starts, and how many clusters on it
goes. -/
def anchor (fcb : Fcb) : Nat := if 0 < fcb.lastCluster then fcb.lastCluster else fcb.firstCluster

def anchorSteps (d : DeviceExt) (fcb : Fcb) : Nat :=
  wsub (lastAllocatedOffset d fcb) (if 0 < fcb.lastCluster then fcb.lastOffset else 0) /
    d.fatInfo.bytesPerCluster

/-- The file is not the root directory.  To grow it, its allocation size may not be by
exactly one cluster more than its chain, or the search for the last allocated cluster
ends on the end mark; to shrink it, the new size has to lie within the chain. -/
def Sized (d : DeviceExt) (fcb : Fcb) (newSize : Nat) : Prop :=
  fcb.firstCluster ≠ 1 ∧
  (fcb.allocationSize % 2 ^ 32 < newSize → fcb.firstCluster ≠ 0 →
    ∀ l, ChainOf d (anchor fcb) l → anchorSteps d fcb ≠ l.length) ∧
  (newSize ≤ fcb.allocationSize % 2 ^ 32 →
    wadd newSize d.fatInfo.bytesPerCluster ≤ fcb.allocationSize % 2 ^ 32 → 0 < newSize →
      ∀ l, ChainOf d fcb.firstCluster l → (newSize - 1) / d.fatInfo.bytesPerCluster < l.length)

def Act.Careful (v : Volume) : Act → Prop
  | .extend _ _ => True
  | .setSize i request => ∀ fcb, v.files i = some fcb → Sized v.device fcb request.lowPart.toNat
  | .delete i => ∀ fcb, v.files i = some fcb → fcb.firstCluster ≠ 1
  | .count => True

def Step (v : Volume) (a : Act) (t : Volume) : Prop := a.Careful v ∧ v.apply a = some t

/-- A volume to start from: an intact one, with a geometry that gives each cluster an
entry, and no file's cached position outside its chain. -/
structure Start (v : Volume) : Prop where
  tabled : Tabled v.device.fatInfo
  hint : 2 ≤ v.device.lastAvailableCluster ∧
    v.device.lastAvailableCluster ≤ v.device.fatInfo.numberOfClusters + 2
  intact : Intact v
  cached : ∀ i fcb l, v.files i = some fcb → ChainOf v.device fcb.firstCluster l →
    fcb.lastCluster = 0 ∨ fcb.lastCluster ∈ l

/-! ## Cutting and clearing the chain of a file -/

variable {d : DeviceExt} {chains : Nat → List Nat} {i c k first : Nat} {l r : List Nat}

theorem offsetToCluster_of_ne (hfirst : first ≠ 1) (offset : Nat) (extend : Bool) :
    offsetToCluster d first offset extend =
      follow extend (offset / d.fatInfo.bytesPerCluster) d first := if_neg hfirst

namespace Ok

theorem doomed (h : Ok d chains) (i : Nat) : Doomed d (chains i) :=
  ⟨h.forest.chain i, fun _ hc => h.forest.within hc⟩

theorem length_lt (h : Ok d chains) (i : Nat) : (chains i).length < rounds :=
  chain_length_lt h.table.tabled (h.forest.chain i).nodup fun _ hc => h.forest.within hc

theorem clear (h : Ok d chains) (hfirst : first ≠ 1) (i : Nat) :
    ∃ d', freeClusters first rounds d .success (headOf (chains i)) = some d' ∧
      d'.fatInfo = d.fatInfo ∧ Ok d' (update chains i []) := by
  obtain ⟨d', hloop, hbecomes⟩ := freeClusters_chain hfirst h.table (h.doomed i) (h.length_lt i)
  exact ⟨d', hloop, hbecomes.fatInfo, hbecomes.ok (h.forest.clear i)⟩

theorem delete (h : Ok d chains) (i : Nat) :
    ∃ d', deleteClusters rounds d (headOf (chains i)) = some d' ∧
      d'.fatInfo = d.fatInfo ∧ Ok d' (update chains i []) := by
  obtain ⟨d', hloop, hbecomes⟩ := deleteClusters_chain h.table (h.doomed i) (h.length_lt i)
  exact ⟨d', hloop, hbecomes.fatInfo, hbecomes.ok (h.forest.clear i)⟩

theorem cut (h : Ok d chains) (hfirst : first ≠ 1) (hi : chains i = l ++ c :: r) :
    ∃ d', cutAfter d first c = some d' ∧ d'.fatInfo = d.fatInfo ∧
      Ok d' (update chains i (l ++ [c])) := by
  have hc := h.isCluster hi
  have hlast := writeCluster_end h.table hc
  have hchain := h.forest.chain i
  rw [hi] at hchain
  have hfresh : c ∉ r := (List.nodup_cons.1 (hchain.suffix).nodup).1
  have hmem : ∀ b ∈ r, b ∈ chains i := by
    intro b hb
    rw [hi]
    simp [hb]
  have hdoomed : Doomed (writeCluster d c endOfChain) r := by
    refine ⟨?_, ?_⟩
    · rw [hlast.link]
      refine (hchain.suffix).2.congr fun b hb => update_of_ne ?_ _ _
      rintro rfl
      exact hfresh hb
    · intro b hb
      rw [hlast.fatInfo]
      exact h.forest.within (hmem b hb)
  have hlength : r.length < rounds := by
    have hle := h.length_lt i
    rw [hi, List.length_append, List.length_cons] at hle
    omega
  obtain ⟨d', hloop, hfreed⟩ := freeClusters_chain hfirst hlast.table hdoomed hlength
  rw [hlast.link] at hfreed
  have hboth := hlast.trans hfreed
  refine ⟨d', ?_, hboth.fatInfo, hboth.ok (h.forest.cut hi)⟩
  unfold cutAfter nextCluster
  rw [if_neg hfirst, if_neg Bool.false_ne_true, h.getNextCluster hi]
  exact hloop

end Ok

/-! ## One call -/

/-- The FCB of a file fits its chain. -/
structure Fits (fcb : Fcb) (l : List Nat) : Prop where
  heads : Heads fcb.firstCluster l
  last : fcb.lastCluster = 0 ∨ fcb.lastCluster ∈ l

theorem heads_nil (hfirst : first ≤ 1) : Heads first [] := by
  unfold Heads
  rw [if_pos hfirst]

theorem heads_cons (hfirst : 2 ≤ first) (r : List Nat) : Heads first (first :: r) := by
  unfold Heads
  rw [if_neg (by omega)]
  rfl

theorem Heads.eq_nil (h : Heads first l) (hfirst : first ≤ 1) : l = [] := by
  unfold Heads at h
  rwa [if_pos hfirst] at h

theorem Heads.eq_cons (h : Heads first l) (hfirst : 2 ≤ first) : ∃ r, l = first :: r := by
  unfold Heads at h
  rw [if_neg (by omega)] at h
  exact List.head?_eq_some_iff.1 h

/-- A chain keeps its first cluster when it is extended or cut behind a cluster. -/
theorem Heads.append (h : Heads first l) (hfirst : 2 ≤ first) (r : List Nat) :
    Heads first (l ++ r) := by
  obtain ⟨s, rfl⟩ := h.eq_cons hfirst
  exact heads_cons hfirst (s ++ r)

theorem Heads.cut (h : Heads first (l ++ c :: r)) (hfirst : 2 ≤ first) :
    Heads first (l ++ [c]) := by
  obtain ⟨s, hs⟩ := h.eq_cons hfirst
  cases l with
  | nil =>
    obtain ⟨rfl, -⟩ := List.cons.inj hs
    exact heads_cons hfirst []
  | cons b l =>
    obtain ⟨rfl, -⟩ := List.cons.inj hs
    exact heads_cons hfirst (l ++ [c])

/-- A call on one file returns, and the file has a chain again. -/
def Lands (d : DeviceExt) (chains : Nat → List Nat) (i : Nat) (outcome : Outcome) : Prop :=
  ∃ d' fcb status l, outcome = some (d', fcb, status) ∧ d'.fatInfo = d.fatInfo ∧
    Ok d' (update chains i l) ∧ Fits fcb l

variable {fcb : Fcb}

theorem Ok.lands_same (h : Ok d chains) (hfits : Fits fcb (chains i))
    (status : Status) : Lands d chains i (some (d, fcb, status)) := by
  refine ⟨d, fcb, status, chains i, rfl, rfl, ?_, hfits⟩
  rw [update_eq_self]
  exact h

/-- The place in the chain of the cluster that a size ends in. -/
def lastPlace (d : DeviceExt) (newSize : Nat) : Nat :=
  alignDown (wsub newSize 1) d.fatInfo.bytesPerCluster / d.fatInfo.bytesPerCluster

/-- A file without clusters gets a chain for its size, or nothing changes. -/
theorem growEmpty_spec (h : Ok d chains) (hi : chains i = []) (fcb : Fcb) (newSize : Nat) :
    (∃ d' first rest, growEmpty d fcb newSize = some (d',
          { fcb with lastCluster := 0, lastOffset := 0, firstCluster := first }, .success) ∧
        2 ≤ first ∧ d'.fatInfo = d.fatInfo ∧ Ok d' (update chains i (first :: rest)) ∧
        lastPlace d newSize < (first :: rest).length) ∨
      freeClusterCount d ≤ lastPlace d newSize ∧ ∃ d', growEmpty d fcb newSize =
          some (d', { fcb with lastCluster := 0, lastOffset := 0 }, .diskFull) ∧
        d'.fatInfo = d.fatInfo ∧ Ok d' chains := by
  unfold growEmpty
  rw [show nextCluster d 0 0 true = getNextClusterExtend d 0 from rfl]
  rcases h.startChain hi with ⟨hnone, hfull⟩ | ⟨d₁, b, hstart, hinfo, hok, hcount⟩
  · rw [hfull]
    exact Or.inr ⟨by omega, d, rfl, rfl, h⟩
  have hb : d₁.fatInfo.IsCluster b := hok.forest.within (i := i) (by simp)
  have htwo := hb.1
  obtain ⟨d₂, more, hinfo', hok', hend⟩ := hok.follow_extend (k := 0) (c := b)
    (by rw [update_self]; rfl) (lastPlace d newSize)
  rw [update_self, update_idem] at hok'
  rw [update_self, Nat.zero_add, List.length_singleton] at hend
  rw [hstart]
  dsimp only
  rw [if_neg (by simp), if_neg (cluster_ne_end hok.table hb), offsetToCluster_of_ne (by omega),
    hinfo, ← lastPlace]
  rcases hend with ⟨b', hfollow, hne, hreach⟩ | ⟨hfollow, hnone⟩
  · rw [hfollow]
    rw [if_neg (by simp [hne])]
    exact Or.inl ⟨d₂, b, more, rfl, htwo, hinfo'.trans hinfo, hok', hreach⟩
  · rw [hfollow]
    obtain ⟨d₃, hloop, hinfo₃, hok₃⟩ := hok'.clear (show b ≠ 1 by omega) i
    rw [update_self, show headOf ([b] ++ more) = b from rfl] at hloop
    rw [update_idem, ← hi, update_eq_self] at hok₃
    rw [hloop]
    exact Or.inr ⟨by omega, d₃, rfl, hinfo₃.trans (hinfo'.trans hinfo), hok₃⟩

theorem growEmpty_lands (h : Ok d chains) (hfirst : fcb.firstCluster = 0)
    (hi : chains i = []) (newSize : Nat) : Lands d chains i (growEmpty d fcb newSize) := by
  rcases growEmpty_spec h hi fcb newSize with
    ⟨d', first, rest, hgrow, htwo, hinfo, hok, -⟩ | ⟨-, d', hgrow, hinfo, hok⟩
  · exact ⟨d', _, _, _, hgrow, hinfo, hok, heads_cons htwo rest, Or.inl rfl⟩
  · refine ⟨d', _, _, [], hgrow, hinfo, ?_, heads_nil (hfirst.trans_le (Nat.zero_le 1)), Or.inl rfl⟩
    rw [← hi, update_eq_self]
    exact hok

/-- A growth leaves size and kind of the file alone, and one that fails the first cluster. -/
theorem grow_kept {d' : DeviceExt} {fcb' : Fcb} {newSize : Nat} {status : Status}
    (h : (if fcb.firstCluster = 0 then growEmpty d fcb newSize else growFrom d fcb newSize) =
      some (d', fcb', status)) :
    fcb'.fileSize = fcb.fileSize ∧ fcb'.isDirectory = fcb.isDirectory ∧
      (status ≠ .success → fcb'.firstCluster = fcb.firstCluster) := by
  split at h
  · revert h
    fun_cases growEmpty d fcb newSize <;> grind [Option.map_eq_some_iff]
  · revert h
    fun_cases growFrom d fcb newSize <;> grind [Option.map_eq_some_iff]

theorem lastAllocated_eq (hanchor : anchor fcb ≠ 1) :
    lastAllocated d fcb = follow false (anchorSteps d fcb) d (anchor fcb) := by
  have hlt : lastAllocatedOffset d fcb < 2 ^ 32 := wsub_lt _ _
  unfold lastAllocated anchorSteps
  unfold anchor at hanchor ⊢
  by_cases hcached : 0 < fcb.lastCluster
  · rw [if_pos hcached] at hanchor ⊢
    split_ifs with hsame
    · rw [hsame, wsub_of_le (le_refl _) (hsame ▸ hlt), Nat.sub_self, Nat.zero_div]
      rfl
    · rw [offsetToCluster_of_ne hanchor]
  · rw [if_neg hcached] at hanchor ⊢
    rw [if_neg hcached, if_neg hcached, wsub_of_le (Nat.zero_le _) hlt, Nat.sub_zero,
      offsetToCluster_of_ne hanchor]

/-- The chain from a cluster on is the rest of the file's chain. -/
theorem chainOf_at (h : Ok d chains) (hk : (chains i)[k]? = some c) (l : List Nat) :
    ChainOf d c l ↔ l = (chains i).drop k := by
  have htwo := (h.isCluster (split_at hk)).1
  have hchain := h.forest.chain i
  rw [split_at hk] at hchain
  rw [drop_at hk]
  constructor
  · rintro ⟨hl, hheads⟩
    obtain ⟨r, rfl⟩ := hheads.eq_cons htwo
    rw [hl.unique hchain.suffix]
  · rintro rfl
    exact ⟨hchain.suffix, heads_cons htwo _⟩

theorem Fits.anchor_at (h : Fits fcb l) (hfirst : 2 ≤ fcb.firstCluster) :
    ∃ k : Nat, l[k]? = some (anchor fcb) := by
  refine List.mem_iff_getElem?.1 ?_
  obtain ⟨s, hs⟩ := h.heads.eq_cons hfirst
  unfold anchor
  split_ifs with hcached
  · exact h.last.resolve_left (by omega)
  · rw [hs]
    exact List.mem_cons_self

/-- How far the chain is followed from the cluster that the allocation ends with. -/
def growSteps (d : DeviceExt) (fcb : Fcb) (newSize : Nat) : Nat :=
  wsub (alignDown (wsub newSize 1) d.fatInfo.bytesPerCluster) (lastAllocatedOffset d fcb) /
    d.fatInfo.bytesPerCluster

/-- A file grows from a cluster of its chain, or the chain is cut behind that cluster. -/
theorem growFrom_spec (h : Ok d chains) (hroot : fcb.firstCluster ≠ 1)
    (hk : (chains i)[k]? = some (anchor fcb))
    (hc : (chains i)[k + anchorSteps d fcb]? = some c) (newSize : Nat) :
    (∃ d' more, growFrom d fcb newSize = some (d',
          { fcb with lastCluster := c, lastOffset := lastAllocatedOffset d fcb }, .success) ∧
        d'.fatInfo = d.fatInfo ∧ Ok d' (update chains i (chains i ++ more)) ∧
        k + anchorSteps d fcb + growSteps d fcb newSize < (chains i ++ more).length) ∨
      (chains i).length + freeClusterCount d ≤
          k + anchorSteps d fcb + growSteps d fcb newSize ∧
        ∃ d', growFrom d fcb newSize = some (d',
            { fcb with lastCluster := c, lastOffset := lastAllocatedOffset d fcb }, .diskFull) ∧
          d'.fatInfo = d.fatInfo ∧
          Ok d' (update chains i ((chains i).take (k + anchorSteps d fcb) ++ [c])) := by
  have htwo := (h.isCluster (split_at hk)).1
  have htwo' := (h.isCluster (split_at hc)).1
  obtain ⟨d', more, hinfo, hok, hend⟩ := h.follow_extend hc (growSteps d fcb newSize)
  unfold growFrom
  rw [lastAllocated_eq (by omega), h.follow_at hk hc]
  dsimp only
  rw [offsetToCluster_of_ne (by omega), ← growSteps]
  rcases hend with ⟨b, hfollow, hne, hreach⟩ | ⟨hfollow, hnone⟩
  · rw [hfollow]
    rw [if_neg (by simp [hne])]
    exact Or.inl ⟨d', more, rfl, hinfo, hok, hreach⟩
  · rw [hfollow]
    have hi : chains i ++ more = (chains i).take (k + anchorSteps d fcb) ++
        c :: ((chains i).drop (k + anchorSteps d fcb + 1) ++ more) := by
      nth_rewrite 1 [split_at hc]
      simp
    obtain ⟨d₃, hcut, hinfo₃, hok₃⟩ := hok.cut hroot (by rw [update_self, hi])
    rw [update_idem] at hok₃
    rw [hcut]
    exact Or.inr ⟨hnone, d₃, rfl, hinfo₃.trans hinfo, hok₃⟩

theorem growFrom_lands (h : Ok d chains) (hfirst : 2 ≤ fcb.firstCluster)
    (hfits : Fits fcb (chains i))
    (hanchor : ∀ l, ChainOf d (anchor fcb) l → anchorSteps d fcb ≠ l.length) (newSize : Nat) :
    Lands d chains i (growFrom d fcb newSize) := by
  obtain ⟨k, hk⟩ := hfits.anchor_at hfirst
  have hsteps := hanchor _ ((chainOf_at h hk _).2 rfl)
  rw [List.length_drop] at hsteps
  by_cases hin : k + anchorSteps d fcb < (chains i).length
  · obtain ⟨c, hc⟩ := exists_at hin
    rcases growFrom_spec h (by omega) hk hc newSize with
      ⟨d', more, hgrow, hinfo, hok, -⟩ | ⟨-, d', hgrow, hinfo, hok⟩
    · exact ⟨d', _, _, _, hgrow, hinfo, hok, hfits.heads.append hfirst more,
        Or.inr (List.mem_append_left more (List.mem_iff_getElem?.2 ⟨_, hc⟩))⟩
    · have hheads := hfits.heads
      rw [split_at hc] at hheads
      exact ⟨d', _, _, _, hgrow, hinfo, hok, hheads.cut hfirst, Or.inr (by simp)⟩
  · have htwo := (h.isCluster (split_at hk)).1
    unfold growFrom
    rw [lastAllocated_eq (by omega), h.follow_eq hk, if_neg hin, if_neg (by omega)]
    exact h.lands_same hfits .fileCorruptError

theorem roundUp64_two_pow {n k : Nat} (hn : n < 2 ^ 32) (hk : k ≤ 32) :
    roundUp64 n (2 ^ k) = (n + (2 ^ k - 1)) / 2 ^ k * 2 ^ k := by
  have hle : 2 ^ k ≤ 2 ^ 32 := Nat.pow_le_pow_right (by decide) hk
  exact and_mask_two_pow (by omega) (by omega)

theorem clusterSteps (h : Tabled d.fatInfo) {n : Nat} (hn : n < 2 ^ 32) :
    alignDown n d.fatInfo.bytesPerCluster / d.fatInfo.bytesPerCluster =
      n / d.fatInfo.bytesPerCluster := by
  obtain ⟨k, hk, hsize⟩ := h.cluster
  rw [hsize, alignDown_two_pow hn hk]
  exact Nat.mul_div_cancel _ (Nat.two_pow_pos k)

/-- A file is cut to a size within its chain. -/
theorem shrink_spec (h : Ok d chains) (hroot : fcb.firstCluster ≠ 1)
    (hheads : Heads fcb.firstCluster (chains i)) {newSize : Nat} (hsize : newSize < 2 ^ 32)
    (hwithin : 0 < newSize →
      (newSize - 1) / d.fatInfo.bytesPerCluster < (chains i).length) (junk : Nat) :
    ∃ d' l, shrink d fcb newSize junk =
        some (d', { updateFileSize { fcb with lastCluster := 0, lastOffset := 0 } newSize
          d.fatInfo.bytesPerCluster with
            firstCluster := if newSize = 0 then 0 else fcb.firstCluster }) ∧
      d'.fatInfo = d.fatInfo ∧ Ok d' (update chains i l) ∧
      Heads (if newSize = 0 then 0 else fcb.firstCluster) l ∧
      (0 < newSize → (newSize - 1) / d.fatInfo.bytesPerCluster < l.length) := by
  unfold shrink
  dsimp only
  by_cases hzero : newSize = 0
  · rw [if_neg (by omega), if_pos hzero]
    by_cases htwo : 2 ≤ fcb.firstCluster
    · obtain ⟨r, hr⟩ := hheads.eq_cons htwo
      obtain ⟨d', hloop, hinfo, hok⟩ := h.clear hroot i
      rw [hr, show headOf (fcb.firstCluster :: r) = fcb.firstCluster from rfl] at hloop
      rw [hloop]
      exact ⟨d', [], rfl, hinfo, hok, heads_nil (Nat.zero_le 1), by omega⟩
    · have hnil := hheads.eq_nil (by omega)
      have hloop : freeClusters fcb.firstCluster rounds d .success fcb.firstCluster = some d := by
        exact if_neg fun hgo => by omega
      rw [hloop]
      refine ⟨d, [], rfl, rfl, ?_, heads_nil (Nat.zero_le 1), by omega⟩
      rw [← hnil, update_eq_self]
      exact h
  · rw [if_pos (by omega), if_neg hzero]
    have hlast := hwithin (by omega)
    obtain ⟨b, hb⟩ := exists_at hlast
    have htwo : 2 ≤ fcb.firstCluster := by
      by_contra hlow
      rw [hheads.eq_nil (by omega)] at hlast
      exact absurd hlast (Nat.not_lt_zero _)
    obtain ⟨r, hr⟩ := hheads.eq_cons htwo
    have hfollow := h.follow_at (k := 0) (by rw [hr]; rfl) (by rw [Nat.zero_add]; exact hb)
    have hsplit := split_at hb
    obtain ⟨d', hcut, hinfo, hok⟩ := h.cut hroot hsplit
    rw [offsetToCluster_of_ne hroot, wsub_of_le (by omega) hsize,
      clusterSteps h.table.tabled (by omega), hfollow]
    rw [Option.getD_some, hcut]
    refine ⟨d', _, rfl, hinfo, hok, ?_, fun _ => ?_⟩
    · rw [hsplit] at hheads
      exact hheads.cut htwo
    · rw [List.length_append, List.length_take, List.length_singleton]
      omega

/-- Neither size of the FCB is part of what fits its chain. -/
theorem Fits.updateFileSize (h : Fits fcb l) (size clusterSize : Nat) :
    Fits (updateFileSize fcb size clusterSize) l := ⟨h.heads, h.last⟩

theorem Fits.updateAllocationSize (h : Fits fcb l) (size clusterSize : Nat) :
    Fits (updateAllocationSize fcb size clusterSize) l := ⟨h.heads, h.last⟩

theorem setSize_lands (h : Ok d chains) (hfits : Fits fcb (chains i))
    (request : Request) (hsized : Sized d fcb request.lowPart.toNat) :
    Lands d chains i (vfatSetAllocationSizeInformation d fcb request) := by
  obtain ⟨hroot, hgrow, hshrink⟩ := hsized
  have hchainOf : ChainOf d fcb.firstCluster (chains i) := ⟨h.forest.chain i, hfits.heads⟩
  have hlands : fcb.allocationSize % 2 ^ 32 < request.lowPart.toNat → Lands d chains i
      (if fcb.firstCluster = 0 then growEmpty d fcb request.lowPart.toNat
        else growFrom d fcb request.lowPart.toNat) := by
    intro hmore
    split_ifs with hzero
    · exact growEmpty_lands h hzero (hfits.heads.eq_nil (by omega)) _
    · exact growFrom_lands h (by omega) hfits (hgrow hmore hzero) _
  fun_cases vfatSetAllocationSizeInformation d fcb request with
  | case1 => exact h.lands_same hfits .invalidParameter
  | case2 => exact h.lands_same hfits .success
  | case3 _ _ _ _ _ hmore _ _ hf =>
    obtain ⟨d', fcb', status, l, hout, hinfo, hok, hfits'⟩ := hlands hmore
    cases hf.symm.trans hout
    split
    · exact ⟨_, _, _, l, rfl, hinfo, hok, hfits'.updateAllocationSize _ _⟩
    · exact ⟨_, _, _, l, rfl, hinfo, hok, hfits'.updateFileSize _ _⟩
  | case4 _ _ _ _ hmore => exact hlands hmore
  | case5 _ _ _ _ _ hless hcut =>
    obtain ⟨d', l, hshrunk, hinfo, hok, hheads, -⟩ :=
      shrink_spec h hroot hfits.heads request.lowPart.toNat_lt
        (fun hpos => hshrink (Nat.not_lt.1 hless) hcut hpos _ hchainOf) request.junk
    exact ⟨d', _, _, l, congrArg (Option.map _) hshrunk, hinfo, hok, hheads, Or.inl rfl⟩
  | case6 => exact h.lands_same hfits .userMappedFile
  | case7 =>
    split
    · exact h.lands_same hfits .success
    · exact h.lands_same (hfits.updateFileSize _ _) .success

/-! ## Sequences -/

/-- A file fits its chain; one that is not there has none. -/
def FileFits : Option Fcb → List Nat → Prop
  | none, l => l = []
  | some fcb, l => Fits fcb l

/-- The invariant: the chains of all files, and what of them is in the FCBs. -/
structure Sound (v : Volume) (chains : Nat → List Nat) : Prop where
  ok : Ok v.device chains
  fits : ∀ i, FileFits (v.files i) (chains i)

namespace Sound

variable {v : Volume} {fcb : Fcb}

theorem file (h : Sound v chains) (hi : v.files i = some fcb) : Fits fcb (chains i) := by
  have hfits := h.fits i
  rwa [hi] at hfits

/-- One file's chain and FCB are replaced. -/
theorem replace (h : Sound v chains) (hok : Ok d (update chains i l))
    (file : Option Fcb) (hfits : FileFits file l) :
    Sound ⟨d, update v.files i file⟩ (update chains i l) := by
  refine ⟨hok, ?_⟩
  intro j
  show FileFits (update v.files i file j) (update chains i l j)
  by_cases hj : j = i
  · subst hj
    rw [update_self, update_self]
    exact hfits
  · rw [update_of_ne hj, update_of_ne hj]
    exact h.fits j

/-- The chain of a file changes and its FCB does not. -/
theorem rechain (h : Sound v chains) (hi : v.files i = some fcb)
    (hok : Ok d (update chains i l)) (hfits : Fits fcb l) :
    Sound { v with device := d } (update chains i l) := by
  have hsame := h.replace hok (some fcb) hfits
  rwa [← hi, update_eq_self] at hsame

theorem extend (h : Sound v chains) (hi : v.files i = some fcb) (steps : Nat) :
    ∃ chains', Sound (v.extend i steps fcb) chains' := by
  have hfits := h.file hi
  unfold Volume.extend
  by_cases hzero : fcb.firstCluster = 0
  · have hnil := hfits.heads.eq_nil (by omega)
    rw [if_pos hzero]
    rcases h.ok.startChain hnil with ⟨-, hfull⟩ | ⟨d', b, hstart, -, hok, -⟩
    · rw [hfull]
      exact ⟨chains, h⟩
    · have hb := hok.forest.within (i := i) (a := b) (by simp)
      rw [hstart]
      refine ⟨_, h.replace hok (some _) ⟨heads_cons hb.1 [], ?_⟩⟩
      -- a file without clusters has no cached position
      refine Or.inl (hfits.last.resolve_right ?_)
      rw [hnil]
      exact List.not_mem_nil
  · split_ifs with hroot
    · exact ⟨chains, h⟩
    obtain ⟨r, hr⟩ := hfits.heads.eq_cons (by omega)
    rw [h.ok.follow_eq (k := 0) (by rw [hr]; rfl), Nat.zero_add]
    by_cases hlt : steps < (chains i).length
    · obtain ⟨b, hb⟩ := exists_at hlt
      rw [if_pos hlt, hb]
      dsimp only
      rw [if_neg (cluster_ne_end h.ok.table (h.ok.isCluster (split_at hb)))]
      rcases h.ok.extendChain hb with ⟨-, hstep⟩ | ⟨d', next, more, hstep, -, hok, -⟩
      · rw [hstep]
        exact ⟨chains, h⟩
      · rw [hstep]
        exact ⟨_, h.rechain hi hok ⟨hfits.heads.append (by omega) more,
          hfits.last.imp_right (List.mem_append_left more)⟩⟩
    · split_ifs
      · exact ⟨chains, h⟩
      · exact ⟨chains, h⟩

theorem count (h : Sound v chains) :
    Sound { v with device := countAvailableClusters v.device } chains := by
  refine ⟨?_, h.fits⟩
  have htable := h.ok.table
  by_cases hvalid : v.device.availableClustersValid = true
  · rw [show countAvailableClusters v.device = v.device from if_pos hvalid]
    exact h.ok
  · rw [countAvailableClusters_of_not_valid hvalid]
    refine ⟨⟨htable.tabled, ?_, htable.hint⟩, h.ok.forest⟩
    intro _
    refine List.countP_congr fun c hc => ?_
    rw [decide_eq_true_eq, decide_eq_true_eq]
    exact read_free_iff htable.tabled (mem_clusters.1 hc)

/-- One step; the call returns. -/
theorem step (h : Sound v chains) {a : Act} (hcareful : a.Careful v) :
    ∃ t chains', v.apply a = some t ∧ Sound t chains' := by
  cases a with
  | extend i steps =>
    unfold Volume.apply
    dsimp only
    cases hi : v.files i with
    | none => exact ⟨v, chains, rfl, h⟩
    | some fcb =>
      obtain ⟨chains', hsound⟩ := h.extend hi steps
      exact ⟨_, chains', rfl, hsound⟩
  | setSize i request =>
    unfold Volume.apply
    dsimp only
    cases hi : v.files i with
    | none => exact ⟨v, chains, rfl, h⟩
    | some fcb =>
      obtain ⟨d', fcb', status, l, hout, -, hok, hfits⟩ :=
        setSize_lands h.ok (h.file hi) request (hcareful fcb hi)
      dsimp only
      rw [hout]
      exact ⟨_, _, rfl, h.replace hok (some fcb') hfits⟩
  | delete i =>
    unfold Volume.apply
    dsimp only
    cases hi : v.files i with
    | none => exact ⟨v, chains, rfl, h⟩
    | some fcb =>
      have hroot := hcareful fcb hi
      have hheads := (h.file hi).heads
      unfold fatxDelEntry
      obtain ⟨d', hloop, -, hok⟩ := h.ok.delete i
      by_cases htwo : 2 ≤ fcb.firstCluster
      · obtain ⟨r, hr⟩ := hheads.eq_cons htwo
        rw [hr, show headOf (fcb.firstCluster :: r) = fcb.firstCluster from rfl] at hloop
        dsimp only
        rw [hloop]
        exact ⟨_, _, rfl, h.replace hok none rfl⟩
      · have hstop : deleteClusters rounds v.device fcb.firstCluster = some v.device := by
          exact if_neg fun hgo => by omega
        have hnil := hheads.eq_nil (by omega)
        have hsame : Ok v.device (update chains i []) := by
          rw [← hnil, update_eq_self]
          exact h.ok
        dsimp only
        rw [hstop]
        exact ⟨_, _, rfl, h.replace hsame none rfl⟩
  | count => exact ⟨_, chains, rfl, h.count⟩

theorem entry_free_iff (d : DeviceExt) (c : Nat) :
    d.fat c % mask d.fatInfo.fatType = 0 ↔ link d c = .free := decode_eq_free.symm

theorem intact (h : Sound v chains) : Intact v := by
  refine ⟨⟨chains, ?_, ?_, ?_⟩, ?_⟩
  · intro i fcb hi
    exact ⟨⟨h.ok.forest.chain i, (h.file hi).heads⟩, (h.ok.forest.chain i).nodup,
      fun c hc => h.ok.forest.within hc⟩
  · intro i j _ _ hij _ _ c hi hj
    exact hij (h.ok.forest.apart hi hj)
  · intro c hc hused
    obtain ⟨i, hi⟩ := h.ok.forest.cover hc fun hfree => hused ((entry_free_iff _ c).2 hfree)
    refine ⟨i, ⟨?_, hi⟩, ?_⟩
    · have hfits := h.fits i
      cases hfile : v.files i with
      | none =>
        rw [hfile] at hfits
        rw [show chains i = [] from hfits] at hi
        exact absurd hi List.not_mem_nil
      | some fcb => exact ⟨fcb, rfl⟩
    · intro j hj
      exact h.ok.forest.apart hj.2 hi
  · intro hvalid
    rw [h.ok.table.counted hvalid]
    refine List.countP_congr fun c _ => ?_
    rw [decide_eq_true_eq, decide_eq_true_eq]
    exact (entry_free_iff _ c).symm

end Sound

theorem Start.sound {v : Volume} (h : Start v) : ∃ chains, Sound v chains := by
  obtain ⟨⟨given, hchain, hapart, hcover⟩, hcount⟩ := h.intact
  -- the given chains, with none for the files that are not there
  let chains : Nat → List Nat := fun i => if (v.files i).isSome then given i else []
  have hfile : ∀ {i c}, c ∈ chains i → ∃ fcb, v.files i = some fcb ∧ c ∈ given i := by
    intro i c hc
    cases hi : v.files i with
    | none => simp [chains, hi] at hc
    | some fcb => exact ⟨fcb, rfl, by simpa [chains, hi] using hc⟩
  have hgiven : ∀ {i fcb}, v.files i = some fcb → chains i = given i := by
    intro i fcb hi
    simp [chains, hi]
  refine ⟨chains, ⟨⟨h.tabled, ?_, h.hint⟩, ?_, ?_, ?_, ?_⟩, ?_⟩
  · intro hvalid
    rw [hcount hvalid]
    refine List.countP_congr fun c _ => ?_
    rw [decide_eq_true_eq, decide_eq_true_eq]
    exact Sound.entry_free_iff _ c
  · intro i
    cases hi : v.files i with
    | none =>
      rw [show chains i = [] by simp [chains, hi]]
      exact trivial
    | some fcb =>
      rw [hgiven hi]
      exact (hchain i fcb hi).1.1
  · intro i j c hi hj
    obtain ⟨fcb, hfi, hci⟩ := hfile hi
    obtain ⟨fcb', hfj, hcj⟩ := hfile hj
    by_contra hne
    exact hapart i j fcb fcb' hne hfi hfj hci hcj
  · intro i c hc
    obtain ⟨fcb, hfi, hci⟩ := hfile hc
    exact (hchain i fcb hfi).2.2 c hci
  · intro c hc hused
    obtain ⟨i, ⟨⟨fcb, hfi⟩, hci⟩, -⟩ := hcover c hc fun hzero =>
      hused ((Sound.entry_free_iff _ c).1 hzero)
    refine ⟨i, ?_⟩
    rw [hgiven hfi]
    exact hci
  · intro i
    cases hi : v.files i with
    | none => simp [chains, hi, FileFits]
    | some fcb =>
      rw [hgiven hi]
      exact ⟨(hchain i fcb hi).1.2, h.cached i fcb _ hi (hchain i fcb hi).1⟩

/-- Chain integrity: in every run whose calls all meet the condition the volume stays
intact, and each such call returns. -/
theorem chains_intact {s v : Volume} (hs : Start s) (hrun : Reachable (· = s) Step v) :
    Intact v ∧ ∀ a : Act, a.Careful v → ∃ t, v.apply a = some t := by
  have hsound : ∃ chains, Sound v chains := by
    refine Reachable.invariant (P := fun u => ∃ chains, Sound u chains) ?_ ?_ hrun
    · rintro _ rfl
      exact hs.sound
    · rintro u a t ⟨chains, hu⟩ ⟨hcareful, happly⟩
      obtain ⟨t', chains', happly', ht⟩ := hu.step hcareful
      obtain rfl : t' = t := Option.some.inj (happly'.symm.trans happly)
      exact ⟨chains', ht⟩
  obtain ⟨chains, hv⟩ := hsound
  refine ⟨hv.intact, ?_⟩
  intro a hcareful
  obtain ⟨t, -, happly, -⟩ := hv.step hcareful
  exact ⟨t, happly⟩

/-! ## A volume of 100 clusters -/

/-- 1632 sectors of 512 bytes, 16 to a cluster: the FAT starts at sector 8, the root
directory at 16 and cluster 2 at 32. -/
def smallBoot : BootSectorFatX := ⟨[0x46, 0x41, 0x54, 0x58], 1, 16, 1⟩

def smallInfo : FatInfo := fatInfo 512 835584 smallBoot

/-- The root directory, and a file of one cluster, number 32. -/
def smallRoot : Fcb := ⟨1, 8192, true, 8192, 0, 0⟩

def smallFile : Fcb := ⟨32, 8192, false, 8192, 0, 0⟩

def smallVolume : Volume where
  device :=
    { fatInfo := smallInfo
      fat := fun c => if c = 32 then 0xffff else 0
      lastAvailableCluster := 2
      availableClusters := 0
      availableClustersValid := false }
  files := fun i => if i = 0 then some smallRoot else if i = 1 then some smallFile else none

/-- A second cluster is asked for. -/
def twoClusters : Request := ⟨0, 16384, true, true, 0⟩

theorem smallInfo_numbers : smallInfo.numberOfClusters = 100 ∧ smallInfo.fatType = .fatx16 ∧
    smallInfo.fatStart = 8 ∧ smallInfo.fatSectors = 8 ∧ smallInfo.bytesPerSector = 512 ∧
    smallInfo.bytesPerCluster = 8192 ∧ smallInfo.sectorsPerCluster = 16 ∧
    smallInfo.rootStart = 16 := by
  decide +kernel

theorem smallInfo_isCluster {c : Nat} : smallInfo.IsCluster c ↔ 2 ≤ c ∧ c < 102 := by
  unfold FatInfo.IsCluster
  rw [smallInfo_numbers.1]

theorem smallInfo_tabled : Tabled smallInfo := by
  obtain ⟨hnum, htype, hstart, hsectors, hbytes, hcluster, -, -⟩ := smallInfo_numbers
  refine ⟨?_, ?_, ?_, ⟨13, by decide, hcluster⟩⟩
  · intro c hc
    rw [smallInfo_isCluster] at hc
    unfold FatInfo.EntryInside FatInfo.fatOffset wmul
    rw [htype, hstart, hsectors, hbytes, FatType.width]
    omega
  · decide
  · decide

theorem smallVolume_start : Start smallVolume := by
  have hlink : link smallVolume.device 32 = .last := by decide +kernel
  have hfile : ∀ {i fcb}, smallVolume.files i = some fcb →
      i = 0 ∧ fcb = smallRoot ∨ i = 1 ∧ fcb = smallFile := by
    intro i fcb hi
    unfold smallVolume at hi
    dsimp only at hi
    split at hi
    · exact Or.inl ⟨by assumption, (Option.some.inj hi).symm⟩
    · split at hi
      · exact Or.inr ⟨by assumption, (Option.some.inj hi).symm⟩
      · exact absurd hi nofun
  refine ⟨smallInfo_tabled, by decide +kernel, ⟨⟨fun i => if i = 1 then [32] else [], ?_, ?_, ?_⟩, nofun⟩, ?_⟩
  · intro i fcb hi
    rcases hfile hi with ⟨rfl, rfl⟩ | ⟨rfl, rfl⟩
    · exact ⟨⟨trivial, heads_nil (le_refl 1)⟩, List.nodup_nil, by simp⟩
    · refine ⟨⟨⟨hlink, trivial⟩, heads_cons (by decide) []⟩, by simp, ?_⟩
      intro c hc
      obtain rfl : c = 32 := by simpa using hc
      exact smallInfo_isCluster.2 (by decide)
  · intro i j fcb fcb' hij hi hj
    rcases hfile hi with ⟨rfl, rfl⟩ | ⟨rfl, rfl⟩
    · simp
    · rcases hfile hj with ⟨rfl, rfl⟩ | ⟨rfl, rfl⟩
      · simp
      · exact absurd rfl hij
  · intro c _ hused
    obtain rfl : c = 32 := by
      by_contra hne
      refine hused ?_
      show (if c = 32 then 0xffff else 0) % _ = 0
      rw [if_neg hne, Nat.zero_mod]
    refine ⟨1, ⟨⟨smallFile, rfl⟩, by simp⟩, ?_⟩
    rintro j ⟨-, hj⟩
    by_contra hne
    simp [hne] at hj
  · intro i fcb l hi _
    rcases hfile hi with ⟨rfl, rfl⟩ | ⟨rfl, rfl⟩
    · exact Or.inl rfl
    · exact Or.inl rfl

theorem chains_intact_growFile :
    ∃ t, Step smallVolume (.setSize 1 twoClusters) t ∧ Start smallVolume ∧ Intact t := by
  have hcareful : (Act.setSize 1 twoClusters).Careful smallVolume := by
    intro fcb hi
    obtain rfl : smallFile = fcb := Option.some.inj hi
    refine ⟨by decide, ?_, ?_⟩
    · intro _ _ l hl hlength
      obtain ⟨r, rfl⟩ := hl.2.eq_cons (by decide)
      have hzero : anchorSteps smallVolume.device smallFile = 0 := by decide +kernel
      exact absurd hlength.symm (Nat.succ_ne_zero _)
    · intro hle
      exact absurd hle (by decide)
  obtain ⟨-, hreturns⟩ := chains_intact smallVolume_start (.start rfl)
  obtain ⟨t, ht⟩ := hreturns _ hcareful
  have hrun : Reachable (· = smallVolume) Step t := .next _ (.start rfl) ⟨hcareful, ht⟩
  exact ⟨t, ⟨hcareful, ht⟩, smallVolume_start, (chains_intact smallVolume_start hrun).1⟩

/-! ## The root directory -/

/-- The count aside, `WriteCluster` does what the routine for the entry does. -/
theorem writeCluster_device (d : DeviceExt) (c new : Nat) :
    (writeCluster d c new).fatInfo = d.fatInfo ∧
      (writeCluster d c new).fat =
        (d.write c (d.read c / mask d.fatInfo.fatType * mask d.fatInfo.fatType +
          new % mask d.fatInfo.fatType)).fat := by
  unfold writeCluster
  rw [device_writeCluster_entry]
  dsimp only
  split
  · split
    · exact ⟨write_fatInfo d c _, rfl⟩
    · split
      · exact ⟨write_fatInfo d c _, rfl⟩
      · exact ⟨write_fatInfo d c _, rfl⟩
  · exact ⟨write_fatInfo d c _, rfl⟩

/-- A zero written anywhere leaves the zero entries as they are. -/
theorem writeCluster_zero_keeps {b : Nat} (c : Nat)
    (hb : d.fat b % mask d.fatInfo.fatType = 0) :
    (writeCluster d c 0).fat b % mask d.fatInfo.fatType = 0 := by
  rw [(writeCluster_device d c 0).2, Nat.zero_mod, Nat.add_zero]
  unfold DeviceExt.write
  split
  · by_cases hidx : b = d.index c
    · subst hidx
      dsimp only
      rw [update_self, Nat.mul_mod_left]
    · dsimp only
      rw [update_of_ne hidx]
      exact hb
  · exact hb

theorem writeCluster_zero_clears (h : Tabled d.fatInfo) (hc : d.fatInfo.IsCluster c) :
    (writeCluster d c 0).fat c % mask d.fatInfo.fatType = 0 := by
  rw [(writeCluster_device d c 0).2, write_eq h hc, Nat.zero_mod, Nat.add_zero]
  dsimp only
  rw [update_self, Nat.mul_mod_left]

/-- Freeing the root directory's "clusters": from `k` rounds before the sector number
wraps to zero, a zero is written at every sixteenth entry, among them the one of
cluster 32. -/
theorem freeClusters_root {n k : Nat} (hinfo : d.fatInfo = smallInfo) (hk : k ≤ 2 ^ 28 - 2)
    (hn : k < n) :
    ∃ d', freeClusters 1 n d .success ((2 ^ 32 - k * 16) % 2 ^ 32) = some d' ∧
      d'.fatInfo = smallInfo ∧
      (∀ b, d.fat b % mask smallInfo.fatType = 0 → d'.fat b % mask smallInfo.fatType = 0) ∧
      (k = 2 ^ 28 - 2 → d'.fat 32 % mask smallInfo.fatType = 0) := by
  induction k generalizing d n with
  | zero =>
    obtain ⟨m, rfl⟩ : ∃ m, n = m + 1 := ⟨n - 1, by omega⟩
    exact ⟨d, if_neg (fun hgo => absurd hgo.2.2 (by decide)), hinfo, fun _ hb => hb, by omega⟩
  | succ k ih =>
    obtain ⟨m, rfl⟩ : ∃ m, n = m + 1 := ⟨n - 1, by omega⟩
    obtain ⟨c, hc⟩ : ∃ c, (2 ^ 32 - (k + 1) * 16) % 2 ^ 32 = c := ⟨_, rfl⟩
    have hinfo' : (writeCluster d c 0).fatInfo = smallInfo :=
      (writeCluster_device d c 0).1.trans hinfo
    obtain ⟨d', hloop, hsame, hkeeps, -⟩ := ih hinfo' (by omega) (n := m) (by omega)
    have hkept : ∀ b, d.fat b % mask smallInfo.fatType = 0 →
        (writeCluster d c 0).fat b % mask smallInfo.fatType = 0 := by
      intro b hb
      rw [← hinfo] at hb ⊢
      exact writeCluster_zero_keeps c hb
    refine ⟨d', ?_, hsame, fun b hb => hkeeps b (hkept b hb), ?_⟩
    · rw [hc]
      unfold freeClusters
      have hnext : nextCluster d 1 c false =
          (d, .success, (2 ^ 32 - k * 16) % 2 ^ 32) := by
        unfold nextCluster
        rw [if_pos rfl, hinfo, smallInfo_numbers.2.2.2.2.2.2.1, wadd_eq]
        have : (c + 16) % 2 ^ 32 = (2 ^ 32 - k * 16) % 2 ^ 32 := by omega
        rw [this]
      have hgo : c ≠ endOfChain ∧ 1 < c := by
        unfold endOfChain
        omega
      rw [if_pos ⟨rfl, hgo⟩, hnext]
      exact hloop
    · intro hlast
      refine hkeeps 32 ?_
      obtain rfl : c = 32 := by omega
      have hclears := writeCluster_zero_clears (c := 32)
        (by rw [hinfo]; exact smallInfo_tabled)
        (by rw [hinfo]; exact smallInfo_isCluster.2 (by decide))
      rwa [hinfo] at hclears

/-- A second cluster for the root directory: the call reports a full disk, and cluster
32, the only one of the file, is free. -/
theorem root_growth_frees_file :
    ∃ t, smallVolume.apply (.setSize 0 twoClusters) = some t ∧ Start smallVolume ∧
      t.files 1 = some smallFile ∧ link t.device 32 = .free ∧ ¬Intact t := by
  obtain ⟨marked, hmarked⟩ : ∃ m, writeCluster smallVolume.device 16 endOfChain = m := ⟨_, rfl⟩
  have hinfo : marked.fatInfo = smallInfo := hmarked ▸ (writeCluster_device _ _ _).1
  obtain ⟨d', hloop, hinfo', -, hfreed⟩ :=
    freeClusters_root (n := rounds) hinfo (le_refl _) (by decide)
  have hfound : lastAllocated smallVolume.device smallRoot =
      (smallVolume.device, .success, some 16) := rfl
  have hfull : offsetToCluster smallVolume.device 16 8192 true =
      (smallVolume.device, .fileCorruptError, none) := rfl
  have hcut : cutAfter smallVolume.device 1 16 = some d' := by
    unfold cutAfter
    rw [show nextCluster smallVolume.device 1 16 false = (smallVolume.device, .success, 32) from rfl]
    dsimp only
    rw [hmarked]
    exact hloop
  have hgrow : growFrom smallVolume.device smallRoot 16384 =
      some (d', { smallRoot with lastCluster := 16, lastOffset := 0 }, .diskFull) := by
    have hoffset : wsub (alignDown (wsub 16384 1) smallVolume.device.fatInfo.bytesPerCluster)
        (lastAllocatedOffset smallVolume.device smallRoot) = 8192 := by decide +kernel
    unfold growFrom
    rw [hfound]
    dsimp only
    rw [hoffset, hfull]
    rw [if_pos (Or.inr nofun), show smallRoot.firstCluster = 1 from rfl, hcut]
    rfl
  have hset : vfatSetAllocationSizeInformation smallVolume.device smallRoot twoClusters =
      some (d', { smallRoot with lastCluster := 16, lastOffset := 0 }, .diskFull) := by
    unfold vfatSetAllocationSizeInformation
    rw [if_neg (by decide), if_neg (by decide), if_pos (by decide), if_neg (by decide),
      show twoClusters.lowPart.toNat = 16384 from rfl, hgrow]
  have hfree : link d' 32 = .free := by
    refine decode_eq_free.2 ?_
    rw [hinfo']
    exact hfreed (by decide)
  refine ⟨⟨d', update smallVolume.files 0
    (some { smallRoot with lastCluster := 16, lastOffset := 0 })⟩, ?_, smallVolume_start, rfl,
    hfree, ?_⟩
  · unfold Volume.apply
    dsimp only
    rw [show smallVolume.files 0 = some smallRoot from rfl]
    dsimp only
    rw [hset]
    rfl
  rintro ⟨⟨chains, hchain, -, -⟩, -⟩
  obtain ⟨⟨hlinks, hheads⟩, -, -⟩ := hchain 1 smallFile rfl
  obtain ⟨r, hr⟩ := hheads.eq_cons (by decide)
  have hmem : 32 ∈ chains 1 := by
    rw [hr]
    exact List.mem_cons_self
  exact hlinks.not_free hmem hfree

end Roswell.Ports.Fat
