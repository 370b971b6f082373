import Roswell.Verified.Bytes
import Roswell.Verified.Word
import Roswell.Verified.Runs

/-!
# The file cache

Model of `xb/mm/cache.c`: a pool of 16 KiB blocks shared by all files, and one mutex that
is never held across paging IO.

A call is cut into pieces, `Work`, that run under the mutex; a piece ends where the code
releases the mutex or at the head of one of its loops.  What a thread does next is its
`Pc`: outside or inside the mutex, in the middle of a paging read or write, or at one of
the places where the code touches cache structures without the mutex.  `Cache.advance` is
one step of one thread, `Answer` what the rest of the system answers it.

Offsets are `Nat`; the sums of `NxcFlushMap` and `CcFlushCache`, which are compared as
`LONGLONG`, wrap.  Reference counts cannot overflow, as each reference is held by a BCB
or a thread.
-/

namespace Roswell.Ports.FileCache

open Verified.Bytes Verified.Word Verified.Runs Function

/-! ## Data -/

/-- `NXC_BLOCK_SIZE`. -/
abbrev blockSize : Nat := 16384

abbrev pageSize : Nat := 4096

abbrev pagesPerBlock : Nat := blockSize / pageSize

abbrev minBlocks : Nat := 4

abbrev maxBlocks : Nat := 32

/-- `NXC_WB_RESERVE`, the blocks kept for the reads a write-back makes. -/
abbrev wbReserve : Nat := 2

abbrev totalBlocks : Nat := maxBlocks + wbReserve

/-- An index of `NxcBlocks`. -/
abbrev Slot := Fin totalBlocks

/-- A sum as a `LONGLONG`. -/
def long (x : Int) : Int := Int.bmod x (2 ^ 64)

/-- `MAXLONGLONG`. -/
def maxLong : Int := 2 ^ 63 - 1

/-- A file object, with the section object pointers it shares with the other file objects
of its file and the flag `FO_WRITE_THROUGH`. -/
structure FileObject where
  id : Nat
  sectionPointer : Nat
  writeThrough : Bool
  deriving DecidableEq, Repr

/-- `CC_FILE_SIZES`. -/
structure FileSizes where
  allocationSize : Nat
  fileSize : Nat
  validDataLength : Nat
  deriving DecidableEq, Repr

/-- `NXC_MAP`; `embedded` tells whether `EmbeddedPrivateMap` is in use, and the private
cache maps on its list are named by their file objects. -/
structure NxcMap where
  openCount : Nat
  sizes : FileSizes
  fileObject : FileObject
  pinAccess : Bool
  embedded : Bool
  privateList : List FileObject
  deriving DecidableEq, Repr

/-- `NXC_BLOCK`. -/
structure NxcBlock where
  map : Option Nat
  offset : Nat
  data : Option Memory
  refCount : Nat
  valid : Bool
  dirty : Bool
  busy : Bool
  reserved : Bool

/-- `NXC_BCB`. -/
structure NxcBcb where
  block : Slot
  map : Nat
  offset : Nat
  length : Nat
  refCount : UInt32
  pinCount : Nat

/-- `PRIVATE_CACHE_MAP`: the map whose list it is on, and whether it is the one inside. -/
structure PrivateMap where
  map : Nat
  embedded : Bool
  deriving DecidableEq, Repr

/-- What all threads share.  `maps` is what stands at each address whether or not it is
allocated, `live` tells which are; `shared` is the field `SharedCacheMap` of each section
pointer and `backing` the file behind it. -/
structure Cache (B : Type) where
  blocks : Slot → NxcBlock
  activeBlocks : Nat
  wbDepth : Nat
  lru : List Slot
  mapList : List Nat
  maps : Nat → NxcMap
  live : Nat → Bool
  shared : Nat → Option Nat
  privates : FileObject → Option PrivateMap
  bcbs : B → Option NxcBcb
  backing : Nat → Memory

/-! ## What a thread is doing -/

inductive Reply (B : Type) where
  | done
  | refused
  | raised
  | read (offset length : Nat) (out : Memory)
  | pinned (b : B)
  | purged (success : Bool)
  | flushed (success : Bool) (total : Nat)
  | resized (success : Bool)

/-- A call that needs blocks one after the other, and how far it is. -/
inductive Use (B : Type) where
  | read (file : FileObject) (offset length done : Nat) (out : Memory)
  | write (file : FileObject) (offset length done : Nat) (source : Memory)
  | zero (file : FileObject) (start stop current : Nat)
  | pin (file : FileObject) (offset length : Nat) (pinned zero : Bool) (old : Option B)

/-- The arguments of `NxcGetBlock`. -/
structure Get (B : Type) where
  map : Nat
  offset : Nat
  wait : Bool
  use : Use B

/-- `CcPurgeCacheSection` while it closes the private cache maps. -/
structure Purge where
  sectionPointer : Nat
  map : Nat
  range : Option (Nat × Nat)

/-- What follows a call made by another one. -/
inductive Then (B : Type) where
  | reply (r : Reply B)
  | status
  | unpin (b : B)
  | purge (p : Purge)

/-- What follows `NxcFlushMap`. -/
inductive AfterFlush (B : Type) where
  | flushed (k : Then B)
  | truncated (file : FileObject) (k : Then B)
  | written (mapFile : FileObject) (k : Then B)
  | dropped (mapFile : FileObject) (k : Then B)
  | sized
  | purged
  | all

/-- The arguments and the status of `NxcFlushMap`. -/
structure Flush (B : Type) where
  map : Nat
  start : Int
  stop : Int
  discard : Bool
  ok : Bool
  total : Nat
  next : AfterFlush B

/-- What follows `NxcFlushBlock`. -/
inductive Flusher (B : Type) where
  | claim (g : Get B)
  | map (f : Flush B)
  | shrink (target : Nat) (ok : Bool)

/-- A paging read or write of a block, and the bytes it has moved. -/
structure Io where
  slot : Slot
  map : Nat
  file : Nat
  offset : Nat
  length : Nat
  fileEnd : Nat
  sent : Nat → Bool

/-- A piece of code that runs under the mutex. -/
inductive Work (B : Type) where
  | lookup (g : Get B)
  | claim (g : Get B)
  | readDone (io : Io) (g : Get B) (ok : Bool) (got : Nat)
  | use (g : Get B) (i : Slot)
  | writeDone (io : Io) (k : Flusher B) (ok : Bool) (got : Nat)
  | scan (f : Flush B) (i : Nat)
  | flushCache (sectionPointer : Nat) (range : Option (Nat × Nat)) (k : Then B)
  | flushAll
  | openMap (file : FileObject) (sizes : FileSizes) (pinAccess : Bool)
  | closeMap (file : FileObject) (truncate : Option Nat) (k : Then B)
  | close (file : FileObject) (map : Nat) (k : Then B)
  | setFileSizes (file : FileObject) (sizes : FileSizes)
  | purge (sectionPointer : Nat) (range : Option (Nat × Nat)) (uninit : Bool)
  | purgeList (p : Purge)
  | purgeResume (p : Purge)
  | purgeRange (p : Purge)
  | put (b : B) (r : Reply B)
  | grow (target i : Nat)
  | shrink (target : Nat) (ok : Bool) (i : Nat)
  | invalidate (i : Nat)

/-- Where a thread is.  `filling` is `NxcPinCommon` after it has released the mutex,
`unpinning` is `CcUnpinData` before it takes it, `closing` the place where
`CcPurgeCacheSection` reads the file object of a private cache map, and `zeroing` the
loop of `CcZeroData` for a file that is not cached. -/
inductive Pc (B : Type) where
  | ready (r : Reply B)
  | outside (w : Work B)
  | inside (w : Work B)
  | reading (io : Io) (g : Get B)
  | writing (io : Io) (k : Flusher B)
  | filling (g : Get B) (i : Slot)
  | unpinning (b : B) (r : Reply B)
  | closing (p : Purge) (file : FileObject)
  | zeroing (file : FileObject) (current stop : Nat)

/-- What the pool and the devices answer: the status and the count of an IO, the byte at
which the caller's buffer faults, and what an allocation returns.  `file` is what a freed
private cache map reads as. -/
structure Answer (B : Type) where
  ok : Bool
  information : Nat
  fault : Option Nat
  map : Option Nat
  privateRoom : Bool
  memory : Option Memory
  bcb : Option B
  file : FileObject

/-! ## Blocks -/

namespace Cache

variable {B : Type}

def modify (c : Cache B) (i : Slot) (f : NxcBlock → NxcBlock) : Cache B :=
  { c with blocks := update c.blocks i (f (c.blocks i)) }

/-- `NxcLookupBlock`. -/
def lookupBlock (c : Cache B) (m o : Nat) : Option Slot :=
  (List.finRange totalBlocks).find? fun i =>
    (c.blocks i).map = some m ∧ (c.blocks i).offset = o ∧ (c.blocks i).data.isSome

def addRef (c : Cache B) (i : Slot) : Cache B :=
  c.modify i fun b => { b with refCount := b.refCount + 1 }

/-- `NxcPutBlock`. -/
def putBlock (c : Cache B) (i : Slot) : Cache B :=
  c.modify i fun b => { b with refCount := b.refCount - 1 }

/-- The block becomes the most recently used one. -/
def touch (c : Cache B) (i : Slot) : Cache B := { c with lru := c.lru.erase i ++ [i] }

/-- The block leaves the list and its file. -/
def retire (c : Cache B) (i : Slot) : Cache B :=
  { c.modify i fun b => { b with map := none, valid := false } with lru := c.lru.erase i }

/-- The bytes a paging read or write of a block moves. -/
def ioLength (fileEnd offset : Nat) : Nat :=
  if offset < fileEnd then
    if blockSize ≤ fileEnd - offset then blockSize else roundUp (fileEnd - offset) pageSize
  else 0

/-- A paging IO of a block that is the map's. -/
def io (c : Cache B) (i : Slot) (m : Nat) : Io :=
  { slot := i
    map := m
    file := (c.maps m).fileObject.sectionPointer
    offset := (c.blocks i).offset
    length := ioLength (c.maps m).sizes.fileSize (c.blocks i).offset
    fileEnd := (c.maps m).sizes.fileSize
    sent := fun _ => false }

/-- The end of `NxcReadBlock`, and what `NxcGetBlock` does then. -/
def readDone (c : Cache B) (io : Io) (g : Get B) (ok : Bool) (got : Nat) : Cache B × Pc B :=
  if ok then
    (c.modify io.slot fun b =>
      { b with
        data := b.data.map fun m => patch m got (blockSize - got) fun _ => 0
        valid := true
        busy := false }, .inside (.use g io.slot))
  else
    (c.modify io.slot fun b => { b with busy := false, refCount := b.refCount - 1 }, .ready .raised)

/-- `NxcReadBlock` up to the IO; the block is referenced. -/
def readBlock (c : Cache B) (g : Get B) (i : Slot) : Cache B × Pc B :=
  let c' := c.modify i fun b => { b with busy := true }
  if (c.io i g.map).length = 0 then c'.readDone (c.io i g.map) g true 0
  else (c', .reading (c.io i g.map) g)

end Cache

/-- A flush goes on after one block; it starts over, as the table may have changed. -/
def Flusher.resume {B : Type} (k : Flusher B) (ok : Bool) (got : Nat) : Pc B :=
  match k with
  | .claim g => .inside (.claim g)
  | .map f => .inside (.scan { f with ok := f.ok && ok, total := f.total + got } 0)
  | .shrink target status => .inside (.shrink target status 0)

def Then.resume {B : Type} (k : Then B) (ok : Bool) (total : Nat) : Pc B :=
  match k with
  | .reply r => .ready r
  | .status => .ready (.flushed ok total)
  | .unpin b => .unpinning b .done
  | .purge p => .outside (.purgeResume p)

namespace Cache

variable {B : Type}

/-- The end of `NxcFlushBlock`, and of the reference the flush held. -/
def writeDone (c : Cache B) (io : Io) (k : Flusher B) (ok : Bool) (got : Nat) :
    Cache B × Pc B :=
  let c' := c.modify io.slot fun b =>
    { b with dirty := b.dirty && !ok, busy := false, refCount := b.refCount - 1 }
  let sizes := (c.maps io.map).sizes
  let valid :=
    if ok ∧ sizes.validDataLength < io.offset + io.length then
      min (io.offset + io.length) io.fileEnd
    else sizes.validDataLength
  ({ c' with
    wbDepth := if io.length = 0 then c.wbDepth else c.wbDepth - 1
    maps := update c.maps io.map
      { c.maps io.map with sizes := { sizes with validDataLength := valid } } }, k.resume ok got)

/-- A write-back of a block of the map, with a reference, up to the IO of
`NxcFlushBlock`. -/
def flushBlock (c : Cache B) (i : Slot) (m : Nat) (k : Flusher B) : Cache B × Pc B :=
  let c' := c.modify i fun b => { b with refCount := b.refCount + 1, busy := true }
  if (c.io i m).length = 0 then c'.writeDone (c.io i m) k true 0
  else ({ c' with wbDepth := c.wbDepth + 1 }, .writing (c.io i m) k)

/-! ## Finding a block -/

/-- The first slot with a buffer and no file. -/
def freeSlot (c : Cache B) (p : Slot → Bool) : Option Slot :=
  (List.finRange totalBlocks).find? fun i =>
    p i ∧ (c.blocks i).data.isSome ∧ (c.blocks i).map = none

/-- The scan of `NxcClaimSlot`: the first clean block that can be taken, else the first
dirty one. -/
def victim (blocks : Slot → NxcBlock) : List Slot → Option Slot → Option Slot
  | [], found => found
  | i :: rest, found =>
    if (blocks i).reserved ∨ (blocks i).refCount ≠ 0 ∨ (blocks i).busy then
      victim blocks rest found
    else if (blocks i).dirty then victim blocks rest (found <|> some i)
    else some i

/-- The second loop of `NxcClaimReserve`. -/
def cleanReserve (c : Cache B) : Option Slot :=
  (List.finRange totalBlocks).find? fun i =>
    maxBlocks ≤ i.val ∧ (c.blocks i).data.isSome ∧ (c.blocks i).refCount = 0 ∧
      (c.blocks i).busy = false ∧ (c.blocks i).dirty = false

/-- A claimed slot becomes the block, unless another thread has brought it in. -/
def install (c : Cache B) (g : Get B) (i : Slot) : Cache B × Pc B :=
  match c.lookupBlock g.map g.offset with
  | some _ =>
    (c.modify i fun b => { b with map := none, refCount := 0 }, .inside (.lookup g))
  | none =>
    let c' := c.modify i fun b =>
      { b with
        map := some g.map
        offset := g.offset
        refCount := 1
        valid := false
        dirty := false }
    { c' with lru := c.lru ++ [i] }.readBlock g i

/-- `NxcClaimReserve`, when a write-back is on its way. -/
def claimReserve (c : Cache B) (g : Get B) : Cache B × Pc B :=
  if 0 < c.wbDepth then
    match c.freeSlot fun i => maxBlocks ≤ i.val with
    | some i => c.install g i
    | none =>
      match c.cleanReserve with
      | some i => (c.retire i).install g i
      | none => (c, .outside (.claim g))
  else (c, .outside (.claim g))

/-- A block in the way of `NxcClaimSlot` is written back or given up. -/
def takeVictim (c : Cache B) (g : Get B) (i : Slot) : Cache B × Pc B :=
  if (c.blocks i).dirty then
    match (c.blocks i).map with
    | some m => c.flushBlock i m (.claim g)
    | none => (c, .ready .raised)
  else (c.retire i).install g i

/-- One round of `NxcClaimSlot`, which is only called to wait. -/
def claim (c : Cache B) (g : Get B) : Cache B × Pc B :=
  match c.freeSlot fun i => i.val < maxBlocks with
  | some i => c.install g i
  | none =>
    match victim c.blocks c.lru none with
    | some i => c.takeVictim g i
    | none => c.claimReserve g

/-- One round of `NxcGetBlock`. -/
def lookup (c : Cache B) (g : Get B) : Cache B × Pc B :=
  match c.lookupBlock g.map g.offset with
  | some i =>
    if (c.blocks i).busy then (c, if g.wait then .outside (.lookup g) else .ready .refused)
    else if (c.blocks i).valid then ((c.addRef i).touch i, .inside (.use g i))
    else if g.wait then (c.addRef i).readBlock g i
    else (c, .ready .refused)
  | none => (c, if g.wait then .inside (.claim g) else .ready .refused)

end Cache

/-! ## Using a block -/

namespace Use

variable {B : Type}

/-- The next block, as long as there is one. -/
def block : Use B → Option Nat
  | .read _ offset length done _ =>
    if done < length then some (roundDown (offset + done) blockSize) else none
  | .write _ offset length done _ =>
    if done < length then some (roundDown (offset + done) blockSize) else none
  | .zero _ _ stop current =>
    if current < stop then some (roundDown current blockSize) else none
  | .pin _ offset _ _ _ _ => some (roundDown offset blockSize)

/-- All blocks have been used; what was written through is flushed. -/
def finish : Use B → Pc B
  | .read _ offset length _ out => .ready (.read offset length out)
  | .write file offset length _ _ =>
    if file.writeThrough then
      .outside (.flushCache file.sectionPointer (some (offset, length)) (.reply .done))
    else .ready .done
  | .zero file start stop _ =>
    if file.writeThrough then
      .outside (.flushCache file.sectionPointer (some (start, (stop - start) % 2 ^ 32))
        (.reply .done))
    else .ready .done
  | .pin .. => .ready .done

/-- The next block is asked for, at a place `pc`. -/
def more (u : Use B) (m : Nat) (wait : Bool) (pc : Work B → Pc B) : Pc B :=
  match u.block with
  | some o => pc (.lookup ⟨m, o, wait, u⟩)
  | none => u.finish

end Use

namespace Cache

variable {B : Type}

/-- The bytes of a block. -/
def bytes (c : Cache B) (i : Slot) : Memory := (c.blocks i).data.getD fun _ => 0

/-- A block that is referenced is copied from or to, or kept for a pin. -/
def useBlock (c : Cache B) (a : Answer B) (g : Get B) (i : Slot) : Cache B × Pc B :=
  match g.use with
  | .read file offset length done out =>
    let pos := offset + done - g.offset
    let chunk := min (length - done) (blockSize - pos)
    match a.fault with
    | some _ => (c.putBlock i, .ready .raised)
    | none =>
      let out' := patch out done chunk fun k => c.bytes i (pos + k)
      (c.putBlock i,
        (Use.read file offset length (done + chunk) out').more g.map g.wait .inside)
  | .write file offset length done source =>
    let pos := offset + done - g.offset
    let chunk := min (length - done) (blockSize - pos)
    match a.fault with
    | some n =>
      -- what was copied before the fault stays, without the block being dirty
      ((c.modify i fun b =>
        { b with data := b.data.map fun m =>
            patch m pos (min n chunk) fun k => source (done + k) }).putBlock i, .ready .raised)
    | none =>
      ((c.modify i fun b =>
        { b with
          data := b.data.map fun m => patch m pos chunk fun k => source (done + k)
          dirty := true }).putBlock i,
        (Use.write file offset length (done + chunk) source).more g.map g.wait .inside)
  | .zero file start stop current =>
    let pos := current - g.offset
    let chunk := min (stop - current) (blockSize - pos)
    ((c.modify i fun b =>
      { b with
        data := b.data.map fun m => patch m pos chunk fun _ => 0
        dirty := true }).putBlock i,
      (Use.zero file start stop (current + chunk)).more g.map g.wait .inside)
  | .pin .. => (c, .filling g i)

/-! ## Flushing -/

end Cache

/-- The block overlaps the range, as `NxcFlushMap` computes it. -/
def Flush.InRange {B : Type} (f : Flush B) (offset : Nat) : Prop :=
  ¬ (long (offset + blockSize) ≤ f.start ∨ f.stop ≤ offset)

instance {B : Type} (f : Flush B) (offset : Nat) : Decidable (f.InRange offset) :=
  inferInstanceAs (Decidable (¬ _))

namespace Cache

variable {B : Type}

/-- The end of `NxcFlushMap`, and what follows it. -/
def finishFlush (c : Cache B) (f : Flush B) : Cache B × Pc B :=
  match f.next with
  | .flushed k => (c, k.resume f.ok f.total)
  | .truncated file k => (c, .inside (.close file f.map k))
  | .written mapFile k =>
    (c, .inside (.scan { f with discard := true, next := .dropped mapFile k } 0))
  | .dropped mapFile k =>
    ({ c with
      mapList := c.mapList.erase f.map
      shared := update c.shared mapFile.sectionPointer none
      live := update c.live f.map false }, k.resume true 0)
  | .sized => (c, .ready .done)
  | .purged => (c, .ready (.purged true))
  | .all => (c, .inside .flushAll)

/-- A block is dropped with what it holds. -/
def discardBlock (c : Cache B) (i : Slot) : Cache B :=
  (c.retire i).modify i fun b => { b with dirty := false }

/-- One round of the loop of `NxcFlushMap`. -/
def scan (c : Cache B) (f : Flush B) (n : Nat) : Cache B × Pc B :=
  if h : n < totalBlocks then
    let b := c.blocks ⟨n, h⟩
    if b.map = some f.map ∧ b.data.isSome ∧ f.InRange b.offset then
      if b.busy then (c, .outside (.scan f 0))
      else if b.dirty ∧ b.valid ∧ f.discard = false then c.flushBlock ⟨n, h⟩ f.map (.map f)
      else if f.discard ∧ b.refCount = 0 then
        (c.discardBlock ⟨n, h⟩, .inside (.scan f (n + 1)))
      else (c, .inside (.scan f (n + 1)))
    else (c, .inside (.scan f (n + 1)))
  else c.finishFlush f

/-- `NxcFlushMap` from its first block on. -/
def flushMap (m : Nat) (start stop : Int) (discard : Bool) (next : AfterFlush B) : Pc B :=
  .inside (.scan ⟨m, start, stop, discard, true, 0, next⟩ 0)

/-- `ROUND_UP(size, NXC_BLOCK_SIZE)`. -/
def roundUpBlock (size : Nat) : Int := long ((size + (blockSize - 1)) / blockSize * blockSize)

/-- `CcFlushCache`. -/
def flushCache (c : Cache B) (sectionPointer : Nat) (range : Option (Nat × Nat)) (k : Then B) :
    Pc B :=
  match c.shared sectionPointer with
  | none => k.resume true 0
  | some m =>
    match range with
    | some (offset, length) =>
      flushMap m offset (long (offset + length)) false (.flushed k)
    | none => flushMap m 0 maxLong false (.flushed k)

/-- `NxcFlushAll`: the first map of the list with a dirty block is flushed. -/
def flushAll (c : Cache B) : Pc B :=
  match c.mapList.find? fun m =>
      (List.finRange totalBlocks).any fun i => (c.blocks i).map = some m ∧ (c.blocks i).dirty with
  | some m => flushMap m 0 maxLong false .all
  | none => .ready .done

/-! ## Cache maps -/

/-- The private cache map of a file is put on the list of the map. -/
def openPrivate (c : Cache B) (a : Answer B) (file : FileObject) (m : Nat) : Cache B × Pc B :=
  let map := c.maps m
  if (c.privates file).isSome then (c, .ready .done)
  else if map.embedded ∧ a.privateRoom = false then (c, .ready .raised)
  else
    ({ c with
      privates := update c.privates file (some ⟨m, !map.embedded⟩)
      maps := update c.maps m
        { map with
          embedded := true
          privateList := map.privateList ++ [file]
          openCount := map.openCount + 1 } }, .ready .done)

/-- `CcInitializeCacheMap`; the pool gives an address that is not in use. -/
def openMap (c : Cache B) (a : Answer B) (file : FileObject) (sizes : FileSizes)
    (pinAccess : Bool) : Cache B × Pc B :=
  match c.shared file.sectionPointer with
  | some m => c.openPrivate a file m
  | none =>
    match a.map with
    | none => (c, .ready .raised)
    | some m =>
      if c.live m then (c, .ready .raised)
      else
        { c with
          maps := update c.maps m ⟨0, sizes, file, pinAccess, false, []⟩
          live := update c.live m true
          shared := update c.shared file.sectionPointer (some m)
          mapList := c.mapList ++ [m] }.openPrivate a file m

/-- `CcUninitializeCacheMap` once the blocks past `TruncateSize` are dropped: the private
cache map goes, and with the last one the map. -/
def close (c : Cache B) (file : FileObject) (m : Nat) (k : Then B) : Cache B × Pc B :=
  match c.privates file with
  | none => (c, k.resume true 0)
  | some p =>
    let unlinked := update c.maps p.map
      { c.maps p.map with privateList := (c.maps p.map).privateList.erase file }
    let map := unlinked m
    let count := if map.openCount = 0 then 2 ^ 32 - 1 else map.openCount - 1
    let c' :=
      { c with
        privates := update c.privates file none
        maps := update unlinked m
          { map with
            embedded := if p = ⟨m, true⟩ then false else map.embedded
            openCount := count } }
    (c', if count = 0 then flushMap m 0 maxLong false (.written map.fileObject k)
      else k.resume true 0)

/-- `CcUninitializeCacheMap` up to that. -/
def closeMap (c : Cache B) (file : FileObject) (truncate : Option Nat) (k : Then B) :
    Cache B × Pc B :=
  match c.shared file.sectionPointer with
  | none => (c, k.resume true 0)
  | some m =>
    match truncate with
    | none => (c, .inside (.close file m k))
    | some size =>
      let map := c.maps m
      ({ c with
        maps := update c.maps m
          { map with
            sizes := { map.sizes with fileSize := min map.sizes.fileSize size } } },
        flushMap m (roundUpBlock size) maxLong true (.truncated file k))

/-- `CcSetFileSizes`. -/
def setFileSizes (c : Cache B) (file : FileObject) (sizes : FileSizes) : Cache B × Pc B :=
  match c.shared file.sectionPointer with
  | none => (c, .ready .done)
  | some m =>
    let map := c.maps m
    ({ c with maps := update c.maps m { map with sizes := sizes } },
      if sizes.allocationSize < map.sizes.allocationSize then
        flushMap m (roundUpBlock sizes.allocationSize) maxLong true .sized
      else .ready .done)

/-- The start of `CcPurgeCacheSection`. -/
def purge (c : Cache B) (sectionPointer : Nat) (range : Option (Nat × Nat)) (uninit : Bool) :
    Pc B :=
  match c.shared sectionPointer with
  | none => .ready (.purged true)
  | some m =>
    if uninit then .inside (.purgeList ⟨sectionPointer, m, range⟩)
    else .inside (.purgeRange ⟨sectionPointer, m, range⟩)

/-- The loop of `CcPurgeCacheSection` over the private cache maps. -/
def purgeList (c : Cache B) (p : Purge) : Pc B :=
  match (c.maps p.map).privateList with
  | [] => .inside (.purgeRange p)
  | file :: _ => .closing p file

/-- The map may be gone after one of them. -/
def purgeResume (c : Cache B) (p : Purge) : Pc B :=
  if c.shared p.sectionPointer = some p.map then .inside (.purgeList p)
  else .ready (.purged true)

/-- The purge fails if a block in its range is in use. -/
def purgeRange (c : Cache B) (p : Purge) : Pc B :=
  let start : Int := p.range.elim 0 fun r => r.1
  let stop : Int := p.range.elim maxLong fun r =>
    if r.2 = 0 then maxLong else long (r.1 + r.2)
  let f : Flush B := ⟨p.map, start, stop, true, true, 0, .purged⟩
  if (List.finRange totalBlocks).any fun i =>
      (c.blocks i).map = some p.map ∧ (c.blocks i).data.isSome ∧ f.InRange (c.blocks i).offset ∧
        ((c.blocks i).refCount ≠ 0 ∨ (c.blocks i).busy) then .ready (.purged false)
  else .inside (.scan f 0)

/-! ## The size of the cache -/

/-- One round of the loop of `FscSetCacheSize` that adds blocks. -/
def grow (c : Cache B) (a : Answer B) (target n : Nat) : Cache B × Pc B :=
  if h : n < maxBlocks ∧ c.activeBlocks < target then
    let i : Slot := ⟨n, Nat.lt_of_lt_of_le h.1 (by decide)⟩
    if (c.blocks i).data.isSome then (c, .inside (.grow target (n + 1)))
    else
      match a.memory with
      | none => (c, .inside (.shrink target false 0))
      | some m =>
        ({ c.modify i fun b => { b with data := some m } with
          activeBlocks := c.activeBlocks + 1 }, .inside (.grow target (n + 1)))
  else (c, .inside (.shrink target true 0))

/-- The buffer of a block is freed. -/
def freeData (c : Cache B) (i : Slot) : Cache B :=
  let c' := if (c.blocks i).map.isSome then c.retire i else c
  { c'.modify i fun b => { b with data := none, valid := false, dirty := false } with
    activeBlocks := c.activeBlocks - 1 }

/-- One round of the loop of `FscSetCacheSize` that retires blocks. -/
def shrink (c : Cache B) (target : Nat) (ok : Bool) (n : Nat) : Cache B × Pc B :=
  if h : n < maxBlocks ∧ target < c.activeBlocks then
    let i : Slot := ⟨n, Nat.lt_of_lt_of_le h.1 (by decide)⟩
    let b := c.blocks i
    if b.data.isNone ∨ b.refCount ≠ 0 ∨ b.busy then (c, .inside (.shrink target ok (n + 1)))
    else
      match b.map with
      | some m =>
        if b.dirty ∧ b.valid then c.flushBlock i m (.shrink target ok)
        else (c.freeData i, .inside (.shrink target ok (n + 1)))
      | none => (c.freeData i, .inside (.shrink target ok (n + 1)))
  else (c, .ready (.resized ok))

/-- One round of `FscInvalidateIdleBlocks`. -/
def invalidate (c : Cache B) (n : Nat) : Cache B × Pc B :=
  if h : n < totalBlocks then
    let b := c.blocks ⟨n, h⟩
    if b.data.isSome ∧ b.map.isSome ∧ b.refCount = 0 ∧ b.busy = false ∧ b.dirty = false then
      (c.retire ⟨n, h⟩, .inside (.invalidate (n + 1)))
    else (c, .inside (.invalidate (n + 1)))
  else (c, .ready .done)

/-! ## Pins -/

section
variable [DecidableEq B]

/-- The end of `CcUnpinData`: the block loses the reference of the BCB. -/
def put (c : Cache B) (b : B) (r : Reply B) : Cache B × Pc B :=
  match c.bcbs b with
  | none => (c, .ready r)
  | some bcb => ({ c.putBlock bcb.block with bcbs := update c.bcbs b none }, .ready r)

/-- `CcUnpinData` before it takes the mutex. -/
def unpinData (c : Cache B) (b : B) (r : Reply B) : Cache B × Pc B :=
  match c.bcbs b with
  | none => (c, .ready r)
  | some bcb =>
    ({ c with
      bcbs := update c.bcbs b
        (some { bcb with refCount := bcb.refCount - 1, pinCount := bcb.pinCount - 1 }) },
      if bcb.refCount = 1 then .outside (.put b r) else .ready r)

/-- `NxcPinCommon` with the mutex released again: the BCB is filled in, at an address the
pool gives.  `CcPreparePinWrite` then clears the bytes, and `CcPinMappedData` drops the BCB
it was given. -/
def fillBcb (c : Cache B) (a : Answer B) (g : Get B) (i : Slot) : Cache B × Pc B :=
  match g.use, a.bcb with
  | .pin _ offset length pinned zero old, some b =>
    if (c.bcbs b).isSome then (c, .filling g i)
    else
      let bcb : NxcBcb := ⟨i, g.map, offset, length, 1, if pinned then 1 else 0⟩
      let c' := { c with bcbs := update c.bcbs b (some bcb) }
      (if zero then
        c'.modify i fun b =>
          { b with data := b.data.map fun m => patch m (offset - g.offset) length fun _ => 0 }
      else c',
        match old with
        | some o => .unpinning o .done
        | none => .ready (.pinned b))
  | _, _ => (c, .filling g i)

/-! ## Steps -/

/-- A piece of code under the mutex. -/
def execute (c : Cache B) (a : Answer B) : Work B → Cache B × Pc B
  | .lookup g => c.lookup g
  | .claim g => c.claim g
  | .readDone io g ok got => c.readDone io g ok got
  | .use g i => c.useBlock a g i
  | .writeDone io k ok got => c.writeDone io k ok got
  | .scan f n => c.scan f n
  | .flushCache sectionPointer range k => (c, c.flushCache sectionPointer range k)
  | .flushAll => (c, c.flushAll)
  | .openMap file sizes pinAccess => c.openMap a file sizes pinAccess
  | .closeMap file truncate k => c.closeMap file truncate k
  | .close file m k => c.close file m k
  | .setFileSizes file sizes => c.setFileSizes file sizes
  | .purge sectionPointer range uninit => (c, c.purge sectionPointer range uninit)
  | .purgeList p => (c, c.purgeList p)
  | .purgeResume p => (c, c.purgeResume p)
  | .purgeRange p => (c, c.purgeRange p)
  | .put b r => c.put b r
  | .grow target n => c.grow a target n
  | .shrink target ok n => c.shrink target ok n
  | .invalidate n => c.invalidate n

/-- Byte `x` of a paging read reaches the block. -/
def receive (c : Cache B) (io : Io) (x : Nat) : Cache B :=
  c.modify io.slot fun b =>
    { b with data := b.data.map fun m => update m x (c.backing io.file (io.offset + x)) }

/-- Byte `x` of a paging write reaches the file. -/
def send (c : Cache B) (io : Io) (x : Nat) : Cache B :=
  { c with
    backing := update c.backing io.file
      (update (c.backing io.file) (io.offset + x) (c.bytes io.slot x)) }

/-- What a paging read has not moved yet arrives. -/
def receiveRest (c : Cache B) (io : Io) (got : Nat) : Cache B :=
  c.modify io.slot fun b =>
    { b with data := b.data.map fun m x =>
        if x < min got io.length ∧ io.sent x = false then c.backing io.file (io.offset + x)
        else m x }

/-- What a paging write has not moved yet is written. -/
def sendRest (c : Cache B) (io : Io) : Cache B :=
  { c with
    backing := update c.backing io.file fun y =>
      if io.offset ≤ y ∧ y < io.offset + io.length ∧ io.sent (y - io.offset) = false then
        c.bytes io.slot (y - io.offset)
      else c.backing io.file y }

/-- One round of `CcZeroData` for a file that is not cached. -/
def zeroFile (c : Cache B) (a : Answer B) (file : FileObject) (current stop : Nat) :
    Cache B × Pc B :=
  if current < stop then
    let chunk := min (stop - current) blockSize
    if a.ok then
      ({ c with
        backing := update c.backing file.sectionPointer
          (patch (c.backing file.sectionPointer) current chunk fun _ => 0) },
        .zeroing file (current + chunk) stop)
    else (c, .ready .raised)
  else (c, .ready .done)

/-- What `CcPurgeCacheSection` reads as the file object of a private cache map, which may
be gone. -/
def privateFile (c : Cache B) (a : Answer B) (file : FileObject) : FileObject :=
  if (c.privates file).isSome then file else a.file

/-- One step of a thread. -/
def advance (c : Cache B) (a : Answer B) : Pc B → Cache B × Pc B
  | .ready r => (c, .ready r)
  | .outside w => (c, .inside w)
  | .inside w => c.execute a w
  | .reading io g =>
    (if a.ok then c.receiveRest io a.information else c,
      .outside (.readDone io g a.ok a.information))
  | .writing io k =>
    (if a.ok then c.sendRest io else c, .outside (.writeDone io k a.ok a.information))
  | .filling g i => c.fillBcb a g i
  | .unpinning b r => c.unpinData b r
  | .closing p file => (c, .outside (.closeMap (c.privateFile a file) none (.purge p)))
  | .zeroing file current stop => c.zeroFile a file current stop

end

end Cache

/-! ## Calls -/

inductive Call (B : Type) where
  | initializeCacheMap (file : FileObject) (sizes : FileSizes) (pinAccess : Bool)
  | uninitializeCacheMap (file : FileObject) (truncate : Option Nat)
  | setFileSizes (file : FileObject) (sizes : FileSizes)
  | purgeCacheSection (sectionPointer : Nat) (range : Option (Nat × Nat)) (uninit : Bool)
  | copyRead (file : FileObject) (offset length : Nat) (wait : Bool) (buffer : Memory)
  | copyWrite (file : FileObject) (offset length : Nat) (wait : Bool) (buffer : Memory)
  | zeroData (file : FileObject) (start stop : Nat) (wait : Bool)
  | mapData (file : FileObject) (offset length : Nat) (wait room : Bool)
  | pinRead (file : FileObject) (offset length : Nat) (wait room : Bool)
  | pinMappedData (file : FileObject) (offset length : Nat) (wait room : Bool) (old : Option B)
  | preparePinWrite (file : FileObject) (offset length : Nat) (zero wait room : Bool)
  | unpinData (b : B)
  | unpinRepinnedBcb (b : B) (writeThrough : Bool)
  | flushCache (sectionPointer : Nat) (range : Option (Nat × Nat))
  | flushAll
  | setCacheSize (pages : UInt32)
  | invalidateIdleBlocks

namespace Cache

variable {B : Type}

/-- A call that needs blocks reads the map before it takes the mutex. -/
def startUse (c : Cache B) (file : FileObject) (wait : Bool) (u : Use B) : Pc B :=
  match c.shared file.sectionPointer with
  | none => .ready .refused
  | some m => u.more m wait .outside

/-- `NxcPinCommon` up to the mutex; `room` tells whether there is memory for the BCB. -/
def pinCommon (c : Cache B) (file : FileObject) (offset length : Nat) (wait room : Bool)
    (pinned zero : Bool) (old : Option B) : Pc B :=
  if blockSize < wadd (offset % blockSize) length ∨ room = false then .ready .raised
  else c.startUse file wait (.pin file offset length pinned zero old)

/-- `CcPinRead`. -/
def pinRead (c : Cache B) (file : FileObject) (offset length : Nat) (wait room zero : Bool)
    (old : Option B) : Pc B :=
  match c.shared file.sectionPointer with
  | none => .ready .raised
  | some m =>
    if (c.maps m).pinAccess then c.pinCommon file offset length wait room true zero old
    else .ready .refused

/-- The number of blocks `FscSetCacheSize` aims at. -/
def targetBlocks (pages : UInt32) : Nat :=
  min (max ((pages + (UInt32.ofNat pagesPerBlock - 1)) / UInt32.ofNat pagesPerBlock).toNat
    minBlocks) maxBlocks

/-- A call up to the first time it takes the mutex. -/
def start (c : Cache B) : Call B → Pc B
  | .initializeCacheMap file sizes pinAccess => .outside (.openMap file sizes pinAccess)
  | .uninitializeCacheMap file truncate => .outside (.closeMap file truncate (.reply .done))
  | .setFileSizes file sizes => .outside (.setFileSizes file sizes)
  | .purgeCacheSection sectionPointer range uninit =>
    .outside (.purge sectionPointer range uninit)
  | .copyRead file offset length wait buffer =>
    c.startUse file wait (.read file offset length 0 buffer)
  | .copyWrite file offset length wait buffer =>
    c.startUse file wait (.write file offset length 0 buffer)
  | .zeroData file begin stop wait =>
    if (c.shared file.sectionPointer).isSome then
      c.startUse file wait (.zero file begin stop begin)
    else .zeroing file begin stop
  | .mapData file offset length wait room =>
    c.pinCommon file offset length wait room false false none
  | .pinRead file offset length wait room => c.pinRead file offset length wait room false none
  | .pinMappedData file offset length wait room old =>
    c.pinRead file offset length wait room false old
  | .preparePinWrite file offset length zero wait room =>
    c.pinRead file offset length wait room zero none
  | .unpinData b => .unpinning b .done
  | .unpinRepinnedBcb b writeThrough =>
    match c.bcbs b with
    | some bcb =>
      if writeThrough then
        .outside (.flushCache (c.maps bcb.map).fileObject.sectionPointer
          (some (bcb.offset, bcb.length)) (.unpin b))
      else .unpinning b .done
    | none => .ready .done
  | .flushCache sectionPointer range => .outside (.flushCache sectionPointer range .status)
  | .flushAll => .outside .flushAll
  | .setCacheSize pages => .outside (.grow (targetBlocks pages) 0)
  | .invalidateIdleBlocks => .outside (.invalidate 0)

end Cache

/-! ## The system -/

structure State (T B : Type) where
  cache : Cache B
  pc : T → Pc B

/-- What may happen next: a thread calls or goes on, a device moves one byte, and the
holder of a BCB writes to the bytes it maps, marks them dirty or takes another reference
to it.  Memory that is not allocated may change in any way. -/
inductive Act (T B : Type) where
  | call (t : T) (c : Call B)
  | step (t : T) (a : Answer B)
  | transfer (t : T) (x : Nat)
  | write (b : B) (x : Nat) (v : UInt8)
  | setDirty (b : B)
  | repin (b : B)
  | scribble (m : Nat) (r : NxcMap)

def Pc.isInside {B : Type} : Pc B → Bool
  | .inside _ => true
  | _ => false

/-- The BCBs a call is given. -/
def Call.bcbs {B : Type} : Call B → List B
  | .pinMappedData _ _ _ _ _ (some b) => [b]
  | .unpinData b => [b]
  | .unpinRepinnedBcb b _ => [b]
  | _ => []

namespace Cache

variable {B : Type} [DecidableEq B]

/-- Somebody holds a reference to the BCB. -/
def Held (c : Cache B) (b : B) : Prop := ∃ bcb ∈ c.bcbs b, bcb.refCount ≠ 0

/-- The byte is one the BCB maps, and one of the block. -/
def Mapped (c : Cache B) (b : B) (x : Nat) : Prop :=
  ∃ bcb ∈ c.bcbs b, x < bcb.length ∧ bcb.offset % blockSize + x < blockSize

def writeByte (c : Cache B) (b : B) (x : Nat) (v : UInt8) : Cache B :=
  match c.bcbs b with
  | none => c
  | some bcb =>
    c.modify bcb.block fun blk =>
      { blk with data := blk.data.map fun m => update m (bcb.offset % blockSize + x) v }

/-- `CcSetDirtyPinnedData`. -/
def setDirtyPinnedData (c : Cache B) (b : B) : Cache B :=
  match c.bcbs b with
  | none => c
  | some bcb => c.modify bcb.block fun blk => { blk with dirty := true }

/-- `CcRepinBcb`. -/
def repinBcb (c : Cache B) (b : B) : Cache B :=
  match c.bcbs b with
  | none => c
  | some bcb =>
    { c with bcbs := update c.bcbs b (some { bcb with refCount := bcb.refCount + 1 }) }

end Cache

namespace State

variable {T B : Type} [DecidableEq T] [DecidableEq B]

def apply (s : State T B) : Act T B → State T B
  | .call t c => { s with pc := update s.pc t (s.cache.start c) }
  | .step t a =>
    { cache := (s.cache.advance a (s.pc t)).1
      pc := update s.pc t (s.cache.advance a (s.pc t)).2 }
  | .transfer t x =>
    match s.pc t with
    | .reading io g =>
      { cache := s.cache.receive io x
        pc := update s.pc t
          (.reading { io with sent := update io.sent x true } g) }
    | .writing io k =>
      { cache := s.cache.send io x
        pc := update s.pc t
          (.writing { io with sent := update io.sent x true } k) }
    | _ => s
  | .write b x v => { s with cache := s.cache.writeByte b x v }
  | .setDirty b => { s with cache := s.cache.setDirtyPinnedData b }
  | .repin b => { s with cache := s.cache.repinBcb b }
  | .scribble m r => { s with cache := { s.cache with maps := update s.cache.maps m r } }

/-- When it may happen.  A thread takes the mutex only if no other one has it; only the
bytes of an IO are moved; the holder of a BCB has a reference to it. -/
def Allowed (s : State T B) : Act T B → Prop
  | .call t c => (∃ r, s.pc t = .ready r) ∧ ∀ b ∈ c.bcbs, s.cache.Held b
  | .step t _ => ∀ w, s.pc t = .outside w → ∀ u, (s.pc u).isInside = false
  | .transfer t x =>
    (∃ io g, s.pc t = .reading io g ∧ x < io.length) ∨
      ∃ io k, s.pc t = .writing io k ∧ x < io.length
  | .write b x _ => s.cache.Held b ∧ s.cache.Mapped b x
  | .setDirty b => s.cache.Held b
  | .repin b => s.cache.Held b
  | .scribble m _ => s.cache.live m = false

/-- `CcInitializeCacheManager` has run, no file is cached and no call is made. -/
structure Initial (s : State T B) : Prop where
  blocks : ∀ i, ∃ data, s.cache.blocks i =
    ⟨none, 0, if i.val < minBlocks ∨ maxBlocks ≤ i.val then some data else none, 0, false, false,
      false, decide (maxBlocks ≤ i.val)⟩
  activeBlocks : s.cache.activeBlocks = minBlocks
  wbDepth : s.cache.wbDepth = 0
  lru : s.cache.lru = []
  mapList : s.cache.mapList = []
  live : ∀ m, s.cache.live m = false
  shared : ∀ p, s.cache.shared p = none
  privates : ∀ f, s.cache.privates f = none
  bcbs : ∀ b, s.cache.bcbs b = none
  pc : ∀ t, ∃ r, s.pc t = .ready r

end State

def Step {T B : Type} [DecidableEq T] [DecidableEq B] (s : State T B) (a : Act T B)
    (s' : State T B) : Prop :=
  s.Allowed a ∧ s' = s.apply a

/-! ## One thread -/

namespace State

variable {B : Type} [DecidableEq B]

omit [DecidableEq B] in
/-- One thread alone always finds the mutex free. -/
theorem allowed_alone (s : State Unit B) (a : Answer B) : s.Allowed (.step () a) := by
  intro w hw u
  rw [show s.pc u = .outside w from hw]
  rfl

/-- The boot state of one thread, with buffers and files of zeros. -/
def boot : State Unit B where
  cache :=
    { blocks := fun i =>
        ⟨none, 0, if i.val < minBlocks ∨ maxBlocks ≤ i.val then some fun _ => 0 else none, 0, false,
          false, false, decide (maxBlocks ≤ i.val)⟩
      activeBlocks := minBlocks
      wbDepth := 0
      lru := []
      mapList := []
      maps := fun _ => ⟨0, ⟨0, 0, 0⟩, ⟨0, 0, false⟩, false, false, []⟩
      live := fun _ => false
      shared := fun _ => none
      privates := fun _ => none
      bcbs := fun _ => none
      backing := fun _ _ => 0 }
  pc := fun _ => .ready .done

omit [DecidableEq B] in
theorem boot_initial : (boot : State Unit B).Initial where
  blocks _ := ⟨fun _ => 0, rfl⟩
  activeBlocks := rfl
  wbDepth := rfl
  lru := rfl
  mapList := rfl
  live _ := rfl
  shared _ := rfl
  privates _ := rfl
  bcbs _ := rfl
  pc _ := ⟨.done, rfl⟩

/-- What a thread alone does when everything goes well: a map at address 1, a BCB, and IO
of the length given. -/
def calm (length : Nat) : Answer Unit :=
  ⟨true, length, none, some 1, true, some fun _ => 0, some (), ⟨0, 0, false⟩⟩

/-- A file of 100 bytes is opened. -/
def opened : State Unit Unit :=
  ((boot.apply (.call () (.initializeCacheMap ⟨0, 0, false⟩ ⟨100, 100, 100⟩ true))).apply
    (.step () (calm 0))).apply (.step () (calm 0))

theorem opened_reached : Reachable Initial Step opened :=
  .next (.step () (calm 0))
    (.next (.step () (calm 0))
      (.next (.call () (.initializeCacheMap ⟨0, 0, false⟩ ⟨100, 100, 100⟩ true))
        (.start boot_initial) ⟨⟨⟨.done, rfl⟩, nofun⟩, rfl⟩)
      ⟨allowed_alone _ _, rfl⟩)
    ⟨allowed_alone _ _, rfl⟩

end State

end Roswell.Ports.FileCache
