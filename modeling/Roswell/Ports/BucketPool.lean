import Roswell.Verified.Bytes
import Roswell.Verified.SingleLink
import Roswell.Ports.PoolPages

/-!
# The bucket pool

Model of `pool.c`.  Requests of up to 2040 bytes come from pages carved into
blocks of one of seven sizes; a block has a header of eight bytes in front of it,
and the free blocks of a size are linked through their own first bytes.  A side
table has, for each page of the pool window, the number of its blocks in use, or
says that the page is not carved.  Larger requests get whole pages.

`NxpLock` covers the free lists and the side table, but not the page layer, and
headers are read and written without it.  `Pc` is the place of a call in
progress: a section under the lock is one step, and so are a call of the page
layer, each access to a field of a header outside the lock, and the unlocked test
of `NxpReclaimEmptyBucketPages`.

Raising and stopping on a failed request (`NxpAllocFailed`) and the debug checks
change no state and are left out.  A call that stops the machine stays where it
is.
-/

namespace Roswell.Ports.BucketPool

open Verified.Bytes Verified.Extents Function
open PageTables (pageSize)
open PoolPages (nxppBase nxppPages bytesToPages pageVa nxPoolPagesAlloc)

/-! ## Size classes -/

def nxpClassSize : List Nat := [32, 64, 128, 256, 512, 1024, 2048]

def nxpClasses : Nat := nxpClassSize.length

/-- Bytes of a block of a class, with its header. -/
def classSize (cls : Nat) : Nat := nxpClassSize.getD cls 0

def nxpSmallMax : Nat := 2040

/-- `sizeof(NXP_HEADER)`. -/
def headerSize : Nat := 8

def nxpMagicAlloc : Nat := 0x4E58
def nxpMagicFree : Nat := 0x5846

/-- The inner loop of `InitializePool`. -/
def fittingClass (u : Nat) : Nat → Nat → Nat
  | 0, c => c
  | n + 1, c =>
    if c < nxpClasses - 1 ∧ classSize c < u <<< 4 then fittingClass u n (c + 1) else c

/-- `NxpClassMap`, which `InitializePool` fills from entry 0 on. -/
def nxpClassMap : Nat → Nat
  | 0 => fittingClass 0 nxpClasses 0
  | u + 1 => fittingClass (u + 1) nxpClasses (nxpClassMap u)

/-- The class of a request. -/
def classOf (numberOfBytes : Nat) : Nat :=
  let blockBytes := (if numberOfBytes ≠ 0 then numberOfBytes else 1) + headerSize
  nxpClassMap ((blockBytes + 15) >>> 4)

/-! ## State -/

def nxpNotBucket : Nat := 0xFF

def nxpBigEntries : Nat := 128

/-- The variables of the file, with the bytes of the window and the page layer. -/
structure Core where
  window : PoolPages.System
  mem : Memory
  freeLists : Nat → Nat
  pageState : Nat → Nat
  /-- Address and page count, the address zero for an empty entry. -/
  bigTable : Nat → Nat × Nat
  /-- The class a page was last carved for.  Nothing reads it. -/
  pageClass : Nat → Nat

/-- What a caller has been given, and for which request. -/
structure Block where
  va : Nat
  bytes : Nat
  deriving DecidableEq, Repr

def nxpPageIndex (p : Nat) : Nat := (p - nxppBase) >>> 12

/-- `PAGE_ALIGN(P) == P`: a whole-page allocation. -/
def Block.IsBig (b : Block) : Prop := b.va % pageSize = 0

instance (b : Block) : Decidable b.IsBig := inferInstanceAs (Decidable (_ = _))

/-- The pages of a whole-page allocation. -/
def Block.run (b : Block) : Extent := ⟨nxpPageIndex b.va, bytesToPages b.bytes⟩

namespace Core

/-! ## Sections under the lock -/

/-- The first block of a class, if there is one. -/
def popBlock (k : Core) (cls : Nat) : Option (Core × Nat) :=
  let blk := k.freeLists cls
  if blk = 0 then none
  else
    some ({ k with
      freeLists := update k.freeLists cls (load k.mem blk 4)
      pageState := update k.pageState (nxpPageIndex blk)
        ((k.pageState (nxpPageIndex blk) + 1) % 256) }, blk)

/-- Write the header of block `i` of a page and put the block on its list. -/
def chainBlock (k : Core) (cls page i : Nat) : Core :=
  let h := page + i * classSize cls
  let mem := store k.mem h 4 0
  let mem := store mem (h + 4) 2 cls
  let mem := store mem (h + 6) 2 nxpMagicFree
  let mem := store mem (h + headerSize) 4 (k.freeLists cls)
  { k with
    mem := mem
    freeLists := update k.freeLists cls (h + headerSize) }

/-- The `n` blocks of a page from block `i` on. -/
def chainBlocks (cls page : Nat) : Nat → Nat → Core → Core
  | 0, _, k => k
  | n + 1, i, k => chainBlocks cls page n (i + 1) (chainBlock k cls page i)

/-- Block 0 is for the caller. -/
def carvePage (k : Core) (cls page : Nat) : Core :=
  chainBlocks cls page (pageSize / classSize cls - 1) 1
    { k with
      pageState := update k.pageState (nxpPageIndex page) 1
      pageClass := update k.pageClass (nxpPageIndex page) cls }

/-- The class is read from the header. -/
def pushBlock (k : Core) (p : Nat) : Core :=
  let cls := load k.mem (p - 4) 2
  { k with
    mem := store k.mem p 4 (k.freeLists cls)
    freeLists := update k.freeLists cls p
    pageState := update k.pageState (nxpPageIndex p)
      ((k.pageState (nxpPageIndex p) + 255) % 256) }

/-- What `Link` points to: the head of a list or the link of a block. -/
inductive LinkAt where
  | head (cls : Nat)
  | next (blk : Nat)

def readLink (k : Core) : LinkAt → Nat
  | .head cls => k.freeLists cls
  | .next blk => load k.mem blk 4

def writeLink (k : Core) (link : LinkAt) (p : Nat) : Core :=
  match link with
  | .head cls => { k with freeLists := update k.freeLists cls p }
  | .next blk => { k with mem := store k.mem blk 4 p }

/-- Unlink the blocks of a page, within so many rounds. -/
def sweep (page : Nat) : Nat → Core → LinkAt → Core
  | 0, k, _ => k
  | n + 1, k, link =>
    let p := k.readLink link
    if p = 0 then k
    else if p / pageSize * pageSize = page then
      sweep page n (k.writeLink link (load k.mem p 4)) link
    else sweep page n k (.next p)

/-- More than the window has blocks. -/
def sweepRounds : Nat := nxppPages * 128 + 1

/-- Unmark a page whose blocks are all free; `none` if it has one in use or is not
carved.  Its class is read from its first header. -/
def takePage (k : Core) (idx : Nat) : Option Core :=
  if k.pageState idx ≠ 0 then none
  else
    let page := pageVa idx 0
    let k := sweep page sweepRounds k (.head (load k.mem (page + 4) 2))
    some { k with pageState := update k.pageState idx nxpNotBucket }

def enterBig (k : Core) (va pages : Nat) : Core :=
  match (List.range nxpBigEntries).find? fun i => (k.bigTable i).1 = 0 with
  | some i => { k with bigTable := update k.bigTable i (va, pages) }
  | none => k

def forgetBig (k : Core) (va : Nat) : Core :=
  match (List.range nxpBigEntries).find? fun i => (k.bigTable i).1 = va with
  | some i => { k with bigTable := update k.bigTable i (0, 0) }
  | none => k

/-! ## Calls of the page layer -/

/-- `NXP_PAGES_ALLOC`. -/
def allocPages (k : Core) (bytes : Nat) : Core × Option Nat :=
  ({ k with window := (PoolPages.Act.alloc bytes).apply k.window },
    (nxPoolPagesAlloc k.window.pool bytes).2.toOption)

/-- `NXP_PAGES_FREE` of the start of a run. -/
def freePages (k : Core) (run : Extent) : Core :=
  { k with window := (PoolPages.Act.free run).apply k.window }

end Core

/-! ## Calls in progress -/

/-- Where `NxpReclaimEmptyBucketPages` returns to. -/
inductive Caller where
  | none
  | big (bytes : Nat)
  | refill (bytes tag cls : Nat)
  deriving DecidableEq, Repr

inductive Pc where
  /-- `ExAllocatePoolWithTag` for whole pages: the first and the second attempt. -/
  | bigPages (bytes : Nat) (again : Bool)
  | bigEnter (b : Block)
  /-- `ExAllocatePoolWithTag` for a block. -/
  | pop (bytes tag cls : Nat)
  | refill (bytes tag cls : Nat) (again : Bool)
  | carve (bytes tag cls page : Nat)
  | putTag (b : Block) (tag cls : Nat)
  | putClass (b : Block) (cls : Nat)
  | putMagic (b : Block)
  /-- `NxpReclaimEmptyBucketPages`. -/
  | reclaimTest (idx freed : Nat) (caller : Caller)
  | reclaimTake (idx freed : Nat) (caller : Caller)
  | reclaimGive (idx freed : Nat) (caller : Caller)
  /-- `ExFreePoolWithTag` for a block. -/
  | getMagic (b : Block) (tagToFree : Nat)
  | getTag (b : Block) (tagToFree : Nat)
  | putFree (b : Block)
  | push (b : Block)
  /-- `ExFreePoolWithTag` for whole pages. -/
  | bigForget (b : Block)
  | bigGive (b : Block)
  /-- `KeBugCheckEx`. -/
  | bugCheck (b : Block)
  deriving DecidableEq, Repr

inductive Outcome where
  | goto (pc : Pc)
  /-- The call returns, with a block or with nothing. -/
  | ret (b : Option Block)

/-- The head of the loop over the pages, and what follows it. -/
def reclaimAt (idx freed : Nat) (caller : Caller) : Outcome :=
  if idx < nxppPages then .goto (.reclaimTest idx freed caller)
  else match caller with
    | .none => .ret none
    | .big bytes => if freed ≠ 0 then .goto (.bigPages bytes true) else .ret none
    | .refill bytes tag cls =>
      if freed ≠ 0 then .goto (.refill bytes tag cls true) else .ret none

/-- One step of a call. -/
def advance (k : Core) : Pc → Core × Outcome
  | .bigPages bytes again =>
    match k.allocPages bytes with
    | (k, some va) => (k, .goto (.bigEnter ⟨va, bytes⟩))
    | (k, none) => (k, if again then .ret none else reclaimAt 0 0 (.big bytes))
  | .bigEnter b => (k.enterBig b.va (bytesToPages b.bytes), .ret (some b))
  | .pop bytes tag cls =>
    match k.popBlock cls with
    | some (k, blk) => (k, .goto (.putTag ⟨blk, bytes⟩ tag cls))
    | none => (k, .goto (.refill bytes tag cls false))
  | .refill bytes tag cls again =>
    match k.allocPages pageSize with
    | (k, some page) => (k, .goto (.carve bytes tag cls page))
    | (k, none) => (k, if again then .ret none else reclaimAt 0 0 (.refill bytes tag cls))
  | .carve bytes tag cls page =>
    (k.carvePage cls page, .goto (.putTag ⟨page + headerSize, bytes⟩ tag cls))
  | .putTag b tag cls =>
    ({ k with mem := store k.mem (b.va - 8) 4 tag }, .goto (.putClass b cls))
  | .putClass b cls => ({ k with mem := store k.mem (b.va - 4) 2 cls }, .goto (.putMagic b))
  | .putMagic b => ({ k with mem := store k.mem (b.va - 2) 2 nxpMagicAlloc }, .ret (some b))
  | .reclaimTest idx freed caller =>
    (k, if k.pageState idx ≠ 0 then reclaimAt (idx + 1) freed caller
      else .goto (.reclaimTake idx freed caller))
  | .reclaimTake idx freed caller =>
    match k.takePage idx with
    | none => (k, reclaimAt (idx + 1) freed caller)
    | some k => (k, .goto (.reclaimGive idx freed caller))
  | .reclaimGive idx freed caller =>
    (k.freePages ⟨idx, 1⟩, reclaimAt (idx + 1) (freed + 1) caller)
  | .getMagic b tagToFree =>
    (k, if load k.mem (b.va - 2) 2 ≠ nxpMagicAlloc then .goto (.bugCheck b)
      else if tagToFree ≠ 0 then .goto (.getTag b tagToFree) else .goto (.putFree b))
  | .getTag b tagToFree =>
    (k, if load k.mem (b.va - 8) 4 ≠ tagToFree then .goto (.bugCheck b) else .goto (.putFree b))
  | .putFree b => ({ k with mem := store k.mem (b.va - 2) 2 nxpMagicFree }, .goto (.push b))
  | .push b => (k.pushBlock b.va, .ret none)
  | .bigForget b => (k.forgetBig b.va, .goto (.bigGive b))
  | .bigGive b => (k.freePages b.run, .ret none)
  | .bugCheck b => (k, .goto (.bugCheck b))

def exAllocatePoolWithTag (numberOfBytes tag : Nat) : Pc :=
  if nxpSmallMax < numberOfBytes then .bigPages numberOfBytes false
  else .pop numberOfBytes tag (classOf numberOfBytes)

def exFreePoolWithTag (b : Block) (tagToFree : Nat) : Pc :=
  if b.IsBig then .bigForget b else .getMagic b tagToFree

def nxpReclaimEmptyBucketPages : Pc := .reclaimTest 0 0 .none

/-! ## The system -/

/-- Who has blocks or pages: a caller, a call in progress, and the other users of the
page layer. -/
inductive Holder where
  | live (b : Block)
  | call (pc : Pc)
  | foreign (run : Extent)
  deriving DecidableEq, Repr

structure System where
  core : Core
  holders : List Holder

def Outcome.holders : Outcome → List Holder
  | .goto pc => [.call pc]
  | .ret (some b) => [.live b]
  | .ret none => []

/-- The byte is in a page of the window. -/
def InPage (idx a : Nat) : Prop := nxppBase + idx * pageSize ≤ a ∧ a < nxppBase + (idx + 1) * pageSize

instance (idx a : Nat) : Decidable (InPage idx a) := inferInstanceAs (Decidable (_ ∧ _))

/-- The page is carved into blocks. -/
def Core.Bucket (k : Core) (idx : Nat) : Prop := k.pageState idx ≠ nxpNotBucket

instance (k : Core) (idx : Nat) : Decidable (k.Bucket idx) := inferInstanceAs (Decidable (_ ≠ _))

/-- The bytes of a block with its header. -/
def Block.span (k : Core) (b : Block) : Extent :=
  if b.IsBig then ⟨b.va, bytesToPages b.bytes * pageSize⟩
  else ⟨b.va - headerSize, classSize (k.pageClass (nxpPageIndex b.va))⟩

/-- The bytes a caller may use. -/
def Block.room (k : Core) (b : Block) : Nat :=
  if b.IsBig then bytesToPages b.bytes * pageSize
  else classSize (k.pageClass (nxpPageIndex b.va)) - headerSize

inductive Act where
  | allocate (numberOfBytes tag : Nat)
  | free (b : Block) (tagToFree : Nat)
  | reclaim
  | advance (pc : Pc)
  /-- Somebody writes a byte. -/
  | poke (a : Nat) (x : UInt8)
  | pagesAlloc (bytes : Nat)
  | pagesFree (run : Extent)
  /-- The rest of the kernel uses the page supply. -/
  | other (mem : PageTables.Machine)

namespace Act

/-- Blocks are freed while they are live, and written within; outside carved pages
anything may be written. -/
def Admissible (s : System) : Act → Prop
  | .allocate _ _ => True
  | .free b _ => .live b ∈ s.holders
  | .reclaim => True
  | .advance pc => .call pc ∈ s.holders
  | .poke a _ =>
    (∃ b, .live b ∈ s.holders ∧ b.va ≤ a ∧ a < b.va + b.room s.core) ∨
      ∀ idx, InPage idx a → ¬s.core.Bucket idx
  | .pagesAlloc bytes => bytesToPages bytes ≠ 0
  | .pagesFree run => .foreign run ∈ s.holders
  | .other mem => (PoolPages.Act.other mem).Admissible s.core.window

def apply (s : System) : Act → System
  | .allocate numberOfBytes tag =>
    { s with holders := .call (exAllocatePoolWithTag numberOfBytes tag) :: s.holders }
  | .free b tagToFree =>
    { s with holders := .call (exFreePoolWithTag b tagToFree) :: s.holders.erase (.live b) }
  | .reclaim => { s with holders := .call nxpReclaimEmptyBucketPages :: s.holders }
  | .advance pc =>
    match BucketPool.advance s.core pc with
    | (core, outcome) => ⟨core, outcome.holders ++ s.holders.erase (.call pc)⟩
  | .poke a x => { s with core := { s.core with mem := update s.core.mem a x } }
  | .pagesAlloc bytes =>
    match s.core.allocPages bytes with
    | (core, some va) => ⟨core, .foreign ⟨nxpPageIndex va, bytesToPages bytes⟩ :: s.holders⟩
    | (core, none) => ⟨core, s.holders⟩
  | .pagesFree run => ⟨s.core.freePages run, s.holders.erase (.foreign run)⟩
  | .other mem =>
    { s with core := { s.core with window := (PoolPages.Act.other mem).apply s.core.window } }

end Act

/-- `InitializePool` marks no page and the lists are empty; the memory holds anything. -/
def Boot (s : System) : Prop :=
  PoolPages.Boot s.core.window ∧ (∀ idx, s.core.pageState idx = nxpNotBucket) ∧
    (∀ cls, s.core.freeLists cls = 0) ∧ s.holders = []

def Step (s : System) (a : Act) (t : System) : Prop := a.Admissible s ∧ t = a.apply s

end Roswell.Ports.BucketPool
