import Roswell.Ports.BucketPoolLock

/-!
# Runs of the bucket pool

Each holder has blocks of carved pages and runs of whole pages in hand, and what
its next step relies on is kept by the steps of all others, since these change
neither the class of its page nor its header.  So one step of a call can be
followed from its own part of the arena alone (`advance_ok`), and the invariant
of the whole system (`Sound`) is that the holders divide the arena.
-/

namespace Roswell.Ports.BucketPool

open Verified.Bytes Verified.Extents Verified.Runs Verified.SingleLink Function
open PageTables (pageSize)
open PoolPages (nxppBase nxppPages bytesToPages pageVa)

/-! ## What a holder has in hand -/

/-- A request fits a block of a class. -/
def Fits (bytes cls : Nat) : Prop := cls < nxpClasses ∧ bytes + headerSize ≤ classSize cls

namespace Block

/-- The header has the class of the page, and the request fits. -/
structure Headed (k : Core) (b : Block) : Prop where
  fits : b.bytes + headerSize ≤ k.sizeAt b.va
  header : classField k.mem b.va = k.pageClass (nxpPageIndex b.va)

/-- The block is the start of a page of the window. -/
def Paged (b : Block) : Prop := b.va = pageVa (nxpPageIndex b.va) 0

def blocks (b : Block) : List Nat := if b.IsBig then [] else [b.va]

def runs (b : Block) : List Extent := if b.IsBig then [b.run] else []

def Ok (k : Core) (b : Block) : Prop := if b.IsBig then b.Paged else b.Headed k

end Block

def Caller.Ok : Caller → Prop
  | .none => True
  | .big bytes => bytesToPages bytes ≠ 0
  | .refill bytes _ cls => Fits bytes cls

namespace Pc

def blocks : Pc → List Nat
  | .putTag b _ _ | .putClass b _ | .putMagic b => [b.va]
  | .getMagic b _ | .getTag b _ | .putFree b | .push b | .bugCheck b => [b.va]
  | _ => []

def runs : Pc → List Extent
  | .bigEnter b | .bigForget b | .bigGive b => [b.run]
  | .carve _ _ _ page => [⟨nxpPageIndex page, 1⟩]
  | .reclaimGive idx _ _ => [⟨idx, 1⟩]
  | _ => []

/-- What the rest of the call relies on. -/
def Ok (k : Core) : Pc → Prop
  | .bigPages bytes _ => bytesToPages bytes ≠ 0
  | .bigEnter b | .bigForget b | .bigGive b => b.Paged
  | .pop bytes _ cls | .refill bytes _ cls _ => Fits bytes cls
  | .carve bytes _ cls page => Fits bytes cls ∧ page = pageVa (nxpPageIndex page) 0
  | .putTag b _ cls | .putClass b cls =>
    b.bytes + headerSize ≤ k.sizeAt b.va ∧ cls = k.pageClass (nxpPageIndex b.va)
  | .putMagic b | .getMagic b _ | .getTag b _ | .putFree b | .push b | .bugCheck b => b.Headed k
  | .reclaimTest _ _ caller | .reclaimTake _ _ caller | .reclaimGive _ _ caller => caller.Ok

end Pc

namespace Outcome

def blocks : Outcome → List Nat
  | .goto pc => pc.blocks
  | .ret (some b) => b.blocks
  | .ret none => []

def runs : Outcome → List Extent
  | .goto pc => pc.runs
  | .ret (some b) => b.runs
  | .ret none => []

def Ok (k : Core) : Outcome → Prop
  | .goto pc => pc.Ok k
  | .ret (some b) => b.Ok k
  | .ret none => True

end Outcome

namespace Holder

def blocks : Holder → List Nat
  | .live b => b.blocks
  | .call pc => pc.blocks
  | .foreign _ => []

def runs : Holder → List Extent
  | .live b => b.runs
  | .call pc => pc.runs
  | .foreign run => [run]

def Ok (k : Core) : Holder → Prop
  | .live b => b.Ok k
  | .call pc => pc.Ok k
  | .foreign _ => True

end Holder

namespace Outcome

theorem holders_have (out : Outcome) : out.holders.flatMap Holder.blocks = out.blocks ∧
    out.holders.flatMap Holder.runs = out.runs := by
  match out with
  | .goto pc => exact ⟨List.flatMap_singleton _ _, List.flatMap_singleton _ _⟩
  | .ret (some b) => exact ⟨List.flatMap_singleton _ _, List.flatMap_singleton _ _⟩
  | .ret none => exact ⟨rfl, rfl⟩

theorem holders_ok {k : Core} (out : Outcome) (h : out.Ok k) : ∀ x ∈ out.holders, x.Ok k := by
  intro x hx
  match out with
  | .goto pc =>
    obtain rfl := List.mem_singleton.1 hx
    exact h
  | .ret (some b) =>
    obtain rfl := List.mem_singleton.1 hx
    exact h
  | .ret none => exact absurd hx List.not_mem_nil

end Outcome

section Frames

variable {k k' : Core} {held : List Nat} {b : Block}

theorem Frame.classField (hf : Frame k k' held) {e : Nat} (he : e ∈ held) :
    classField k'.mem e = BucketPool.classField k.mem e :=
  load_congr ((hf e he).2.mono (by omega) (by omega))

theorem Frame.sizeAt (hf : Frame k k' held) {e : Nat} (he : e ∈ held) :
    k'.sizeAt e = k.sizeAt e :=
  congrArg classSize (hf e he).1

theorem Block.Headed.frame (h : b.Headed k) (hf : Frame k k' held) (hb : b.va ∈ held) :
    b.Headed k' where
  fits := by
    rw [hf.sizeAt hb]
    exact h.fits
  header := by
    rw [hf.classField hb, (hf _ hb).1]
    exact h.header

theorem Block.Ok.frame (h : b.Ok k) (hf : Frame k k' held) (hb : ∀ e ∈ b.blocks, e ∈ held) :
    b.Ok k' := by
  unfold Block.Ok at h ⊢
  unfold Block.blocks at hb
  split_ifs at h hb ⊢ with hbig
  · exact h
  · exact h.frame hf (hb _ List.mem_cons_self)

theorem Pc.Ok.frame {pc : Pc} (h : pc.Ok k) (hf : Frame k k' held)
    (hb : ∀ e ∈ pc.blocks, e ∈ held) : pc.Ok k' := by
  cases pc with
  | bigPages | bigEnter | pop | refill | carve | reclaimTest | reclaimTake | reclaimGive
  | bigForget | bigGive => exact h
  | putTag | putClass =>
    have hmem := hb _ List.mem_cons_self
    obtain ⟨hfits, hcls⟩ := h
    exact ⟨by rw [hf.sizeAt hmem]; exact hfits, by rw [(hf _ hmem).1]; exact hcls⟩
  | putMagic | getMagic | getTag | putFree | push | bugCheck =>
    exact Block.Headed.frame h hf (hb _ List.mem_cons_self)

theorem Holder.Ok.frame {x : Holder} (h : x.Ok k) (hf : Frame k k' held)
    (hb : ∀ e ∈ x.blocks, e ∈ held) : x.Ok k' := by
  cases x with
  | live b => exact Block.Ok.frame h hf hb
  | call pc => exact Pc.Ok.frame h hf hb
  | foreign run => exact h

end Frames

/-! ## One step of a call -/

section Advance

variable {k k' : Core} {lists : Nat → List Nat} {held : List Nat} {owned : List Extent}
  {out : Outcome}

/-- The call that took the step has what the outcome says, and the others are not
disturbed. -/
def Result (k : Core) (held : List Nat) (owned : List Extent) (r : Core × Outcome) : Prop :=
  (∃ lists, Arena r.1 lists (r.2.blocks ++ held) (r.2.runs ++ owned)) ∧ r.2.Ok r.1 ∧
    Frame k r.1 held

theorem Frame.of_eq (hmem : k'.mem = k.mem) (hclass : k'.pageClass = k.pageClass) :
    Frame k k' held := by
  intro e _
  rw [hmem, hclass]
  exact ⟨rfl, fun _ _ _ => rfl⟩

theorem reclaimAt_ok (caller : Caller) (h : Arena k lists held owned) (hc : caller.Ok)
    (idx freed : Nat) :
    (∃ lists, Arena k lists ((reclaimAt idx freed caller).blocks ++ held)
      ((reclaimAt idx freed caller).runs ++ owned)) ∧ (reclaimAt idx freed caller).Ok k := by
  unfold reclaimAt
  split
  · exact ⟨⟨lists, h⟩, hc⟩
  cases caller with
  | none => exact ⟨⟨lists, h⟩, trivial⟩
  | big bytes | refill bytes tag cls =>
    dsimp only
    split
    · exact ⟨⟨lists, h⟩, hc⟩
    · exact ⟨⟨lists, h⟩, trivial⟩

/-- Bytes of one held block are written, its header included. -/
theorem Arena.write (h : Arena k lists held owned) {p : Nat} (hp : p ∈ held) {m : Memory}
    (hm : ∀ a, m a ≠ k.mem a → p - 8 ≤ a ∧ a < p - 8 + k.sizeAt p) :
    Arena { k with mem := m } lists held owned ∧
      ∀ e ∈ held, e ≠ p → Keeps k.mem m (e - 8) 8 := by
  obtain ⟨hslot, -, hnot⟩ := h.held_slot hp
  have hge := hslot.ge
  have hkeep : ∀ e, k.IsSlot e → e ≠ p → Keeps k.mem m (e - 8) 12 := by
    intro e he hne a hlo hhi
    by_contra hchanged
    have hin := hm a hchanged
    have hesize := he.size
    have := he.apart hslot hne
    omega
  refine ⟨h.of_mem fun c hc e he => ?_, fun e he hne => ?_⟩
  · have hslot' := (h.listed hc he).1
    refine (hkeep e hslot' ?_).mono (by omega) (by omega)
    rintro rfl
    exact hnot c hc he
  · exact (hkeep e (h.held_slot he).1 hne).mono (by omega) (by omega)

/-- A field of the header of one's own block is written. -/
theorem Arena.put {p : Nat} (h : Arena k lists (p :: held) owned) {a n : Nat} (x : Nat)
    (hlo : p - 8 ≤ a) (hhi : a + n ≤ p) :
    Arena { k with mem := store k.mem a n x } lists (p :: held) owned ∧
      Frame k { k with mem := store k.mem a n x } held := by
  obtain ⟨hslot, honce, -⟩ := h.held_slot List.mem_cons_self
  have hsize := hslot.size
  obtain ⟨harena, hkeep⟩ := h.write (m := store k.mem a n x) List.mem_cons_self (by
    intro i hi
    by_contra hout
    exact hi (store_outside x (by omega)))
  refine ⟨harena, fun e he => ⟨rfl, hkeep e (List.mem_cons_of_mem p he) ?_⟩⟩
  rintro rfl
  rw [List.count_cons_self] at honce
  have := List.count_pos_iff.2 he
  omega

/-- The magic number is written behind the class. -/
theorem Arena.putMagic {b : Block} (h : Arena k lists (b.va :: held) owned) (x : Nat)
    (hb : b.Headed k) :
    b.Headed { k with mem := store k.mem (b.va - 2) 2 x } ∧
      Arena { k with mem := store k.mem (b.va - 2) 2 x } lists (b.va :: held) owned ∧
      Frame k { k with mem := store k.mem (b.va - 2) 2 x } held := by
  have hge := (h.held_slot List.mem_cons_self).1.ge
  obtain ⟨harena, hframe⟩ := h.put (a := b.va - 2) (n := 2) x (by omega) (by omega)
  refine ⟨⟨hb.fits, ?_⟩, harena, hframe⟩
  exact (load_congr (store_keeps x (by omega))).trans hb.header

theorem enterBig_eq (k : Core) (va pages : Nat) :
    ∃ t, k.enterBig va pages = { k with bigTable := t } := by
  unfold Core.enterBig
  split
  · exact ⟨_, rfl⟩
  · exact ⟨k.bigTable, rfl⟩

theorem forgetBig_eq (k : Core) (va : Nat) : ∃ t, k.forgetBig va = { k with bigTable := t } := by
  unfold Core.forgetBig
  split
  · exact ⟨_, rfl⟩
  · exact ⟨k.bigTable, rfl⟩

/-- The table of large allocations is only for debugging. -/
theorem Arena.of_bigTable (h : Arena k lists held owned) (t : Nat → Nat × Nat) :
    Arena { k with bigTable := t } lists held owned :=
  { h with }

theorem paged_pageVa (start bytes : Nat) : (⟨pageVa start 0, bytes⟩ : Block).Paged ∧
    nxpPageIndex (pageVa start 0) = start := by
  have hindex : nxpPageIndex (pageVa start 0) = start := by
    rw [pageVa_zero]
    refine nxpPageIndex_of_inPage ⟨Nat.le_refl _, ?_⟩
    unfold pageSize
    omega
  refine ⟨?_, hindex⟩
  unfold Block.Paged
  rw [hindex]

theorem Block.Paged.isBig {b : Block} (h : b.Paged) : b.IsBig := by
  unfold Block.IsBig
  rw [h, pageVa_zero]
  unfold nxppBase pageSize
  omega

/-- The pages that the bytes of whole pages are in. -/
theorem Block.Paged.run_has {b : Block} (h : b.Paged) {idx a : Nat} (hidx : InPage idx a)
    (hlo : b.va ≤ a) (hhi : a < b.va + bytesToPages b.bytes * pageSize) : b.run.Has idx := by
  rw [Block.Paged, pageVa_zero] at h
  unfold InPage at hidx
  unfold Block.run Extent.Has
  dsimp only
  unfold pageSize at *
  omega

/-- Pages in somebody's hand are not carved. -/
theorem Arena.owned_uncarved (h : Arena k lists held owned) {r : Extent} (hr : r ∈ owned) {idx : Nat}
    (hidx : r.Has idx) : ¬k.Bucket idx := by
  intro hb
  obtain ⟨hlive, hnot⟩ := h.bucket_run hb
  have hone : (⟨idx, 1⟩ : Extent).Has idx := ⟨Nat.le_refl _, Nat.lt_succ_self _⟩
  exact hnot (h.window.tiles.eq_of_has hlive (h.owned_live hr) hone hidx ▸ hr)

theorem Core.IsSlot.not_big {b : Block} (h : k.IsSlot b.va) : ¬b.IsBig :=
  slot_not_aligned h.page.2.1 h.page.2.2.2

theorem advance_ok {pc : Pc} (h : Arena k lists (pc.blocks ++ held) (pc.runs ++ owned))
    (hpc : pc.Ok k) : Result k held owned (advance k pc) := by
  cases pc with
  | bigPages bytes again =>
    obtain ⟨k', va, hcall, hmem, hclass, hcase⟩ := h.allocPages bytes hpc
    rw [advance, hcall]
    rcases hcase with ⟨rfl, harena⟩ | ⟨start, rfl, harena⟩
    · dsimp only
      split
      · exact ⟨⟨lists, harena⟩, trivial, .of_eq hmem hclass⟩
      · obtain ⟨harena, hok⟩ := reclaimAt_ok (.big bytes) harena hpc 0 0
        exact ⟨harena, hok, .of_eq hmem hclass⟩
    · obtain ⟨hpaged, hindex⟩ := paged_pageVa start bytes
      refine ⟨⟨lists, ?_⟩, hpaged, .of_eq hmem hclass⟩
      show Arena k' lists held (⟨nxpPageIndex (pageVa start 0), _⟩ :: owned)
      rw [hindex]
      exact harena
  | bigEnter b =>
    have hpaged : b.Paged := hpc
    obtain ⟨t, ht⟩ := enterBig_eq k b.va (bytesToPages b.bytes)
    rw [advance, ht]
    simp only [Result, Outcome.blocks, Outcome.runs, Outcome.Ok, Block.blocks, Block.runs, Block.Ok,
      if_pos hpaged.isBig]
    exact ⟨⟨lists, h.of_bigTable t⟩, hpaged, .of_eq rfl rfl⟩
  | pop bytes tag cls =>
    obtain ⟨hcls, hfits⟩ : Fits bytes cls := hpc
    rcases h.pop hcls with hnone | ⟨k', blk, lists', hsome, hpage, hmem, hclass, harena⟩
    · rw [advance, hnone]
      exact ⟨⟨lists, h⟩, ⟨hcls, hfits⟩, .of_eq rfl rfl⟩
    · rw [advance, hsome]
      refine ⟨⟨lists', harena⟩, ?_, .of_eq hmem hclass⟩
      rw [← hclass] at hpage
      exact ⟨hfits.trans (by unfold Core.sizeAt; rw [hpage]), hpage.symm⟩
  | refill bytes tag cls again =>
    have hfits : Fits bytes cls := hpc
    obtain ⟨k', va, hcall, hmem, hclass, hcase⟩ := h.allocPages pageSize (by decide)
    rw [advance, hcall]
    rcases hcase with ⟨rfl, harena⟩ | ⟨start, rfl, harena⟩
    · dsimp only
      split
      · exact ⟨⟨lists, harena⟩, trivial, .of_eq hmem hclass⟩
      · obtain ⟨harena, hok⟩ := reclaimAt_ok (.refill bytes tag cls) harena hfits 0 0
        exact ⟨harena, hok, .of_eq hmem hclass⟩
    · obtain ⟨hpaged, hindex⟩ := paged_pageVa start bytes
      refine ⟨⟨lists, ?_⟩, ⟨hfits, hpaged⟩, .of_eq hmem hclass⟩
      show Arena k' lists held (⟨nxpPageIndex (pageVa start 0), 1⟩ :: owned)
      rw [hindex]
      exact harena
  | carve bytes tag cls page =>
    obtain ⟨⟨hcls, hfits⟩, hpage⟩ : Fits bytes cls ∧ page = pageVa (nxpPageIndex page) 0 := hpc
    obtain ⟨lists', harena, hclass, hframe⟩ := h.carve hcls
    rw [← hpage] at harena hclass hframe
    refine ⟨⟨lists', harena⟩, ?_, hframe⟩
    have hindex : nxpPageIndex (page + headerSize) = nxpPageIndex page := by
      refine nxpPageIndex_of_inPage ?_
      rw [InPage, ← pageVa_zero, ← hpage]
      unfold headerSize pageSize at *
      rw [pageVa_zero] at hpage
      unfold pageSize at hpage
      omega
    have hat : (k.carvePage cls page).pageClass (nxpPageIndex (page + headerSize)) = cls := by
      rw [hclass, hindex, update_self]
    exact ⟨hfits.trans (Nat.le_of_eq (congrArg classSize hat.symm)), hat.symm⟩
  | putTag b tag cls =>
    have hge := (h.held_slot List.mem_cons_self).1.ge
    obtain ⟨harena, hframe⟩ := h.put (a := b.va - 8) (n := 4) tag (by omega) (by omega)
    exact ⟨⟨lists, harena⟩, hpc, hframe⟩
  | putClass b cls =>
    obtain ⟨hslot, -, -⟩ := h.held_slot List.mem_cons_self
    have hge := hslot.ge
    obtain ⟨harena, hframe⟩ := h.put (a := b.va - 4) (n := 2) cls (by omega) (by omega)
    obtain ⟨hfits, hcls⟩ : _ ∧ cls = k.pageClass (nxpPageIndex b.va) := hpc
    refine ⟨⟨lists, harena⟩, ⟨hfits, ?_⟩, hframe⟩
    show load (store k.mem (b.va - 4) 2 cls) (b.va - 4) 2 = k.pageClass (nxpPageIndex b.va)
    have hlt := hslot.page.2.1
    rw [← hcls] at hlt ⊢
    rw [load_store]
    refine Nat.mod_eq_of_lt (hlt.trans ?_)
    decide
  | putMagic b =>
    have hheaded : b.Headed k := hpc
    obtain ⟨hok, harena, hframe⟩ := h.putMagic nxpMagicAlloc hheaded
    have hnot := (h.held_slot List.mem_cons_self).1.not_big
    simp only [Result, advance, Outcome.blocks, Outcome.runs, Outcome.Ok, Block.blocks, Block.runs,
      Block.Ok, if_neg hnot]
    exact ⟨⟨lists, harena⟩, hok, hframe⟩
  | reclaimTest idx freed caller =>
    rw [advance]
    split
    · obtain ⟨harena, hok⟩ := reclaimAt_ok caller h hpc (idx + 1) freed
      exact ⟨harena, hok, .of_eq rfl rfl⟩
    · exact ⟨⟨lists, h⟩, hpc, .of_eq rfl rfl⟩
  | reclaimTake idx freed caller =>
    rw [advance]
    cases htake : k.takePage idx with
    | none =>
      obtain ⟨harena, hok⟩ := reclaimAt_ok caller h hpc (idx + 1) freed
      exact ⟨harena, hok, .of_eq rfl rfl⟩
    | some k' =>
      obtain ⟨lists', harena, hframe⟩ := h.take htake
      exact ⟨⟨lists', harena⟩, hpc, hframe⟩
  | reclaimGive idx freed caller =>
    obtain ⟨harena, hok⟩ := reclaimAt_ok caller h.freePages hpc (idx + 1) (freed + 1)
    exact ⟨harena, hok, .of_eq rfl rfl⟩
  | getMagic b tagToFree =>
    rw [advance]
    split
    · exact ⟨⟨lists, h⟩, hpc, .of_eq rfl rfl⟩
    · split
      · exact ⟨⟨lists, h⟩, hpc, .of_eq rfl rfl⟩
      · exact ⟨⟨lists, h⟩, hpc, .of_eq rfl rfl⟩
  | getTag b tagToFree =>
    rw [advance]
    split
    · exact ⟨⟨lists, h⟩, hpc, .of_eq rfl rfl⟩
    · exact ⟨⟨lists, h⟩, hpc, .of_eq rfl rfl⟩
  | putFree b =>
    have hheaded : b.Headed k := hpc
    obtain ⟨hok, harena, hframe⟩ := h.putMagic nxpMagicFree hheaded
    exact ⟨⟨lists, harena⟩, hok, hframe⟩
  | push b =>
    have hheaded : b.Headed k := hpc
    obtain ⟨lists', harena, -, hframe⟩ := h.push hheaded.header
    exact ⟨⟨lists', harena⟩, trivial, hframe⟩
  | bigForget b =>
    obtain ⟨t, ht⟩ := forgetBig_eq k b.va
    rw [advance, ht]
    exact ⟨⟨lists, h.of_bigTable t⟩, hpc, .of_eq rfl rfl⟩
  | bigGive b => exact ⟨⟨lists, h.freePages⟩, trivial, .of_eq rfl rfl⟩
  | bugCheck b => exact ⟨⟨lists, h⟩, hpc, .of_eq rfl rfl⟩

end Advance

/-! ## The whole system -/

structure Sound (s : System) : Prop where
  arena : ∃ lists, Arena s.core lists (s.holders.flatMap Holder.blocks)
    (s.holders.flatMap Holder.runs)
  holders : ∀ x ∈ s.holders, x.Ok s.core

namespace Sound

variable {s : System}

theorem boot (h : Boot s) : Sound s := by
  obtain ⟨hwindow, hstate, hlists, hholders⟩ := h
  have hbucket : ∀ idx, ¬s.core.Bucket idx := fun idx hb => hb (hstate idx)
  have hok := PoolPages.System.Ok.boot hwindow
  have hlive : s.core.window.live = [] := by
    obtain ⟨pool, hpool, -⟩ := hwindow
    rw [hpool]
  refine ⟨⟨fun _ => [], ?_⟩, by rw [hholders]; exact nofun⟩
  rw [hholders]
  refine ⟨hok, ?_, fun hb => absurd hb (hbucket _), ?_, nofun, nofun, ?_, ?_, nofun⟩
  · intro r
    unfold Core.bucketRuns
    rw [if_neg fun hb => hbucket _ hb.2, hlive]
    rfl
  · intro cls _
    exact hlists cls
  · exact fun hb => absurd hb (hbucket _)
  · exact fun hb => absurd hb (hbucket _)

/-- One holder is singled out. -/
theorem part (h : Sound s) {x : Holder} (hx : x ∈ s.holders) :
    (∃ lists, Arena s.core lists (x.blocks ++ (s.holders.erase x).flatMap Holder.blocks)
      (x.runs ++ (s.holders.erase x).flatMap Holder.runs)) ∧ x.Ok s.core := by
  obtain ⟨lists, harena⟩ := h.arena
  have hperm := List.perm_cons_erase hx
  refine ⟨⟨lists, ?_⟩, h.holders x hx⟩
  exact (harena.held_perm (hperm.flatMap_right Holder.blocks)).owned_perm
    (hperm.flatMap_right Holder.runs)

/-- A holder is replaced, or leaves, or arrives, and the others are not disturbed. -/
theorem join {k : Core} {rest : List Holder} (new : List Holder)
    (hrest : ∀ x ∈ rest, x.Ok s.core)
    (hnew : ∀ x ∈ new, x.Ok k)
    (hframe : Frame s.core k (rest.flatMap Holder.blocks))
    (harena : ∃ lists, Arena k lists (new.flatMap Holder.blocks ++ rest.flatMap Holder.blocks)
      (new.flatMap Holder.runs ++ rest.flatMap Holder.runs)) : Sound ⟨k, new ++ rest⟩ := by
  refine ⟨?_, ?_⟩
  · rw [List.flatMap_append, List.flatMap_append]
    exact harena
  · intro x hx
    rcases List.mem_append.1 hx with hx | hx
    · exact hnew x hx
    · exact (hrest x hx).frame hframe fun e he => List.mem_flatMap.2 ⟨x, hx, he⟩

/-- A call begins. -/
theorem begin (h : Sound s) {pc : Pc} (hblocks : pc.blocks = []) (hruns : pc.runs = [])
    (hok : pc.Ok s.core) : Sound { s with holders := .call pc :: s.holders } := by
  obtain ⟨lists, harena⟩ := h.arena
  refine join [.call pc] h.holders ?_ (.of_eq rfl rfl) ⟨lists, ?_⟩
  · intro x hx
    obtain rfl := List.mem_singleton.1 hx
    exact hok
  · rw [List.flatMap_singleton, List.flatMap_singleton]
    show Arena _ _ (pc.blocks ++ _) (pc.runs ++ _)
    rw [hblocks, hruns]
    exact harena

theorem allocate (h : Sound s) (bytes tag : Nat) : Sound ((Act.allocate bytes tag).apply s) := by
  show Sound { s with holders := .call (exAllocatePoolWithTag bytes tag) :: s.holders }
  unfold exAllocatePoolWithTag
  split
  case isTrue hbig =>
    refine h.begin rfl rfl ?_
    show bytesToPages bytes ≠ 0
    unfold bytesToPages
    rw [Nat.shiftRight_eq_div_pow, show 0xFFF = 2 ^ 12 - 1 from rfl, Nat.and_two_pow_sub_one_eq_mod]
    split <;> omega
  case isFalse hsmall => exact h.begin rfl rfl (classOf_fits (by omega))

theorem reclaim (h : Sound s) : Sound (Act.reclaim.apply s) :=
  h.begin rfl rfl trivial

theorem free (h : Sound s) {b : Block} (hb : .live b ∈ s.holders) (tagToFree : Nat) :
    Sound ((Act.free b tagToFree).apply s) := by
  obtain ⟨⟨lists, harena⟩, hok⟩ := h.part hb
  have hsame : (exFreePoolWithTag b tagToFree).blocks = b.blocks ∧
      (exFreePoolWithTag b tagToFree).runs = b.runs ∧ (exFreePoolWithTag b tagToFree).Ok s.core := by
    have hlive : b.Ok s.core := hok
    unfold Block.Ok at hlive
    unfold exFreePoolWithTag Block.blocks Block.runs
    split_ifs at hlive ⊢ with hbig
    · exact ⟨rfl, rfl, hlive⟩
    · exact ⟨rfl, rfl, hlive⟩
  refine join [.call (exFreePoolWithTag b tagToFree)]
    (fun x hx => h.holders x (List.mem_of_mem_erase hx)) ?_ (.of_eq rfl rfl) ⟨lists, ?_⟩
  · intro x hx
    obtain rfl := List.mem_singleton.1 hx
    exact hsame.2.2
  · rw [List.flatMap_singleton, List.flatMap_singleton]
    show Arena _ _ ((exFreePoolWithTag b tagToFree).blocks ++ _)
      ((exFreePoolWithTag b tagToFree).runs ++ _)
    rw [hsame.1, hsame.2.1]
    exact harena

theorem advance (h : Sound s) {pc : Pc} (hpc : .call pc ∈ s.holders) :
    Sound ((Act.advance pc).apply s) := by
  obtain ⟨⟨lists, harena⟩, hok⟩ := h.part hpc
  obtain ⟨hafter, hout, hframe⟩ := advance_ok harena hok
  rw [Act.apply]
  cases hstep : BucketPool.advance s.core pc with
  | mk k out =>
    rw [hstep] at hafter hout hframe
    refine join _ (fun x hx => h.holders x (List.mem_of_mem_erase hx)) (out.holders_ok hout) hframe ?_
    rw [out.holders_have.1, out.holders_have.2]
    exact hafter

/-- Only bytes that belong to no header and no free block are written. -/
theorem write (h : Sound s) {m : Memory}
    (hm : ∀ {lists}, Arena s.core lists (s.holders.flatMap Holder.blocks)
        (s.holders.flatMap Holder.runs) →
      Arena { s.core with mem := m } lists (s.holders.flatMap Holder.blocks)
        (s.holders.flatMap Holder.runs) ∧
      ∀ e ∈ s.holders.flatMap Holder.blocks, Keeps s.core.mem m (e - 8) 8) :
    Sound { s with core := { s.core with mem := m } } := by
  obtain ⟨lists, harena⟩ := h.arena
  obtain ⟨hafter, hkeep⟩ := hm harena
  exact join [] h.holders nofun (fun e he => ⟨rfl, hkeep e he⟩) ⟨lists, hafter⟩

theorem poke (h : Sound s) {a : Nat} {x : UInt8} (hadm : (Act.poke a x).Admissible s) :
    Sound ((Act.poke a x).apply s) := by
  have hother : ∀ {i}, i ≠ a → update s.core.mem a x i = s.core.mem i :=
    fun hi => update_of_ne hi _ _
  by_cases hcarved : ∃ idx, InPage idx a ∧ s.core.Bucket idx
  swap
  · -- no block is near
    refine h.write fun harena => ?_
    have hkeep : ∀ e, s.core.IsSlot e → Keeps s.core.mem (update s.core.mem a x) (e - 8) 12 := by
      intro e he i hlo hhi
      refine hother ?_
      rintro rfl
      obtain ⟨hb, -, hpage, hmem⟩ := he.page
      have hin := slot_in_page hmem
      have hsize := he.size
      refine hcarved ⟨_, ⟨?_, ?_⟩, hb⟩
      · unfold headerSize at hin
        omega
      · unfold headerSize at hin
        unfold Core.sizeAt at hsize
        omega
    refine ⟨harena.of_mem fun c hc e he => ?_, fun e he => ?_⟩
    · have hslot := (harena.listed hc he).1
      exact (hkeep e hslot).mono (by omega) (by omega)
    · exact (hkeep e (harena.held_slot he).1).mono (by omega) (by omega)
  · obtain ⟨idx, hidx, hb⟩ := hcarved
    rcases hadm with ⟨b, hlive, hlo, hhi⟩ | hout
    swap
    · exact absurd hb (hout idx hidx)
    have hok : b.Ok s.core := h.holders _ hlive
    by_cases hbig : b.IsBig
    · -- whole pages are not carved
      obtain ⟨lists, harena⟩ := h.arena
      rw [Block.Ok, if_pos hbig] at hok
      rw [Block.room, if_pos hbig] at hhi
      have hrun : b.run ∈ s.holders.flatMap Holder.runs := by
        refine List.mem_flatMap.2 ⟨_, hlive, ?_⟩
        show b.run ∈ b.runs
        rw [Block.runs, if_pos hbig]
        exact List.mem_cons_self
      exact absurd hb (harena.owned_uncarved hrun (hok.run_has hidx hlo hhi))
    · rw [Block.room, if_neg hbig] at hhi
      refine h.write fun harena => ?_
      have hmem : b.va ∈ s.holders.flatMap Holder.blocks := by
        refine List.mem_flatMap.2 ⟨_, hlive, ?_⟩
        show b.va ∈ b.blocks
        rw [Block.blocks, if_neg hbig]
        exact List.mem_cons_self
      have hslot := (harena.held_slot hmem).1
      have hge := hslot.ge
      obtain ⟨hafter, hkeep⟩ := harena.write hmem (by
        intro i hi
        have hia : i = a := by
          by_contra hne
          exact hi (hother hne)
        unfold Core.sizeAt
        unfold headerSize at hhi
        omega)
      refine ⟨hafter, fun e he => ?_⟩
      by_cases heq : e = b.va
      · intro i hlo' hhi'
        exact hother (by omega)
      · exact hkeep e he heq

theorem pagesAlloc (h : Sound s) {bytes : Nat} (hbytes : bytesToPages bytes ≠ 0) :
    Sound ((Act.pagesAlloc bytes).apply s) := by
  obtain ⟨lists, harena⟩ := h.arena
  obtain ⟨k', va, hcall, hmem, hclass, hcase⟩ := harena.allocPages _ hbytes
  rw [Act.apply, hcall]
  rcases hcase with ⟨rfl, hafter⟩ | ⟨start, rfl, hafter⟩
  · exact join [] h.holders nofun (.of_eq hmem hclass) ⟨lists, hafter⟩
  refine join [.foreign _] h.holders ?_ (.of_eq hmem hclass) ⟨lists, ?_⟩
  · intro x hx
    obtain rfl := List.mem_singleton.1 hx
    trivial
  · rw [List.flatMap_singleton, List.flatMap_singleton]
    rw [(paged_pageVa start bytes).2]
    exact hafter

theorem pagesFree (h : Sound s) {run : Extent} (hrun : .foreign run ∈ s.holders) :
    Sound ((Act.pagesFree run).apply s) := by
  obtain ⟨⟨lists, harena⟩, -⟩ := h.part hrun
  exact join [] (fun x hx => h.holders x (List.mem_of_mem_erase hx)) nofun
    (.of_eq rfl rfl) ⟨lists, harena.freePages⟩

theorem other (h : Sound s) {mem : PageTables.Machine}
    (hadm : (PoolPages.Act.other mem).Admissible s.core.window) :
    Sound ((Act.other mem).apply s) := by
  obtain ⟨lists, harena⟩ := h.arena
  exact join [] h.holders nofun (.of_eq rfl rfl)
    ⟨lists, { harena with window := harena.window.other hadm.1 hadm.2 }⟩

theorem step (h : Sound s) {a : Act} {t : System} (hst : Step s a t) : Sound t := by
  obtain ⟨hadm, rfl⟩ := hst
  cases a with
  | allocate bytes tag => exact h.allocate bytes tag
  | free b tagToFree => exact h.free hadm tagToFree
  | reclaim => exact h.reclaim
  | advance pc => exact h.advance hadm
  | poke a x => exact h.poke hadm
  | pagesAlloc bytes => exact h.pagesAlloc hadm
  | pagesFree run => exact h.pagesFree hadm
  | other mem => exact h.other hadm

theorem reachable (h : Reachable Boot Step s) : Sound s := by
  refine Reachable.invariant ?_ ?_ h
  · exact fun _ hb => boot hb
  · exact fun _ _ _ hs hst => step hs hst

end Sound

/-! ## What holds in every run -/

/-- The blocks that callers have. -/
def Holder.block? : Holder → Option Block
  | .live b => some b
  | _ => none

def System.live (s : System) : List Block := s.holders.filterMap Holder.block?

/-- No call is in progress. -/
def System.Quiet (s : System) : Prop := ∀ pc, .call pc ∉ s.holders

/-- The bytes of a free block of a class, with its header. -/
def freeSpan (cls e : Nat) : Extent := ⟨e - headerSize, classSize cls⟩

section Results

variable {s : System} {k : Core} {lists : Nat → List Nat} {held : List Nat} {owned : List Extent}
  {a b : Block}

theorem mem_live : b ∈ s.live ↔ .live b ∈ s.holders := by
  unfold System.live
  rw [List.mem_filterMap]
  constructor
  · rintro ⟨x, hx, hb⟩
    cases x with
    | live c =>
      obtain rfl := Option.some.inj hb
      exact hx
    | call | foreign => exact absurd hb nofun
  · exact fun hb => ⟨_, hb, rfl⟩

/-- A carved block and whole pages have no byte in common. -/
theorem Arena.slot_apart_run (h : Arena k lists held owned) {e : Nat} (he : k.IsSlot e)
    (hb : b.Paged) (hrun : b.run ∈ owned) :
    (⟨e - headerSize, k.sizeAt e⟩ : Extent).Apart ⟨b.va, bytesToPages b.bytes * pageSize⟩ := by
  obtain ⟨hbucket, -, hpage, hmem⟩ := he.page
  have hin := slot_in_page hmem
  have hnot : ¬b.run.Has (nxpPageIndex e) := fun hhas => h.owned_uncarved hrun hhas hbucket
  rw [Block.Paged, pageVa_zero] at hb
  unfold Extent.Apart Core.sizeAt
  unfold Block.run Extent.Has at hnot
  dsimp only at hnot ⊢
  unfold headerSize pageSize at *
  omega

theorem slot_spans_apart {e e' : Nat} (he : k.IsSlot e) (he' : k.IsSlot e') (hne : e ≠ e') :
    (⟨e - headerSize, k.sizeAt e⟩ : Extent).Apart ⟨e' - headerSize, k.sizeAt e'⟩ := by
  have hapart := he.apart he' hne
  have hge := he.ge
  have hge' := he'.ge
  unfold Extent.Apart headerSize
  dsimp only
  omega

/-- What two different holders have is apart. -/
theorem Arena.blocks_apart (h : Arena k lists (a.blocks ++ (b.blocks ++ held))
      (a.runs ++ (b.runs ++ owned))) (ha : a.Ok k) (hb : b.Ok k) :
    (a.span k).Apart (b.span k) := by
  unfold Block.span
  unfold Block.Ok at ha hb
  unfold Block.blocks Block.runs at h
  by_cases habig : a.IsBig <;> by_cases hbbig : b.IsBig
  all_goals simp only [habig, hbbig, if_true, if_false] at h ha hb ⊢
  · have hruns : a.run.Apart b.run := by
      refine h.window.tiles.apart_of_ne (h.owned_live List.mem_cons_self)
        (h.owned_live (List.mem_cons_of_mem _ List.mem_cons_self)) ?_
      intro heq
      have hcount := h.runs a.run
      have honce := List.nodup_iff_count_le_one.1 h.window.tiles.nodup a.run
      rw [← heq] at hcount
      simp only [List.cons_append, List.nil_append, List.count_cons_self] at hcount
      omega
    rw [Block.Paged, pageVa_zero] at ha hb
    unfold Extent.Apart Block.run at hruns
    unfold Extent.Apart
    dsimp only at hruns ⊢
    unfold pageSize at *
    omega
  · exact (h.slot_apart_run (h.held_slot List.mem_cons_self).1 ha List.mem_cons_self).symm
  · exact h.slot_apart_run (h.held_slot List.mem_cons_self).1 hb List.mem_cons_self
  · obtain ⟨hslot, honce, -⟩ := h.held_slot List.mem_cons_self
    have hslot' := (h.held_slot (List.mem_cons_of_mem _ List.mem_cons_self)).1
    refine slot_spans_apart hslot hslot' ?_
    intro heq
    rw [← heq] at honce
    simp only [List.cons_append, List.nil_append, List.count_cons_self] at honce
    omega

theorem Sound.live_apart (h : Sound s) :
    s.live.Pairwise fun a b => (a.span s.core).Apart (b.span s.core) := by
  obtain ⟨lists, harena⟩ := h.arena
  refine List.pairwise_filterMap.2 (List.pairwise_iff_forall_sublist.2 ?_)
  intro x y hsub a hx b hy
  obtain ⟨rest, hperm⟩ := hsub.exists_perm_append
  have hmem : ∀ z ∈ [x, y], z ∈ s.holders := fun z hz => hsub.subset hz
  have hfor : ∀ {z : Holder} {c : Block}, z.block? = some c → z = .live c := by
    intro z c hz
    cases z with
    | live d => exact congrArg _ (Option.some.inj hz)
    | call | foreign => exact absurd hz nofun
  obtain rfl := hfor hx
  obtain rfl := hfor hy
  have hsplit := (harena.held_perm (hperm.flatMap_right Holder.blocks)).owned_perm
    (hperm.flatMap_right Holder.runs)
  exact hsplit.blocks_apart (h.holders (.live a) (hmem _ (by simp)))
    (h.holders (.live b) (hmem _ (by simp)))

/-- A block has room for its request. -/
theorem Block.Ok.fits (h : b.Ok k) : b.bytes ≤ b.room k := by
  unfold Block.Ok at h
  unfold Block.room
  by_cases hbig : b.IsBig
  · rw [if_pos hbig]
    unfold bytesToPages pageSize
    rw [Nat.shiftRight_eq_div_pow, show 0xFFF = 2 ^ 12 - 1 from rfl, Nat.and_two_pow_sub_one_eq_mod]
    split <;> omega
  · rw [if_neg hbig] at h ⊢
    have hfits := h.fits
    unfold Core.sizeAt at hfits
    omega

/-- No block is on two lists, or on one list twice. -/
theorem Arena.lists_nodup (h : Arena k lists held owned) :
    ((List.range nxpClasses).flatMap lists).Nodup := by
  refine List.nodup_flatMap.2 ⟨?_, ?_⟩
  · intro cls hcls
    exact h.list_nodup (List.mem_range.1 hcls)
  · refine List.nodup_range.imp_of_mem ?_
    intro cls cls' hcls hcls' hne e he he'
    exact hne ((h.listed (List.mem_range.1 hcls) he).2.1.symm.trans
      (h.listed (List.mem_range.1 hcls') he').2.1)

/-- A free block has no byte in common with a live one. -/
theorem Sound.listed_apart (h : Sound s)
    (harena : Arena s.core lists (s.holders.flatMap Holder.blocks) (s.holders.flatMap Holder.runs))
    {cls e : Nat} (hcls : cls < nxpClasses) (he : e ∈ lists cls) (hb : .live b ∈ s.holders) :
    e ≠ b.va ∧ (freeSpan cls e).Apart (b.span s.core) := by
  obtain ⟨hslot, rfl, -, hnot⟩ := harena.listed hcls he
  have hok : b.Ok s.core := h.holders _ hb
  unfold Block.Ok at hok
  unfold Block.span
  split_ifs at hok ⊢ with hbig
  · refine ⟨?_, harena.slot_apart_run hslot hok (List.mem_flatMap.2 ⟨_, hb, ?_⟩)⟩
    · rintro rfl
      exact hslot.not_big hbig
    · show b.run ∈ b.runs
      rw [Block.runs, if_pos hbig]
      exact List.mem_cons_self
  · have hmem : b.va ∈ s.holders.flatMap Holder.blocks := by
      refine List.mem_flatMap.2 ⟨_, hb, ?_⟩
      show b.va ∈ b.blocks
      rw [Block.blocks, if_neg hbig]
      exact List.mem_cons_self
    have hne : e ≠ b.va := by
      rintro rfl
      exact hnot hmem
    exact ⟨hne, slot_spans_apart hslot (harena.held_slot hmem).1 hne⟩

/-- With no call in progress the blocks in hand are those of callers. -/
theorem countP_blocks {l : List Holder} (hquiet : ∀ pc, .call pc ∉ l) (idx : Nat) :
    ((l.flatMap Holder.blocks).countP fun e => InPage idx e) =
      (l.filterMap Holder.block?).countP fun b => ¬b.IsBig ∧ InPage idx b.va := by
  induction l with
  | nil => rfl
  | cons x l ih =>
    have hrest := ih fun pc hpc => hquiet pc (List.mem_cons_of_mem x hpc)
    rw [List.flatMap_cons, List.countP_append, hrest]
    cases x with
    | call pc => exact absurd List.mem_cons_self (hquiet pc)
    | foreign run =>
      exact Nat.zero_add _
    | live b =>
      rw [List.filterMap_cons_some (show Holder.block? (.live b) = some b from rfl), List.countP_cons, Nat.add_comm]
      refine congrArg _ ?_
      show (b.blocks.countP (InPage idx)) = _
      unfold Block.blocks
      by_cases hbig : b.IsBig
      · simp [hbig]
      · simp [hbig, List.countP_cons]

/-- The blocks of a carved page are in somebody's hand or on the list of its class. -/
theorem Arena.page_full (h : Arena k lists held owned) {idx : Nat} (hb : k.Bucket idx) :
    (held.countP fun e => InPage idx e) +
        ((lists (k.pageClass idx)).countP fun e => InPage idx e) =
      pageSize / classSize (k.pageClass idx) := by
  have hslots : ((slots idx (k.pageClass idx)).countP (InPage idx)) =
      pageSize / classSize (k.pageClass idx) := by
    rw [List.countP_eq_length.2 fun e he => by simpa using inPage_of_mem_slots (h.marked hb) he,
      length_slots]
  rw [← hslots, ← List.countP_append]
  refine countP_eq_of_count fun e he => ?_
  have hsplit := h.split hb (of_decide_eq_true he)
  rw [List.count_append]
  omega

/-- In every reachable state live blocks are apart and large enough; the lists are
linked through memory, hold free blocks of carved pages of their class only, and no
block twice; and between calls each carved page records its live blocks and consists
of these and of listed ones. -/
theorem bucket_pool_consistent (h : Reachable Boot Step s) :
    (s.live.Pairwise fun a b => (a.span s.core).Apart (b.span s.core)) ∧
    (∀ b ∈ s.live, b.bytes ≤ b.room s.core) ∧
    ∃ lists : Nat → List Nat,
      (∀ cls < nxpClasses, Linked (next s.core.mem) (s.core.freeLists cls) (lists cls) ∧
        ∀ e ∈ lists cls, (∃ idx, InPage idx e ∧ s.core.Bucket idx ∧ s.core.pageClass idx = cls) ∧
          classField s.core.mem e = cls ∧
          ∀ b ∈ s.live, e ≠ b.va ∧ (freeSpan cls e).Apart (b.span s.core)) ∧
      ((List.range nxpClasses).flatMap lists).Nodup ∧
      (s.Quiet → ∀ idx, s.core.Bucket idx →
        s.core.pageState idx = (s.live.countP fun b => ¬b.IsBig ∧ InPage idx b.va) ∧
        (s.live.countP fun b => ¬b.IsBig ∧ InPage idx b.va) +
            ((lists (s.core.pageClass idx)).countP fun e => InPage idx e) =
          pageSize / classSize (s.core.pageClass idx)) := by
  have hsound := Sound.reachable h
  obtain ⟨lists, harena⟩ := hsound.arena
  refine ⟨hsound.live_apart, ?_, lists, ?_, harena.lists_nodup, ?_⟩
  · intro b hb
    exact Block.Ok.fits (hsound.holders _ (mem_live.1 hb))
  · intro cls hcls
    refine ⟨harena.linked hcls, fun e he => ⟨harena.placed hcls he, harena.header hcls he, ?_⟩⟩
    exact fun b hb => hsound.listed_apart harena hcls he (mem_live.1 hb)
  · intro hquiet idx hb
    have hcount := countP_blocks hquiet idx
    rw [System.live, ← hcount]
    exact ⟨harena.count hb, harena.page_full hb⟩

end Results

/-- A pool over an empty window. -/
def emptyPool : System :=
  ⟨⟨PoolPages.emptyWindow, fun _ => 0, fun _ => 0, fun _ => nxpNotBucket, fun _ => (0, 0),
    fun _ => 0⟩, []⟩

/-- A request for 24 bytes carves the first page. -/
def firstBlock : Block := ⟨0xC1000008, 24⟩

def firstRun : List Act :=
  [.allocate 24 7, .advance (.pop 24 7 0), .advance (.refill 24 7 0 false),
    .advance (.carve 24 7 0 0xC1000000), .advance (.putTag firstBlock 7 0),
    .advance (.putClass firstBlock 0), .advance (.putMagic firstBlock)]

theorem bucket_pool_consistent_firstRun :
    (firstRun.foldl (fun s a => a.apply s) emptyPool).live = [firstBlock] ∧
      firstBlock.bytes ≤ firstBlock.room (firstRun.foldl (fun s a => a.apply s) emptyPool).core := by
  have hboot : Boot emptyPool :=
    ⟨PoolPages.emptyWindow_boot, fun _ => rfl, fun _ => rfl, rfl⟩
  have proceed : ∀ {s : System} (pc : Pc), Reachable Boot Step s → .call pc ∈ s.holders →
      Reachable Boot Step ((Act.advance pc).apply s) :=
    fun pc hs hpc => hs.next (.advance pc) ⟨hpc, rfl⟩
  have h₁ : Reachable Boot Step ((Act.allocate 24 7).apply emptyPool) :=
    .next (.allocate 24 7) (.start hboot) ⟨trivial, rfl⟩
  have h₂ := proceed (.pop 24 7 0) h₁ (by decide +kernel)
  have h₃ := proceed (.refill 24 7 0 false) h₂ (by decide +kernel)
  have h₄ := proceed (.carve 24 7 0 0xC1000000) h₃ (by decide +kernel)
  have h₅ := proceed (.putTag firstBlock 7 0) h₄ (by decide +kernel)
  have h₆ := proceed (.putClass firstBlock 0) h₅ (by decide +kernel)
  have hrun : Reachable Boot Step (firstRun.foldl (fun s a => a.apply s) emptyPool) :=
    proceed (.putMagic firstBlock) h₆ (by decide +kernel)
  have hlive : (firstRun.foldl (fun s a => a.apply s) emptyPool).live = [firstBlock] := by
    decide +kernel
  obtain ⟨-, hfits, -⟩ := bucket_pool_consistent hrun
  exact ⟨hlive, hfits firstBlock (by rw [hlive]; exact List.mem_cons_self)⟩

end Roswell.Ports.BucketPool
